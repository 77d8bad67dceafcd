import SystemProgramming.Xv6.ConsoleTty

/-!
# What is on the screen

Everything that is typed is echoed, and what is erased is rubbed out on the screen. So the screen
shows what the readers have taken, what they can take and the line that is edited; that is how the
user of the console knows what will be read.

## An ideal terminal

The rows of `Library.Terminal` have no end, and a backspace goes back one cell unless the row begins
there. The echo of a key that is kept adds a byte, and the echo of an erasure, backspace, blank,
backspace, takes it away again. A real terminal wraps rows, and shows what processes and Ctrl-P
print in between; that is left out, so the result is about the echo alone.

## Main definitions

* `takenIn`, `echoIn` — the bytes that have been taken, and the echo
* `screen` — the terminal that has got the echo
* `Shown` — what the buffer is, in terms of these

## Main results

* `screen_of_run` — the screen shows what has been read and what will be read
-/

namespace SystemProgramming

namespace Xv6

namespace Console

variable {ι : Type*} {s s' : State ι} {a : Act ι} {es es' : List (Event ι)} {t : Tty}
  {term : Terminal} {text : List UInt8}

/-- The bytes that have been taken, in this order. -/
def takenIn (es : List (Event ι)) : List UInt8 :=
  es.filterMap fun
    | .taken _ b _ => some b
    | _ => none

def echoIn (es : List (Event ι)) : List UInt8 :=
  es.flatMap fun
    | .echo bs => bs
    | _ => []

/-- The terminal, after the echo. -/
def screen (es : List (Event ι)) : Terminal := Terminal.clear.print (echoIn es)

@[simp] theorem takenIn_append (es es' : List (Event ι)) :
    takenIn (es ++ es') = takenIn es ++ takenIn es' := List.filterMap_append

theorem screen_append (es es' : List (Event ι)) :
    screen (es ++ es') = (screen es).print (echoIn es') := by
  rw [screen, echoIn, List.flatMap_append, Terminal.print_append]
  rfl

theorem print_key {c : UInt8} (hc : c ≠ Terminal.backspace)
    (h : term.before = text ++ (t.ready ++ t.editing)) (hclean : term.Clean) :
    (term.print [c]).before = text ++ (t.ready ++ (t.editing ++ [c])) ∧
      (term.print [c]).Clean := by
  refine ⟨?_, hclean.put hc⟩
  show (term.put c).before = _
  rw [Terminal.before_put hc, h, List.append_assoc, List.append_assoc]

/-- The echo of a key does to the screen what the key does to the text. -/
theorem print_intr (hvalid : t.Valid) (h : term.before = text ++ (t.ready ++ t.editing))
    (hclean : term.Clean) (c : UInt8) :
    (term.print (t.intr c).2.1).before = text ++ ((t.intr c).1.ready ++ (t.intr c).1.editing) ∧
      (term.print (t.intr c).2.1).Clean := by
  rw [Tty.intr]
  by_cases hp : c = ctrlP
  · rw [if_pos hp]
    exact ⟨h, hclean⟩
  rw [if_neg hp]
  by_cases hu : c = ctrlU
  · rw [if_pos hu]
    rw [← List.append_assoc] at h
    obtain ⟨hbefore, hclean'⟩ := Terminal.print_rubOuts h hvalid.newline hclean
    refine ⟨?_, hclean'⟩
    rw [List.append_nil]
    exact hbefore
  rw [if_neg hu]
  by_cases hh : c = ctrlH ∨ c = delete
  · rw [if_pos hh]
    obtain ⟨ready, editing⟩ := t
    rcases List.eq_nil_or_concat' editing with rfl | ⟨line, last, rfl⟩
    · exact ⟨h, hclean⟩
    · have hne : line ++ [last] ≠ [] := List.append_ne_nil_of_right_ne_nil _ (List.cons_ne_nil _ _)
      have hlast : last ≠ Terminal.newline := by
        rintro rfl
        exact hvalid.newline (List.mem_append_right _ (List.mem_singleton_self _))
      rw [if_neg hne, List.dropLast_concat]
      rw [← List.append_assoc, ← List.append_assoc] at h
      have hprint : term.print (consputc backspace) = _ := Terminal.print_rubOut h hlast
      rw [hprint]
      exact ⟨List.append_assoc _ _ _, hclean.rubOut⟩
  rw [if_neg hh]
  by_cases hroom : c ≠ 0 ∧ t.ready.length + t.editing.length < bufSize
  · rw [if_pos hroom]
    have hkey : (if c = carriageReturn then newline else c) ≠ Terminal.backspace := by
      split
      · decide
      · exact fun heq => hh (Or.inl heq)
    revert hkey
    generalize (if c = carriageReturn then newline else c) = key
    intro hkey
    obtain ⟨hbefore, hclean'⟩ := print_key hkey h hclean
    by_cases hcommit : key = newline ∨ key = ctrlD ∨
        t.ready.length + (t.editing.length + 1) = bufSize
    · simp only [if_pos hcommit]
      refine ⟨?_, hclean'⟩
      rw [List.append_nil]
      exact hbefore
    · simp only [if_neg hcommit]
      exact ⟨hbefore, hclean'⟩
  · rw [if_neg hroom]
    exact ⟨h, hclean⟩

/-- The buffer holds what is on the screen and has not been taken. -/
def Shown (es : List (Event ι)) (s : Cons) : Prop :=
  ∃ t : Tty, Holds s (takenIn es).length t ∧
    (screen es).before = takenIn es ++ (t.ready ++ t.editing) ∧ (screen es).Clean

/-- Nothing is taken, and there is no echo. -/
theorem Shown.same {s s' : Cons} (h : Shown es s) (hs : s' = s) (htaken : takenIn es' = [])
    (hecho : echoIn es' = []) : Shown (es ++ es') s' := by
  obtain ⟨t, hholds, hbefore, hclean⟩ := h
  rw [Shown, takenIn_append, screen_append, htaken, hecho, List.append_nil, hs]
  exact ⟨t, hholds, hbefore, hclean⟩

theorem Shown.skip {s : Cons} (h : Shown es s) (hsome : s.r ≠ s.w) (htaken : takenIn es' = [s.next])
    (hecho : echoIn es' = []) : Shown (es ++ es') s.skip := by
  obtain ⟨⟨ready, editing⟩, hholds, hbefore, hclean⟩ := h
  obtain ⟨b, ready, rfl⟩ := List.exists_cons_of_ne_nil (mt hholds.r_eq_w_iff.mpr hsome)
  obtain ⟨hb, hskip⟩ := hholds.skip
  rw [Shown, takenIn_append, screen_append, htaken, hecho, hb, List.length_append,
    List.length_singleton]
  refine ⟨⟨ready, editing⟩, hskip, ?_, hclean⟩
  show (screen es).before = _
  rw [hbefore, List.append_assoc]
  rfl

section Run

variable [DecidableEq ι]

theorem shown_step (hI : Shown es s.cons) (h : Move s a s' es') : Shown (es ++ es') s'.cons := by
  cases h with
  | @intr c hlock =>
    obtain ⟨t, hholds, hbefore, hclean⟩ := hI
    obtain ⟨hholds', hresult⟩ := hholds.intr c
    obtain ⟨hbefore', hclean'⟩ := print_intr hholds.valid hbefore hclean c
    rw [Shown, takenIn_append, screen_append, hresult]
    show ∃ t, Holds _ (takenIn es ++ []).length t ∧
      ((screen es).print ((Tty.intr _ c).2.1 ++ [])).before = (takenIn es ++ []) ++ _ ∧
      ((screen es).print ((Tty.intr _ c).2.1 ++ [])).Clean
    rw [List.append_nil, List.append_nil]
    exact ⟨_, hholds', hbefore', hclean'⟩
  | putBack hlock hact hn hsome hc hgot =>
    obtain ⟨t, hholds, -⟩ := id hI
    exact hI.same hholds.unskip_skip rfl rfl
  | eof hlock hact hn hsome hc => exact hI.skip hsome (by rw [hc]; rfl) rfl
  | line hlock hact hn hsome hc => exact hI.skip hsome (by rw [hc]; rfl) rfl
  | copy hlock hact hn hsome hc hc' => exact hI.skip hsome rfl rfl
  | noCopy hlock hact hn hsome hc => exact hI.skip hsome rfl rfl
  | _ => exact hI.same rfl rfl rfl

theorem shown_init : Shown ([] : List (Event ι)) (machine ι).init.cons :=
  ⟨⟨[], []⟩, ⟨rfl, rfl, rfl, rfl, Nat.zero_le _, List.not_mem_nil, List.not_mem_nil, fun _ => rfl⟩,
    rfl, nofun⟩

theorem shown_of_run {as : List (Act ι)} (h : (machine ι).run as = some (s, es)) :
    Shown es s.cons :=
  Machine.run_invariant (M := machine ι) (I := fun es s => Shown es s.cons) shown_init
    (fun _ _ _ _ _ hI hstep => shown_step hI (move_of_step hstep)) h

/-- **What you see is what is read.** Whatever is typed, also when keys are lost because the buffer
is full, and however the processes read in between: the screen shows the bytes that have been taken,
then the bytes that can be read, then the line that is edited, and blanks behind it. -/
theorem screen_of_run {as : List (Act ι)} (h : (machine ι).run as = some (s, es)) :
    (screen es).before = takenIn es ++ (s.cons.ready ++ s.cons.editing) ∧ (screen es).Clean ∧
      s.cons.ready.length + s.cons.editing.length ≤ bufSize := by
  obtain ⟨t, hholds, hbefore, hclean⟩ := shown_of_run h
  rw [hholds.ready_eq, hholds.editing_eq]
  exact ⟨hbefore, hclean, hholds.valid.room⟩

/-- A line is typed and corrected, and its first byte is read; then a line is given up, and a key of
the next one is there. -/
def typing : List (Act Unit) :=
  [.intr 97, .intr 98, .intr 127, .intr 99, .intr 13, .read () 1, .proceed () true,
    .proceed () true, .intr 100, .intr 101, .intr 21, .intr 102]

theorem screen_of_run_typing : ∃ s : State Unit, ∃ es,
    (machine Unit).run typing = some (s, es) ∧ (screen es).before = [97, 99, 10, 102] ∧
      takenIn es = [97] ∧
      (screen es).before = takenIn es ++ (s.cons.ready ++ s.cons.editing) := by
  have hrun : (machine Unit).run typing = some (_, _) := rfl
  exact ⟨_, _, hrun, by decide, by decide, (screen_of_run hrun).1⟩

end Run

end Console

end Xv6

end SystemProgramming
