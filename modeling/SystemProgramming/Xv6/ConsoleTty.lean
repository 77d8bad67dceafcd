import SystemProgramming.Xv6.Console

/-!
# The line discipline

`Tty` says what the buffer of the console is for: there is the text that can be read and the line
that is edited, and no index.

## Why two lists

`cons` has one array and three indices, which run on for ever and are taken modulo the size. The
bytes between `r` and `w` can be read, those between `w` and `e` are the line that is edited. A
reader moves `r`, a key moves `e`, and the end of a line moves `w` up to `e`. Seen as two lists,
these are to take the head of the first, to change the end of the second, and to append the second
to the first. `Holds` connects the two pictures by the count of the bytes that have been read,
which does not wrap; the tests of the code compare the indices as unsigned numbers, and are turned
into tests of lengths by the lemmas of `FreeRunning`.

## Main definitions

* `Tty`, `Tty.intr` — the two lists, and what a key does to them
* `Holds` — the buffer is an implementation of them

## Main results

* `Holds.intr` — `consoleintr` does to the buffer what `Tty.intr` does to the lists
* `Holds.skip`, `Holds.unskip_skip` — so do the readers
-/

namespace SystemProgramming

namespace Xv6

namespace Console

open FreeRunning

/-- The text that can be read, and the line that is edited. -/
structure Tty where
  ready : List UInt8
  editing : List UInt8

/-- There is room for all of it. The line has not ended, and it has been given to the readers when
the last byte has been used. -/
structure Tty.Valid (t : Tty) : Prop where
  room : t.ready.length + t.editing.length ≤ bufSize
  newline : newline ∉ t.editing
  ctrlD : ctrlD ∉ t.editing
  full : t.ready.length + t.editing.length = bufSize → t.editing = []

/-- A key: the text, the echo, and whether there is more to read. -/
def Tty.intr (t : Tty) (c : UInt8) : Tty × List UInt8 × Bool :=
  if c = ctrlP then (t, [], false)
  else if c = ctrlU then
    ({ t with editing := [] },
      (List.replicate t.editing.length (consputc backspace)).flatten, false)
  else if c = ctrlH ∨ c = delete then
    ({ t with editing := t.editing.dropLast },
      if t.editing = [] then [] else consputc backspace, false)
  else if c ≠ 0 ∧ t.ready.length + t.editing.length < bufSize then
    let c := if c = carriageReturn then Console.newline else c
    if c = Console.newline ∨ c = Console.ctrlD ∨ t.ready.length + (t.editing.length + 1) = bufSize
    then (⟨t.ready ++ (t.editing ++ [c]), []⟩, [c], true)
    else ({ t with editing := t.editing ++ [c] }, [c], false)
  else (t, [], false)

/-- The buffer holds the text, after `n` bytes have been read. -/
structure Holds (s : Cons) (n : ℕ) (t : Tty) : Prop where
  r_eq : s.r = n % uint
  w_eq : s.w = (n + t.ready.length) % uint
  e_eq : s.e = (n + t.ready.length + t.editing.length) % uint
  text : window s.buf bufSize n (n + t.ready.length + t.editing.length) = t.ready ++ t.editing
  valid : t.Valid

section Holds

variable {s : Cons} {n : ℕ} {t : Tty}

theorem Holds.room_lt (h : Holds s n t) : t.ready.length + t.editing.length < uint :=
  h.valid.room.trans_lt (by decide)

theorem Holds.minus_r (h : Holds s n t) :
    Cons.minus s.e s.r = t.ready.length + t.editing.length := by
  have hlt := h.room_lt
  rw [Cons.minus, h.e_eq, h.r_eq, mod_sub_mod (by omega) (by omega)]
  omega

theorem Holds.minus_w (h : Holds s n t) : Cons.minus s.e s.w = t.editing.length := by
  have hlt := h.room_lt
  rw [Cons.minus, h.e_eq, h.w_eq, mod_sub_mod (by omega) (by omega)]
  omega

theorem Holds.e_eq_w_iff (h : Holds s n t) : s.e = s.w ↔ t.editing = [] := by
  have hlt := h.room_lt
  rw [eq_comm, h.e_eq, h.w_eq, mod_eq_mod_iff (by omega) (by omega), ← List.length_eq_zero_iff]
  omega

theorem Holds.r_eq_w_iff (h : Holds s n t) : s.r = s.w ↔ t.ready = [] := by
  have hlt := h.room_lt
  rw [h.r_eq, h.w_eq, mod_eq_mod_iff (by omega) (by omega), ← List.length_eq_zero_iff]
  omega

/-- The text is the two parts of the buffer. -/
theorem Holds.window_eq (h : Holds s n t) :
    window s.buf bufSize n (n + t.ready.length) = t.ready ∧
      window s.buf bufSize (n + t.ready.length) (n + t.ready.length + t.editing.length) =
        t.editing := by
  have htext := h.text
  rw [window_append (Nat.le_add_right n t.ready.length) (Nat.le_add_right _ _)] at htext
  exact List.append_inj htext (by rw [length_window, Nat.add_sub_cancel_left])

theorem Holds.ready_eq (h : Holds s n t) : s.ready = t.ready := by
  have hlt := h.room_lt
  have hminus : Cons.minus s.w s.r = t.ready.length := by
    rw [Cons.minus, h.w_eq, h.r_eq, mod_sub_mod (by omega) (by omega), Nat.add_sub_cancel_left]
  rw [Cons.ready, hminus, h.r_eq, window_mod (by decide), h.window_eq.1]

theorem Holds.editing_eq (h : Holds s n t) : s.editing = t.editing := by
  rw [Cons.editing, h.minus_w, h.w_eq, window_mod (by decide), h.window_eq.2]

/-! ### The keys -/

/-- The index `e` one back, and what it splits the text into. -/
theorem Holds.pred {ready line : List UInt8} {c : UInt8} (h : Holds s n ⟨ready, line ++ [c]⟩) :
    Cons.minus s.e 1 = (n + ready.length + line.length) % uint ∧
      window s.buf bufSize n (n + ready.length + line.length) = ready ++ line ∧
      s.buf ((n + ready.length + line.length) % bufSize) = c := by
  have htext : window s.buf bufSize n (n + ready.length + (line ++ [c]).length) =
      ready ++ (line ++ [c]) := h.text
  have he : s.e = (n + ready.length + (line ++ [c]).length) % uint := h.e_eq
  rw [List.length_append, List.length_singleton, ← Nat.add_assoc] at htext he
  rw [window_succ (by omega), ← List.append_assoc] at htext
  obtain ⟨hinit, hlast⟩ := List.append_inj' htext rfl
  refine ⟨?_, hinit, List.singleton_inj.mp hlast⟩
  rw [Cons.minus, he, mod_pred (Nat.succ_pos _) (by decide)]
  rfl

theorem Holds.last {ready line : List UInt8} {c : UInt8} (h : Holds s n ⟨ready, line ++ [c]⟩) :
    s.last = c := by
  obtain ⟨he, -, hc⟩ := h.pred
  rw [Cons.last, he, Nat.mod_mod_of_dvd _ (by decide), hc]

/-- The last byte of the line is given up. -/
theorem Holds.back {ready line : List UInt8} {c : UInt8} (h : Holds s n ⟨ready, line ++ [c]⟩) :
    Holds { s with e := Cons.minus s.e 1 } n ⟨ready, line⟩ := by
  obtain ⟨he, htext, -⟩ := h.pred
  have hroom : ready.length + (line ++ [c]).length ≤ bufSize := h.valid.room
  rw [List.length_append, List.length_singleton] at hroom
  refine ⟨h.r_eq, h.w_eq, he, htext, ?_⟩
  exact
    { room := Nat.le_of_succ_le hroom
      newline := fun hmem => h.valid.newline (List.mem_append_left _ hmem)
      ctrlD := fun hmem => h.valid.ctrlD (List.mem_append_left _ hmem)
      full := fun hfull => absurd hroom (Nat.not_le.mpr (Nat.lt_succ_of_le hfull.ge)) }

/-- Control-u takes the whole line away: there is no newline in it that would stop the loop. -/
theorem Holds.killLine {ready line : List UInt8} (h : Holds s n ⟨ready, line⟩) :
    Holds (Cons.killLine line.length s).1 n ⟨ready, []⟩ ∧
      (Cons.killLine line.length s).2 =
        (List.replicate line.length (consputc backspace)).flatten := by
  induction line using List.reverseRecOn generalizing s with
  | nil => exact ⟨h, rfl⟩
  | append_singleton line c ih =>
    have hne : s.e ≠ s.w := fun heq => by
      simpa using h.e_eq_w_iff.mp heq
    have hlast : s.last ≠ newline := by
      rw [h.last]
      rintro rfl
      exact h.valid.newline (List.mem_append_right _ (List.mem_singleton_self _))
    obtain ⟨hholds, hecho⟩ := ih h.back
    rw [List.length_append, List.length_singleton, Cons.killLine, if_pos ⟨hne, hlast⟩]
    refine ⟨hholds, ?_⟩
    rw [List.replicate_succ, List.flatten_cons, ← hecho]

theorem Holds.push (h : Holds s n t) (hroom : t.ready.length + t.editing.length < bufSize)
    (c : UInt8) :
    (s.push c).e = (n + t.ready.length + (t.editing ++ [c]).length) % uint ∧
      window (s.push c).buf bufSize n (n + t.ready.length + (t.editing ++ [c]).length) =
        t.ready ++ (t.editing ++ [c]) := by
  have hslot : s.e % bufSize = (n + t.ready.length + t.editing.length) % bufSize := by
    rw [h.e_eq, Nat.mod_mod_of_dvd _ (by decide)]
  rw [List.length_append, List.length_singleton, ← Nat.add_assoc]
  refine ⟨?_, ?_⟩
  · show (s.e + 1) % uint = _
    rw [h.e_eq, Nat.mod_add_mod]
  · show window (Function.update s.buf (s.e % bufSize) c) bufSize n _ = _
    rw [hslot, window_push (by omega) (by omega), h.text, List.append_assoc]

theorem consputc_toNat (c : UInt8) : consputc c.toNat = [c] := by
  have hc : c.toNat ≠ backspace := (c.toNat_lt.trans_le (by decide)).ne
  rw [consputc, if_neg hc, UInt8.ofNat_toNat]

/-- The default case of `consoleintr`, for the byte that is stored. -/
theorem Holds.store (h : Holds s n t) (hroom : t.ready.length + t.editing.length < bufSize)
    (c : UInt8) :
    (if c = newline ∨ c = ctrlD ∨ Cons.minus (s.push c).e (s.push c).r = bufSize then
        Holds { s.push c with w := (s.push c).e } n ⟨t.ready ++ (t.editing ++ [c]), []⟩
      else Holds (s.push c) n ⟨t.ready, t.editing ++ [c]⟩) ∧
    (Cons.minus (s.push c).e (s.push c).r = bufSize ↔
      t.ready.length + (t.editing.length + 1) = bufSize) := by
  obtain ⟨he, htext⟩ := h.push hroom c
  have hlength : (t.editing ++ [c]).length = t.editing.length + 1 := List.length_append
  have hminus : Cons.minus (s.push c).e (s.push c).r =
      t.ready.length + (t.editing.length + 1) := by
    have hlt : bufSize < uint := by decide
    have hr : (s.push c).r = n % uint := h.r_eq
    rw [Cons.minus, he, hr, mod_sub_mod (by omega) (by omega), hlength]
    omega
  refine ⟨?_, by rw [hminus]⟩
  split
  · refine ⟨h.r_eq, ?_, ?_, ?_, ?_⟩
    · rw [List.length_append, ← Nat.add_assoc]
      exact he
    · rw [List.length_nil, Nat.add_zero, List.length_append, ← Nat.add_assoc]
      exact he
    · rw [List.length_nil, Nat.add_zero, List.length_append, ← Nat.add_assoc, List.append_nil]
      exact htext
    · refine ⟨?_, List.not_mem_nil, List.not_mem_nil, fun _ => rfl⟩
      rw [List.length_append, hlength]
      exact hroom
  · rename_i hcommit
    rw [hminus, not_or, not_or] at hcommit
    obtain ⟨hnewline, heof, hfull⟩ := hcommit
    refine ⟨h.r_eq, h.w_eq, he, htext, ?_, ?_, ?_, fun hlast => ?_⟩
    · rw [hlength]
      exact hroom
    · rw [List.mem_append, List.mem_singleton, not_or]
      exact ⟨h.valid.newline, fun heq => hnewline heq.symm⟩
    · rw [List.mem_append, List.mem_singleton, not_or]
      exact ⟨h.valid.ctrlD, fun heq => heof heq.symm⟩
    · rw [hlength] at hlast
      exact absurd hlast hfull

/-- **The line discipline.** The interrupt handler with its three indices that wrap around does to
the buffer what it would do to two lists, with the same echo and the same calls of `wakeup`. -/
theorem Holds.intr (h : Holds s n t) (c : UInt8) :
    Holds (consoleintr s c).1 n (t.intr c).1 ∧ (consoleintr s c).2 = (t.intr c).2 := by
  obtain ⟨ready, editing⟩ := t
  rw [consoleintr, Tty.intr]
  by_cases hp : c = ctrlP
  · rw [if_pos hp, if_pos hp]
    exact ⟨h, rfl⟩
  rw [if_neg hp, if_neg hp]
  by_cases hu : c = ctrlU
  · rw [if_pos hu, if_pos hu, h.minus_w]
    obtain ⟨hholds, hecho⟩ := h.killLine
    exact ⟨hholds, congrArg (fun bs => (bs, false)) hecho⟩
  rw [if_neg hu, if_neg hu]
  by_cases hh : c = ctrlH ∨ c = delete
  · rw [if_pos hh, if_pos hh]
    rcases List.eq_nil_or_concat' editing with rfl | ⟨line, last, rfl⟩
    · rw [if_neg (not_not_intro (h.e_eq_w_iff.mpr rfl))]
      exact ⟨h, rfl⟩
    · have hne : line ++ [last] ≠ [] := List.append_ne_nil_of_right_ne_nil _ (List.cons_ne_nil _ _)
      rw [if_pos (mt h.e_eq_w_iff.mp hne), List.dropLast_concat, if_neg hne]
      exact ⟨h.back, rfl⟩
  rw [if_neg hh, if_neg hh, h.minus_r]
  by_cases hroom : c ≠ 0 ∧ ready.length + editing.length < bufSize
  · rw [if_pos hroom, if_pos hroom]
    generalize (if c = carriageReturn then newline else c) = key
    obtain ⟨hstore, hfull⟩ := h.store hroom.2 key
    simp only [hfull, consputc_toNat] at hstore ⊢
    split at hstore
    · rename_i hcommit
      rw [if_pos hcommit, if_pos hcommit]
      exact ⟨hstore, rfl⟩
    · rename_i hcommit
      rw [if_neg hcommit, if_neg hcommit]
      exact ⟨hstore, rfl⟩
  · rw [if_neg hroom, if_neg hroom]
    exact ⟨h, rfl⟩

/-! ### The readers -/

theorem Holds.skip {b : UInt8} {ready editing : List UInt8} (h : Holds s n ⟨b :: ready, editing⟩) :
    s.next = b ∧ Holds s.skip (n + 1) ⟨ready, editing⟩ := by
  have htext : window s.buf bufSize n (n + (b :: ready).length + editing.length) =
      (b :: ready) ++ editing := h.text
  have hw : s.w = (n + (b :: ready).length) % uint := h.w_eq
  have he : s.e = (n + (b :: ready).length + editing.length) % uint := h.e_eq
  have hroom : (b :: ready).length + editing.length ≤ bufSize := h.valid.room
  have hlength : n + (b :: ready).length = n + 1 + ready.length := by
    rw [List.length_cons]
    omega
  rw [hlength] at htext hw he
  rw [window_cons (by omega), List.cons_append, List.cons.injEq] at htext
  rw [List.length_cons] at hroom
  refine ⟨?_, ?_, hw, he, htext.2, ?_⟩
  · rw [Cons.next, h.r_eq, Nat.mod_mod_of_dvd _ (by decide), htext.1]
  · show (s.r + 1) % uint = _
    rw [h.r_eq, Nat.mod_add_mod]
  · exact
      { room := Nat.le_trans (Nat.add_le_add_right (Nat.le_succ _) _) hroom
        newline := h.valid.newline
        ctrlD := h.valid.ctrlD
        full := fun hfull => by
          change ready.length + editing.length = bufSize at hfull
          omega }

theorem Holds.unskip_skip (h : Holds s n t) : s.skip.unskip = s := by
  have hr : s.skip.unskip.r = s.r := by
    have hone : 1 + (uint - 1) = uint := by decide
    show ((s.r + 1) % uint + (uint - 1)) % uint = s.r
    rw [h.r_eq, Nat.mod_add_mod, Nat.add_assoc, hone, Nat.add_mod_right, Nat.mod_mod]
  show { s with r := s.skip.unskip.r } = s
  rw [hr]

end Holds

end Console

end Xv6

end SystemProgramming
