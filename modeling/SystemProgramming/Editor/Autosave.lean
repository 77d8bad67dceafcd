import Mathlib.Logic.Function.Basic
import SystemProgramming.Library.CString
import SystemProgramming.Library.Machine

/-!
# The editor

`lab5-lyjae/editor.c`: the loop of `main`, which keeps what `fgets` returns in `lines`, and the
handlers of `SIGALRM` and `SIGINT`, which save the lines and may run between any two statements.

## What is assumed

A save is not interrupted, and `strdup` and the writing of the file succeed; `fopen` may fail.
`fgets` returns a line with its newline, or a piece of `MAX_LINE_LEN - 1` bytes of a longer one, or
what is left at the end of the input. The handlers call functions that are not safe in a handler; it
is taken that they work, as a run in which they do not has no meaning. `alarm(5)` may go off at any
time after it has been set, and Ctrl-C may be typed at any time.

`strdup` copies up to the first NUL, so a line with a NUL is kept and saved up to there.

## Main definitions

* `State`, `machine` — the program with an input
* `saveLines` — the loop of `save_lines`
* `Holds` — what is true at each line

## Main results

* `saved_kept` — what is saved is the part of the input that has been kept
-/

namespace SystemProgramming

namespace Editor

def maxLines : ℕ := 100

def maxLineLen : ℕ := 256

/-- The statement that comes next. -/
inductive Line
  /-- `fgets(buffer, MAX_LINE_LEN, stdin)` -/
  | fgets
  /-- `if (line_count < MAX_LINES)` -/
  | capacity
  /-- `lines[line_count] = strdup(buffer);` -/
  | store
  /-- `line_count++;` -/
  | count
  /-- `printf("Reached maximum number of lines.\n");` -/
  | full
  /-- `exit(0)` -/
  | exited
  /-- A null pointer has been passed to `fputs`. -/
  | undefined
  deriving DecidableEq, Repr

/-- The variables, and what `fgets` has still to return: the pieces of the input. -/
structure State where
  line : Line
  stdin : List (List UInt8)
  buffer : List UInt8
  lines : ℕ → Option (List UInt8)
  lineCount : ℕ

inductive Act
  /-- The next statement of `main` is executed. -/
  | next
  /-- `handle_autosave` runs; `fopen` succeeds or fails. -/
  | sigalrm (opened : Bool)
  /-- `handle_sigint` runs. -/
  | sigint (opened : Bool)
  deriving DecidableEq, Repr

inductive Event
  /-- `fgets` has returned a piece. -/
  | read (piece : List UInt8)
  /-- `save_lines` has written the file, with this `line_count`, when the line was the next one of
  `main`. -/
  | saved (line : Line) (lineCount : ℕ) (text : List UInt8)
  deriving DecidableEq, Repr

/-- What the loop of `save_lines` writes: `fputs(lines[i], fp)` for each `i < line_count`. -/
def saveLines (lines : ℕ → Option (List UInt8)) : ℕ → Option (List UInt8)
  | 0 => some []
  | i + 1 => (saveLines lines i).bind fun text => (lines i).map (text ++ ·)

/-- A statement of `main`. -/
def execute (s : State) : Option (State × List Event) :=
  match s.line with
  | .fgets =>
    match s.stdin with
    | [] => some (s, [])
    | piece :: rest =>
      some ({ s with line := .capacity, stdin := rest, buffer := piece }, [.read piece])
  | .capacity =>
    if s.lineCount < maxLines then some ({ s with line := .store }, [])
    else some ({ s with line := .full }, [])
  | .store =>
    some ({ s with
      line := .count
      lines := Function.update s.lines s.lineCount (some (cstring s.buffer)) }, [])
  | .count => some ({ s with line := .fgets, lineCount := s.lineCount + 1 }, [])
  | .full => some ({ s with line := .fgets }, [])
  | _ => none

/-- A handler saves, and `main` goes on at `after`. -/
def save (s : State) (opened : Bool) (after : Line) : State × List Event :=
  if opened then
    match saveLines s.lines s.lineCount with
    | some text => ({ s with line := after }, [.saved s.line s.lineCount text])
    | none => ({ s with line := .undefined }, [])
  else ({ s with line := after }, [])

/-- The program still runs. -/
def Line.running : Line → Bool
  | .exited | .undefined => false
  | _ => true

def step (s : State) : Act → Option (State × List Event)
  | .next => execute s
  | .sigalrm opened => if s.line.running then some (save s opened s.line) else none
  | .sigint opened => if s.line.running then some (save s opened .exited) else none

/-- The program, with this input. -/
def machine (input : List UInt8) : Machine State Act Event where
  init := ⟨.fgets, fgetsFrom maxLineLen [] input, [], fun _ => none, 0⟩
  step := step

/-- The pieces that `fgets` has returned. -/
def readPieces (es : List Event) : List (List UInt8) :=
  es.filterMap fun
    | .read piece => some piece
    | .saved .. => none

/-! ### What is kept -/

/-- The lines that have been stored are the first pieces, up to `MAX_LINES`. `main` is not through
with the last piece between `fgets` and the end of the round. -/
structure Kept (pieces done : List (List UInt8)) (s : State) : Prop where
  count : s.lineCount = min maxLines done.length
  lines : ∀ i < s.lineCount, s.lines i = pieces[i]?

/-- What is true at each line when these pieces have been read. -/
def Holds (pieces : List (List UInt8)) (s : State) : Prop :=
  match s.line with
  | .fgets => Kept pieces pieces s
  | .capacity => pieces = pieces.dropLast ++ [s.buffer] ∧ Kept pieces pieces.dropLast s
  | .store => pieces = pieces.dropLast ++ [s.buffer] ∧ Kept pieces pieces.dropLast s ∧
      s.lineCount < maxLines
  | .count => pieces = pieces.dropLast ++ [s.buffer] ∧ Kept pieces pieces.dropLast s ∧
      s.lineCount < maxLines ∧ s.lines s.lineCount = some s.buffer
  | .full => pieces = pieces.dropLast ++ [s.buffer] ∧ Kept pieces pieces.dropLast s ∧
      s.lineCount = maxLines
  | .exited => True
  | .undefined => False

theorem saveLines_eq {lines : ℕ → Option (List UInt8)} {pieces : List (List UInt8)} :
    ∀ {n : ℕ}, n ≤ pieces.length → (∀ i < n, lines i = pieces[i]?) →
      saveLines lines n = some (pieces.take n).flatten := by
  intro n
  induction n with
  | zero =>
    intro _ _
    rfl
  | succ n ih =>
    intro hn hlines
    have hpiece : pieces[n]? = some pieces[n] := List.getElem?_eq_getElem hn
    rw [saveLines, ih (by omega) fun i hi => hlines i (by omega), hlines n (Nat.lt_succ_self n),
      hpiece, List.take_add_one, hpiece, Option.toList_some, List.flatten_append,
      List.flatten_singleton]
    rfl

theorem Kept.saveLines {pieces done : List (List UInt8)} {s : State} (h : Kept pieces done s)
    (hdone : done.length ≤ pieces.length) :
    saveLines s.lines s.lineCount = some (pieces.take s.lineCount).flatten := by
  refine saveLines_eq ?_ h.lines
  have hcount := h.count
  omega

/-- The pieces that have been read are kept, but for the one that is being stored. -/
theorem Holds.kept {pieces : List (List UInt8)} {s : State} (h : Holds pieces s)
    (hline : s.line.running = true) :
    Kept pieces pieces s ∧ s.line = .fgets ∨ Kept pieces pieces.dropLast s ∧ s.line ≠ .fgets := by
  obtain ⟨line, stdin, buffer, lines, lineCount⟩ := s
  cases line with
  | fgets => exact Or.inl ⟨h, rfl⟩
  | capacity => exact Or.inr ⟨h.2, by simp⟩
  | store | count | full => exact Or.inr ⟨h.2.1, by simp⟩
  | exited | undefined => exact absurd hline Bool.false_ne_true

/-- The file that `save_lines` has written when these pieces have been read. -/
structure Faithful (input : List UInt8) (pieces : List (List UInt8)) (line : Line) (lineCount : ℕ)
    (text : List UInt8) : Prop where
  kept : text = (pieces.take lineCount).flatten
  isPrefix : text <+: input
  whole : pieces.length ≤ maxLines →
    text = pieces.flatten ∨ line ≠ .fgets ∧ text = pieces.dropLast.flatten

theorem Holds.save {input : List UInt8} {pieces rest : List (List UInt8)} {s : State}
    (h : Holds pieces s) (hline : s.line.running = true)
    (hinput : (pieces ++ rest).flatten = input) :
    ∃ text, Editor.saveLines s.lines s.lineCount = some text ∧
      Faithful input pieces s.line s.lineCount text := by
  have hprefix : (pieces.take s.lineCount).flatten <+: input := by
    rw [← hinput, ← List.take_append_drop s.lineCount pieces, List.append_assoc,
      List.flatten_append]
    simp
  rcases h.kept hline with ⟨hkept, -⟩ | ⟨hkept, hstoring⟩
  · refine ⟨_, hkept.saveLines le_rfl, rfl, hprefix, fun hfew => Or.inl ?_⟩
    have hcount := hkept.count
    rw [List.take_of_length_le (by omega)]
  · have hlength : pieces.dropLast.length = pieces.length - 1 := List.length_dropLast
    refine ⟨_, hkept.saveLines (by omega), rfl, hprefix, fun hfew => Or.inr ⟨hstoring, ?_⟩⟩
    have hcount := hkept.count
    rw [List.dropLast_eq_take, show s.lineCount = pieces.length - 1 by omega]

/-! ### One step -/

@[simp] theorem readPieces_append (es es' : List Event) :
    readPieces (es ++ es') = readPieces es ++ readPieces es' := List.filterMap_append ..

section Step

variable {pieces : List (List UInt8)} {s s' : State} {es : List Event}

theorem Kept.read {piece : List UInt8} (h : Kept pieces pieces s) :
    Kept (pieces ++ [piece]) pieces s := by
  refine ⟨h.count, fun i hi => ?_⟩
  have hcount := h.count
  rw [h.lines i hi, List.getElem?_append_left (by omega)]

theorem Kept.store {done : List (List UInt8)} (h : Kept pieces done s) (text : List UInt8) :
    Kept pieces done { s with
      line := .count
      lines := Function.update s.lines s.lineCount (some text) } := by
  refine ⟨h.count, fun i hi => ?_⟩
  show Function.update _ _ _ _ = _
  rw [Function.update_of_ne (Nat.ne_of_lt hi)]
  exact h.lines i hi

theorem Kept.finish {buffer : List UInt8} (hpieces : pieces = pieces.dropLast ++ [buffer])
    (h : Kept pieces pieces.dropLast s) (hroom : s.lineCount < maxLines)
    (hstored : s.lines s.lineCount = some buffer) :
    Kept pieces pieces { s with line := .fgets, lineCount := s.lineCount + 1 } := by
  have hlength := congrArg List.length hpieces
  rw [List.length_append, List.length_singleton] at hlength
  have hcount := h.count
  have hlast : s.lineCount = pieces.dropLast.length := by omega
  refine ⟨?_, fun i hi => ?_⟩
  · show s.lineCount + 1 = _
    omega
  · have hle : i < s.lineCount + 1 := hi
    rcases Nat.lt_succ_iff_lt_or_eq.mp hle with hlt | rfl
    · exact h.lines i hlt
    · show s.lines s.lineCount = _
      rw [hstored, hpieces, hlast, List.getElem?_concat_length]

theorem Kept.full {buffer : List UInt8} (hpieces : pieces = pieces.dropLast ++ [buffer])
    (h : Kept pieces pieces.dropLast s) (hfull : s.lineCount = maxLines) :
    Kept pieces pieces { s with line := .fgets } := by
  have hlength := congrArg List.length hpieces
  rw [List.length_append, List.length_singleton] at hlength
  have hcount := h.count
  refine ⟨?_, h.lines⟩
  show s.lineCount = _
  omega

/-- One statement of `main`: it reads at most one piece. -/
theorem holds_execute (hclean : ∀ piece ∈ pieces, 0 ∉ piece) (h : Holds pieces s)
    (hstep : execute s = some (s', es)) :
    Holds (pieces ++ readPieces es) s' ∧ readPieces es ++ s'.stdin = s.stdin := by
  obtain ⟨line, stdin, buffer, lines, lineCount⟩ := s
  cases line <;> simp only [execute, Option.some.injEq, Prod.mk.injEq, reduceCtorEq] at hstep
  case fgets =>
    cases stdin with
    | nil =>
      obtain ⟨rfl, rfl⟩ := hstep
      rw [show readPieces [] = [] from rfl, List.append_nil]
      exact ⟨h, rfl⟩
    | cons piece rest =>
      obtain ⟨rfl, rfl⟩ := hstep
      have hkept : Kept (pieces ++ [piece]) pieces ⟨.capacity, rest, piece, lines, lineCount⟩ :=
        ⟨h.count, (Kept.read h).lines⟩
      refine ⟨?_, rfl⟩
      show Holds (pieces ++ [piece]) _
      rw [Holds, List.dropLast_concat]
      exact ⟨rfl, hkept⟩
  case capacity =>
    obtain ⟨hpieces, hkept⟩ := h
    split at hstep
    all_goals
      obtain ⟨rfl, rfl⟩ := hstep
      rename_i hroom
      rw [show readPieces [] = [] from rfl, List.append_nil]
    · exact ⟨⟨hpieces, ⟨hkept.count, hkept.lines⟩, hroom⟩, rfl⟩
    · have hcount : lineCount = _ := hkept.count
      exact ⟨⟨hpieces, ⟨hkept.count, hkept.lines⟩, by show lineCount = _; omega⟩, rfl⟩
  case store =>
    obtain ⟨rfl, rfl⟩ := hstep
    obtain ⟨hpieces, hkept, hroom⟩ := h
    have hbuffer : buffer ∈ pieces := by
      rw [hpieces]
      exact List.mem_append_right _ (List.mem_singleton_self buffer)
    rw [show readPieces [] = [] from rfl, List.append_nil, cstring_eq_self (hclean _ hbuffer)]
    exact ⟨⟨hpieces, hkept.store buffer, hroom, Function.update_self ..⟩, rfl⟩
  case count =>
    obtain ⟨rfl, rfl⟩ := hstep
    obtain ⟨hpieces, hkept, hroom, hstored⟩ := h
    rw [show readPieces [] = [] from rfl, List.append_nil]
    exact ⟨hkept.finish hpieces hroom hstored, rfl⟩
  case full =>
    obtain ⟨rfl, rfl⟩ := hstep
    obtain ⟨hpieces, hkept, hfull⟩ := h
    rw [show readPieces [] = [] from rfl, List.append_nil]
    exact ⟨hkept.full hpieces hfull, rfl⟩

end Step

/-! ### Every run -/

/-- A save, judged by the pieces that have been read before. -/
def SavedFaithfully (input : List UInt8) (es : List Event) : Event → Prop
  | .read _ => True
  | .saved line lineCount text => Faithful input (readPieces es) line lineCount text

section Run

variable {input : List UInt8} {as : List Act} {s : State} {es : List Event}

/-- The pieces that have been read, those that are left, and what has been saved. -/
structure Sound (input : List UInt8) (es : List Event) (s : State) : Prop where
  pieces : readPieces es ++ s.stdin = fgetsFrom maxLineLen [] input
  holds : Holds (readPieces es) s
  saved : Recorded (SavedFaithfully input) es

theorem Sound.clean (h : Sound input es s) (h0 : 0 ∉ input) :
    ∀ piece ∈ readPieces es, 0 ∉ piece := by
  intro piece hpiece hzero
  have hall := congrArg List.flatten h.pieces
  rw [flatten_fgetsFrom, List.nil_append] at hall
  refine h0 (hall ▸ List.mem_flatten.mpr ⟨piece, ?_, hzero⟩)
  exact List.mem_append_left _ hpiece

theorem Sound.execute {s' : State} {es' : List Event} (h : Sound input es s) (h0 : 0 ∉ input)
    (hstep : Editor.execute s = some (s', es')) : Sound input (es ++ es') s' := by
  obtain ⟨hholds, hrest⟩ := holds_execute (h.clean h0) h.holds hstep
  refine ⟨?_, ?_, ?_⟩
  · rw [readPieces_append, List.append_assoc, hrest, h.pieces]
  · rw [readPieces_append]
    exact hholds
  · -- `main` does not save
    obtain ⟨line, stdin, buffer, lines, lineCount⟩ := s
    have hread : es' = [] ∨ ∃ piece, es' = [.read piece] := by
      cases line <;>
        simp only [Editor.execute, Option.some.injEq, Prod.mk.injEq, reduceCtorEq] at hstep
      case fgets => cases stdin <;> obtain ⟨-, rfl⟩ := hstep <;> simp
      case capacity => split at hstep <;> obtain ⟨-, rfl⟩ := hstep <;> simp
      all_goals
        obtain ⟨-, rfl⟩ := hstep
        exact Or.inl rfl
    rcases hread with rfl | ⟨piece, rfl⟩
    · rw [List.append_nil]
      exact h.saved
    · exact h.saved.concat trivial

/-- A handler leaves the variables as they are, and what it saves is right. -/
theorem Sound.save {opened : Bool} {after : Line} (h : Sound input es s)
    (hline : s.line.running = true) (hafter : after = s.line ∨ after = .exited) :
    Sound input (es ++ (Editor.save s opened after).2) (Editor.save s opened after).1 := by
  have hinput : (readPieces es ++ s.stdin).flatten = input := by
    rw [h.pieces, flatten_fgetsFrom, List.nil_append]
  have hholds : Holds (readPieces es) { s with line := after } := by
    rcases hafter with rfl | rfl
    · exact h.holds
    · trivial
  obtain ⟨text, htext, hfaithful⟩ := h.holds.save hline hinput
  rw [Editor.save, htext]
  cases opened with
  | false =>
    rw [if_neg Bool.false_ne_true, List.append_nil]
    exact ⟨h.pieces, hholds, h.saved⟩
  | true =>
    rw [if_pos rfl]
    have hread : readPieces (es ++ [.saved s.line s.lineCount text]) = readPieces es := by
      rw [readPieces_append]
      exact List.append_nil _
    refine ⟨?_, ?_, h.saved.concat hfaithful⟩
    · rw [hread]
      exact h.pieces
    · rw [hread]
      exact hholds

theorem sound_of_run (h0 : 0 ∉ input) (h : (machine input).run as = some (s, es)) :
    Sound input es s := by
  refine Machine.run_invariant ?_ ?_ h
  · exact ⟨rfl, ⟨rfl, nofun⟩, recorded_nil⟩
  · intro es s a s' es' hI hstep
    cases a with
    | next => exact hI.execute h0 hstep
    | sigalrm opened =>
      obtain ⟨hline, heq⟩ := Option.ite_none_right_eq_some.mp hstep
      obtain ⟨rfl, rfl⟩ := Prod.mk.inj (Option.some.inj heq)
      exact hI.save hline (Or.inl rfl)
    | sigint opened =>
      obtain ⟨hline, heq⟩ := Option.ite_none_right_eq_some.mp hstep
      obtain ⟨rfl, rfl⟩ := Prod.mk.inj (Option.some.inj heq)
      exact hI.save hline (Or.inr rfl)

/-- A handler that can open the file writes it, and `main` goes on where it was, or the program
exits. -/
def Saves (s : State) (text : List UInt8) : Prop :=
  step s (.sigalrm true) = some (s, [.saved s.line s.lineCount text]) ∧
    step s (.sigint true) = some ({ s with line := .exited }, [.saved s.line s.lineCount text])

theorem saves_of_saveLines {text : List UInt8} (hline : s.line.running = true)
    (htext : saveLines s.lines s.lineCount = some text) : Saves s text := by
  have hsave : ∀ after, save s true after =
      ({ s with line := after }, [.saved s.line s.lineCount text]) := fun after => by
    rw [save, if_pos rfl, htext]
  constructor
  · rw [step, if_pos hline, hsave]
  · rw [step, if_pos hline, hsave]

/-- **What is saved.** At whatever point between two statements `SIGALRM` or `SIGINT` arrives, its
handler writes the file, which then consists of the first `line_count` pieces that `fgets` has
returned: they begin the input, and while no more than `MAX_LINES` pieces have been read, they lack
at most the one that is being stored. Nothing else is ever written. -/
theorem saved_kept (h0 : 0 ∉ input) (h : (machine input).run as = some (s, es)) :
    s.line ≠ .undefined ∧ Recorded (SavedFaithfully input) es ∧ (s.line ≠ .exited →
      ∃ text, Saves s text ∧ Faithful input (readPieces es) s.line s.lineCount text) := by
  have hsound := sound_of_run h0 h
  have hdefined : s.line ≠ .undefined := by
    intro hline
    have hholds := hsound.holds
    rw [Holds, hline] at hholds
    exact hholds
  refine ⟨hdefined, hsound.saved, fun hrunning => ?_⟩
  have hline : s.line.running = true := by
    generalize s.line = line at hdefined hrunning
    cases line <;> first | rfl | contradiction
  have hinput : (readPieces es ++ s.stdin).flatten = input := by
    rw [hsound.pieces, flatten_fgetsFrom, List.nil_append]
  obtain ⟨text, htext, hfaithful⟩ := hsound.holds.save hline hinput
  exact ⟨text, saves_of_saveLines hline htext, hfaithful⟩

/-- Two lines, and a signal while the second is stored: the first one is in the file. -/
theorem saved_kept_two : ∃ s es, (machine (ascii "ab\ncd\n")).run
    [.next, .next, .next, .next, .next, .next, .next] = some (s, es) ∧
      step s (.sigalrm true) = some (s, [.saved .count 1 (ascii "ab\n")]) ∧
      Faithful (ascii "ab\ncd\n") (readPieces es) .count 1 (ascii "ab\n") := by
  have hrun : ((machine (ascii "ab\ncd\n")).run
      [.next, .next, .next, .next, .next, .next, .next]).map
        (fun p => (p.1.line, p.1.lineCount, p.2)) =
          some (.count, 1, [.read (ascii "ab\n"), .read (ascii "cd\n")]) := by
    decide
  obtain ⟨⟨s, es⟩, hs, heq⟩ := Option.map_eq_some_iff.mp hrun
  obtain ⟨hline, hcount, rfl⟩ : s.line = .count ∧ s.lineCount = 1 ∧ es = _ := by simpa using heq
  obtain ⟨-, -, hsaves⟩ := saved_kept (by decide) hs
  obtain ⟨text, ⟨halarm, -⟩, hfaithful⟩ := hsaves (by rw [hline]; nofun)
  rw [hline, hcount] at halarm hfaithful
  obtain rfl : text = ascii "ab\n" := hfaithful.kept
  exact ⟨s, _, hs, halarm, hfaithful⟩

end Run

end Editor

end SystemProgramming
