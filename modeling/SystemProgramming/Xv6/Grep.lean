import SystemProgramming.Library.CString
import SystemProgramming.Library.Machine
import SystemProgramming.Library.StarPattern

/-!
# `grep`

`match` looks for a pattern with `^`, `.`, `*` and `$` anywhere in a line. The two functions under
it call each other; here the one that looks for what is behind a starred symbol is handed to
`matchstar`, so that both are recursions on the strings.

`grep` reads a file in whatever pieces `read` delivers. It holds the bytes behind the last newline
in `buf`, where `strchr` looks for the next newline in them.

## What is left out

`read` returns at least one byte unless the file is at its end, and `write` accepts everything. A
line that does not fit in the buffer, or holds a NUL, is not matched as a line: from there on the
program looks at what is left of the buffer, so what is said of the output ends at the first such
line. `main` calls `grep` for each of its files, one after the other, and is left out.

## How it goes

For the matcher, each function is shown to decide membership in a language, by recursion on the
pattern, and `matchstar` by recursion on the text. The languages are those of `Library.StarPattern`,
so that nothing of the matcher is left in the statement.

For the loop, `Inv` splits what is to be printed into what has been written and what is selected
from the bytes in `buf` and those still to be read. A call of `read` moves bytes from the second to
the first; the scan behind it takes whole lines off. A line that is too long fills the buffer, and
then `read` is asked for 0 bytes and the loop ends.

## Main definitions

* `matchstar`, `matchhere`, `matchText` — the matcher
* `parse`, `pattern`, `render` — what the bytes of a pattern mean, and its bytes
* `State`, `machine` — the loop of `grep`, read by read
* `selected` — what is to be printed

## Main results

* `matchText_iff` — the matcher decides the language of the pattern
* `pattern_render`, `render_pattern` — every pattern without special symbols can be written down,
  and every string is a pattern
* `grep_prints` — exactly the selected lines are printed, however the file is delivered
-/

namespace SystemProgramming

namespace Xv6

namespace Grep

/-! ### The matcher -/

/-- `matchstar(c, re, text)`, where `here` is `matchhere` for `re`. -/
def matchstar (c : UInt8) (here : List UInt8 → Bool) : List UInt8 → Bool
  | [] => here []
  | b :: text => here (b :: text) || ((b == c || c == 46) && matchstar c here text)

/-- `matchhere(re, text)`: the pattern at the beginning of the text. -/
def matchhere : List UInt8 → List UInt8 → Bool
  | [], _ => true
  | c :: 42 :: re, text => matchstar c (matchhere re) text
  | [36], text => text.isEmpty
  | _ :: _, [] => false
  | c :: re, b :: text => (c == 46 || c == b) && matchhere re text

/-- The loop of `match`, which also looks at the empty string behind the text. -/
def matchAnywhere (re : List UInt8) : List UInt8 → Bool
  | [] => matchhere re []
  | b :: text => matchhere re (b :: text) || matchAnywhere re text

/-- `match(re, text)` -/
def matchText (re text : List UInt8) : Bool :=
  match re with
  | 94 :: re => matchhere re text
  | re => matchAnywhere re text

/-! ### Patterns -/

/-- The bytes that a symbol of a pattern stands for: the dot stands for all of them. -/
def accepts (c : UInt8) : Set UInt8 := {b | c = 46 ∨ c = b}

/-- The items of a pattern, and whether it ends in `$`. -/
def parse : List UInt8 → List (Item UInt8) × Bool
  | [] => ([], false)
  | c :: 42 :: re => (.many c :: (parse re).1, (parse re).2)
  | [36] => ([], true)
  | c :: re => (.one c :: (parse re).1, (parse re).2)

/-- The pattern that a string is. -/
def pattern (re : List UInt8) : StarPattern UInt8 :=
  match re with
  | 94 :: re => ⟨true, (parse re).1, (parse re).2⟩
  | re => ⟨false, (parse re).1, (parse re).2⟩

/-- An item as it is written. -/
def renderItem : Item UInt8 → List UInt8
  | .one c => [c]
  | .many c => [c, 42]

/-- A pattern as it is written. -/
def render (p : StarPattern UInt8) : List UInt8 :=
  (if p.atStart then [94] else []) ++ p.items.flatMap renderItem ++ if p.atEnd then [36] else []

/-- The symbol of an item. -/
def symbol : Item UInt8 → UInt8
  | .one c => c
  | .many c => c

/-- The symbols are ordinary ones, or dots. -/
def Plain (p : StarPattern UInt8) : Prop := ∀ i ∈ p.items, symbol i ∉ [42, 36, 94]

open StarPattern

theorem matchstar_iff {here : List UInt8 → Bool} {l : Language UInt8}
    (h : ∀ text, here text = true ↔ text ∈ l) (c : UInt8) : ∀ text,
    matchstar c here text = true ↔ text ∈ KStar.kstar (oneOf (accepts c)) * l
  | [] => by rw [matchstar, h, nil_mem_kstar_oneOf_mul]
  | b :: text => by
    have hclass : (b == c || c == 46) = true ↔ b ∈ accepts c := by
      rw [Bool.or_eq_true, beq_iff_eq, beq_iff_eq, or_comm, eq_comm (a := b)]
      rfl
    rw [matchstar, Bool.or_eq_true, Bool.and_eq_true, hclass, h, matchstar_iff h c text,
      cons_mem_kstar_oneOf_mul]

theorem matchhere_iff (re : List UInt8) : ∀ text,
    matchhere re text = true ↔ text ∈ tailLanguage accepts (parse re).1 (parse re).2 := by
  induction re using parse.induct with
  | case1 =>
    intro text
    simp [matchhere, parse, mem_tailLanguage_nil]
  | case2 c re ih =>
    intro text
    rw [matchhere, parse, tailLanguage_many, matchstar_iff ih]
  | case3 =>
    intro text
    cases text <;> simp [matchhere, parse, mem_tailLanguage_nil]
  | case4 c re hstar hend ih =>
    intro text
    rw [parse.eq_4 c re hstar hend, tailLanguage_one]
    cases text with
    | nil =>
      rw [matchhere.eq_4 _ _ hstar hend, iff_false_left Bool.false_ne_true]
      exact nil_notMem_oneOf_mul
    | cons b text =>
      have hclass : (c == 46 || c == b) = true ↔ b ∈ accepts c := by
        rw [Bool.or_eq_true, beq_iff_eq, beq_iff_eq]
        rfl
      rw [matchhere.eq_5 _ _ _ _ hstar hend, Bool.and_eq_true, hclass, ih, cons_mem_oneOf_mul]

theorem matchAnywhere_iff {re : List UInt8} {l : Language UInt8}
    (h : ∀ text, matchhere re text = true ↔ text ∈ l) : ∀ text,
    matchAnywhere re text = true ↔ text ∈ ⊤ * l
  | [] => by rw [matchAnywhere, h, nil_mem_top_mul]
  | b :: text => by
    rw [matchAnywhere, Bool.or_eq_true, h, matchAnywhere_iff h text, cons_mem_top_mul]

/-- **The matcher decides the language of the pattern**, for every string as a pattern. -/
theorem matchText_iff (re text : List UInt8) :
    matchText re text = true ↔ text ∈ (pattern re).language accepts := by
  unfold matchText pattern
  split
  · rw [language, if_pos rfl, one_mul]
    exact matchhere_iff _ text
  · rw [language, if_neg Bool.false_ne_true]
    exact matchAnywhere_iff (matchhere_iff _) text

/-! ### Writing patterns down -/

theorem render_parse (re : List UInt8) :
    (parse re).1.flatMap renderItem ++ (if (parse re).2 then [36] else []) = re := by
  induction re using parse.induct with
  | case1 => rfl
  | case2 c re ih =>
    rw [parse, List.flatMap_cons, List.append_assoc, ih]
    rfl
  | case3 => rfl
  | case4 c re hstar hend ih =>
    rw [parse.eq_4 c re hstar hend, List.flatMap_cons, List.append_assoc, ih]
    rfl

/-- Every string is a pattern as it is written. -/
theorem render_pattern (re : List UInt8) : render (pattern re) = re := by
  unfold pattern
  split
  · rw [render, List.append_assoc, render_parse]
    rfl
  · rw [render, List.append_assoc, render_parse]
    rfl

/-- What is written begins with an ordinary symbol, or with the `$` at its end. -/
theorem render_ne_cons {items : List (Item UInt8)} (h : ∀ i ∈ items, symbol i ∉ [42, 36, 94])
    {b : UInt8} (hb : b = 42 ∨ b = 94) (atEnd : Bool) (re : List UInt8) :
    items.flatMap renderItem ++ (if atEnd then [36] else []) ≠ b :: re := by
  intro heq
  cases items with
  | nil =>
    cases atEnd
    · exact absurd heq (by simp)
    · rw [List.flatMap_nil, List.nil_append, if_pos rfl] at heq
      rcases hb with rfl | rfl <;> exact absurd (List.cons.inj heq).1 (by decide)
  | cons i items =>
    have hi := h i List.mem_cons_self
    have hsymbol : symbol i = b := by
      cases i <;> exact (List.cons.inj heq).1
    rw [hsymbol] at hi
    rcases hb with rfl | rfl <;> exact hi (by decide)

theorem parse_render : ∀ {items : List (Item UInt8)} (atEnd : Bool),
    (∀ i ∈ items, symbol i ∉ [42, 36, 94]) →
      parse (items.flatMap renderItem ++ if atEnd then [36] else []) = (items, atEnd)
  | [], atEnd, _ => by cases atEnd <;> rfl
  | i :: items, atEnd, h => by
    obtain ⟨hi, hitems⟩ := List.forall_mem_cons.mp h
    have ih := parse_render atEnd hitems
    rw [List.flatMap_cons, List.append_assoc]
    cases i with
    | many c => rw [renderItem, List.cons_append, List.cons_append, List.nil_append, parse, ih]
    | one c =>
      have hc : c ≠ 36 := fun hc => hi (by simp [symbol, hc])
      rw [renderItem, List.cons_append, List.nil_append, parse.eq_4, ih]
      · exact fun re => render_ne_cons hitems (Or.inl rfl) atEnd re
      · exact fun hc' => absurd hc' hc

/-- A pattern of ordinary symbols is read back from what is written. -/
theorem pattern_render {p : StarPattern UInt8} (h : Plain p) : pattern (render p) = p := by
  obtain ⟨atStart, items, atEnd⟩ := p
  have hparse := parse_render atEnd h
  rw [render, List.append_assoc]
  cases atStart
  · rw [if_neg Bool.false_ne_true, List.nil_append]
    unfold pattern
    split
    · rename_i re hre
      exact absurd hre (render_ne_cons h (Or.inr rfl) atEnd re)
    · rw [hparse]
  · rw [if_pos rfl, List.singleton_append]
    show StarPattern.mk true (parse _).1 (parse _).2 = _
    rw [hparse]

/-! ### The loop -/

/-- `sizeof(buf)` -/
def bufSize : ℕ := 1024

/-- `strchr(s, c)` for the bytes `s`, which a NUL follows: how far the first `c` is. -/
def strchr (c : UInt8) : List UInt8 → Option ℕ
  | [] => none
  | b :: s => if b = 0 then none else if b = c then some 0 else (strchr c s).map (· + 1)

/-- The inner loop from `p` on, in at most `fuel` rounds: what is written, and where `p` is in the
end. A round moves `p` by a byte or more, so that the rounds are no more than the bytes. -/
def scan (re : List UInt8) : ℕ → List UInt8 → List (List UInt8) × List UInt8
  | 0, p => ([], p)
  | fuel + 1, p =>
    match strchr 10 p with
    | none => ([], p)
    | some q =>
      let line := p.take q
      let rest := scan re fuel (p.drop (q + 1))
      (if matchText re line then (line ++ [10]) :: rest.1 else rest.1, rest.2)

/-- How far the outer loop is: it may go on, or `read` has returned 0 or an error. -/
inductive Status where
  | reading | ended | failed
  deriving DecidableEq, Repr

/-- The bytes of the file that are still to be read, and the first `m` bytes of `buf`. -/
structure State where
  file : List UInt8
  held : List UInt8
  status : Status
  deriving DecidableEq, Repr

/-- What a call of `read` does: it delivers a number of bytes, or it fails. -/
inductive Read where
  | bytes (n : ℕ)
  | error
  deriving DecidableEq, Repr

/-- `sizeof(buf)-m-1`, the bytes that `read` is asked for. -/
def State.room (s : State) : ℕ := bufSize - s.held.length - 1

/-- A round of the outer loop in which `read` has delivered `n` bytes, and the calls of `write`. -/
def deliver (re : List UInt8) (s : State) (n : ℕ) : State × List (List UInt8) :=
  let buf := s.held ++ s.file.take n
  let scanned := scan re buf.length buf
  ({ s with file := s.file.drop n, held := scanned.2 }, scanned.1)

/-- The outer loop: a call of `read`, which delivers no more than it is asked for and than there
is, and nothing only if there is nothing or nothing is asked for. -/
def step (re : List UInt8) (s : State) (r : Read) : Option (State × List (List UInt8)) :=
  match s.status, r with
  | .reading, .error => some ({ s with status := .failed }, [])
  | .reading, .bytes 0 =>
    if s.room = 0 ∨ s.file = [] then some ({ s with status := .ended }, []) else none
  | .reading, .bytes (n + 1) =>
    if n + 1 ≤ s.room ∧ n + 1 ≤ s.file.length then some (deliver re s (n + 1)) else none
  | _, _ => none

/-- `grep(pattern, fd)` for an open file. -/
def machine (re file : List UInt8) : Machine State Read (List UInt8) where
  init := ⟨file, [], .reading⟩
  step := step re

/-! ### What is printed -/

/-- The lines of a text that end in a newline, when `line` has been read since the last one. -/
def linesFrom (line : List UInt8) : List UInt8 → List (List UInt8)
  | [] => []
  | c :: text => if c = 10 then line :: linesFrom [] text else linesFrom (line ++ [c]) text

/-- A line that `buf` can hold with its newline and that can be searched to its end. -/
def Whole (line : List UInt8) : Prop := line.length + 1 < bufSize ∧ 0 ∉ line

instance (line : List UInt8) : Decidable (Whole line) := inferInstanceAs (Decidable (_ ∧ _))

/-- The lines to be printed: those that match, up to the first line that is not whole. -/
def selected (re file : List UInt8) : List (List UInt8) :=
  (((linesFrom [] file).takeWhile fun line => decide (Whole line)).filter (matchText re)).map
    (· ++ [10])

theorem linesFrom_append {w : List UInt8} (hw : 10 ∉ w) (text : List UInt8) : ∀ line,
    linesFrom line (w ++ text) = linesFrom (line ++ w) text := by
  induction w with
  | nil =>
    intro line
    rw [List.nil_append, List.append_nil]
  | cons c w ih =>
    intro line
    have hc : c ≠ 10 := fun hc => hw (by simp [hc])
    rw [List.cons_append, linesFrom, if_neg hc, ih (fun h => hw (List.mem_cons_of_mem _ h)),
      List.append_assoc, List.singleton_append]

theorem linesFrom_line {line : List UInt8} (h : 10 ∉ line) (text : List UInt8) :
    linesFrom [] (line ++ 10 :: text) = line :: linesFrom [] text := by
  rw [linesFrom_append h, linesFrom, if_pos rfl, List.nil_append]

/-- The first line goes on with what follows. -/
theorem exists_linesFrom_eq : ∀ (line text : List UInt8),
    linesFrom line text = [] ∨ ∃ w lines, linesFrom line text = (line ++ w) :: lines
  | _, [] => Or.inl rfl
  | line, c :: text => by
    rw [linesFrom]
    split
    · exact Or.inr ⟨[], _, by rw [List.append_nil]⟩
    · rcases exists_linesFrom_eq (line ++ [c]) text with h | ⟨w, lines, h⟩
      · exact Or.inl h
      · exact Or.inr ⟨c :: w, lines, by rw [h, List.append_assoc, List.singleton_append]⟩

/-- Nothing is selected from the first line that is not whole on. -/
theorem selected_of_notMem {re w text : List UInt8} (hline : 10 ∉ w)
    (h : ∀ v, ¬ Whole (w ++ v)) : selected re (w ++ text) = [] := by
  rw [selected, linesFrom_append hline, List.nil_append]
  rcases exists_linesFrom_eq w text with hnil | ⟨v, lines, hcons⟩
  · rw [hnil]
    rfl
  · rw [hcons, List.takeWhile_cons_of_neg (by simpa using h v)]
    rfl

theorem selected_line {re line text : List UInt8} (hline : 10 ∉ line) (h : Whole line) :
    selected re (line ++ 10 :: text) =
      (if matchText re line then [line ++ [10]] else []) ++ selected re text := by
  rw [selected, linesFrom_line hline,
    List.takeWhile_cons_of_pos (p := fun line => decide (Whole line)) (decide_eq_true h)]
  by_cases hmatch : matchText re line = true
  · rw [List.filter_cons_of_pos hmatch, if_pos hmatch]
    rfl
  · rw [List.filter_cons_of_neg hmatch, if_neg hmatch]
    rfl

/-! ### Searching for newlines -/

/-- A newline is found behind bytes that are neither newlines nor NULs. -/
theorem eq_of_strchr_eq_some : ∀ {p : List UInt8} {q : ℕ}, strchr 10 p = some q →
    p = p.take q ++ 10 :: p.drop (q + 1) ∧ 10 ∉ p.take q ∧ 0 ∉ p.take q ∧ q < p.length
  | b :: p, q, h => by
    rw [strchr] at h
    split at h
    · cases h
    · rename_i hzero
      split at h
      · rename_i hb
        obtain rfl := Option.some.inj h
        subst hb
        simp
      · rename_i hb
        obtain ⟨q, hq, rfl⟩ := Option.map_eq_some_iff.mp h
        obtain ⟨heq, hline, hnul, hlt⟩ := eq_of_strchr_eq_some hq
        rw [List.take_succ_cons, List.drop_succ_cons, List.cons_append, ← heq, List.length_cons]
        refine ⟨rfl, ?_, ?_, by omega⟩
        · exact fun hm => (List.mem_cons.mp hm).elim (fun h => hb h.symm) hline
        · exact fun hm => (List.mem_cons.mp hm).elim (fun h => hzero h.symm) hnul

/-- No newline is found when there is none, or when a NUL stands in front of the first. -/
theorem of_strchr_eq_none : ∀ {p : List UInt8}, strchr 10 p = none →
    10 ∉ p ∨ ∃ w rest, p = w ++ 0 :: rest ∧ 10 ∉ w
  | [], _ => Or.inl List.not_mem_nil
  | b :: p, h => by
    rw [strchr] at h
    split at h
    · rename_i hzero
      exact Or.inr ⟨[], p, by rw [hzero]; rfl, List.not_mem_nil⟩
    · split at h
      · cases h
      · rename_i hb
        have hnone := Option.map_eq_none_iff.mp h
        have hcons : ∀ {w : List UInt8}, 10 ∉ w → 10 ∉ b :: w := fun hw hm =>
          (List.mem_cons.mp hm).elim (fun h => hb h.symm) hw
        rcases of_strchr_eq_none hnone with hp | ⟨w, rest, rfl, hw⟩
        · exact Or.inl (hcons hp)
        · exact Or.inr ⟨b :: w, rest, rfl, hcons hw⟩

/-- What is left in `buf` is never selected, whatever follows, once it fills `buf` or is all. -/
theorem selected_of_strchr_eq_none {re p text : List UInt8} (h : strchr 10 p = none)
    (hlast : bufSize ≤ p.length + 1 ∨ text = []) : selected re (p ++ text) = [] := by
  rcases of_strchr_eq_none h with hp | ⟨w, rest, rfl, hw⟩
  · rcases hlast with hfull | rfl
    · refine selected_of_notMem hp fun v hv => ?_
      have hshort := hv.1
      rw [List.length_append] at hshort
      omega
    · rw [selected, linesFrom_append hp]
      rfl
  · rw [List.append_assoc, ← List.singleton_append, List.append_assoc, ← List.append_assoc]
    refine selected_of_notMem ?_ fun v hv => hv.2 (by simp)
    rw [List.mem_append, not_or]
    exact ⟨hw, by decide⟩

/-- What the inner loop writes is selected, and it stops where no newline is found. -/
theorem scan_spec (re text : List UInt8) : ∀ (fuel : ℕ) {p : List UInt8}, p.length ≤ fuel →
    p.length < bufSize →
      selected re (p ++ text) = (scan re fuel p).1 ++ selected re ((scan re fuel p).2 ++ text) ∧
        strchr 10 (scan re fuel p).2 = none ∧ (scan re fuel p).2.length ≤ p.length
  | 0, p, hfuel, _ => by
    obtain rfl := List.eq_nil_of_length_eq_zero (Nat.le_zero.mp hfuel)
    exact ⟨rfl, rfl, le_rfl⟩
  | fuel + 1, p, hfuel, hroom => by
    rw [scan]
    split
    · rename_i hnone
      exact ⟨rfl, hnone, le_rfl⟩
    · rename_i q hq
      obtain ⟨heq, hline, hnul, hlt⟩ := eq_of_strchr_eq_some hq
      have hdrop : (p.drop (q + 1)).length ≤ fuel := by
        rw [List.length_drop]
        omega
      obtain ⟨ih, hnone, hlength⟩ := scan_spec re text fuel hdrop (by
        rw [List.length_drop]
        omega)
      have hwhole : Whole (p.take q) := ⟨by rw [List.length_take]; omega, hnul⟩
      refine ⟨?_, hnone, hlength.trans (List.drop_suffix _ _).length_le⟩
      calc selected re (p ++ text)
          = selected re (p.take q ++ 10 :: (p.drop (q + 1) ++ text)) := by
            rw [← List.cons_append, ← List.append_assoc, ← heq]
        _ = _ := by
            rw [selected_line hline hwhole, ih]
            by_cases hmatch : matchText re (p.take q) = true <;> simp [hmatch]

/-! ### Runs -/

/-- What holds between two reads: what is selected has been written, or is selected from what is
in `buf` and what is still to be read. -/
structure Inv (re file : List UInt8) (out : List (List UInt8)) (s : State) : Prop where
  selected_eq : s.status ≠ .ended →
    selected re file = out ++ selected re (s.held ++ s.file)
  done : s.status = .ended → out = selected re file
  searched : strchr 10 s.held = none
  fits : s.held.length < bufSize

theorem step_cases {re : List UInt8} {s : State} {r : Read} {q : State × List (List UInt8)}
    (h : step re s r = some q) : s.status = .reading ∧
      (r = .error ∧ q = ({ s with status := .failed }, []) ∨
        (s.room = 0 ∨ s.file = []) ∧ q = ({ s with status := .ended }, []) ∨
        ∃ n, 0 < n ∧ n ≤ s.room ∧ n ≤ s.file.length ∧ q = deliver re s n) := by
  unfold step at h
  split at h
  · rename_i hreading
    exact ⟨hreading, Or.inl ⟨rfl, (Option.some.inj h).symm⟩⟩
  · rename_i hreading
    split at h
    · rename_i hend
      exact ⟨hreading, Or.inr (Or.inl ⟨hend, (Option.some.inj h).symm⟩)⟩
    · cases h
  · rename_i n hreading
    split at h
    · rename_i hcan
      exact ⟨hreading, Or.inr (Or.inr
        ⟨n + 1, Nat.succ_pos n, hcan.1, hcan.2, (Option.some.inj h).symm⟩)⟩
    · cases h
  · cases h

theorem inv_step {re file : List UInt8} {out : List (List UInt8)} {s s' : State} {r : Read}
    {es : List (List UInt8)} (hI : Inv re file out s) (h : step re s r = some (s', es)) :
    Inv re file (out ++ es) s' := by
  obtain ⟨hreading, ⟨-, heq⟩ | ⟨hend, heq⟩ | ⟨n, -, hroom, -, heq⟩⟩ := step_cases h
  · obtain ⟨rfl, rfl⟩ := Prod.mk.inj heq
    rw [List.append_nil]
    refine ⟨fun _ => hI.selected_eq (by rw [hreading]; decide), fun h => ?_, hI.searched, hI.fits⟩
    cases h
  · obtain ⟨rfl, rfl⟩ := Prod.mk.inj heq
    rw [List.append_nil]
    refine ⟨fun h => absurd rfl h, fun _ => ?_, hI.searched, hI.fits⟩
    have hlast : bufSize ≤ s.held.length + 1 ∨ s.file = [] := by
      refine hend.imp_left fun hroom => ?_
      rw [State.room] at hroom
      omega
    rw [hI.selected_eq (by rw [hreading]; decide),
      selected_of_strchr_eq_none hI.searched hlast, List.append_nil]
  · obtain ⟨rfl, rfl⟩ := Prod.mk.inj heq
    have hlength : (s.held ++ s.file.take n).length < bufSize := by
      have hfits := hI.fits
      rw [State.room] at hroom
      rw [List.length_append, List.length_take]
      omega
    obtain ⟨hscan, hnone, hle⟩ := scan_spec re (s.file.drop n) _ le_rfl hlength
    refine ⟨fun _ => ?_, fun h => ?_, hnone, hle.trans_lt hlength⟩
    · rw [hI.selected_eq (by rw [hreading]; decide), List.append_assoc, ← hscan,
        List.append_assoc, List.take_append_drop]
    · exact absurd (hreading.symm.trans h) (by decide)

theorem inv_of_run {re file : List UInt8} {as : List Read} {s : State} {out : List (List UInt8)}
    (h : (machine re file).run as = some (s, out)) : Inv re file out s :=
  Machine.run_invariant (M := machine re file) (I := Inv re file)
    { selected_eq := fun _ => rfl
      done := fun h => Status.noConfusion h
      searched := rfl
      fits := show 0 < bufSize by decide }
    (fun _ _ _ _ _ hI hstep => inv_step hI hstep) h

/-- Every read but the last delivers a byte. -/
theorem length_schedule_le {re file : List UInt8} {as : List Read} {s : State}
    {out : List (List UInt8)} (h : (machine re file).run as = some (s, out)) :
    as.length + s.file.length ≤ file.length + if s.status = .reading then 0 else 1 := by
  refine Machine.run_invariant_schedule (I := fun as s =>
    as.length + s.file.length ≤ file.length + if s.status = .reading then 0 else 1)
    (by simp [machine]) (fun as s _ r s' es _ hI hstep => ?_) h
  obtain ⟨hreading, hcases⟩ := step_cases hstep
  rw [if_pos hreading] at hI
  rw [List.length_append, List.length_singleton]
  rcases hcases with ⟨-, heq⟩ | ⟨-, heq⟩ | ⟨n, hpos, -, hn, heq⟩
  · obtain ⟨rfl, -⟩ := Prod.mk.inj heq
    rw [if_neg (show ¬ Status.failed = .reading by decide)]
    show as.length + 1 + s.file.length ≤ _
    omega
  · obtain ⟨rfl, -⟩ := Prod.mk.inj heq
    rw [if_neg (show ¬ Status.ended = .reading by decide)]
    show as.length + 1 + s.file.length ≤ _
    omega
  · obtain ⟨rfl, -⟩ := Prod.mk.inj heq
    rw [if_pos hreading]
    show as.length + 1 + (s.file.drop n).length ≤ _
    rw [List.length_drop]
    omega

/-- **`grep` prints the selected lines**, in whatever pieces the file is delivered: nothing else at
any time, and all of them when `read` has returned 0. There are no more reads than the file has
bytes, and one. -/
theorem grep_prints {re file : List UInt8} {as : List Read} {s : State} {out : List (List UInt8)}
    (h : (machine re file).run as = some (s, out)) :
    out <+: selected re file ∧ (s.status = .ended → out = selected re file) ∧
      as.length ≤ file.length + 1 := by
  have hI := inv_of_run h
  refine ⟨?_, hI.done, ?_⟩
  · by_cases hended : s.status = .ended
    · rw [← hI.done hended]
    · rw [hI.selected_eq hended]
      exact List.prefix_append _ _
  · have hlength := length_schedule_le h
    split at hlength <;> omega

/-- `^ab*c$` in a file that is delivered in two pieces, with an unfinished last line. -/
theorem grep_prints_two_reads : ∃ s : State, ∃ out,
    (machine (ascii "^ab*c$") (ascii "abbc\nabd\nac")).run [.bytes 7, .bytes 4, .bytes 0] =
        some (s, out) ∧
      s.status = .ended ∧ out = [ascii "abbc\n"] ∧
      out = selected (ascii "^ab*c$") (ascii "abbc\nabd\nac") := by
  have h : (machine (ascii "^ab*c$") (ascii "abbc\nabd\nac")).run
      [.bytes 7, .bytes 4, .bytes 0] = some (⟨[], ascii "ac", .ended⟩, [ascii "abbc\n"]) := by
    decide
  exact ⟨_, _, h, rfl, rfl, (grep_prints h).2.1 rfl⟩

end Grep

end Xv6

end SystemProgramming
