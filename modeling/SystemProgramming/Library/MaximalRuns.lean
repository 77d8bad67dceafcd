import Mathlib.Algebra.BigOperators.Intervals
import Mathlib.Data.Finset.Prod

/-!
# Maximal runs

A *maximal run* of a predicate in a list is an interval of positions that satisfy it and that
cannot be extended on either side. Their number is what a word count counts.

The number is computed by one pass that remembers only whether the previous element satisfied the
predicate: a run is counted where it starts. `runStarts` is that pass, started with an arbitrary
memory, and it is additive over concatenation once the memory is passed on (`runStarts_append`).
Cutting a list between runs is the special case in which the memory does not matter
(`runStarts_append_of_boundary`).

## Why both

The specification says what is to be counted without saying how, and in particular without going
through the list from left to right. A program that cuts the list into parts and counts them in any
order is compared with the pass, for which cutting is easy, and the pass with the specification
once.

The second count, `countPairs`, is for comparing two notions of a word. Where one predicate is
weaker than the other, a run of the weaker one may contain several runs of the stronger one or
none; the difference of the numbers of runs is a difference of numbers of neighbours.

## Main definitions

* `IsMaximalRun`, `maximalRuns`, `runCount` — the specification
* `runStarts`, `endsInRun` — the pass and the memory it leaves behind
* `countPairs` — the neighbours with a property

## Main results

* `runCount_eq_runStarts` — counting starts counts maximal runs
* `runStarts_append`, `runStarts_append_of_boundary` — additivity
* `runStarts_add_countPairs` — the runs of a predicate and of a weaker one
-/

namespace SystemProgramming

variable {α : Type*} (p : α → Bool)

/-! ### The specification -/

/-- Position `i` exists and satisfies the predicate. -/
def inRun (l : List α) (i : ℕ) : Bool := (l[i]?).any p

/-- The positions `a, …, b - 1` satisfy the predicate, and neither neighbour does. -/
def IsMaximalRun (l : List α) (a b : ℕ) : Prop :=
  a < b ∧ (∀ i < b, a ≤ i → inRun p l i) ∧ (∀ j < a, j + 1 = a → ¬ inRun p l j) ∧ ¬ inRun p l b

instance (l : List α) (a b : ℕ) : Decidable (IsMaximalRun p l a b) :=
  inferInstanceAs (Decidable (_ ∧ _ ∧ _ ∧ _))

/-- All maximal runs of a list, as pairs of first position and position after the last. -/
def maximalRuns (l : List α) : Finset (ℕ × ℕ) :=
  (Finset.range (l.length + 1) ×ˢ Finset.range (l.length + 1)).filter
    fun r => IsMaximalRun p l r.1 r.2

/-- The number of maximal runs. -/
def runCount (l : List α) : ℕ := (maximalRuns p l).card

/-! ### The pass -/

/-- Count the positions where a run starts; `prev` says whether a run was open before the list. -/
def runStarts : Bool → List α → ℕ
  | _, [] => 0
  | prev, c :: l => (if p c && !prev then 1 else 0) + runStarts (p c) l

/-- Is a run open after the list, given whether one was open before it? -/
def endsInRun (prev : Bool) (l : List α) : Bool := (l.getLast?.map p).getD prev

variable {p}

@[simp] theorem endsInRun_nil (prev : Bool) : endsInRun p prev [] = prev := rfl

@[simp] theorem endsInRun_cons (prev : Bool) (c : α) (l : List α) :
    endsInRun p prev (c :: l) = endsInRun p (p c) l := by
  cases l with
  | nil => rfl
  | cons d l => simp [endsInRun, List.getLast?_eq_some_getLast]

theorem endsInRun_append (prev : Bool) (l m : List α) :
    endsInRun p prev (l ++ m) = endsInRun p (endsInRun p prev l) m := by
  induction l generalizing prev with
  | nil => rfl
  | cons c l ih => simp [ih]

/-- **Additivity.** The second part is counted with the memory the first leaves behind. -/
theorem runStarts_append (prev : Bool) (l m : List α) :
    runStarts p prev (l ++ m) = runStarts p prev l + runStarts p (endsInRun p prev l) m := by
  induction l generalizing prev with
  | nil => simp [runStarts]
  | cons c l ih => simp [runStarts, ih, Nat.add_assoc]

/-- A run that is open before the list and goes on at its head is not counted again. -/
theorem runStarts_true (l : List α) :
    runStarts p true l = runStarts p false (l.dropWhile p) := by
  induction l with
  | nil => rfl
  | cons c l ih =>
    by_cases hc : p c
    · simp [runStarts, hc, ih]
    · simp [runStarts, hc]

/-- Where no run goes on, the memory does not matter. -/
theorem runStarts_of_boundary {l : List α} (h : ¬ inRun p l 0) (prev : Bool) :
    runStarts p prev l = runStarts p false l := by
  cases l with
  | nil => rfl
  | cons c l => simp_all [runStarts, inRun]

theorem runStarts_append_of_boundary {l m : List α} (h : ¬ inRun p m 0) :
    runStarts p false (l ++ m) = runStarts p false l + runStarts p false m := by
  rw [runStarts_append, runStarts_of_boundary h]

/-! ### Runs of two predicates -/

/-- The number of positions where `f` holds of the element before and of the element; `before` is
the element before the list. -/
def countPairs (f : Option α → α → Bool) : Option α → List α → ℕ
  | _, [] => 0
  | before, c :: l => (if f before c then 1 else 0) + countPairs f (some c) l

/-- **A predicate and a weaker one.** A run of `p` starts with a run of `q` or inside of one, and a
run of `q` starts with a run of `p` or with other elements. -/
theorem runStarts_add_countPairs {q : α → Bool} (hpq : ∀ c, p c → q c) (l : List α) :
    ∀ before : Option α,
      runStarts p (before.any p) l + countPairs (fun b c => q c && !p c && !b.any q) before l =
        runStarts q (before.any q) l +
          countPairs (fun b c => p c && b.any fun a => q a && !p a) before l := by
  induction l with
  | nil => intro _; rfl
  | cons c l ih =>
    intro before
    have hrest := ih (some c)
    simp only [Option.any_some] at hrest
    have hhead : ((if p c && !before.any p then 1 else 0) +
        if q c && !p c && !before.any q then 1 else 0) = ((if q c && !before.any q then 1 else 0) +
          if p c && before.any (fun a => q a && !p a) then 1 else 0) := by
      cases before with
      | none => by_cases hp : p c <;> simp [hp, hpq c]
      | some a =>
        by_cases hp : p c
        · by_cases ha : p a
          · simp [hp, hpq c hp, ha, hpq a ha]
          · by_cases hq : q a <;> simp [hp, hpq c hp, ha, hq]
        · simp [hp]
    simp only [runStarts, countPairs]
    omega

/-! ### Counting starts counts runs -/

/-- Position `i` is in a run and the position before it is not; `prev` stands for the position
before the list. -/
def isStart (p : α → Bool) (prev : Bool) (l : List α) (i : ℕ) : Bool :=
  inRun p l i && !(if i = 0 then prev else inRun p l (i - 1))

theorem inRun_lt {l : List α} {i : ℕ} (h : inRun p l i) : i < l.length := by
  by_contra hlt
  simp [inRun, List.getElem?_eq_none (Nat.le_of_not_lt hlt)] at h

@[simp] theorem inRun_cons_succ (c : α) (l : List α) (i : ℕ) :
    inRun p (c :: l) (i + 1) = inRun p l i := by
  simp [inRun]

@[simp] theorem inRun_cons_zero (c : α) (l : List α) : inRun p (c :: l) 0 = p c := by
  simp [inRun]

theorem isStart_cons_succ (prev : Bool) (c : α) (l : List α) (i : ℕ) :
    isStart p prev (c :: l) (i + 1) = isStart p (p c) l i := by
  cases i <;> simp [isStart]

theorem runStarts_eq_card (prev : Bool) (l : List α) :
    runStarts p prev l = ((Finset.range l.length).filter fun i => isStart p prev l i).card := by
  induction l generalizing prev with
  | nil => rfl
  | cons c l ih =>
    rw [runStarts, ih, List.length_cons, Finset.card_filter, Finset.card_filter,
      Finset.sum_range_succ', Nat.add_comm]
    simp only [isStart_cons_succ]
    simp [isStart]

/-- The first position after `i` that is not in a run. -/
theorem exists_run_end (l : List α) (i : ℕ) (hi : inRun p l i) :
    ∃ b, i < b ∧ b ≤ l.length ∧ (∀ j < b, i ≤ j → inRun p l j) ∧ ¬ inRun p l b := by
  have hout : ∃ b, i < b ∧ ¬ inRun p l b :=
    ⟨l.length, inRun_lt hi, fun h => absurd (inRun_lt h) (Nat.lt_irrefl _)⟩
  classical
  refine ⟨Nat.find hout, (Nat.find_spec hout).1, ?_, fun j hj hij => ?_, (Nat.find_spec hout).2⟩
  · exact Nat.find_min' hout
      ⟨inRun_lt hi, fun h => absurd (inRun_lt h) (Nat.lt_irrefl _)⟩
  · rcases Nat.eq_or_lt_of_le hij with rfl | hlt
    · exact hi
    · by_contra hnot
      exact Nat.find_min hout hj ⟨hlt, hnot⟩

theorem IsMaximalRun.end_unique {l : List α} {a b c : ℕ} (hb : IsMaximalRun p l a b)
    (hc : IsMaximalRun p l a c) : b = c := by
  obtain ⟨hab, hinb, -, houtb⟩ := hb
  obtain ⟨hac, hinc, -, houtc⟩ := hc
  rcases Nat.lt_trichotomy b c with h | h | h
  · exact absurd (hinc b h hab.le) houtb
  · exact h
  · exact absurd (hinb c h hac.le) houtc

theorem isStart_iff_exists_maximalRun {l : List α} {a : ℕ} :
    isStart p false l a ↔ ∃ b, IsMaximalRun p l a b := by
  constructor
  · intro h
    simp only [isStart, Bool.and_eq_true, Bool.not_eq_true'] at h
    obtain ⟨b, hab, -, hin, hout⟩ := exists_run_end l a h.1
    refine ⟨b, hab, hin, ?_, hout⟩
    rintro j hj rfl
    simpa using h.2
  · rintro ⟨b, hab, hin, hleft, -⟩
    have ha := hin a hab le_rfl
    cases a with
    | zero => simp [isStart, ha]
    | succ j => simp [isStart, ha, hleft j (Nat.lt_succ_self j) rfl]

theorem mem_maximalRuns {l : List α} {a b : ℕ} :
    (a, b) ∈ maximalRuns p l ↔ IsMaximalRun p l a b := by
  simp only [maximalRuns, Finset.mem_filter, Finset.mem_product, Finset.mem_range,
    and_iff_right_iff_imp]
  rintro ⟨hab, hin, -, -⟩
  have hlast : b - 1 < l.length := inRun_lt (hin (b - 1) (by omega) (by omega))
  omega

/-- **The pass counts the maximal runs.** -/
theorem runCount_eq_runStarts (l : List α) : runCount p l = runStarts p false l := by
  rw [runStarts_eq_card]
  refine Finset.card_bij (fun r _ => r.1) (fun r hr => ?_) (fun r hr s hs h => ?_)
    (fun a ha => ?_)
  · have hrun := mem_maximalRuns.mp hr
    have hstart := isStart_iff_exists_maximalRun.mpr ⟨r.2, hrun⟩
    simp only [Finset.mem_filter, Finset.mem_range]
    exact ⟨inRun_lt (hrun.2.1 r.1 hrun.1 le_rfl), hstart⟩
  · obtain ⟨a, b⟩ := r
    obtain ⟨a', c⟩ := s
    obtain rfl : a = a' := h
    rw [(mem_maximalRuns.mp hr).end_unique (mem_maximalRuns.mp hs)]
  · obtain ⟨b, hb⟩ := isStart_iff_exists_maximalRun.mp (Finset.mem_filter.mp ha).2
    exact ⟨(a, b), mem_maximalRuns.mpr hb, rfl⟩

end SystemProgramming
