import Mathlib.Data.List.Range
import Mathlib.Data.Nat.ModEq
import Mathlib.Logic.Function.Basic

/-!
# Circular buffers with free-running counters

A circular buffer need not keep its indices inside the array: two counters that only grow say how
many items have ever been stored and taken, and the slot of an item is its number modulo the size.
The counters of a program are machine integers and wrap around, so what it compares and subtracts
are counts modulo `M`. As long as the counts are no further apart than the size of the array, that
is as good as the counts themselves.

`window slots cap a b` is the content between two counts. A buffer with more than two counters is
several windows side by side.

## How wrapping is dealt with

The counts themselves are natural numbers, and a proof speaks about them. The variables of a program
are their remainders. A proof keeps the bound on the difference as an invariant and turns every test
of the program into one about the counts with the three lemmas on remainders; behind these lemmas
no remainder occurs any more. The size of the array need not divide `M` for the comparisons. It has
to for the slots, where the same index is computed from a count and from its remainder.

## Main results

* `mod_eq_mod_iff`, `mod_sub_mod`, `mod_eq_add_mod_iff` — comparing and subtracting counters
* `window_push`, `window_cons`, `window_append` — storing, taking, and splitting
* `window_mod` — the counters are enough to find a window
-/

namespace SystemProgramming

namespace FreeRunning

/-! ### Counters -/

section Counters

variable {M cap a b : ℕ}

/-- Counters are equal only if the counts are. -/
theorem mod_eq_mod_iff (hab : a ≤ b) (hb : b < a + M) : a % M = b % M ↔ a = b := by
  constructor
  · intro h
    have hdvd : M ∣ b - a := (Nat.modEq_iff_dvd' hab).mp h
    have hzero : b - a = 0 := Nat.eq_zero_of_dvd_of_lt hdvd (by omega)
    omega
  · rintro rfl
    rfl

/-- The test for a full buffer. -/
theorem mod_eq_add_mod_iff (hab : a ≤ b) (hb : b ≤ a + cap) (hcap : cap < M) :
    b % M = (a % M + cap) % M ↔ b = a + cap := by
  rw [Nat.mod_add_mod]
  exact mod_eq_mod_iff hb (by omega)

/-- The difference of two counters. -/
theorem mod_sub_mod (hab : a ≤ b) (hb : b < a + M) : (b % M + (M - a % M)) % M = b - a := by
  have hM : 0 < M := by omega
  have ha : a % M < M := Nat.mod_lt a hM
  have hsum : Nat.ModEq M (b % M + (M - a % M)) (b - a) := by
    have hadd : Nat.ModEq M (b % M + (M - a % M) + a % M) (b - a + a % M) := by
      have hleft : b % M + (M - a % M) + a % M = b % M + M := by omega
      calc (b % M + (M - a % M) + a % M) % M = b % M := by
            rw [hleft, Nat.add_mod_right, Nat.mod_mod]
        _ = (b - a + a) % M := by rw [Nat.sub_add_cancel hab]
        _ = (b - a + a % M) % M := (Nat.add_mod_mod ..).symm
    exact Nat.ModEq.add_right_cancel' _ hadd
  rw [hsum, Nat.mod_eq_of_lt (by omega)]

/-- A counter one step back. -/
theorem mod_pred (ha : 0 < a) (hM : 0 < M) : (a % M + (M - 1)) % M = (a - 1) % M := by
  rw [Nat.mod_add_mod]
  have hsum : a + (M - 1) = a - 1 + M := by omega
  rw [hsum, Nat.add_mod_right]

end Counters

/-! ### Windows -/

section Window

variable {α : Type*} {slots : ℕ → α} {cap a b c n : ℕ}

/-- The items with the numbers from `a` to `b`. -/
def window (slots : ℕ → α) (cap a b : ℕ) : List α :=
  (List.range' a (b - a)).map fun k => slots (k % cap)

theorem window_eq_map_range (slots : ℕ → α) (cap a n : ℕ) :
    window slots cap a (a + n) = (List.range n).map fun i => slots ((a + i) % cap) := by
  rw [window, Nat.add_sub_cancel_left, List.range'_eq_map_range, List.map_map]
  rfl

/-- A window may be found by its counters, when the counters wrap around where the array ends. -/
theorem window_mod {M : ℕ} (h : cap ∣ M) (n : ℕ) :
    window slots cap (a % M) (a % M + n) = window slots cap a (a + n) := by
  rw [window_eq_map_range, window_eq_map_range]
  refine List.map_congr_left fun i _ => ?_
  rw [← Nat.mod_add_mod (a % M), Nat.mod_mod_of_dvd a h, Nat.mod_add_mod]

@[simp] theorem length_window : (window slots cap a b).length = b - a := by
  rw [window, List.length_map, List.length_range']

@[simp] theorem window_self : window slots cap a a = [] := by
  rw [window, Nat.sub_self]
  rfl

/-- Taking the oldest item. -/
theorem window_cons (h : a < b) :
    window slots cap a b = slots (a % cap) :: window slots cap (a + 1) b := by
  have hlength : b - a = b - (a + 1) + 1 := by omega
  rw [window, hlength, List.range'_succ, List.map_cons]
  rfl

/-- Two windows side by side. -/
theorem window_append (hab : a ≤ b) (hbc : b ≤ c) :
    window slots cap a c = window slots cap a b ++ window slots cap b c := by
  have hlength : c - a = (b - a) + (c - b) := by omega
  have hb : b = a + 1 * (b - a) := by omega
  rw [window, window, window, ← List.map_append, hlength]
  congr 1
  rw [← List.range'_append, ← hb]

theorem window_succ (h : a ≤ b) :
    window slots cap a (b + 1) = window slots cap a b ++ [slots (b % cap)] := by
  rw [window_append h (Nat.le_succ b), window_cons (Nat.lt_succ_self b), window_self]

/-- Writing behind a window, less than the size of the array behind its start. -/
theorem window_update (hn : b ≤ n) (hcap : n < a + cap) (x : α) :
    window (Function.update slots (n % cap) x) cap a b = window slots cap a b := by
  rw [window, window]
  refine List.map_congr_left fun k hk => ?_
  obtain ⟨hak, hkb⟩ := List.mem_range'_1.mp hk
  have hne : k % cap ≠ n % cap := fun h => by
    have heq := (mod_eq_mod_iff (by omega) (by omega)).mp h
    omega
  exact Function.update_of_ne hne x slots

/-- Storing one more item. -/
theorem window_push (hab : a ≤ b) (hb : b < a + cap) (x : α) :
    window (Function.update slots (b % cap) x) cap a (b + 1) = window slots cap a b ++ [x] := by
  rw [window_succ hab, window_update le_rfl hb, Function.update_self]

end Window

end FreeRunning

end SystemProgramming
