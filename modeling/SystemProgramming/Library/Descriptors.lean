import Mathlib.Data.Set.Insert
import Mathlib.Order.BooleanAlgebra.Set
import Mathlib.Logic.Function.Basic

/-!
# Descriptor tables

The table of a process: which open file a descriptor refers to. What a call does to it is said
through the set of descriptors that hold a file.

## Sets of descriptors

An end of a pipe is closed in a process when no descriptor of it refers to it any more, and not
when a particular one has been closed. So what the calls do is said by the set `holding`: to install
a file adds one descriptor, to close takes one away, and `dup2` does both, for two files. A sequence
of calls is followed by rewriting with these sets, and to hold nothing is to have the empty set.

## Main definitions

* `Table` — a descriptor table
* `Table.install`, `Table.close`, `Table.dup2` — the calls
* `Table.IsLowestFree` — the descriptor that a call hands out
* `Table.holding` — the descriptors of a file
-/

namespace SystemProgramming

/-- The open file of every descriptor; `none` is a closed descriptor. -/
def Table (F : Type*) := ℕ → Option F

namespace Table

variable {F : Type*} {t : Table F} {f g : F} {fd old new : ℕ}

/-- The table of a process that has ended. -/
def empty : Table F := fun _ => none

/-- The descriptor refers to the file. -/
def install (t : Table F) (fd : ℕ) (f : F) : Table F := Function.update t fd (some f)

/-- `close(fd)` -/
def close (t : Table F) (fd : ℕ) : Table F := Function.update t fd none

/-- `dup2(old, new)`: nothing happens when `old` is not open. -/
def dup2 (t : Table F) (old new : ℕ) : Table F :=
  match t old with
  | some f => t.install new f
  | none => t

def IsOpen (t : Table F) (fd : ℕ) : Prop := t fd ≠ none

instance (t : Table F) : DecidablePred t.IsOpen := fun _ => inferInstanceAs (Decidable (¬ _ = none))

/-- The descriptor is the lowest one that is not open. -/
def IsLowestFree (t : Table F) (fd : ℕ) : Prop := ¬ t.IsOpen fd ∧ ∀ k < fd, t.IsOpen k

instance (t : Table F) : DecidablePred t.IsLowestFree :=
  fun _ => inferInstanceAs (Decidable (_ ∧ _))

/-- The descriptors that refer to the file. -/
def holding (t : Table F) (f : F) : Set ℕ := {fd | t fd = some f}

theorem mem_holding : fd ∈ t.holding f ↔ t fd = some f := Iff.rfl

@[simp] theorem install_same : t.install fd f fd = some f := Function.update_self ..

@[simp] theorem install_of_ne (h : new ≠ fd) : t.install fd f new = t new :=
  Function.update_of_ne h ..

@[simp] theorem close_same : t.close fd fd = none := Function.update_self ..

@[simp] theorem close_of_ne (h : new ≠ fd) : t.close fd new = t new := Function.update_of_ne h ..

/-- A descriptor that is not open lies above those that are. -/
theorem le_of_not_isOpen {n : ℕ} (hopen : ∀ k < n, t.IsOpen k) (hfree : ¬ t.IsOpen fd) :
    n ≤ fd := by
  by_contra hlt
  exact hfree (hopen fd (Nat.lt_of_not_le hlt))

theorem IsOpen.install {k : ℕ} (h : t.IsOpen k) : (t.install fd f).IsOpen k := by
  by_cases hk : k = fd
  · simp [IsOpen, hk]
  · rwa [IsOpen, install_of_ne hk]

theorem dup2_of_mem (h : old ∈ t.holding f) : t.dup2 old new = t.install new f := by
  rw [dup2, mem_holding.mp h]

theorem dup2_of_ne {k : ℕ} (h : k ≠ new) : t.dup2 old new k = t k := by
  rw [dup2]
  cases t old with
  | none => rfl
  | some f => exact install_of_ne h

@[simp] theorem holding_empty : (empty : Table F).holding f = ∅ := by
  ext fd
  simp [mem_holding, empty]

theorem holding_install_self : (t.install fd f).holding f = insert fd (t.holding f) := by
  ext k
  by_cases hk : k = fd
  · simp [mem_holding, hk]
  · simp [mem_holding, hk]

theorem holding_install_of_ne (h : f ≠ g) : (t.install fd f).holding g = t.holding g \ {fd} := by
  ext k
  by_cases hk : k = fd
  · simp [mem_holding, hk, h]
  · simp [mem_holding, hk]

theorem holding_close : (t.close fd).holding f = t.holding f \ {fd} := by
  ext k
  by_cases hk : k = fd
  · simp [mem_holding, hk]
  · simp [mem_holding, hk]

/-- No call gives a process a file that it does not hold. -/
theorem holding_dup2_eq_empty (h : t.holding f = ∅) : (t.dup2 old new).holding f = ∅ := by
  rw [dup2]
  split
  · rename_i g hold
    have hne : g ≠ f := by
      rintro rfl
      exact Set.eq_empty_iff_forall_notMem.mp h old hold
    rw [holding_install_of_ne hne, h, Set.empty_sdiff]
  · exact h

end Table

end SystemProgramming
