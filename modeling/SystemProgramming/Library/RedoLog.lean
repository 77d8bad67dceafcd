import Mathlib.Data.List.Nodup
import Mathlib.Logic.Function.Basic

/-!
# Redo logs

A store whose cells cannot be changed all at once is changed by a log: the new contents are
recorded first, and copied home afterwards. If the copying is interrupted, it is done again from
the beginning; whatever it has done before makes no difference.

## Why it may be done again

`redo` copies the entries in order, and the last one for a cell decides. To copy once more what has
been copied changes nothing, and neither does it matter what the cells contained before, if every
cell that may have been touched is in the log: a failure during the copying is made good by
copying from the beginning.

`Versions` has no log. It is what a user of the store can rely on, and an implementation with a log
is compared with it.

## Main definitions

* `redo` — the contents of a log, copied home
* `Versions` — what the log is for: changes that last all together or not at all

## Main results

* `redo_of_mem`, `redo_of_notMem` — what a cell contains afterwards
-/

namespace SystemProgramming

variable {α β : Type*}

section Redo

variable [DecidableEq α] {d : α → β} {ws : List (α × β)} {a : α} {v : β}

/-- Copy the contents of a log home, one after the other. -/
def redo (d : α → β) : List (α × β) → α → β
  | [] => d
  | w :: ws => redo (Function.update d w.1 w.2) ws

@[simp] theorem redo_nil (d : α → β) : redo d [] = d := rfl

@[simp] theorem redo_cons (d : α → β) (w : α × β) (ws : List (α × β)) :
    redo d (w :: ws) = redo (Function.update d w.1 w.2) ws := rfl

/-- What is not in the log stays. -/
theorem redo_of_notMem (h : ∀ w ∈ ws, w.1 ≠ a) : redo d ws a = d a := by
  induction ws generalizing d with
  | nil => rfl
  | cons w ws ih =>
    obtain ⟨hw, hws⟩ := List.forall_mem_cons.mp h
    rw [redo_cons, ih hws, Function.update_of_ne hw.symm]

/-- Where no cell occurs twice, a cell of the log has the contents recorded for it. -/
theorem redo_of_mem (hnodup : (ws.map Prod.fst).Nodup) (h : (a, v) ∈ ws) : redo d ws a = v := by
  induction ws generalizing d with
  | nil => exact absurd h List.not_mem_nil
  | cons w ws ih =>
    rw [List.map_cons, List.nodup_cons] at hnodup
    rcases List.mem_cons.mp h with rfl | hmem
    · have hrest : ∀ w ∈ ws, w.1 ≠ a := by
        rintro w hw rfl
        exact hnodup.1 (List.mem_map.mpr ⟨w, hw, rfl⟩)
      rw [redo_cons, redo_of_notMem hrest, Function.update_self]
    · exact ih hnodup.2 hmem

end Redo

/-! ### All together or not at all -/

/-- The contents of a store: those that a failure leaves behind, and those that are there now. -/
structure Versions (α β : Type*) where
  durable : α → β
  pending : α → β

namespace Versions

/-- Nothing has been changed since the last commit. -/
def clean (d : α → β) : Versions α β := ⟨d, d⟩

/-- A change that does not last yet. -/
def write [DecidableEq α] (c : Versions α β) (a : α) (v : β) : Versions α β :=
  { c with pending := Function.update c.pending a v }

@[simp] theorem durable_write [DecidableEq α] (c : Versions α β) (a : α) (v : β) :
    (c.write a v).durable = c.durable := rfl

@[simp] theorem pending_write [DecidableEq α] (c : Versions α β) (a : α) (v : β) :
    (c.write a v).pending = Function.update c.pending a v := rfl

/-- All changes last from now on. -/
def commit (c : Versions α β) : Versions α β := clean c.pending

/-- The changes that did not last yet are lost. -/
def fail (c : Versions α β) : Versions α β := clean c.durable

end Versions

end SystemProgramming
