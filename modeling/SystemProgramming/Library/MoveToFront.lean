import Mathlib.Data.List.Induction
import Mathlib.Data.List.Nodup

/-!
# A list that puts what is used in front

Whenever an element is used it is moved to the front of a list. Then the list is sorted by the last
use of its elements, and what is found first from the back of it is what has not been used for
longest.

## The order

No clock is kept: that an element is in front of another says which of them was used later, and
nothing else does. Elements that have not been used keep the order that they had at the beginning,
behind all others, so the order is said relative to the first list (`UsedLater R`). That the list is
sorted so is kept by every use; that the search from the back finds what was used longest ago among
the elements with a property is then a fact about sorted lists.

## Main definitions

* `moveToFront` — the list after some uses
* `lastUse` — when an element was used last
* `UsedLater` — of two elements, which was used later

## Main results

* `pairwise_moveToFront` — the list is sorted by the last use
* `usedLater_of_find?` — what is found from the back of the list
-/

namespace SystemProgramming

variable {α : Type*} [DecidableEq α]

/-- The list after elements have been used, in this order. -/
def moveToFront (order used : List α) : List α := used.foldl (fun l i => i :: l.erase i) order

/-- Behind how many uses the element was used last, counting that one; 0 if it was not used. -/
def lastUse (used : List α) (i : α) : ℕ := (used.reverse.dropWhile (· ≠ i)).length

/-- Element `i` was used later than `j`, or it stands before `j` and none of them was used. -/
def UsedLater (R : α → α → Prop) (used : List α) (i j : α) : Prop :=
  lastUse used j < lastUse used i ∨ lastUse used j = lastUse used i ∧ R i j

variable {order used : List α} {a i j : α} {R : α → α → Prop}

theorem moveToFront_append (used used' : List α) :
    moveToFront order (used ++ used') = moveToFront (moveToFront order used) used' :=
  List.foldl_append

theorem moveToFront_concat :
    moveToFront order (used ++ [a]) = a :: (moveToFront order used).erase a :=
  moveToFront_append used [a]

theorem lastUse_concat_self : lastUse (used ++ [a]) a = used.length + 1 := by
  rw [lastUse, List.reverse_append, List.reverse_singleton, List.singleton_append,
    List.dropWhile_cons_of_neg (by simp), List.length_cons, List.length_reverse]

theorem lastUse_concat_of_ne (h : i ≠ a) : lastUse (used ++ [a]) i = lastUse used i := by
  rw [lastUse, List.reverse_append, List.reverse_singleton, List.singleton_append,
    List.dropWhile_cons_of_pos (by simpa using h.symm), lastUse]

theorem lastUse_le : lastUse used i ≤ used.length := by
  rw [lastUse]
  exact Nat.le_trans (List.dropWhile_sublist _).length_le (Nat.le_of_eq List.length_reverse)

theorem nodup_moveToFront (h : order.Nodup) : (moveToFront order used).Nodup := by
  induction used using List.reverseRecOn with
  | nil => exact h
  | append_singleton used a ih =>
    rw [moveToFront_concat]
    exact List.nodup_cons.mpr ⟨ih.not_mem_erase, ih.erase a⟩

/-- **The list is sorted by the last use.** -/
theorem pairwise_moveToFront (hnodup : order.Nodup) (h : order.Pairwise R) :
    (moveToFront order used).Pairwise (UsedLater R used) := by
  induction used using List.reverseRecOn with
  | nil => exact h.imp fun hR => .inr ⟨rfl, hR⟩
  | append_singleton used a ih =>
    have hne : ∀ i ∈ (moveToFront order used).erase a, i ≠ a := by
      rintro i hi rfl
      exact (nodup_moveToFront hnodup).not_mem_erase hi
    rw [moveToFront_concat]
    refine List.pairwise_cons.mpr ⟨fun i hi => .inl ?_, ?_⟩
    · rw [lastUse_concat_self, lastUse_concat_of_ne (hne i hi)]
      exact Nat.lt_succ_of_le lastUse_le
    · refine (ih.sublist List.erase_sublist).imp_of_mem fun hi hj hlater => ?_
      rw [UsedLater, lastUse_concat_of_ne (hne _ hi), lastUse_concat_of_ne (hne _ hj)]
      exact hlater

/-- What is found first from the back was used before all else that could have been found. -/
theorem usedLater_of_find? {p : α → Bool} (hnodup : order.Nodup) (h : order.Pairwise R)
    (hfind : (moveToFront order used).reverse.find? p = some i)
    (hj : j ∈ moveToFront order used) (hp : p j = true) (hne : j ≠ i) : UsedLater R used j i := by
  obtain ⟨-, as, bs, heq, has⟩ := List.find?_eq_some_iff_append.mp hfind
  have horder : moveToFront order used = bs.reverse ++ i :: as.reverse := by
    rw [← List.reverse_reverse (moveToFront order used), heq]
    simp
  have hpairwise : (moveToFront order used).Pairwise (UsedLater R used) :=
    pairwise_moveToFront hnodup h
  rw [horder] at hj hpairwise
  have hbs : j ∈ bs.reverse := by
    rcases List.mem_append.mp hj with hj | hj
    · exact hj
    · rcases List.mem_cons.mp hj with hj | hj
      · exact absurd hj hne
      · have hnot := has j (List.mem_reverse.mp hj)
        rw [hp] at hnot
        cases hnot
  exact (List.pairwise_append.mp hpairwise).2.2 j hbs i List.mem_cons_self

end SystemProgramming
