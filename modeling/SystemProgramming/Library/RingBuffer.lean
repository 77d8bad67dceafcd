import Mathlib.Algebra.Order.Ring.Int
import Mathlib.Data.Int.ModEq
import Mathlib.Data.List.Range
import Mathlib.Logic.Function.Basic

/-!
# Circular buffers with a separate counter

An array of `cap` slots, the index of the oldest item, the index of the next free slot, and a
counter of the items held. The three numbers are redundant, and every operation updates two of
them; `Valid` is the agreement between them, and under it the buffer *is* the list `toList` of
its items, oldest first: `put` appends to that list and `take` removes its head.

The slots are a function on all indices. That only indices below `cap` are ever used is part of
what `Valid` says, not of the type.

## What is redundant

The position of the next free slot follows from that of the oldest item and the counter; a program
keeps it to save an addition. What makes the three agree is that `put` changes the last two and
`take` the first and the last. An operation that is interrupted between its two updates, or made
where there is no room, breaks the agreement, and `Valid` says so.

The counter is an integer, as it is a signed number in programs. That it is never negative is part
of what has to be shown.

## Main results

* `RingBuffer.Valid.put`, `RingBuffer.Valid.take` — the agreement is kept
* `RingBuffer.toList_put`, `RingBuffer.toList_take` — the operations on the abstract queue
-/

namespace SystemProgramming

/-- The fields of a circular buffer, as a program keeps them. -/
structure RingBuffer (α : Type*) where
  /-- The array. -/
  slots : ℕ → α
  /-- Where the oldest item is. -/
  front : ℕ
  /-- Where the next item goes. -/
  rear : ℕ
  /-- How many items there are. -/
  count : ℤ

namespace RingBuffer

variable {α : Type*} {cap : ℕ}

/-- All indices zero, every slot holding `x`: a zero-initialised global. -/
def empty (x : α) : RingBuffer α := ⟨fun _ => x, 0, 0, 0⟩

/-- Store at `rear`, advance `rear`, count one more. -/
def put (cap : ℕ) (r : RingBuffer α) (x : α) : RingBuffer α :=
  { r with
    slots := Function.update r.slots r.rear x
    rear := (r.rear + 1) % cap
    count := r.count + 1 }

/-- Read at `front`, advance `front`, count one less. -/
def take (cap : ℕ) (r : RingBuffer α) : α × RingBuffer α :=
  (r.slots r.front, { r with front := (r.front + 1) % cap, count := r.count - 1 })

/-- The agreement between the indices and the counter. -/
structure Valid (cap : ℕ) (r : RingBuffer α) : Prop where
  /-- The oldest item is inside the array. -/
  front_lt : r.front < cap
  /-- The next free slot is `count` slots further on. -/
  rear_eq : (r.rear : ℤ) = (r.front + r.count) % cap
  count_nonneg : 0 ≤ r.count
  count_le : r.count ≤ cap

/-- The items held, oldest first. -/
def toList (cap : ℕ) (r : RingBuffer α) : List α :=
  (List.range r.count.toNat).map fun i => r.slots ((r.front + i) % cap)

@[simp] theorem length_toList (r : RingBuffer α) : (r.toList cap).length = r.count.toNat := by
  simp [toList]

theorem getElem?_toList (r : RingBuffer α) {i : ℕ} (hi : (i : ℤ) < r.count) :
    (r.toList cap)[i]? = some (r.slots ((r.front + i) % cap)) := by
  have hlt : i < r.count.toNat := by omega
  simp [toList, hlt]

theorem toList_eq_nil {r : RingBuffer α} (h : r.count ≤ 0) : r.toList cap = [] := by
  simp [toList, Int.toNat_eq_zero.mpr h]

@[simp] theorem toList_empty (x : α) : (empty x).toList cap = [] := toList_eq_nil le_rfl

theorem valid_empty (hcap : 0 < cap) (x : α) : (empty x).Valid cap :=
  ⟨hcap, by simp [empty], le_rfl, by simp [empty]⟩

theorem Valid.rear_eq_nat {r : RingBuffer α} (h : r.Valid cap) :
    r.rear = (r.front + r.count.toNat) % cap := by
  have hrear := h.rear_eq
  rw [← Int.toNat_of_nonneg h.count_nonneg] at hrear
  exact_mod_cast hrear

/-- Storing one more item keeps the agreement, provided there is room. -/
theorem Valid.put {r : RingBuffer α} (h : r.Valid cap) (hroom : r.count < cap) (x : α) :
    (r.put cap x).Valid cap where
  front_lt := h.front_lt
  rear_eq := by
    show (((r.rear + 1) % cap : ℕ) : ℤ) = (r.front + (r.count + 1)) % cap
    push_cast
    rw [h.rear_eq, Int.emod_add_emod, add_assoc]
  count_nonneg := by
    have := h.count_nonneg
    show 0 ≤ r.count + 1
    omega
  count_le := by
    show r.count + 1 ≤ cap
    omega

/-- Removing an item keeps the agreement, provided there is one. -/
theorem Valid.take {r : RingBuffer α} (h : r.Valid cap) (hpos : 0 < r.count) :
    (r.take cap).2.Valid cap where
  front_lt := Nat.mod_lt _ (Nat.lt_of_le_of_lt (Nat.zero_le _) h.front_lt)
  rear_eq := by
    show (r.rear : ℤ) = (((r.front + 1) % cap : ℕ) + (r.count - 1)) % cap
    push_cast
    rw [h.rear_eq, Int.emod_add_emod]
    congr 1
    omega
  count_nonneg := by
    show 0 ≤ r.count - 1
    omega
  count_le := by
    have := h.count_le
    show r.count - 1 ≤ cap
    omega

/-- Distinct offsets within the array are distinct slots. -/
theorem slot_injective {front i j : ℕ} (hi : i < cap) (hj : j < cap)
    (h : (front + i) % cap = (front + j) % cap) : i = j := by
  have hmod : Nat.ModEq cap i j := Nat.ModEq.add_left_cancel' front h
  exact Nat.ModEq.eq_of_lt_of_lt hmod hi hj

/-- **Storing appends.** The slot written is none of those that hold an item. -/
theorem toList_put {r : RingBuffer α} (h : r.Valid cap) (hroom : r.count < cap) (x : α) :
    (r.put cap x).toList cap = r.toList cap ++ [x] := by
  have hsucc : (r.count + 1).toNat = r.count.toNat + 1 := by have := h.count_nonneg; omega
  have hrear := h.rear_eq_nat
  have hne : ∀ i < r.count.toNat, (r.front + i) % cap ≠ r.rear := by
    intro i hi heq
    rw [hrear] at heq
    have := slot_injective (by omega) (by omega) heq
    omega
  simp only [toList, put, hsucc, List.range_succ, List.map_append, List.map_cons, List.map_nil]
  congr 1
  · refine List.map_congr_left fun i hi => ?_
    rw [Function.update_of_ne (hne i (List.mem_range.mp hi))]
  · rw [← hrear, Function.update_self]

/-- **Removing takes the head.** -/
theorem toList_take {r : RingBuffer α} (hpos : 0 < r.count) :
    r.toList cap = r.slots (r.front % cap) :: (r.take cap).2.toList cap := by
  have hsucc : r.count.toNat = (r.count - 1).toNat + 1 := by omega
  simp only [toList, take, hsucc, List.range_succ_eq_map, List.map_cons, List.map_map]
  congr 1
  refine List.map_congr_left fun i _ => ?_
  simp only [Function.comp_apply, Nat.mod_add_mod]
  congr 2
  omega

theorem toList_eq_take_cons {r : RingBuffer α} (h : r.Valid cap) (hpos : 0 < r.count) :
    r.toList cap = (r.take cap).1 :: (r.take cap).2.toList cap := by
  rw [toList_take hpos, Nat.mod_eq_of_lt h.front_lt]
  rfl

end RingBuffer

end SystemProgramming
