import Mathlib.Data.List.Basic
import Mathlib.Data.List.Induction

/-!
# Typing a line

Keys are characters or erase the last character that is left. A line may have room for `cap`
characters only, and once they are there no key is read any more.

## Two specifications

`edited` is what a person expects who types and erases: the keys act one after the other on the
line, and there is no limit. `typed` has the limit, as a program with an array has it, and stops to
look at keys when the line is full, so that an erasing key has no effect any more either. The two
agree until the line is full for the first time.

## Main definitions

* `edit`, `edited` — one key, and a sequence of keys
* `press`, `typed` — the same, while there is room
* `isEraseKey` — the keys of a terminal that erase

## Main results

* `typed_concat` — the last key
* `typed_append_of_full` — a full line stays as it is
* `length_typed_le`, `length_typed_le_length`, `mem_of_mem_typed` — bounds, and where the characters
  come from
-/

namespace SystemProgramming

/-- The keys of a terminal that erase: DEL and backspace. -/
def isEraseKey (c : UInt8) : Bool := c == 127 || c == 8

variable {α : Type*} (isErase : α → Bool) (cap : ℕ)

/-- The line after one more key. -/
def edit (line : List α) (key : α) : List α :=
  if isErase key then line.dropLast else line ++ [key]

/-- The line that the keys leave. -/
def edited (keys : List α) : List α := keys.foldl (edit isErase) []

/-- The line after one more key, which is only read while there is room. -/
def press (line : List α) (key : α) : List α :=
  if cap ≤ line.length then line else edit isErase line key

/-- The line that the keys leave which are read. -/
def typed (keys : List α) : List α := keys.foldl (press isErase cap) []

variable {isErase cap} {line keys : List α} {key : α}

theorem press_of_full (h : cap ≤ line.length) : press isErase cap line key = line := if_pos h

theorem press_of_lt (h : line.length < cap) : press isErase cap line key = edit isErase line key :=
  if_neg (Nat.not_le.mpr h)

theorem edit_erase (hkey : isErase key = true) : edit isErase line key = line.dropLast :=
  if_pos hkey

theorem edit_char (hkey : isErase key = false) : edit isErase line key = line ++ [key] := by
  rw [edit, hkey]
  rfl

theorem length_edit (isErase : α → Bool) (line : List α) (key : α) :
    (edit isErase line key).length =
      if isErase key then line.length - 1 else line.length + 1 := by
  rw [edit]
  split_ifs
  · exact List.length_dropLast
  · exact List.length_append

theorem press_erase (h : line.length < cap) (hkey : isErase key = true) :
    press isErase cap line key = line.dropLast := by
  rw [press_of_lt h, edit_erase hkey]

theorem press_char (h : line.length < cap) (hkey : isErase key = false) :
    press isErase cap line key = line ++ [key] := by
  rw [press_of_lt h, edit_char hkey]

theorem edited_concat (keys : List α) (key : α) :
    edited isErase (keys ++ [key]) = edit isErase (edited isErase keys) key :=
  List.foldl_append

@[simp] theorem typed_nil : typed isErase cap [] = [] := rfl

theorem typed_append (keys more : List α) :
    typed isErase cap (keys ++ more) = more.foldl (press isErase cap) (typed isErase cap keys) :=
  List.foldl_append

theorem typed_concat (keys : List α) (key : α) :
    typed isErase cap (keys ++ [key]) = press isErase cap (typed isErase cap keys) key :=
  typed_append keys [key]

/-- **A full line** stays as it is. -/
theorem typed_append_of_full (h : cap ≤ (typed isErase cap keys).length) (more : List α) :
    typed isErase cap (keys ++ more) = typed isErase cap keys := by
  rw [typed_append]
  induction more with
  | nil => rfl
  | cons key more ih => rw [List.foldl_cons, press_of_full h, ih]

theorem length_press_le (h : line.length ≤ cap) : (press isErase cap line key).length ≤ cap := by
  rcases Nat.lt_or_eq_of_le h with hlt | heq
  · cases hkey : isErase key with
    | true =>
      rw [press_erase hlt hkey, List.length_dropLast]
      omega
    | false =>
      rw [press_char hlt hkey, List.length_append, List.length_singleton]
      omega
  · rw [press_of_full (Nat.le_of_eq heq.symm)]
    exact h

/-- The line never has more than `cap` characters. -/
theorem length_typed_le (keys : List α) : (typed isErase cap keys).length ≤ cap := by
  induction keys using List.reverseRecOn with
  | nil => exact Nat.zero_le cap
  | append_singleton keys key ih =>
    rw [typed_concat]
    exact length_press_le ih

theorem length_press_le_succ : (press isErase cap line key).length ≤ line.length + 1 := by
  rw [press]
  split
  · exact Nat.le_succ _
  · rw [length_edit]
    split <;> omega

/-- Nor more than there were keys. -/
theorem length_typed_le_length (keys : List α) :
    (typed isErase cap keys).length ≤ keys.length := by
  induction keys using List.reverseRecOn with
  | nil => exact Nat.le_refl 0
  | append_singleton keys key ih =>
    rw [typed_concat, List.length_append, List.length_singleton]
    exact Nat.le_trans length_press_le_succ (Nat.succ_le_succ ih)

/-- Every character of the line is one of the keys. -/
theorem mem_of_mem_typed {c : α} : c ∈ typed isErase cap keys → c ∈ keys := by
  induction keys using List.reverseRecOn with
  | nil => exact id
  | append_singleton keys key ih =>
    intro h
    rw [typed_concat, press, edit] at h
    rw [List.mem_append]
    split_ifs at h
    · exact Or.inl (ih h)
    · exact Or.inl (ih ((List.dropLast_subset _) h))
    · rcases List.mem_append.mp h with h | h
      · exact Or.inl (ih h)
      · exact Or.inr h

end SystemProgramming
