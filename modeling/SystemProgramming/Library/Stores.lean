import SystemProgramming.Library.CharArray

/-!
# Computations that store into arrays

A loop that fills `char array[n]` without a test of `n` does what it looks like as long as the
index stays below `n`, and is undefined from the first index on that does not. `Traced` keeps both
sides of that: the stores that were made, in order and up to the one outside if there is one, and
the result, which is missing exactly then, or when something else that is undefined came in
between.

`StopsOutside` says that nothing else did. It holds of each store and is kept by sequencing, so a
program built from stores has it for free, and what remains to be shown of it is its result.

## How it is used

A function of a program is written in the monad with `store` and `load` where the source has an
assignment or an access. It computes its result as the source does, and the log is a by-product. The
statement that the program is right as long as its arrays are large enough, and undefined
otherwise, is then: the result is the expected one or missing, and it is missing exactly when the
log has an access outside.

Local arrays begin without a value. Their bytes are of type `Option UInt8`, and a byte is there once
it has been assigned; to use one that is not there has no meaning either, and is logged like an
access outside (`load`).

## Main definitions

* `Traced`, `Traced.StopsOutside` — computations with a log, and that only stores end them early
* `store`, `storeAll`, `overwrite` — storing one byte, or several
* `load`, `strcmpCells`, `readCells` — reading bytes that may not have been assigned
-/

namespace SystemProgramming

/-- A computation that logs its stores. -/
structure Traced (ε α : Type) where
  log : List ε
  result : Option α

namespace Traced

variable {ε α β : Type}

instance : Monad (Traced ε) where
  pure a := ⟨[], some a⟩
  bind x f :=
    match x.result with
    | none => ⟨x.log, none⟩
    | some a => ⟨x.log ++ (f a).log, (f a).result⟩

/-- A step that stores nothing and may be undefined. -/
def ofOption (o : Option α) : Traced ε α := ⟨[], o⟩

@[simp] theorem result_pure (a : α) : (pure a : Traced ε α).result = some a := rfl

@[simp] theorem result_ofOption (o : Option α) : (ofOption o : Traced ε α).result = o := rfl

@[simp] theorem result_bind (x : Traced ε α) (f : α → Traced ε β) :
    (x >>= f).result = x.result.bind fun a => (f a).result := by
  obtain ⟨log, _ | a⟩ := x <;> rfl

/-! ### Stopping at a store outside -/

/-- The result is missing exactly when there was a store outside. -/
def StopsOutside (Inside : ε → Prop) (x : Traced ε α) : Prop :=
  x.result = none ↔ ∃ e ∈ x.log, ¬ Inside e

variable {Inside : ε → Prop}

theorem stopsOutside_pure (a : α) : (pure a : Traced ε α).StopsOutside Inside := by
  show some a = none ↔ ∃ e ∈ ([] : List ε), ¬ Inside e
  simp

theorem stopsOutside_ofOption {o : Option α} (h : o.isSome) :
    (ofOption o : Traced ε α).StopsOutside Inside := by
  obtain ⟨a, rfl⟩ := Option.isSome_iff_exists.mp h
  exact stopsOutside_pure a

theorem StopsOutside.bind {x : Traced ε α} {f : α → Traced ε β} (hx : x.StopsOutside Inside)
    (hf : ∀ a, x.result = some a → (f a).StopsOutside Inside) :
    (x >>= f).StopsOutside Inside := by
  obtain ⟨log, _ | a⟩ := x
  · exact ⟨fun _ => hx.mp rfl, fun _ => rfl⟩
  · have hlog : ∀ e ∈ log, Inside e := by
      intro e he
      by_contra hout
      exact absurd (hx.mpr ⟨e, he, hout⟩) (by simp)
    show (f a).result = none ↔ ∃ e ∈ log ++ (f a).log, ¬ Inside e
    refine Iff.trans (hf a rfl) ?_
    constructor
    · rintro ⟨e, he, hout⟩
      exact ⟨e, List.mem_append.mpr (Or.inr he), hout⟩
    · rintro ⟨e, he, hout⟩
      rcases List.mem_append.mp he with hleft | hright
      · exact absurd (hlog e hleft) hout
      · exact ⟨e, hright, hout⟩

theorem StopsOutside.inside_iff {x : Traced ε α} (h : x.StopsOutside Inside) :
    (∀ e ∈ x.log, Inside e) ↔ x.result.isSome := by
  rw [← Option.ne_none_iff_isSome]
  refine Iff.trans ?_ (not_congr h).symm
  simp only [not_exists, not_and, not_not]

/-! ### Stores -/

variable {n : ℕ} {place : ℕ → ε}

/-- `array[i] = c` -/
def store (place : ℕ → ε) (array : List β) (i : ℕ) (c : β) : Traced ε (List β) :=
  ⟨[place i], if i < array.length then some (array.set i c) else none⟩

/-- `array[i++] = c` for each `c`: the array and the index behind the last one. -/
def storeAll (place : ℕ → ε) : List β → List β → ℕ → Traced ε (List β × ℕ)
  | [], array, i => pure (array, i)
  | c :: cs, array, i => do
    let array ← store place array i c
    storeAll place cs array (i + 1)

/-- The array with `cs` written from index `i` on. -/
def overwrite (array : List β) (i : ℕ) (cs : List β) : List β :=
  array.take i ++ cs ++ array.drop (i + cs.length)

theorem length_overwrite {array cs : List β} {i : ℕ} (h : i + cs.length ≤ array.length) :
    (overwrite array i cs).length = array.length := by
  simp only [overwrite, List.length_append, List.length_take, List.length_drop]
  omega

@[simp] theorem overwrite_nil (array : List β) (i : ℕ) : overwrite array i [] = array := by
  simp [overwrite]

theorem overwrite_zero (array cs : List β) : overwrite array 0 cs = cs ++ array.drop cs.length := by
  simp [overwrite]

theorem set_eq_overwrite {array : List β} {i : ℕ} (c : β) (h : i < array.length) :
    array.set i c = overwrite array i [c] := by
  rw [List.set_eq_take_append_cons_drop, if_pos h, overwrite]
  simp

/-- Two pieces one behind the other. -/
theorem overwrite_overwrite {array cs : List β} {i : ℕ} (ds : List β)
    (h : i + cs.length ≤ array.length) :
    overwrite (overwrite array i cs) (i + cs.length) ds = overwrite array i (cs ++ ds) := by
  have htake : (array.take i ++ cs).length = i + cs.length := by
    rw [List.length_append, List.length_take_of_le (by omega)]
  have hrest : (array.take i ++ cs ++ array.drop (i + cs.length)).drop
      (i + cs.length + ds.length) = array.drop (i + (cs ++ ds).length) := by
    rw [← htake, ← List.drop_drop, List.drop_left, htake, List.drop_drop, List.length_append,
      Nat.add_assoc]
  rw [overwrite, overwrite, overwrite, hrest, ← htake, List.take_left]
  simp only [List.append_assoc]

theorem result_store (place : ℕ → ε) (array : List β) (i : ℕ) (c : β) :
    (store place array i c).result
      = if i < array.length then some (overwrite array i [c]) else none := by
  show (if i < array.length then some (array.set i c) else none) = _
  split
  · rw [set_eq_overwrite c ‹_›]
  · rfl

theorem result_storeAll (place : ℕ → ε) (cs : List β) : ∀ {array : List β} {i : ℕ},
    i ≤ array.length → (storeAll place cs array i).result
      = if i + cs.length ≤ array.length then some (overwrite array i cs, i + cs.length)
        else none := by
  induction cs with
  | nil =>
    intro array i hi
    rw [storeAll, result_pure, if_pos (by simpa using hi), overwrite_nil]
    rfl
  | cons c cs ih =>
    intro array i hi
    rw [storeAll, result_bind, result_store]
    by_cases hlt : i < array.length
    · have hlen : (overwrite array i [c]).length = array.length := length_overwrite hlt
      have happ : overwrite (overwrite array i [c]) (i + 1) cs = overwrite array i (c :: cs) :=
        overwrite_overwrite cs hlt
      have hsum : i + (c :: cs).length = i + 1 + cs.length := by
        rw [List.length_cons]
        omega
      rw [if_pos hlt, Option.bind_some, ih (by rw [hlen]; exact hlt), hlen, happ, hsum]
    · rw [if_neg hlt, if_neg (by rw [List.length_cons]; omega)]
      rfl

theorem stopsOutside_store (hplace : ∀ i, Inside (place i) ↔ i < n) {array : List β}
    (hlen : array.length = n) (i : ℕ) (c : β) :
    (store place array i c).StopsOutside Inside := by
  show (if i < array.length then some (array.set i c) else none) = none ↔
    ∃ e ∈ [place i], ¬ Inside e
  simp [hplace, hlen]

theorem stopsOutside_storeAll (hplace : ∀ i, Inside (place i) ↔ i < n) (cs : List β) :
    ∀ {array : List β}, array.length = n → ∀ i : ℕ,
      (storeAll place cs array i).StopsOutside Inside := by
  induction cs with
  | nil => exact fun _ _ => stopsOutside_pure _
  | cons c cs ih =>
    intro array hlen i
    refine (stopsOutside_store hplace hlen i c).bind fun array' ha => ih ?_ _
    rw [result_store] at ha
    split at ha
    · cases ha
      rw [length_overwrite ‹_›, hlen]
    · cases ha

/-! ### Arrays that need not be assigned

The bytes of an array are given from some index on; a byte that has not been assigned is missing.
`place` says of an access whether the byte was there. -/

section Cells

variable {place : ℕ → Bool → ε} {cells : List (Option UInt8)} {s : List UInt8}

/-- `array[i]`, for the array that has these bytes from `i` on. -/
def load (place : ℕ → Bool → ε) (cells : List (Option UInt8)) (i : ℕ) : Traced ε UInt8 :=
  ⟨[place i cells.head?.join.isSome], cells.head?.join⟩

/-- `strcmp(array + i, t) == 0` -/
def strcmpCells (place : ℕ → Bool → ε) :
    List (Option UInt8) → List UInt8 → ℕ → Traced ε Bool
  | cells, [], i => do return (← load place cells i) == 0
  | cells, c :: t, i => do
    if (← load place cells i) = c then strcmpCells place cells.tail t (i + 1) else return false

/-- The string at `array + i`, read up to its terminator. -/
def readCells (place : ℕ → Bool → ε) : List (Option UInt8) → ℕ → Traced ε (List UInt8)
  | [], i => do
    let _ ← load place [] i
    return []
  | cell :: cells, i => do
    let b ← load place (cell :: cells) i
    if b = 0 then return [] else do return b :: (← readCells place cells (i + 1))

/-- The bytes of a string with its terminator. -/
def stringCells (s : List UInt8) : List (Option UInt8) := (s ++ [0]).map some

@[simp] theorem length_stringCells (s : List UInt8) : (stringCells s).length = s.length + 1 := by
  simp [stringCells]

@[simp] theorem result_load (place : ℕ → Bool → ε) (cells : List (Option UInt8)) (i : ℕ) :
    (load place cells i).result = cells.head?.join := rfl

theorem stringCells_nil_append (pad : List (Option UInt8)) :
    stringCells [] ++ pad = some 0 :: pad := rfl

theorem stringCells_cons_append (b : UInt8) (s : List UInt8) (pad : List (Option UInt8)) :
    stringCells (b :: s) ++ pad = some b :: (stringCells s ++ pad) := rfl

theorem result_strcmpCells (place : ℕ → Bool → ε) (pad : List (Option UInt8)) :
    ∀ {t : List UInt8} (s : List UInt8) (i : ℕ), 0 ∉ t → 0 ∉ s →
      (strcmpCells place (stringCells s ++ pad) t i).result = some (s == t)
  | [], [], i, _, _ => rfl
  | [], b :: s, i, _, hs => by
    have hb : b ≠ 0 := fun hb => hs (hb ▸ List.mem_cons_self)
    rw [stringCells_cons_append, strcmpCells, result_bind, result_load, List.head?_cons]
    simpa using hb
  | c :: t, [], i, ht, _ => by
    have hc : ¬ (0 : UInt8) = c := fun hc => ht (hc ▸ List.mem_cons_self)
    rw [stringCells_nil_append, strcmpCells, result_bind, result_load, List.head?_cons]
    simp [hc]
  | c :: t, b :: s, i, ht, hs => by
    rw [stringCells_cons_append, strcmpCells, result_bind, result_load, List.head?_cons,
      List.tail_cons]
    by_cases hbc : b = c
    · have ht' : 0 ∉ t := fun h => ht (List.mem_cons_of_mem _ h)
      have hs' : 0 ∉ s := fun h => hs (List.mem_cons_of_mem _ h)
      simp [hbc, result_strcmpCells place pad s (i + 1) ht' hs']
    · simp [hbc]

theorem result_readCells (place : ℕ → Bool → ε) (pad : List (Option UInt8)) :
    ∀ (s : List UInt8) (i : ℕ), 0 ∉ s →
      (readCells place (stringCells s ++ pad) i).result = some s
  | [], i, _ => rfl
  | b :: s, i, hs => by
    have hb : b ≠ 0 := fun hb => hs (hb ▸ List.mem_cons_self)
    have hs' : 0 ∉ s := fun h => hs (List.mem_cons_of_mem _ h)
    rw [stringCells_cons_append, readCells, result_bind, result_load, List.head?_cons]
    simp [hb, result_readCells place pad s (i + 1) hs']

variable (hplace : ∀ i assigned, Inside (place i assigned) ↔ assigned = true)
include hplace

theorem stopsOutside_load (cells : List (Option UInt8)) (i : ℕ) :
    (load place cells i).StopsOutside Inside := by
  show cells.head?.join = none ↔ ∃ e ∈ [place i cells.head?.join.isSome], ¬ Inside e
  simp [hplace]

theorem stopsOutside_strcmpCells : ∀ (t : List UInt8) (cells : List (Option UInt8)) (i : ℕ),
    (strcmpCells place cells t i).StopsOutside Inside
  | [], cells, i => (stopsOutside_load hplace cells i).bind fun _ _ => stopsOutside_pure _
  | c :: t, cells, i => by
    refine (stopsOutside_load hplace cells i).bind fun b _ => ?_
    split
    · exact stopsOutside_strcmpCells t cells.tail (i + 1)
    · exact stopsOutside_pure _

theorem stopsOutside_readCells : ∀ (cells : List (Option UInt8)) (i : ℕ),
    (readCells place cells i).StopsOutside Inside
  | [], i => (stopsOutside_load hplace [] i).bind fun _ _ => stopsOutside_pure _
  | cell :: cells, i => by
    refine (stopsOutside_load hplace (cell :: cells) i).bind fun b _ => ?_
    split
    · exact stopsOutside_pure _
    · exact (stopsOutside_readCells cells (i + 1)).bind fun _ _ => stopsOutside_pure _

end Cells

end Traced

end SystemProgramming
