import Mathlib.Data.List.Basic
import Mathlib.Data.Finset.Card
import Mathlib.Data.Finset.Dedup

/-!
# Bounded ordered maps

A finite map kept as a list of its entries, in the order in which their keys were first put, with
room for `cap` of them. Putting a key that is there changes its value in place; putting a new key
appends it, unless the map is full, and then the map stays as it is.

## Why a list

The order matters to the programs that keep such maps: they search from the front, list their
entries in order, and refuse a new key when the last place is taken. A function from keys to values
would forget all of that. What is lost is extensionality, as two lists with the same entries in
another order are different maps; nothing here needs it.

An insertion that is refused leaves no trace, so the map after a history is not the fold of the
history with `put`. But the keys that are refused are those that come after the first `cap` ones,
and the values of the others are not affected. That is how `keys_insertAll` and `find_insertAll`
describe the map by its history alone.

## Main definitions

* `BoundedMap.find` — looking up
* `BoundedMap.put`, `BoundedMap.insert` — putting, without and with regard to the room
* `BoundedMap.Fits` — no key twice, and the keys among some others that are few enough
* `BoundedMap.insertAll` — the map after a sequence of insertions

## Main results

* `find_put_self`, `find_put_of_ne` — what is found after putting
* `Fits.insert_eq_put`, `Fits.put` — while few keys are in use, nothing is ever refused
* `keys_insertAll`, `find_insertAll` — a map after a sequence of insertions, said by the sequence
-/

namespace SystemProgramming

namespace BoundedMap

variable {κ ν : Type*} [DecidableEq κ]

/-- The keys, in order. -/
def keys (m : List (κ × ν)) : List κ := m.map Prod.fst

/-- The value of `k`. -/
def find (k : κ) : List (κ × ν) → Option ν
  | [] => none
  | (l, w) :: m => if l = k then some w else find k m

/-- Change the value of `k` in place, or append the entry. -/
def put (k : κ) (v : ν) : List (κ × ν) → List (κ × ν)
  | [] => [(k, v)]
  | (l, w) :: m => if l = k then (l, v) :: m else (l, w) :: put k v m

/-- `put`, unless that needs an entry more than there is room for. -/
def insert (cap : ℕ) (k : κ) (v : ν) (m : List (κ × ν)) : List (κ × ν) :=
  if k ∈ keys m ∨ m.length < cap then put k v m else m

theorem find_put_self (k : κ) (v : ν) : ∀ m : List (κ × ν), find k (put k v m) = some v
  | [] => by simp [put, find]
  | (l, w) :: m => by
    rw [put]
    by_cases hl : l = k
    · rw [if_pos hl, find, if_pos hl]
    · rw [if_neg hl, find, if_neg hl, find_put_self k v m]

theorem find_put_of_ne {k l : κ} (h : l ≠ k) (v : ν) :
    ∀ m : List (κ × ν), find l (put k v m) = find l m
  | [] => by simp [put, find, Ne.symm h]
  | (l', w) :: m => by
    rw [put]
    by_cases hl : l' = k
    · rw [if_pos hl, find, find, if_neg (hl ▸ Ne.symm h), if_neg (hl ▸ Ne.symm h)]
    · rw [if_neg hl, find, find, find_put_of_ne h v m]

theorem keys_put_of_mem {k : κ} (v : ν) : ∀ {m : List (κ × ν)}, k ∈ keys m →
    keys (put k v m) = keys m
  | (l, w) :: m, h => by
    rw [put]
    split
    · rfl
    · rename_i hl
      have hm : k ∈ keys m := by
        rcases List.mem_cons.mp h with hk | hk
        · exact absurd hk.symm hl
        · exact hk
      show l :: keys (put k v m) = l :: keys m
      rw [keys_put_of_mem v hm]

theorem keys_put_of_notMem {k : κ} (v : ν) : ∀ {m : List (κ × ν)}, k ∉ keys m →
    keys (put k v m) = keys m ++ [k]
  | [], _ => rfl
  | (l, w) :: m, h => by
    have hl : l ≠ k := fun hl => h (List.mem_cons.mpr (Or.inl hl.symm))
    have hm : k ∉ keys m := fun hm => h (List.mem_cons_of_mem _ hm)
    rw [put, if_neg hl]
    show l :: keys (put k v m) = l :: keys m ++ [k]
    rw [keys_put_of_notMem v hm, List.cons_append]

/-! ### By position

What a linear search for the key sees. -/

/-- The first position with the key. -/
def position (k : κ) (m : List (κ × ν)) : Option ℕ :=
  m.findIdx? fun e => e.1 = k

theorem position_eq_none_iff {k : κ} {m : List (κ × ν)} : position k m = none ↔ k ∉ keys m := by
  rw [position, List.findIdx?_eq_none_iff, keys, List.mem_map]
  constructor
  · rintro h ⟨e, he, rfl⟩
    simpa using h e he
  · intro h e he
    simpa using fun hk => h ⟨e, he, hk⟩

theorem put_of_position_eq_none {k : κ} (v : ν) : ∀ {m : List (κ × ν)}, position k m = none →
    put k v m = m ++ [(k, v)]
  | [], _ => rfl
  | (l, w) :: m, h => by
    have hk := position_eq_none_iff.mp h
    have hl : l ≠ k := fun hl => hk (List.mem_cons.mpr (Or.inl hl.symm))
    have hm : position k m = none :=
      position_eq_none_iff.mpr fun hm => hk (List.mem_cons_of_mem _ hm)
    rw [put, if_neg hl, put_of_position_eq_none v hm, List.cons_append]

theorem put_of_position_eq_some {k : κ} (v : ν) : ∀ {m : List (κ × ν)} {i : ℕ},
    position k m = some i → put k v m = m.modify i fun e => (e.1, v)
  | (l, w) :: m, i, h => by
    rw [position, List.findIdx?_cons] at h
    rw [put]
    split at h
    · rename_i hl
      cases h
      rw [if_pos (by simpa using hl)]
      rfl
    · rename_i hl
      obtain ⟨j, hj, rfl⟩ := Option.map_eq_some_iff.mp h
      rw [if_neg (by simpa using hl), put_of_position_eq_some v hj]
      rfl

theorem find_eq_none_iff {k : κ} : ∀ {m : List (κ × ν)}, find k m = none ↔ k ∉ keys m
  | [] => by simp [find, keys]
  | (l, w) :: m => by
    rw [find]
    by_cases hl : l = k
    · simp [hl, keys]
    · rw [if_neg hl, find_eq_none_iff]
      simp [keys, Ne.symm hl]

theorem find_eq_of_position {k : κ} : ∀ m : List (κ × ν),
    find k m = (position k m).bind fun i => m[i]?.map Prod.snd
  | [] => rfl
  | (l, w) :: m => by
    rw [find, position, List.findIdx?_cons]
    by_cases hl : l = k
    · simp [hl]
    · rw [if_neg hl, find_eq_of_position m, if_neg (by simpa using hl), position,
        Option.bind_map]
      rfl

/-! ### Room -/

/-- No key twice, and no key outside `names`. -/
structure Fits (names : Finset κ) (m : List (κ × ν)) : Prop where
  nodup : (keys m).Nodup
  subset : ∀ k ∈ keys m, k ∈ names

omit [DecidableEq κ] in
theorem fits_nil (names : Finset κ) : Fits names ([] : List (κ × ν)) :=
  ⟨List.nodup_nil, by simp [keys]⟩

omit [DecidableEq κ] in
theorem Fits.mono {names names' : Finset κ} {m : List (κ × ν)} (h : Fits names m)
    (hsub : names ⊆ names') : Fits names' m :=
  ⟨h.nodup, fun k hk => hsub (h.subset k hk)⟩

/-- Putting one of the names. -/
theorem Fits.put {names : Finset κ} {m : List (κ × ν)} (h : Fits names m) {k : κ} (hk : k ∈ names)
    (v : ν) : Fits names (put k v m) := by
  by_cases hm : k ∈ keys m
  · exact ⟨by rw [keys_put_of_mem v hm]; exact h.nodup, by
      rw [keys_put_of_mem v hm]; exact h.subset⟩
  · constructor
    · rw [keys_put_of_notMem v hm, List.nodup_append]
      refine ⟨h.nodup, List.nodup_singleton k, ?_⟩
      rintro a ha b hb rfl
      exact hm (List.mem_singleton.mp hb ▸ ha)
    · rw [keys_put_of_notMem v hm]
      intro l hl
      rcases List.mem_append.mp hl with hl | hl
      · exact h.subset l hl
      · exact List.mem_singleton.mp hl ▸ hk

theorem Fits.length_le {names : Finset κ} {m : List (κ × ν)} (h : Fits names m) :
    m.length ≤ names.card := by
  have hcard := List.toFinset_card_of_nodup h.nodup
  have hlen : (keys m).length = m.length := List.length_map _
  have hsub : (keys m).toFinset ⊆ names := fun k hk => h.subset k (List.mem_toFinset.mp hk)
  have hle := Finset.card_le_card hsub
  omega

/-- **Nothing is refused** while the names are fewer than there is room for. -/
theorem Fits.insert_eq_put {cap : ℕ} {names : Finset κ} {m : List (κ × ν)} (h : Fits names m)
    (hcap : names.card < cap) (k : κ) (v : ν) : insert cap k v m = BoundedMap.put k v m :=
  if_pos (Or.inr (h.length_le.trans_lt hcap))

/-! ### Histories

What a map looks like after a sequence of insertions, said by the sequence. -/

/-- The map after some insertions into the empty one. -/
def insertAll (cap : ℕ) (l : List (κ × ν)) : List (κ × ν) :=
  l.foldl (fun m e => insert cap e.1 e.2 m) []

/-- The keys of a sequence in the order in which they first occur. -/
def firstKeys (l : List (κ × ν)) : List κ := (keys l).eraseDups

/-- The value that comes last with a key. -/
def lastValue (k : κ) (l : List (κ × ν)) : Option ν :=
  (l.filter fun e => e.1 = k).getLast?.map Prod.snd

theorem insertAll_append (cap : ℕ) (l : List (κ × ν)) (e : κ × ν) :
    insertAll cap (l ++ [e]) = insert cap e.1 e.2 (insertAll cap l) := by
  simp [insertAll]

theorem firstKeys_append (l : List (κ × ν)) (e : κ × ν) :
    firstKeys (l ++ [e]) = if e.1 ∈ firstKeys l then firstKeys l else firstKeys l ++ [e.1] := by
  have hmem : e.1 ∈ firstKeys l ↔ e.1 ∈ keys l := List.mem_eraseDups
  rw [firstKeys, keys, List.map_append, List.eraseDups_append]
  by_cases he : e.1 ∈ keys l
  · have hgone : ([e].map Prod.fst).removeAll (l.map Prod.fst) = [] := by
      simp [List.cons_removeAll, show e.1 ∈ l.map Prod.fst from he]
    rw [if_pos (hmem.mpr he), hgone]
    simp [firstKeys, keys]
  · have hkept : ([e].map Prod.fst).removeAll (l.map Prod.fst) = [e.1] := by
      simp [List.cons_removeAll, show e.1 ∉ l.map Prod.fst from he]
    rw [if_neg (fun h => he (hmem.mp h)), hkept]
    rfl

theorem lastValue_append_self (k : κ) (v : ν) (l : List (κ × ν)) :
    lastValue k (l ++ [(k, v)]) = some v := by
  simp [lastValue]

theorem lastValue_append_of_ne {k k' : κ} (h : k' ≠ k) (v : ν) (l : List (κ × ν)) :
    lastValue k (l ++ [(k', v)]) = lastValue k l := by
  simp [lastValue, h]

theorem nodup_firstKeys (l : List (κ × ν)) : (firstKeys l).Nodup := by
  induction l using List.reverseRecOn with
  | nil => exact List.nodup_nil
  | append_singleton l e ih =>
    rw [firstKeys_append]
    split
    · exact ih
    · rename_i hnew
      rw [List.nodup_append]
      refine ⟨ih, List.nodup_singleton _, ?_⟩
      rintro a ha b hb rfl
      exact hnew (List.mem_singleton.mp hb ▸ ha)

/-- **The keys** are the first ones that were inserted, in that order. -/
theorem keys_insertAll (cap : ℕ) (l : List (κ × ν)) :
    keys (insertAll cap l) = (firstKeys l).take cap := by
  induction l using List.reverseRecOn with
  | nil => simp [insertAll, firstKeys, keys]
  | append_singleton l e ih =>
    have hlen : (insertAll cap l).length = min cap (firstKeys l).length := by
      have hmap : (keys (insertAll cap l)).length = (insertAll cap l).length := List.length_map _
      rw [← hmap, ih, List.length_take]
    rw [insertAll_append, insert, firstKeys_append]
    by_cases hmem : e.1 ∈ keys (insertAll cap l)
    · have hfirst : e.1 ∈ firstKeys l := List.mem_of_mem_take (ih ▸ hmem)
      rw [if_pos (Or.inl hmem), keys_put_of_mem _ hmem, if_pos hfirst, ih]
    · by_cases hroom : (insertAll cap l).length < cap
      · have hall : (firstKeys l).take cap = firstKeys l := List.take_of_length_le (by omega)
        have hfirst : e.1 ∉ firstKeys l := by
          rwa [ih, hall] at hmem
        rw [if_pos (Or.inr hroom), keys_put_of_notMem _ hmem, if_neg hfirst, ih, hall,
          List.take_of_length_le]
        rw [List.length_append, List.length_singleton]
        omega
      · rw [if_neg (by simp [hmem, hroom]), ih]
        split
        · rfl
        · rw [List.take_append_of_le_length (by omega)]

/-- **The value** of a key is the one inserted last, also after insertions that were refused. -/
theorem find_insertAll (cap : ℕ) (l : List (κ × ν)) : ∀ {k : κ}, k ∈ keys (insertAll cap l) →
    find k (insertAll cap l) = lastValue k l := by
  induction l using List.reverseRecOn with
  | nil => simp [insertAll, keys]
  | append_singleton l e ih =>
    intro k hk
    obtain ⟨k', v⟩ := e
    rw [insertAll_append] at hk ⊢
    rw [insert] at hk ⊢
    by_cases hput : k' ∈ keys (insertAll cap l) ∨ (insertAll cap l).length < cap
    · rw [if_pos hput] at hk ⊢
      rcases eq_or_ne k' k with rfl | hne
      · rw [find_put_self, lastValue_append_self]
      · rw [find_put_of_ne hne.symm, lastValue_append_of_ne hne]
        refine ih ?_
        by_cases hmem : k' ∈ keys (insertAll cap l)
        · rwa [keys_put_of_mem v hmem] at hk
        · rw [keys_put_of_notMem v hmem] at hk
          rcases List.mem_append.mp hk with hold | hnew
          · exact hold
          · exact absurd (List.mem_singleton.mp hnew).symm hne
    · rw [if_neg hput] at hk ⊢
      have hne : k' ≠ k := by
        rintro rfl
        exact hput (Or.inl hk)
      rw [lastValue_append_of_ne hne, ih hk]

/-- An entry of a map without repeated keys is what looking its key up finds. -/
theorem find_of_getElem? {k : κ} {v : ν} : ∀ {m : List (κ × ν)} {i : ℕ}, (keys m).Nodup →
    m[i]? = some (k, v) → find k m = some v
  | (l, w) :: m, 0, _, h => by
    cases h
    rw [find, if_pos rfl]
  | (l, w) :: m, i + 1, hnodup, h => by
    have hnodup' := List.nodup_cons.mp hnodup
    have hk : k ∈ keys m := List.mem_map.mpr ⟨(k, v), List.mem_of_getElem? h, rfl⟩
    have hne : l ≠ k := by
      rintro rfl
      exact hnodup'.1 hk
    rw [find, if_neg hne]
    exact find_of_getElem? hnodup'.2 h

end BoundedMap

end SystemProgramming
