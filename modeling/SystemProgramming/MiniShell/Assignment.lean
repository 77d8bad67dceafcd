import SystemProgramming.MiniShell.Lookup
import SystemProgramming.MiniShell.Execute
import Mathlib.Data.Nat.Find

/-!
# Assigning a variable

`set_local_var` writes one entry of the table: the value of the entry that has the name, or all of
the entry behind the last one. What the next lookup reads back is what was written only if the
strings end where they should, and the other names keep their values only if no string that begins
in another entry runs on into this one. `Fits` says exactly when both is so.

## How it goes

The stores of `set_local_var` are followed byte by byte, as `strncpy` leaves a field without a
terminator when the string is as long as the field. A lookup is then a sequence of comparisons, each
of which reads from the beginning of a field to the next NUL, wherever that is. What it finds after
the stores depends on the entries in front of the one that was written, and on what follows it.

## Three conditions

A string that is as long as its field is read on into what follows. This is no harm if what follows
happens to be the rest of the string, and `Fits` has this exception for names and for values; it is
not a rare one, as a value may well begin with the end of its name.

The third condition is about the entry in front of a new one. If its value has no terminator, it
has been read on into the zero bytes behind the used entries, and ended there. Now there is a name,
and the value of another variable has got longer (`zero_mem_of_readsBack`). An empty name is the
exception, since its entry begins with a zero byte.

The equivalence is for tables that assignments lead to. In these the names that are terminated are
different from each other (`DistinctNames`), which is needed for the direction that a change is
noticed: somebody has to ask for the entry that has changed, and a name that stands in an earlier
entry would hide it.

## Main definitions

* `Table.Reachable` — the tables that assignments lead to
* `RoundTrips` — the assignment is read back, and changes nothing else
* `Fits` — the lengths and the surroundings of the entry for which it does

## Main results

* `Table.readsBack_overwrite_iff`, `Table.readsBack_append_iff` — the two ways of writing an entry
* `reachable_of_storeAfter` — the commands of the shell lead to no other tables
* `roundTrips_iff_fits` — an assignment of a word round-trips exactly when it fits
-/

namespace SystemProgramming

namespace MiniShell

namespace Table

variable {t t' : Table} {name value : List UInt8} {i : ℕ}

/-- The array from entry `i` on. -/
def memoryFrom (t : Table) (i : ℕ) : List UInt8 := memory (t.vars.drop i) t.unused

/-- The string that begins at the place for entry `i`, used or not. -/
def stringAt (t : Table) (i : ℕ) : Option (List UInt8) :=
  readString ((memory t.vars t.unused).drop (320 * i))

/-! ### The array from an entry on -/

theorem length_bytes (v : Variable) : v.bytes.length = 320 := by
  rw [Variable.bytes, List.length_append, v.name_length, v.value_length]

theorem length_flatMap_bytes (vars : List Variable) :
    (vars.flatMap Variable.bytes).length = 320 * vars.length := by
  simp [List.length_flatMap, length_bytes, Nat.mul_comm]

theorem length_memoryFrom (t : Table) (i : ℕ) :
    (t.memoryFrom i).length = 320 * (t.vars.length - i) + t.unused.length := by
  rw [memoryFrom, memory, List.length_append, length_flatMap_bytes, List.length_drop]

theorem memoryFrom_eq_append (t : Table) {j : ℕ} (hj : j ≤ i) :
    t.memoryFrom j = ((t.vars.take i).drop j).flatMap Variable.bytes ++ t.memoryFrom i := by
  have hvars : t.vars.drop j = (t.vars.take i).drop j ++ t.vars.drop i := by
    have hsplit := List.take_append_drop (i - j) (t.vars.drop j)
    rw [List.drop_drop, Nat.add_sub_of_le hj, ← List.drop_take] at hsplit
    exact hsplit.symm
  rw [memoryFrom, hvars, memoryFrom, memory, memory, List.flatMap_append, List.append_assoc]

theorem memoryFrom_eq_cons (hi : i < t.vars.length) :
    t.memoryFrom i = t.vars[i].name ++ (t.vars[i].value ++ t.memoryFrom (i + 1)) := by
  rw [memoryFrom, List.drop_eq_getElem_cons hi, memory_cons, memoryFrom]

theorem memoryFrom_length (t : Table) : t.memoryFrom t.vars.length = t.unused := by
  rw [memoryFrom, List.drop_length]
  rfl

theorem nameAt_eq (hi : i < t.vars.length) :
    t.nameAt i = readString (t.vars[i].name ++ (t.vars[i].value ++ t.memoryFrom (i + 1))) :=
  congrArg readString (memoryFrom_eq_cons hi)

theorem stringAt_eq_nameAt (hi : i ≤ t.vars.length) : t.stringAt i = t.nameAt i := by
  have hmem : memory t.vars t.unused = (t.vars.take i).flatMap Variable.bytes ++ t.memoryFrom i :=
    t.memoryFrom_eq_append (Nat.zero_le i)
  rw [stringAt, hmem, List.drop_left', nameAt, memoryFrom]
  rw [length_flatMap_bytes, List.length_take_of_le hi]

/-! ### What is found -/

/-- A name that is read at an entry is compared with what is before that entry inside the array. -/
theorem isSome_compareAt_of_nameAt (h : t.nameAt i = some name) {j : ℕ} (hj : j ≤ i) :
    (t.compareAt name j).isSome := by
  have hlen : name.length < (t.memoryFrom j).length := by
    have hi : name.length < (t.memoryFrom i).length := (readString_eq_some_iff.mp h).length_lt
    rw [length_memoryFrom] at hi ⊢
    omega
  show (strcmpEq (t.memoryFrom j) name).isSome
  rw [strcmpEq_of_length_lt (zero_notMem_of_readString h) hlen]
  rfl

theorem FirstAt.findVar_eq (h : t.FirstAt name i) :
    findVar name t.unused t.vars = some (some i) :=
  findVar_of_firstAt (zero_notMem_of_readString h.2.1) h fun _ hj =>
    isSome_compareAt_of_nameAt h.2.1 hj.le

theorem firstAt_or_absent (t : Table) (name : List UInt8) :
    (∃ i, t.FirstAt name i) ∨ t.Absent name := by
  by_cases h : ∃ i, i < t.vars.length ∧ t.nameAt i = some name
  · classical
    refine Or.inl ⟨Nat.find h, (Nat.find_spec h).1, (Nat.find_spec h).2, fun j hj hname => ?_⟩
    exact Nat.find_min h hj ⟨hj.trans (Nat.find_spec h).1, hname⟩
  · exact Or.inr fun i hi hname => h ⟨i, hi, hname⟩

theorem exists_of_get_eq_some (h0 : 0 ∉ name) (h : t.get name = some (some value)) :
    ∃ i, t.FirstAt name i ∧ t.valueAt i = some value := by
  obtain ⟨found, hfound, h⟩ := Option.bind_eq_some_iff.mp h
  cases found with
  | none => cases h
  | some i =>
    obtain ⟨_, hvalue, heq⟩ := Option.map_eq_some_iff.mp h
    cases heq
    exact ⟨i, firstAt_of_findVar h0 hfound, hvalue⟩

/-- The search depends on nothing but the comparisons. -/
theorem findVar_congr (hlen : t.vars.length = t'.vars.length)
    (h : ∀ j < t.vars.length, t.compareAt name j = t'.compareAt name j) :
    findVar name t.unused t.vars = findVar name t'.unused t'.vars := by
  refine Option.ext fun found => ?_
  cases found with
  | none =>
    rw [findVar_eq_some_none_iff, findVar_eq_some_none_iff, ← hlen]
    exact forall₂_congr fun j hj => by rw [← compareAt, ← compareAt, h j hj]
  | some i =>
    rw [findVar_eq_some_some_iff, findVar_eq_some_some_iff, ← hlen]
    refine and_congr_right fun hi => ?_
    rw [← compareAt, ← compareAt, h i hi]
    exact and_congr_right fun _ => forall₂_congr fun j hj => by
      rw [← compareAt, ← compareAt, h j (hj.trans hi)]

theorem nameAt_of_holds (hi : i < t.vars.length) (h : Holds t.vars[i].name name) :
    t.nameAt i = some name := by
  rw [nameAt_eq hi, readString_of_holds h]

/-- A string that is short enough is terminated in the field it is read at. -/
theorem holds_of_nameAt (hi : i < t.vars.length) (h : t.nameAt i = some name)
    (hlen : name.length < 64) : Holds t.vars[i].name name :=
  holds_of_readString_append (nameAt_eq hi ▸ h) (hlen.trans_eq (Variable.name_length _).symm)

/-- A name that its field has no room for goes on as the value. -/
theorem valueAt_of_nameAt (hi : i < t.vars.length) (h : t.nameAt i = some name)
    (hlen : 64 ≤ name.length) : 0 ∉ t.vars[i].name ∧ t.valueAt i = some (name.drop 64) := by
  rw [nameAt_eq hi] at h
  obtain ⟨h0, rest, hrest, rfl⟩ :=
    exists_of_readString_append h (by rw [Variable.name_length]; exact hlen)
  refine ⟨h0, ?_⟩
  rw [valueAt_eq hi, ← memoryFrom, hrest, List.drop_left' (Variable.name_length _)]

theorem drop_of_get_eq_some (h0 : 0 ∉ name) (h : t.get name = some (some value))
    (hlen : 64 ≤ name.length) : value = name.drop 64 := by
  obtain ⟨i, hfirst, hvalue⟩ := exists_of_get_eq_some h0 h
  have hdrop := (valueAt_of_nameAt hfirst.1 hfirst.2.1 hlen).2
  exact Option.some.inj (hvalue.symm.trans hdrop)

/-! ### Entries that are read alike -/

/-- Names and values of the entries before `i` are read alike in both tables. -/
def Alike (t t' : Table) (i : ℕ) : Prop :=
  ∀ j < i, ReadsAlike (t.memoryFrom j) (t'.memoryFrom j) ∧
    ReadsAlike ((t.memoryFrom j).drop 64) ((t'.memoryFrom j).drop 64)

theorem drop_memoryFrom_eq_append (hi : i ≤ t.vars.length) {j : ℕ} (hj : j < i) :
    (t.memoryFrom j).drop 64 =
      (((t.vars.take i).drop j).flatMap Variable.bytes).drop 64 ++ t.memoryFrom i := by
  rw [t.memoryFrom_eq_append hj.le, List.drop_append_of_le_length]
  rw [length_flatMap_bytes, List.length_drop, List.length_take_of_le hi]
  omega

/-- What is read alike at an entry is so at the entries before it, when these are the same. -/
theorem alike_of_readsAlike (hi : i ≤ t.vars.length) (hi' : i ≤ t'.vars.length)
    (htake : t.vars.take i = t'.vars.take i)
    (h : ReadsAlike (t.memoryFrom i) (t'.memoryFrom i)) : Alike t t' i := by
  intro j hj
  rw [drop_memoryFrom_eq_append hi hj, drop_memoryFrom_eq_append hi' hj,
    t.memoryFrom_eq_append hj.le, t'.memoryFrom_eq_append hj.le, htake]
  exact ⟨h.append _, h.append _⟩

/-- A terminated value keeps the entries up to it from what follows. -/
theorem alike_of_zero_mem (hi : i < t.vars.length) (hi' : i < t'.vars.length)
    (htake : t.vars.take (i + 1) = t'.vars.take (i + 1)) (h0 : 0 ∈ t.vars[i].value) :
    Alike t t' (i + 1) := by
  intro j hj
  have hsplit : ((t.vars.take (i + 1)).drop j).flatMap Variable.bytes =
      (((t.vars.take i).drop j).flatMap Variable.bytes ++ t.vars[i].name) ++ t.vars[i].value := by
    rw [List.take_succ_eq_append_getElem hi, List.drop_append_of_le_length, List.flatMap_append,
      List.append_assoc]
    · simp [Variable.bytes]
    · rw [List.length_take_of_le hi.le]
      exact Nat.lt_succ_iff.mp hj
  have hmem : 0 ∈ (((t.vars.take (i + 1)).drop j).flatMap Variable.bytes).drop 64 := by
    rw [hsplit, List.drop_append_of_le_length]
    · exact List.mem_append_right _ h0
    · rw [List.length_append, Variable.name_length]
      exact Nat.le_add_left _ _
  rw [drop_memoryFrom_eq_append hi hj, drop_memoryFrom_eq_append hi' hj,
    t.memoryFrom_eq_append hj.le, t'.memoryFrom_eq_append hj.le, ← htake]
  exact ⟨.of_zero_mem (List.mem_of_mem_drop hmem) _ _, .of_zero_mem hmem _ _⟩

theorem Alike.nameAt_eq (h : Alike t t' i) {j : ℕ} (hj : j < i) : t.nameAt j = t'.nameAt j :=
  (h j hj).1.readString_eq

theorem Alike.valueAt_eq (h : Alike t t' i) {j : ℕ} (hj : j < i) : t.valueAt j = t'.valueAt j :=
  (h j hj).2.readString_eq

theorem Alike.compareAt_eq (h : Alike t t' i) {j : ℕ} (hj : j < i) (h0 : 0 ∉ name) :
    t.compareAt name j = t'.compareAt name j :=
  (h j hj).1.strcmpEq_eq name h0

/-! ### Overwriting a value -/

/-- Entry `i` with another value. -/
def overwrite (t : Table) (i : ℕ) (value : List UInt8) : Table :=
  ⟨t.vars.modify i (·.setValue value), by rw [List.length_modify]; exact t.length_le⟩

/-- The table reads back what was set, and everything else as before. -/
def ReadsBack (t t' : Table) (name value : List UInt8) : Prop :=
  t'.get name = some (some value) ∧ ∀ other, 0 ∉ other → other ≠ name → t'.get other = t.get other

theorem set_of_firstAt (h : t.FirstAt name i) (value : List UInt8) :
    t.set name value = some (t.overwrite i value, true) := by
  rw [set, h.findVar_eq]
  rfl

@[simp] theorem length_overwrite : (t.overwrite i value).vars.length = t.vars.length :=
  List.length_modify ..

@[simp] theorem unused_overwrite : (t.overwrite i value).unused = t.unused := by
  rw [unused, length_overwrite, unused]

theorem take_overwrite : (t.overwrite i value).vars.take i = t.vars.take i := by
  rw [overwrite, List.take_modify, List.modify_eq_self (List.length_take_le _ _)]

theorem memoryFrom_overwrite_of_lt {j : ℕ} (h : i < j) :
    (t.overwrite i value).memoryFrom j = t.memoryFrom j := by
  rw [memoryFrom, unused_overwrite, overwrite, List.drop_modify_of_lt _ _ _ _ h, memoryFrom]

theorem memoryFrom_overwrite_self (hi : i < t.vars.length) :
    (t.overwrite i value).memoryFrom i =
      t.vars[i].name ++ (strncpy 256 value ++ t.memoryFrom (i + 1)) := by
  rw [memoryFrom_eq_cons (hi.trans_eq length_overwrite.symm),
    memoryFrom_overwrite_of_lt (Nat.lt_succ_self i)]
  simp [overwrite, Variable.setValue]

theorem valueAt_overwrite_iff (h0 : 0 ∉ value) (hi : i < t.vars.length) :
    (t.overwrite i value).valueAt i = some value ↔
      value.length < 256 ∨ t.stringAt (i + 1) = some (value.drop 256) := by
  have hread : (t.overwrite i value).valueAt i =
      readString (strncpy 256 value ++ t.memoryFrom (i + 1)) := by
    rw [valueAt, ← memoryFrom, memoryFrom_overwrite_self hi,
      List.drop_left' (Variable.name_length _)]
  rw [hread, readString_strncpy_append_iff h0, stringAt_eq_nameAt hi]
  rfl

/-- Overwriting changes no name, unless the name is read on into the value. -/
theorem readsAlike_overwrite (hi : i < t.vars.length) (hname : t.nameAt i = some name)
    (h : name.length < 64 ∨ value = name.drop 64) :
    ReadsAlike (t.memoryFrom i) ((t.overwrite i value).memoryFrom i) := by
  rw [memoryFrom_eq_cons hi, memoryFrom_overwrite_self hi]
  rcases lt_or_ge name.length 64 with hlt | hge
  · have hholds := holds_of_nameAt hi hname hlt
    exact .of_readString (readString_of_holds hholds _) (readString_of_holds hholds _)
  · obtain rfl := h.resolve_left hge.not_gt
    have hvalue := (valueAt_of_nameAt hi hname hge).2
    rw [valueAt_eq hi] at hvalue
    have hself := readString_strncpy_append_self hvalue
    rw [Variable.value_length] at hself
    exact (ReadsAlike.of_readString hvalue hself).append _

theorem alike_overwrite (hi : i < t.vars.length)
    (halike : ReadsAlike (t.memoryFrom i) ((t.overwrite i value).memoryFrom i)) :
    Alike t (t.overwrite i value) i :=
  alike_of_readsAlike hi.le (hi.le.trans_eq length_overwrite.symm) take_overwrite.symm halike

/-- The search finds the same entries after overwriting. -/
theorem findVar_overwrite (hi : i < t.vars.length)
    (halike : ReadsAlike (t.memoryFrom i) ((t.overwrite i value).memoryFrom i)) {other : List UInt8}
    (h0 : 0 ∉ other) : findVar other (t.overwrite i value).unused (t.overwrite i value).vars =
      findVar other t.unused t.vars := by
  refine (findVar_congr length_overwrite.symm fun j _ => ?_).symm
  rcases lt_trichotomy j i with hlt | rfl | hgt
  · exact (alike_overwrite hi halike).compareAt_eq hlt h0
  · exact halike.strcmpEq_eq other h0
  · exact congrArg (strcmpEq · other) (memoryFrom_overwrite_of_lt hgt).symm

theorem valueAt_overwrite_of_ne (hi : i < t.vars.length)
    (halike : ReadsAlike (t.memoryFrom i) ((t.overwrite i value).memoryFrom i)) {j : ℕ}
    (hj : j ≠ i) : (t.overwrite i value).valueAt j = t.valueAt j := by
  rcases Nat.lt_or_gt_of_ne hj with hlt | hgt
  · exact ((alike_overwrite hi halike).valueAt_eq hlt).symm
  · exact congrArg (fun mem => readString (mem.drop 64)) (memoryFrom_overwrite_of_lt hgt)

theorem get_overwrite (h : t.FirstAt name i)
    (halike : ReadsAlike (t.memoryFrom i) ((t.overwrite i value).memoryFrom i)) :
    (t.overwrite i value).get name = ((t.overwrite i value).valueAt i).map some :=
  get_of_findVar_eq_some <|
    (findVar_overwrite h.1 halike (zero_notMem_of_readString h.2.1)).trans h.findVar_eq

theorem get_overwrite_of_ne (h : t.FirstAt name i)
    (halike : ReadsAlike (t.memoryFrom i) ((t.overwrite i value).memoryFrom i)) {other : List UInt8}
    (h0 : 0 ∉ other) (hne : other ≠ name) :
    (t.overwrite i value).get other = t.get other := by
  rw [get, get, findVar_overwrite h.1 halike h0]
  refine Option.bind_congr fun found hfound => ?_
  cases found with
  | none => rfl
  | some j =>
    have hj : j ≠ i := by
      rintro rfl
      have hother := (firstAt_of_findVar h0 hfound).2.1
      exact hne (Option.some.inj (hother.symm.trans h.2.1))
    show ((t.overwrite i value).valueAt j).map some = _
    rw [valueAt_overwrite_of_ne h.1 halike hj]

/-- **Overwriting** is read back exactly when the value ends where it should, and the name before
it. -/
theorem readsBack_overwrite_iff (h0 : 0 ∉ value) (h : t.FirstAt name i) :
    ReadsBack t (t.overwrite i value) name value ↔
      (name.length < 64 ∨ value = name.drop 64) ∧
        (value.length < 256 ∨ t.stringAt (i + 1) = some (value.drop 256)) := by
  refine ⟨fun hback => ?_, fun ⟨hname, hvalue⟩ => ?_⟩
  · have hname : name.length < 64 ∨ value = name.drop 64 :=
      (lt_or_ge name.length 64).imp_right
        (drop_of_get_eq_some (zero_notMem_of_readString h.2.1) hback.1)
    refine ⟨hname, (valueAt_overwrite_iff h0 h.1).mp ?_⟩
    have hget := get_overwrite h (readsAlike_overwrite h.1 h.2.1 hname)
    obtain ⟨v, hv, heq⟩ := Option.map_eq_some_iff.mp (hget.symm.trans hback.1)
    rwa [Option.some.inj heq] at hv
  · have halike := readsAlike_overwrite h.1 h.2.1 hname
    refine ⟨?_, fun other h0' hne => get_overwrite_of_ne h halike h0' hne⟩
    rw [get_overwrite h halike, (valueAt_overwrite_iff h0 h.1).mpr hvalue]
    rfl

/-! ### Adding an entry -/

theorem length_append_make (t : Table) (name value : List UInt8)
    (hroom : t.vars.length < maxVars) :
    (t.vars ++ [Variable.make name value]).length ≤ maxVars := by
  rw [List.length_append]
  exact hroom

/-- The table with another entry. -/
def append (t : Table) (name value : List UInt8) (hroom : t.vars.length < maxVars) : Table :=
  ⟨t.vars ++ [.make name value], t.length_append_make name value hroom⟩

variable {hroom : t.vars.length < maxVars}

theorem findVar_of_absent_of_room (h0 : 0 ∉ name) (h : t.Absent name)
    (hroom : t.vars.length < maxVars) : findVar name t.unused t.vars = some none :=
  findVar_of_absent h0 h fun j _ => isSome_compareAt_of_room h0 hroom j

theorem set_of_absent (h0 : 0 ∉ name) (h : t.Absent name) (hroom : t.vars.length < maxVars)
    (value : List UInt8) : t.set name value = some (t.append name value hroom, true) := by
  rw [set, findVar_of_absent_of_room h0 h hroom]
  exact congrArg some (dif_pos hroom)

@[simp] theorem length_append : (t.append name value hroom).vars.length = t.vars.length + 1 :=
  List.length_append

theorem take_append {j : ℕ} (hj : j ≤ t.vars.length) :
    (t.append name value hroom).vars.take j = t.vars.take j :=
  List.take_append_of_le_length hj

theorem length_lt_append : t.vars.length < (t.append name value hroom).vars.length :=
  Nat.lt_of_lt_of_eq (Nat.lt_succ_self _) length_append.symm

/-- The unused entries begin with a NUL. -/
theorem readString_unused (hroom : t.vars.length < maxVars) : readString t.unused = some [] := by
  obtain ⟨k, hk⟩ : ∃ k, (maxVars - t.vars.length) * 320 = k + 1 :=
    Nat.exists_eq_succ_of_ne_zero (by omega)
  rw [unused, hk, List.replicate_succ, readString, if_pos rfl]

theorem drop_unused : t.unused.drop 320 = (t.append name value hroom).unused := by
  have hlen : (maxVars - t.vars.length) * 320 - 320 =
      (maxVars - (t.append name value hroom).vars.length) * 320 := by
    rw [length_append]
    omega
  rw [unused, unused, List.drop_replicate, hlen]

theorem stringAt_append :
    t.stringAt (t.vars.length + 1) = readString (t.append name value hroom).unused := by
  have hmem : memory t.vars t.unused = t.vars.flatMap Variable.bytes ++ t.unused := rfl
  have hlen : 320 * (t.vars.length + 1) = (t.vars.flatMap Variable.bytes).length + 320 := by
    rw [length_flatMap_bytes]
    rfl
  rw [stringAt, hmem, hlen, ← List.drop_drop, List.drop_left, drop_unused]

theorem memoryFrom_append_length : (t.append name value hroom).memoryFrom t.vars.length =
    strncpy 64 name ++ (strncpy 256 value ++ (t.append name value hroom).unused) := by
  rw [memoryFrom]
  show memory ((t.vars ++ [Variable.make name value]).drop t.vars.length) _ = _
  rw [List.drop_left, memory_cons]
  rfl

theorem valueAt_append_length : (t.append name value hroom).valueAt t.vars.length =
    readString (strncpy 256 value ++ (t.append name value hroom).unused) := by
  rw [valueAt, ← memoryFrom, memoryFrom_append_length, List.drop_left' (length_strncpy ..)]

theorem valueAt_append_iff (h0 : 0 ∉ value) :
    (t.append name value hroom).valueAt t.vars.length = some value ↔
      value.length < 256 ∨ t.stringAt (t.vars.length + 1) = some (value.drop 256) := by
  rw [valueAt_append_length, readString_strncpy_append_iff h0, stringAt_append]

theorem nameAt_append_iff (h0 : 0 ∉ name) :
    (t.append name value hroom).nameAt t.vars.length = some name ↔
      name.length < 64 ∨ (t.append name value hroom).valueAt t.vars.length =
        some (name.drop 64) := by
  rw [valueAt_append_length, nameAt, ← memoryFrom, memoryFrom_append_length,
    readString_strncpy_append_iff h0]

/-- What has been added is found, and what is read alike is found as before. -/
theorem readsBack_append (habsent : t.Absent name)
    (halike : Alike t (t.append name value hroom) t.vars.length)
    (hname : (t.append name value hroom).nameAt t.vars.length = some name)
    (hvalue : (t.append name value hroom).valueAt t.vars.length = some value) :
    ReadsBack t (t.append name value hroom) name value := by
  refine ⟨?_, fun other h0 hne => ?_⟩
  · have hfirst : (t.append name value hroom).FirstAt name t.vars.length :=
      ⟨length_lt_append, hname, fun j hj => halike.nameAt_eq hj ▸ habsent j hj⟩
    rw [get_of_findVar_eq_some hfirst.findVar_eq, hvalue]
    rfl
  · rcases t.firstAt_or_absent other with ⟨j, hfirst⟩ | hother
    · have hfirst' : (t.append name value hroom).FirstAt other j :=
        ⟨hfirst.1.trans length_lt_append, halike.nameAt_eq hfirst.1 ▸ hfirst.2.1,
          fun k hk => halike.nameAt_eq (hk.trans hfirst.1) ▸ hfirst.2.2 k hk⟩
      rw [get_of_findVar_eq_some hfirst.findVar_eq, get_of_findVar_eq_some hfirst'.findVar_eq,
        halike.valueAt_eq hfirst.1]
    · rw [get_of_findVar_eq_none (findVar_of_absent_of_room h0 hother hroom)]
      refine get_of_findVar_eq_none (findVar_eq_some_none_iff.mpr fun j hj => ?_)
      rcases Nat.lt_succ_iff_lt_or_eq.mp (hj.trans_eq length_append) with hlt | rfl
      · have hfalse := (compareAt_eq_some_false_iff h0
          (isSome_compareAt_of_room h0 hroom j)).mpr (hother j hlt)
        exact (halike.compareAt_eq hlt h0).symm.trans hfalse
      · have hdef := strcmpEq_of_holds (readString_eq_some_iff.mp hname) h0 []
        rw [List.append_nil, decide_eq_false hne.symm] at hdef
        exact hdef

/-! ### What the lookups tell of an added entry -/

/-- Names that are terminated in their fields are different. -/
def DistinctNames (t : Table) : Prop :=
  (t.vars.map Variable.name).Pairwise fun a b => ∀ s, Holds a s → ¬ Holds b s

theorem DistinctNames.firstAt (hdistinct : t.DistinctNames) (hi : i < t.vars.length)
    (h : Holds t.vars[i].name name) : t.FirstAt name i := by
  refine ⟨hi, nameAt_of_holds hi h, fun j hj hname => ?_⟩
  have hlen : name.length < 64 := h.length_lt.trans_eq (Variable.name_length _)
  have hpair := List.pairwise_iff_getElem.mp hdistinct j i (by simpa using hj.trans hi)
    (by simpa using hi) hj name
  rw [List.getElem_map, List.getElem_map] at hpair
  exact hpair (holds_of_nameAt (hj.trans hi) hname hlen) h

theorem distinctNames_empty : empty.DistinctNames := List.Pairwise.nil

theorem DistinctNames.overwrite (h : t.DistinctNames) (i : ℕ) (value : List UInt8) :
    (t.overwrite i value).DistinctNames := by
  have hnames : (t.overwrite i value).vars.map Variable.name = t.vars.map Variable.name := by
    refine List.ext_getElem? fun j => ?_
    rw [List.getElem?_map, List.getElem?_map, Table.overwrite, List.getElem?_modify]
    cases t.vars[j]? with
    | none => rfl
    | some v =>
      show some (if i = j then v.setValue value else v).name = some v.name
      split
      · rfl
      · rfl
  rw [DistinctNames, hnames]
  exact h

theorem DistinctNames.append (h : t.DistinctNames) (h0 : 0 ∉ name) (habsent : t.Absent name)
    (value : List UInt8) (hroom : t.vars.length < maxVars) :
    (t.append name value hroom).DistinctNames := by
  rw [DistinctNames, Table.append, List.map_append, List.pairwise_append]
  refine ⟨h, List.pairwise_singleton _ _, fun a ha b hb s hs hs' => ?_⟩
  obtain ⟨v, hv, rfl⟩ := List.mem_map.mp ha
  obtain ⟨j, hj, rfl⟩ := List.getElem_of_mem hv
  rw [List.map_singleton, List.mem_singleton] at hb
  subst hb
  obtain rfl := eq_of_holds_strncpy h0 hs'
  exact habsent j hj (nameAt_of_holds hj hs)

/-- A name that is read at an entry only after something was added is longer than an entry, and
goes on with what was added. -/
theorem exists_of_nameAt_append (habsent : t.Absent name) (hi : i < t.vars.length)
    (h : (t.append name value hroom).nameAt i = some name) :
    320 ≤ name.length ∧ ∃ rest, rest.length + 320 ≤ name.length ∧
      (t.append name value hroom).nameAt t.vars.length = some rest := by
  have hlen : 320 ≤ (((t.vars.take t.vars.length).drop i).flatMap Variable.bytes).length := by
    rw [length_flatMap_bytes, List.length_drop, List.length_take_of_le le_rfl]
    omega
  have hold : t.nameAt i ≠ some name := habsent i hi
  rw [nameAt, ← memoryFrom, memoryFrom_eq_append _ hi.le, take_append le_rfl] at h
  rw [nameAt, ← memoryFrom, memoryFrom_eq_append _ hi.le] at hold
  by_cases h0 : 0 ∈ ((t.vars.take t.vars.length).drop i).flatMap Variable.bytes
  · rw [readString_of_holds (holds_cstring h0)] at h hold
    exact absurd h hold
  · rw [readString_append_of_notMem _ h0] at h
    obtain ⟨rest, hrest, heq⟩ := Option.map_eq_some_iff.mp h
    have hsum := congrArg List.length heq
    rw [List.length_append] at hsum
    exact ⟨by omega, rest, by omega, hrest⟩

/-- No line is long enough to be read from an entry before the one that it adds. -/
theorem firstAt_append (h0 : 0 ∉ name) (h0' : 0 ∉ value)
    (hline : name.length + 1 + value.length < maxLine) (habsent : t.Absent name)
    (hget : (t.append name value hroom).get name = some (some value)) :
    (t.append name value hroom).FirstAt name t.vars.length ∧
      (t.append name value hroom).valueAt t.vars.length = some value := by
  obtain ⟨i, hfirst, hvalue⟩ := exists_of_get_eq_some h0 hget
  obtain hlt | rfl := Nat.lt_succ_iff_lt_or_eq.mp (hfirst.1.trans_eq length_append)
  · obtain ⟨hlen, rest, hrest, hread⟩ := exists_of_nameAt_append habsent hlt hfirst.2.1
    -- the value is the rest of the name, so both fill their fields and are read on
    have hdrop := drop_of_get_eq_some h0 hget ((Nat.le_add_left 64 256).trans hlen)
    have hvalen : value.length = name.length - 64 := by
      rw [hdrop, List.length_drop]
    rw [nameAt, ← memoryFrom, memoryFrom_append_length,
      readString_append_of_notMem _ (zero_notMem_strncpy h0 (by omega)),
      readString_append_of_notMem _ (zero_notMem_strncpy h0' (by omega))] at hread
    obtain ⟨_, hread, heq⟩ := Option.map_eq_some_iff.mp hread
    obtain ⟨_, -, heq'⟩ := Option.map_eq_some_iff.mp hread
    have hrestlen : 320 ≤ rest.length := by
      rw [← heq, ← heq']
      simp only [List.length_append, length_strncpy]
      omega
    rw [maxLine] at hline
    omega
  · exact ⟨hfirst, hvalue⟩

theorem getElem_append (hi : i < t.vars.length)
    (hi' : i < (t.append name value hroom).vars.length) :
    (t.append name value hroom).vars[i] = t.vars[i] :=
  List.getElem_append_left hi

/-- A long string that is read at an entry goes on at the next one. -/
theorem nameAt_succ (hi : i < t.vars.length) {a b rest : List UInt8} (ha : a.length = 64)
    (hb : b.length = 256) (h : t.nameAt i = some (a ++ (b ++ rest))) :
    t.nameAt (i + 1) = some rest := by
  rw [nameAt_eq hi] at h
  obtain ⟨-, r, hr, heq⟩ := exists_of_readString_append h (by
    rw [Variable.name_length, List.length_append, ha]
    exact Nat.le_add_right _ _)
  have htail := (List.append_inj heq ((Variable.name_length _).trans ha.symm)).2
  rw [htail] at hr
  obtain ⟨-, r', hr', heq'⟩ := exists_of_readString_append hr (by
    rw [Variable.value_length, List.length_append, hb]
    exact Nat.le_add_right _ _)
  rw [(List.append_inj heq' ((Variable.value_length _).trans hb.symm)).2] at hr'
  exact hr'

/-! An entry in front of an added one, whose value is not terminated. -/

section Unterminated

variable {i : ℕ} (hi : i < t.vars.length) (hvalue0 : 0 ∉ t.vars[i].value)
  (hunused : readString (t.memoryFrom (i + 1)) = some [])
  (hadded : readString ((t.append name value hroom).memoryFrom (i + 1)) = some name)

include hvalue0 hunused hadded

/-- Its value goes on with the new name. -/
theorem eq_nil_of_valueAt_append
    (h : (t.append name value hroom).valueAt i = t.valueAt i) : name = [] := by
  rw [valueAt_eq (hi.trans length_lt_append), valueAt_eq hi, ← memoryFrom, ← memoryFrom,
    getElem_append hi, readString_append_of_notMem _ hvalue0,
    readString_append_of_notMem _ hvalue0, hunused, hadded] at h
  simpa using h

/-- If its name is not terminated either, the name goes on with the value and the new name. -/
theorem eq_nil_of_readsBack_append (hname0 : 0 ∉ t.vars[i].name) (habsent : t.Absent name)
    (hlast : i + 1 = t.vars.length)
    (hback : ReadsBack t (t.append name value hroom) name value) : name = [] := by
  have hi' : i < (t.append name value hroom).vars.length := hi.trans length_lt_append
  have hlong : (t.append name value hroom).nameAt i =
      some (t.vars[i].name ++ (t.vars[i].value ++ name)) := by
    rw [nameAt_eq hi', getElem_append hi, readString_append_of_notMem _ hname0,
      readString_append_of_notMem _ hvalue0, hadded]
    rfl
  have hlen : (t.vars[i].name ++ (t.vars[i].value ++ name)).length = 320 + name.length := by
    rw [List.length_append, List.length_append, Variable.name_length, Variable.value_length]
    omega
  have hother : t.vars[i].name ++ (t.vars[i].value ++ name) ≠ name := by
    intro heq
    rw [heq] at hlen
    omega
  have hget := hback.2 _ (zero_notMem_of_readString hlong) hother
  rcases (t.append name value hroom).firstAt_or_absent _ with ⟨j, hfirst⟩ | hnone
  · -- so the old table has that name as well, and behind it the new one
    rw [get_of_findVar_eq_some hfirst.findVar_eq,
      (valueAt_of_nameAt hfirst.1 hfirst.2.1 (by rw [hlen]; omega)).2] at hget
    obtain ⟨k, hold, -⟩ := exists_of_get_eq_some (zero_notMem_of_readString hlong) hget.symm
    have hnext := nameAt_succ hold.1 (Variable.name_length _) (Variable.value_length _) hold.2.1
    obtain hlt | heq := Nat.lt_or_eq_of_le (Nat.succ_le_of_lt hold.1)
    · exact absurd hnext (habsent _ hlt)
    · have hki : k + 1 = i + 1 := heq.trans hlast.symm
      rw [nameAt, ← memoryFrom, hki, hunused] at hnext
      exact (Option.some.inj hnext).symm
  · exact absurd hlong (hnone i hi')

end Unterminated

/-- **The entry before an added one must be terminated**, or its name or its value is not what it
was. -/
theorem zero_mem_of_readsBack (hdistinct : t.DistinctNames) (h0 : 0 ∉ name) (hne : name ≠ [])
    (habsent : t.Absent name)
    (hname : (t.append name value hroom).nameAt t.vars.length = some name)
    (hback : ReadsBack t (t.append name value hroom) name value) (hi : i < t.vars.length)
    (hlast : i + 1 = t.vars.length) : 0 ∈ t.vars[i].value := by
  by_contra hvalue0
  have hunused : readString (t.memoryFrom (i + 1)) = some [] := by
    rw [hlast, memoryFrom_length, readString_unused hroom]
  have hadded : readString ((t.append name value hroom).memoryFrom (i + 1)) = some name := by
    rw [hlast]
    exact hname
  by_cases hname0 : 0 ∈ t.vars[i].name
  · have hholds := holds_cstring hname0
    have hfirst := hdistinct.firstAt hi hholds
    have hholds' : Holds ((t.append name value hroom).vars.get
        ⟨i, hi.trans length_lt_append⟩).name (cstring t.vars[i].name) := by
      rw [List.get_eq_getElem, getElem_append hi]
      exact hholds
    have hfirst' := (hdistinct.append h0 habsent value hroom).firstAt
      (hi.trans length_lt_append) hholds'
    have hother : cstring t.vars[i].name ≠ name := fun heq => habsent i hi (heq ▸ hfirst.2.1)
    have hget := hback.2 _ hholds.zero_notMem hother
    rw [get_of_findVar_eq_some hfirst'.findVar_eq, get_of_findVar_eq_some hfirst.findVar_eq]
      at hget
    exact hne (eq_nil_of_valueAt_append hi hvalue0 hunused hadded
      (Option.map_injective (Option.some_injective _) hget))
  · exact hne (eq_nil_of_readsBack_append hi hvalue0 hunused hadded hname0 habsent hlast hback)

/-- **Adding an entry** is read back exactly when name and value end where they should, and nothing
before it runs on into it. -/
theorem readsBack_append_iff (hdistinct : t.DistinctNames) (h0 : 0 ∉ name) (h0' : 0 ∉ value)
    (hline : name.length + 1 + value.length < maxLine) (habsent : t.Absent name) :
    ReadsBack t (t.append name value hroom) name value ↔
      (name.length < 64 ∨ value = name.drop 64) ∧
        (value.length < 256 ∨ t.stringAt (t.vars.length + 1) = some (value.drop 256)) ∧
        (name = [] ∨ ∀ v ∈ t.vars.getLast?, 0 ∈ v.value) := by
  refine ⟨fun hback => ?_, fun ⟨hname, hvalue, hbefore⟩ => ?_⟩
  · obtain ⟨hfirst, hvalue⟩ := firstAt_append h0 h0' hline habsent hback.1
    refine ⟨(lt_or_ge name.length 64).imp_right (drop_of_get_eq_some h0 hback.1),
      (valueAt_append_iff h0').mp hvalue, or_iff_not_imp_left.mpr fun hne v hv => ?_⟩
    obtain ⟨vars, hvars⟩ := List.getLast?_eq_some_iff.mp hv
    have hlast : vars.length + 1 = t.vars.length := by
      rw [hvars, List.length_append]
      rfl
    have hmem := zero_mem_of_readsBack hdistinct h0 hne habsent hfirst.2.1 hback
      (Nat.lt_of_succ_le hlast.le) hlast
    simpa [hvars] using hmem
  · have hvalue' : (t.append name value hroom).valueAt t.vars.length = some value :=
      (valueAt_append_iff h0').mpr hvalue
    have hname' : (t.append name value hroom).nameAt t.vars.length = some name :=
      (nameAt_append_iff h0).mpr (hname.imp_right fun heq => hvalue'.trans (congrArg some heq))
    refine readsBack_append habsent ?_ hname' hvalue'
    rcases hbefore with rfl | hbefore
    · refine alike_of_readsAlike le_rfl length_lt_append.le (take_append le_rfl).symm ?_
      rw [memoryFrom_length]
      exact .of_readString (readString_unused hroom) hname'
    · cases hlen : t.vars.length with
      | zero => exact fun j hj => absurd hj (Nat.not_lt_zero j)
      | succ i =>
        have hi : i < t.vars.length := hlen ▸ Nat.lt_succ_self i
        refine alike_of_zero_mem hi (hi.trans length_lt_append)
          (take_append hlen.ge).symm (hbefore _ ?_)
        rw [List.getLast?_eq_getElem?, hlen]
        exact List.getElem?_eq_getElem hi

/-! ### The tables that assignments lead to -/

/-- The entry that `set_local_var` writes. -/
def slot (t : Table) (name : List UInt8) : ℕ :=
  (findVar name t.unused t.vars).join.getD t.vars.length

theorem slot_of_firstAt (h : t.FirstAt name i) : t.slot name = i := by
  rw [slot, h.findVar_eq]
  rfl

theorem slot_of_absent (h0 : 0 ∉ name) (h : t.Absent name) (hroom : t.vars.length < maxVars) :
    t.slot name = t.vars.length := by
  rw [slot, findVar_of_absent_of_room h0 h hroom]
  rfl

end Table

/-- What the two sides of the first `=` of a word can be. -/
def Token (name value : List UInt8) : Prop :=
  0 ∉ name ∧ 0 ∉ value ∧ name.length + 1 + value.length < maxLine

instance (name value : List UInt8) : Decidable (Token name value) :=
  inferInstanceAs (Decidable (_ ∧ _ ∧ _))

/-- Assignments lead to this table. -/
inductive Table.Reachable : Table → Prop
  | empty : Reachable .empty
  | set {t t' : Table} {name value : List UInt8} {stored : Bool} (h : Reachable t)
    (hword : Token name value) (hset : t.set name value = some (t', stored)) : Reachable t'

theorem Table.Reachable.distinctNames {t : Table} (h : t.Reachable) : t.DistinctNames := by
  induction h with
  | empty => exact distinctNames_empty
  | @set t t' name value stored _ hword hset ih =>
    obtain ⟨found, hfound, hset⟩ := Option.map_eq_some_iff.mp hset
    cases found with
    | some i =>
      cases hset
      exact ih.overwrite i value
    | none =>
      by_cases hroom : t.vars.length < maxVars
      · simp only [dif_pos hroom] at hset
        cases hset
        exact ih.append hword.1 (absent_of_findVar hword.1 hfound) value hroom
      · simp only [dif_neg hroom] at hset
        cases hset
        exact ih

/-- The commands of the shell lead from such a table only to such tables. -/
theorem reachable_of_storeAfter {s s' : Store} {args : List (List UInt8)}
    (hargs : ∀ arg ∈ args, 0 ∉ arg ∧ arg.length < maxLine) (h : StoreAfter s args s')
    (hreach : s.localVars.Reachable) : s'.localVars.Reachable := by
  cases h with
  | same => exact hreach
  | @assigned arg name value err args _ hsplit hset =>
    obtain ⟨h0, hlen⟩ := hargs arg List.mem_cons_self
    obtain rfl := append_of_splitAtByte hsplit
    obtain ⟨⟨t, stored⟩, ht, heq⟩ := Option.map_eq_some_iff.mp hset
    cases heq
    refine hreach.set ⟨fun hm => h0 (List.mem_append_left _ hm),
      fun hm => h0 (List.mem_append_right _ (List.mem_cons_of_mem _ hm)), ?_⟩ ht
    rw [List.length_append, List.length_cons] at hlen
    omega
  | exported hexport => exact localVars_exportArgs hexport ▸ hreach

/-- After the assignment the name has the value, and every other name the value that it had,
whatever the other table and the environment are. -/
def RoundTrips (t : Table) (name value : List UInt8) : Prop :=
  ∀ s : Store, s.localVars = t → ∃ s', setLocalVar s name value = some (s', []) ∧
    getVarValue s' name = some value ∧
    ∀ other, 0 ∉ other → other ≠ name → getVarValue s' other = getVarValue s other

/-- When an assignment round-trips. -/
@[mk_iff] structure Fits (t : Table) (name value : List UInt8) : Prop where
  /-- The name is terminated in its field, or goes on as the value does. -/
  name_ends : name.length < 64 ∨ value = name.drop 64
  /-- The value is terminated in its field, or goes on as the next entry does. -/
  value_ends : value.length < 256 ∨ t.stringAt (t.slot name + 1) = some (value.drop 256)
  /-- The value of the last entry is terminated in its field, or nothing is added behind it. -/
  last_ends : t.slot name < t.vars.length ∨ name = [] ∨ ∀ v ∈ t.vars.getLast?, 0 ∈ v.value

instance (t : Table) (name value : List UInt8) : Decidable (Fits t name value) :=
  decidable_of_iff _ (fits_iff t name value).symm

/-- Where both tables have nothing, the environment shows. -/
theorem getVarValue_of_environ (t : Table) (name y : List UInt8) :
    getVarValue ⟨t, .empty, fun _ => some y⟩ name = (t.get name).map (·.getD y) := by
  rw [getVarValue]
  rcases t.get name with _ | _ | value
  · rfl
  · rfl
  · rfl

theorem eq_of_forall_getD {o o' : Option (Option (List UInt8))}
    (h : ∀ y, o.map (·.getD y) = o'.map (·.getD y)) : o = o' := by
  rcases o with _ | _ | a
  · cases o' with
    | none => rfl
    | some b => cases h []
  · rcases o' with _ | _ | b
    · cases h []
    · rfl
    · exact absurd (Option.some.inj (h (1 :: b))) (List.cons_ne_self 1 b)
  · rcases o' with _ | _ | b
    · cases h []
    · exact absurd (Option.some.inj (h (1 :: a))).symm (List.cons_ne_self 1 a)
    · have hab : a = b := Option.some.inj (h [])
      rw [hab]

theorem roundTrips_iff {t : Table} {name value : List UInt8} : RoundTrips t name value ↔
    ∃ t', t.set name value = some (t', true) ∧ t.ReadsBack t' name value := by
  refine ⟨fun h => ?_, ?_⟩
  · obtain ⟨s', hset, -⟩ := h ⟨t, .empty, fun _ => none⟩ rfl
    obtain ⟨⟨t', stored⟩, ht', heq⟩ := Option.map_eq_some_iff.mp hset
    obtain rfl : stored = true := by
      cases stored with
      | true => rfl
      | false =>
        have herr : ascii "Error: too many local variables (max 64)\n" = [] :=
          congrArg Prod.snd heq
        exact absurd herr (by decide)
    have hback : ∀ y, getVarValue ⟨t', .empty, fun _ => some y⟩ name = some value ∧
        ∀ other, 0 ∉ other → other ≠ name → getVarValue ⟨t', .empty, fun _ => some y⟩ other =
          getVarValue ⟨t, .empty, fun _ => some y⟩ other := by
      intro y
      obtain ⟨s', hset, hrest⟩ := h ⟨t, .empty, fun _ => some y⟩ rfl
      rw [setLocalVar, ht'] at hset
      cases hset
      exact hrest
    refine ⟨t', ht', eq_of_forall_getD fun y => ?_, fun other h0 hne => ?_⟩
    · rw [← getVarValue_of_environ, (hback y).1]
      rfl
    · refine eq_of_forall_getD fun y => ?_
      rw [← getVarValue_of_environ, ← getVarValue_of_environ, (hback y).2 other h0 hne]
  · rintro ⟨t', ht', hname, hother⟩ s rfl
    refine ⟨{ s with localVars := t' }, by rw [setLocalVar, ht']; rfl, ?_, fun other h0 hne => ?_⟩
    · rw [getVarValue]
      show (t'.get name).bind _ = _
      rw [hname]
      rfl
    · rw [getVarValue, getVarValue]
      show (t'.get other).bind _ = _
      rw [hother other h0 hne]

/-- **When an assignment can be read back.** For every table that assignments lead to, and every
name and value that a line has room for, if there is room for another entry or the name is there
already: what the name had before is replaced by the value and no other name is affected if and only
if the name, the value and the entry before the written one are terminated, or what they run on into
happens to be the rest of them. -/
theorem roundTrips_iff_fits {t : Table} {name value : List UInt8} (hreach : t.Reachable)
    (hword : Token name value) (hroom : t.vars.length < maxVars ∨ ∃ i, t.FirstAt name i) :
    RoundTrips t name value ↔ Fits t name value := by
  obtain ⟨h0, h0', hline⟩ := hword
  rw [roundTrips_iff, fits_iff]
  rcases t.firstAt_or_absent name with ⟨i, hfirst⟩ | habsent
  · simp only [Table.slot_of_firstAt hfirst, hfirst.1, true_or, and_true]
    rw [← Table.readsBack_overwrite_iff h0' hfirst, Table.set_of_firstAt hfirst]
    simp
  · have hroom : t.vars.length < maxVars :=
      hroom.resolve_right fun ⟨i, hi⟩ => habsent i hi.1 hi.2.1
    have happend : t.ReadsBack (t.append name value hroom) name value ↔ _ :=
      Table.readsBack_append_iff hreach.distinctNames h0 h0' hline habsent
    simp only [Table.slot_of_absent h0 habsent hroom, lt_irrefl, false_or]
    rw [← happend, Table.set_of_absent h0 habsent hroom]
    simp

/-- A name and a value that are shorter than their fields, set in an empty table. -/
theorem roundTrips_iff_fits_short : RoundTrips .empty (ascii "A") (ascii "1") :=
  (roundTrips_iff_fits .empty (by decide) (Or.inl (by decide))).mpr (by decide)

/-- A name that fills its field is not found again, and another name has its value. -/
theorem long_name_not_read_back :
    Table.empty.Reachable ∧ Token (List.replicate 64 97) (ascii "x") ∧
      Table.empty.vars.length < maxVars ∧
      ¬ RoundTrips .empty (List.replicate 64 97) (ascii "x") ∧
      ∃ s', setLocalVar (.initial fun _ => none) (List.replicate 64 97) (ascii "x") =
          some (s', []) ∧
        getVarValue s' (List.replicate 64 97) = some [] ∧
        getVarValue s' (List.replicate 64 97 ++ ascii "x") = some (ascii "x") := by
  refine ⟨.empty, by decide, by decide, fun h => ?_, _, rfl, by decide, by decide⟩
  obtain ⟨s', hset, hget, -⟩ := h (.initial fun _ => none) rfl
  cases hset
  exact absurd hget (by decide)

end MiniShell

end SystemProgramming
