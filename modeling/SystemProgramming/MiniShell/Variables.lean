import SystemProgramming.Library.BoundedMap
import SystemProgramming.Library.CharArray

/-!
# The variables of the mini-shells

`lab7-lyjae/mini-shell-1.c`, `-2.c` and `-3.c` keep two tables of `MAX_VARS` variables, local and
global, beside the environment of the process. A `Variable` is `char name[64]` followed directly
by `char value[256]`, filled with `strncpy`, so a name or a value that is too long has no
terminator of its own and is read on into what follows: the next field, the next entry, and behind
the used entries the zero bytes of the unused ones. Reading past the end of the array is undefined
and gives `none`.

## Why bytes

A lookup that runs on into the next field finds names that nobody has assigned, so the tables are
not maps from names to values in general. They are here what they are in the code: arrays of bytes
with a count. `Tables` says when they are maps after all. The addresses of the two tables are not
known, so reading past the end of one of them is undefined rather than a read of the other.

## Main definitions

* `Variable`, `Table` — the arrays
* `Store` — both tables and the environment
* `getVarValue`, `setLocalVar`, `setGlobalVar` — the functions of the source

## Main results

* `Table.get_of_absent`, `Table.exists_get`, `Table.exists_set` — as long as names are short, a
  table is a bounded ordered map, in which a short value is what was set
-/

namespace SystemProgramming

namespace MiniShell

def maxVars : ℕ := 64

structure Variable where
  name : List UInt8
  value : List UInt8
  name_length : name.length = 64
  value_length : value.length = 256
  deriving DecidableEq

/-- The bytes of a variable in memory. -/
def Variable.bytes (v : Variable) : List UInt8 := v.name ++ v.value

/-- A variable with this name and this value. -/
def Variable.make (name value : List UInt8) : Variable :=
  ⟨strncpy 64 name, strncpy 256 value, length_strncpy .., length_strncpy ..⟩

/-- `strncpy(v.value, value, sizeof(v.value))` -/
def Variable.setValue (v : Variable) (value : List UInt8) : Variable :=
  { v with value := strncpy 256 value, value_length := length_strncpy .. }

/-- The used entries of `local_vars` or `global_vars`; their number is `local_var_count` or
`global_var_count`. -/
structure Table where
  vars : List Variable
  length_le : vars.length ≤ maxVars
  deriving DecidableEq

namespace Table

/-- No variable is set. -/
def empty : Table := ⟨[], Nat.zero_le _⟩

/-- The bytes of the unused entries, which nothing has written. -/
def unused (t : Table) : List UInt8 := List.replicate ((maxVars - t.vars.length) * 320) 0

/-- The array from some entry on. -/
def memory (vars : List Variable) (unused : List UInt8) : List UInt8 :=
  vars.flatMap Variable.bytes ++ unused

/-- The search loop: the first entry whose name is `name`. -/
def findVar (name unused : List UInt8) : List Variable → Option (Option ℕ)
  | [] => some none
  | v :: vars =>
    (strcmpEq (memory (v :: vars) unused) name).bind fun found =>
      if found then some (some 0) else (findVar name unused vars).map (Option.map (· + 1))

/-- The string that begins at the value of entry `i`. -/
def valueAt (t : Table) (i : ℕ) : Option (List UInt8) :=
  readString ((memory (t.vars.drop i) t.unused).drop 64)

/-- The string that begins at the name of entry `i`. -/
def nameAt (t : Table) (i : ℕ) : Option (List UInt8) := readString (memory (t.vars.drop i) t.unused)

/-- What `get_var_value` finds in one table. -/
def get (t : Table) (name : List UInt8) : Option (Option (List UInt8)) :=
  (findVar name t.unused t.vars).bind fun
    | none => some none
    | some i => (t.valueAt i).map some

/-- What `set_local_var` and `set_global_var` do with their table, and whether there was room. -/
def set (t : Table) (name value : List UInt8) : Option (Table × Bool) :=
  (findVar name t.unused t.vars).map fun
    | some i =>
      (⟨t.vars.modify i (·.setValue value), by rw [List.length_modify]; exact t.length_le⟩, true)
    | none =>
      if h : t.vars.length < maxVars then
        (⟨t.vars ++ [.make name value], by rw [List.length_append]; exact h⟩, true)
      else (t, false)

end Table

/-- The tables, and the environment of the process. -/
structure Store where
  localVars : Table
  globalVars : Table
  environ : List UInt8 → Option (List UInt8)

/-- The store of a shell that has just been started. -/
def Store.initial (environ : List UInt8 → Option (List UInt8)) : Store := ⟨.empty, .empty, environ⟩

def getVarValue (s : Store) (name : List UInt8) : Option (List UInt8) :=
  (s.localVars.get name).bind fun
    | some value => some value
    | none =>
      (s.globalVars.get name).map fun
        | some value => value
        | none => (s.environ name).getD []

/-- `setenv(name, value, 1)`, which refuses an empty name and a name with `=` in it. -/
def setenv (environ : List UInt8 → Option (List UInt8)) (name value : List UInt8) :
    List UInt8 → Option (List UInt8) :=
  if name = [] ∨ 61 ∈ name then environ else Function.update environ name (some value)

/-- `set_local_var`, and what it prints to `stderr`. -/
def setLocalVar (s : Store) (name value : List UInt8) : Option (Store × List UInt8) :=
  (s.localVars.set name value).map fun (localVars, stored) =>
    ({ s with localVars := localVars },
      if stored then [] else ascii "Error: too many local variables (max 64)\n")

/-- `set_global_var`, and what it prints to `stderr`. The callers pass no `NULL`; `export NAME` may
pass the value that the table already has, and copying that to itself changes nothing. -/
def setGlobalVar (s : Store) (name value : List UInt8) : Option (Store × List UInt8) :=
  (s.globalVars.set name value).map fun (globalVars, stored) =>
    ({ s with environ := setenv s.environ name value, globalVars := globalVars },
      if stored then [] else ascii "Error: too many global variables (max 64)\n")

/-! ### Tables as maps

A map entry is a name and, if it is short enough to be read back, the value last set. -/

/-- A string that a field `value` has room for. -/
def Short (value : List UInt8) : Prop := 0 ∉ value ∧ value.length < 256

instance (value : List UInt8) : Decidable (Short value) :=
  inferInstanceAs (Decidable (_ ∧ _))

theorem short_nil : Short [] := ⟨List.not_mem_nil, by decide⟩

/-- The value that a field holds once `value` has been copied to it. -/
def held (value : List UInt8) : Option (List UInt8) := if Short value then some value else none

theorem held_eq_some {value : List UInt8} (h : Short value) : held value = some value := if_pos h

/-- The variable holds this name, with its terminator, and likewise this value. -/
def Variable.Represents (v : Variable) (e : List UInt8 × Option (List UInt8)) : Prop :=
  Holds v.name e.1 ∧ ∀ value ∈ e.2, Holds v.value value

/-- The used entries hold the entries of a map, in order. -/
def Table.Represents (t : Table) (m : List (List UInt8 × Option (List UInt8))) : Prop :=
  List.Forall₂ Variable.Represents t.vars m

namespace Variable

theorem holds_held {value v : List UInt8} (h : v ∈ held value) : Holds (strncpy 256 value) v := by
  rw [held] at h
  split at h
  · rename_i hshort
    obtain rfl : value = v := Option.some.inj h
    exact holds_strncpy hshort.1 hshort.2
  · cases h

theorem represents_make {name : List UInt8} (hname : 0 ∉ name) (hlen : name.length < 64)
    (value : List UInt8) : (make name value).Represents (name, held value) :=
  ⟨holds_strncpy hname hlen, fun _ hv => holds_held hv⟩

theorem Represents.setValue {v : Variable} {e : List UInt8 × Option (List UInt8)}
    (h : v.Represents e) (value : List UInt8) :
    (v.setValue value).Represents (e.1, held value) :=
  ⟨h.1, fun _ hv => holds_held hv⟩

end Variable

namespace Table

variable {t : Table} {m : List (List UInt8 × Option (List UInt8))}

theorem represents_empty : empty.Represents [] := List.Forall₂.nil

theorem memory_cons (v : Variable) (vars : List Variable) (unused : List UInt8) :
    memory (v :: vars) unused = v.name ++ (v.value ++ memory vars unused) := by
  simp [memory, Variable.bytes]

/-- The search finds the position in the map. -/
theorem findVar_eq {name unused : List UInt8} (hname : 0 ∉ name) {vars : List Variable}
    (h : List.Forall₂ Variable.Represents vars m) :
    findVar name unused vars = some (BoundedMap.position name m) := by
  induction h with
  | nil => rfl
  | @cons v e vars m hv hvars ih =>
    rw [findVar, memory_cons, strcmpEq_of_holds hv.1 hname, ih]
    simp only [Option.bind_some, BoundedMap.position, List.findIdx?_cons]
    split <;> rfl

/-- Where the value of an entry is read. -/
theorem valueAt_eq {i : ℕ} (hi : i < t.vars.length) :
    t.valueAt i = readString (t.vars[i].value ++ memory (t.vars.drop (i + 1)) t.unused) := by
  rw [valueAt, List.drop_eq_getElem_cons hi, memory_cons, List.drop_left' (Variable.name_length _)]

theorem zero_mem_unused (h : t.vars.length < maxVars) : 0 ∈ t.unused := by
  rw [unused, List.mem_replicate]
  refine ⟨?_, rfl⟩
  have hpos : 0 < maxVars - t.vars.length := Nat.sub_pos_of_lt h
  omega

/-- There is room for another variable while the names are few. -/
theorem Represents.length_lt (h : t.Represents m) {names : Finset (List UInt8)}
    (hfits : BoundedMap.Fits names m) (hnames : names.card < maxVars) :
    t.vars.length < maxVars := by
  rw [h.length_eq]
  exact hfits.length_le.trans_lt hnames

/-- **Looking up** a name that is not there. -/
theorem get_of_absent (h : t.Represents m) {name : List UInt8} (hname : 0 ∉ name)
    (hfind : BoundedMap.find name m = none) : t.get name = some none := by
  rw [get, findVar_eq hname h, BoundedMap.position_eq_none_iff.mpr
    (BoundedMap.find_eq_none_iff.mp hfind)]
  rfl

/-- **Looking up** a name that is there, while there is room for another. -/
theorem exists_get (h : t.Represents m) (hroom : t.vars.length < maxVars) {name : List UInt8}
    (hname : 0 ∉ name) {e : Option (List UInt8)} (hfind : BoundedMap.find name m = some e) :
    ∃ value, t.get name = some (some value) ∧ ∀ v ∈ e, value = v := by
  rw [BoundedMap.find_eq_of_position] at hfind
  obtain ⟨i, hpos, hi⟩ := Option.bind_eq_some_iff.mp hfind
  obtain ⟨e', he', rfl⟩ := Option.map_eq_some_iff.mp hi
  obtain ⟨hlt, rfl⟩ := List.getElem?_eq_some_iff.mp he'
  have hlt' : i < t.vars.length := h.length_eq ▸ hlt
  have hrep : t.vars[i].Represents m[i] := h.get hlt' hlt
  have hread : 0 ∈ t.vars[i].value ++ memory (t.vars.drop (i + 1)) t.unused :=
    List.mem_append.mpr (Or.inr (List.mem_append.mpr (Or.inr (zero_mem_unused hroom))))
  obtain ⟨value, hvalue⟩ := exists_readString hread
  refine ⟨value, ?_, ?_⟩
  · rw [get, findVar_eq hname h, hpos]
    show (t.valueAt i).map some = _
    rw [valueAt_eq hlt', hvalue]
    rfl
  · intro v hv
    rw [readString_of_holds (hrep.2 v hv)] at hvalue
    exact (Option.some.inj hvalue).symm

theorem represents_modify {vars : List Variable} (h : List.Forall₂ Variable.Represents vars m)
    (value : List UInt8) : ∀ i : ℕ, List.Forall₂ Variable.Represents
      (vars.modify i (·.setValue value)) (m.modify i fun e => (e.1, held value)) := by
  induction h with
  | nil => simp
  | @cons v e vars m hve hvars ih =>
    intro i
    cases i with
    | zero => exact .cons (hve.setValue value) hvars
    | succ i => exact .cons hve (ih i)

theorem exists_set (h : t.Represents m) {name : List UInt8} (hname : 0 ∉ name)
    (hlen : name.length < 64) (value : List UInt8) :
    ∃ t' stored, t.set name value = some (t', stored) ∧
      t'.Represents (BoundedMap.insert maxVars name (held value) m) := by
  have hlength : t.vars.length = m.length := h.length_eq
  rw [set, findVar_eq hname h, Option.map_some]
  cases hpos : BoundedMap.position name m with
  | some i =>
    have hmem : name ∈ BoundedMap.keys m := by
      by_contra hk
      rw [BoundedMap.position_eq_none_iff.mpr hk] at hpos
      cases hpos
    refine ⟨_, _, rfl, ?_⟩
    rw [BoundedMap.insert, if_pos (Or.inl hmem), BoundedMap.put_of_position_eq_some _ hpos]
    exact represents_modify h value i
  | none =>
    have hmem := BoundedMap.position_eq_none_iff.mp hpos
    by_cases hroom : t.vars.length < maxVars
    · refine ⟨_, _, congrArg some (dif_pos hroom), ?_⟩
      rw [BoundedMap.insert, if_pos (Or.inr (hlength ▸ hroom)),
        BoundedMap.put_of_position_eq_none _ hpos]
      exact List.rel_append h (.cons (Variable.represents_make hname hlen value) .nil)
    · refine ⟨t, false, congrArg some (dif_neg hroom), ?_⟩
      rw [BoundedMap.insert, if_neg (by rw [← hlength]; simp [hmem, hroom])]
      exact h

end Table

end MiniShell

end SystemProgramming
