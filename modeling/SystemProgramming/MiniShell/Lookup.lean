import SystemProgramming.MiniShell.Variables

/-!
# Searching the tables

What the search loop of the variable functions finds, said by what is read at each entry: the
string that begins at its name and the string that begins at its value, wherever these end. It
holds of tables with any contents; names that run on into what follows are names like others.

The loop is undefined only where a comparison runs past the end of the array: never while there is
an unused entry, and never for a name shorter than an entry.

## Why by what is read

An entry has a field for the name and one for the value, and the strings in them need not end inside
the fields: a name of 64 bytes has no NUL and is read on into the value, and a value of 256 bytes
into the name of the next entry. The code never asks where a string ends. So what is found is said
in the same way, by `nameAt` and `valueAt`, which read the memory from the beginning of a field on,
and no assumption is made about the lengths of what has been stored.

## Main results

* `Table.findVar_eq_some_some_iff`, `Table.findVar_eq_some_none_iff` — what the loop finds
* `getVarValue_eq` — the value of a name is the one that `IsValue` describes
-/

namespace SystemProgramming

namespace MiniShell

namespace Table

/-- Entry `i` is the first one with this name. -/
def FirstAt (t : Table) (name : List UInt8) (i : ℕ) : Prop :=
  i < t.vars.length ∧ t.nameAt i = some name ∧ ∀ j < i, t.nameAt j ≠ some name

/-- No entry has this name. -/
def Absent (t : Table) (name : List UInt8) : Prop := ∀ i < t.vars.length, t.nameAt i ≠ some name

/-- `strcmp` of the name of entry `i` with `name`. -/
def compareAt (t : Table) (name : List UInt8) (i : ℕ) : Option Bool :=
  strcmpEq (memory (t.vars.drop i) t.unused) name

/-! ### The loop -/

section Cons

variable {name unused : List UInt8} {v : Variable} {vars : List Variable}

theorem findVar_cons_eq_none : findVar name unused (v :: vars) = some none ↔
    strcmpEq (memory (v :: vars) unused) name = some false ∧
      findVar name unused vars = some none := by
  rw [findVar]
  rcases strcmpEq (memory (v :: vars) unused) name with _ | _ | _
  · simp
  · simp
  · simp

theorem findVar_cons_eq_zero : findVar name unused (v :: vars) = some (some 0) ↔
    strcmpEq (memory (v :: vars) unused) name = some true := by
  rw [findVar]
  rcases strcmpEq (memory (v :: vars) unused) name with _ | _ | _
  · simp
  · simp
  · simp

theorem findVar_cons_eq_succ {i : ℕ} : findVar name unused (v :: vars) = some (some (i + 1)) ↔
    strcmpEq (memory (v :: vars) unused) name = some false ∧
      findVar name unused vars = some (some i) := by
  rw [findVar]
  rcases strcmpEq (memory (v :: vars) unused) name with _ | _ | _
  · simp
  · simp
  · simp

end Cons

theorem findVar_eq_some_some_iff {name unused : List UInt8} : ∀ {vars : List Variable} {i : ℕ},
    findVar name unused vars = some (some i) ↔
      i < vars.length ∧ strcmpEq (memory (vars.drop i) unused) name = some true ∧
        ∀ j < i, strcmpEq (memory (vars.drop j) unused) name = some false
  | [], i => by simp [findVar]
  | v :: vars, 0 => by simp [findVar_cons_eq_zero]
  | v :: vars, i + 1 => by
    rw [findVar_cons_eq_succ, findVar_eq_some_some_iff, List.length_cons, Nat.add_lt_add_iff_right,
      List.drop_succ_cons, Nat.forall_lt_succ_left, List.drop_zero]
    simp only [List.drop_succ_cons]
    constructor
    · rintro ⟨hv, hi, htrue, hfalse⟩
      exact ⟨hi, htrue, hv, hfalse⟩
    · rintro ⟨hi, htrue, hv, hfalse⟩
      exact ⟨hv, hi, htrue, hfalse⟩

theorem findVar_eq_some_none_iff {name unused : List UInt8} : ∀ {vars : List Variable},
    findVar name unused vars = some none ↔
      ∀ j < vars.length, strcmpEq (memory (vars.drop j) unused) name = some false
  | [] => by simp [findVar]
  | v :: vars => by
    rw [findVar_cons_eq_none, findVar_eq_some_none_iff, List.length_cons, Nat.forall_lt_succ_left,
      List.drop_zero]
    simp only [List.drop_succ_cons]

/-! ### What is read at the entries -/

variable {t : Table} {name : List UInt8}

theorem compareAt_eq_some_true_iff (hname : 0 ∉ name) {i : ℕ} :
    t.compareAt name i = some true ↔ t.nameAt i = some name :=
  strcmpEq_eq_some_true_iff hname

theorem compareAt_eq_some_false_iff (hname : 0 ∉ name) {i : ℕ}
    (hdef : (t.compareAt name i).isSome) :
    t.compareAt name i = some false ↔ t.nameAt i ≠ some name := by
  rw [ne_eq, ← compareAt_eq_some_true_iff hname]
  obtain ⟨b, hb⟩ := Option.isSome_iff_exists.mp hdef
  rw [hb]
  cases b <;> simp

/-- A name shorter than an entry is compared inside it. -/
theorem isSome_compareAt_of_length_lt (hname : 0 ∉ name) (hlen : name.length < 320) {i : ℕ}
    (hi : i < t.vars.length) : (t.compareAt name i).isSome := by
  have hmem : name.length < (memory (t.vars.drop i) t.unused).length := by
    rw [List.drop_eq_getElem_cons hi, memory_cons]
    simp only [List.length_append, Variable.name_length, Variable.value_length]
    omega
  rw [compareAt, strcmpEq_of_length_lt hname hmem]
  rfl

/-- While there is an unused entry its first byte ends everything. -/
theorem isSome_compareAt_of_room (hname : 0 ∉ name) (hroom : t.vars.length < maxVars) (i : ℕ) :
    (t.compareAt name i).isSome :=
  strcmpEq_of_zero_mem hname (List.mem_append.mpr (Or.inr (zero_mem_unused hroom)))

theorem findVar_of_firstAt (hname : 0 ∉ name) {i : ℕ} (h : t.FirstAt name i)
    (hdef : ∀ j < i, (t.compareAt name j).isSome) :
    findVar name t.unused t.vars = some (some i) :=
  findVar_eq_some_some_iff.mpr ⟨h.1, (compareAt_eq_some_true_iff hname).mpr h.2.1,
    fun j hj => (compareAt_eq_some_false_iff hname (hdef j hj)).mpr (h.2.2 j hj)⟩

theorem firstAt_of_findVar (hname : 0 ∉ name) {i : ℕ}
    (h : findVar name t.unused t.vars = some (some i)) : t.FirstAt name i := by
  obtain ⟨hi, htrue, hfalse⟩ := findVar_eq_some_some_iff.mp h
  refine ⟨hi, (compareAt_eq_some_true_iff hname).mp htrue, fun j hj => ?_⟩
  have hdef : (t.compareAt name j).isSome := Option.isSome_of_eq_some (hfalse j hj)
  exact (compareAt_eq_some_false_iff hname hdef).mp (hfalse j hj)

theorem findVar_of_absent (hname : 0 ∉ name) (h : t.Absent name)
    (hdef : ∀ j < t.vars.length, (t.compareAt name j).isSome) :
    findVar name t.unused t.vars = some none :=
  findVar_eq_some_none_iff.mpr fun j hj =>
    (compareAt_eq_some_false_iff hname (hdef j hj)).mpr (h j hj)

theorem absent_of_findVar (hname : 0 ∉ name) (h : findVar name t.unused t.vars = some none) :
    t.Absent name := by
  intro j hj
  have hfalse := findVar_eq_some_none_iff.mp h j hj
  exact (compareAt_eq_some_false_iff hname (Option.isSome_of_eq_some hfalse)).mp hfalse

theorem get_of_findVar_eq_some {i : ℕ} (h : findVar name t.unused t.vars = some (some i)) :
    t.get name = (t.valueAt i).map some := by
  rw [get, h]
  rfl

theorem get_of_findVar_eq_none (h : findVar name t.unused t.vars = some none) :
    t.get name = some none := by
  rw [get, h]
  rfl

end Table

/-- The value of a name: that of the local variable, else that of the exported variable, else that
of the environment, else nothing. -/
inductive IsValue (s : Store) (name : List UInt8) : List UInt8 → Prop
  | localVar {i : ℕ} {value : List UInt8} (hi : s.localVars.FirstAt name i)
    (hvalue : s.localVars.valueAt i = some value) : IsValue s name value
  | exported {i : ℕ} {value : List UInt8} (hlocal : s.localVars.Absent name)
    (hi : s.globalVars.FirstAt name i) (hvalue : s.globalVars.valueAt i = some value) :
    IsValue s name value
  | environ {value : List UInt8} (hlocal : s.localVars.Absent name)
    (hglobal : s.globalVars.Absent name) (hvalue : s.environ name = some value) :
    IsValue s name value
  | undefined (hlocal : s.localVars.Absent name) (hglobal : s.globalVars.Absent name)
    (hvalue : s.environ name = none) : IsValue s name []

/-- **Looking up a name** that is shorter than an entry. -/
theorem getVarValue_eq {s : Store} {name value : List UInt8} (hname : 0 ∉ name)
    (hlen : name.length < 320) (h : IsValue s name value) : getVarValue s name = some value := by
  have hdef : ∀ (t : Table), ∀ j < t.vars.length, (t.compareAt name j).isSome :=
    fun t j hj => Table.isSome_compareAt_of_length_lt hname hlen hj
  have hfirst : ∀ {t : Table} {i : ℕ}, t.FirstAt name i → t.get name = (t.valueAt i).map some :=
    fun {t i} hi => Table.get_of_findVar_eq_some
      (Table.findVar_of_firstAt hname hi fun j hj => hdef t j (hj.trans hi.1))
  have habsent : ∀ {t : Table}, t.Absent name → t.get name = some none :=
    fun {t} ht => Table.get_of_findVar_eq_none (Table.findVar_of_absent hname ht (hdef t))
  rw [getVarValue]
  cases h with
  | localVar hi hvalue =>
    rw [hfirst hi, hvalue]
    rfl
  | exported hlocal hi hvalue =>
    rw [habsent hlocal, hfirst hi, hvalue]
    rfl
  | environ hlocal hglobal hvalue =>
    rw [habsent hlocal, habsent hglobal]
    simp [hvalue]
  | undefined hlocal hglobal hvalue =>
    rw [habsent hlocal, habsent hglobal]
    simp [hvalue]

end MiniShell

end SystemProgramming
