import SystemProgramming.MiniShell.Lookup

/-!
# The tables as bounded maps

`set_local_var` and `set_global_var`, called any number of times with names and values that the
fields have room for. Each table is then a `BoundedMap`: `calls_refines` follows it through a
sequence of calls, and what a map looks like after a sequence of insertions is read off there.

The three shells have the same functions, except that `mini-shell-3` prints nothing when a table
is full; what is printed plays no part here.

## How it goes

A table with fields that all hold a terminated string represents a map: each entry is a name and a
value, and no comparison runs on into the next field. A call finds the entry or takes a new one, as
`BoundedMap.insert` does (`call_refines`), and the values are put by `strncpy` into fields that are
large enough. Everything about sequences of calls is then said of maps, and translated back. The two
tables do not know of each other, so a sequence of calls is the sequence for one of them and the
sequence for the other (`entries`).

## Main definitions

* `Call`, `Store.call`, `Store.calls` — the calls
* `firstNames`, `lastSet` — what a sequence of calls says about a table

## Main results

* `call_refines` — one call is one insertion
* `tables_refine_calls` — the tables after any sequence of calls
-/

namespace SystemProgramming

namespace MiniShell

/-- One of the two tables. -/
inductive Scope
  | localVars
  | globalVars
  deriving DecidableEq, Repr

/-- A call of `set_local_var` or `set_global_var`, with strings that fit their fields. -/
structure Call where
  scope : Scope
  name : List UInt8
  value : List UInt8
  zero_notMem : 0 ∉ name
  length_lt : name.length < 64
  short : Short value

/-- `local_vars` or `global_vars` -/
def Store.table (s : Store) : Scope → Table
  | .localVars => s.localVars
  | .globalVars => s.globalVars

/-- The store after a call. -/
def Store.call (s : Store) (c : Call) : Option Store :=
  match c.scope with
  | .localVars => (setLocalVar s c.name c.value).map Prod.fst
  | .globalVars => (setGlobalVar s c.name c.value).map Prod.fst

/-- The store after some calls. -/
def Store.calls : Store → List Call → Option Store
  | s, [] => some s
  | s, c :: cs => (s.call c).bind fun s' => s'.calls cs

/-- What was set in one of the tables, in order. -/
def entries (scope : Scope) (cs : List Call) : List (List UInt8 × Option (List UInt8)) :=
  (cs.filter fun c => c.scope = scope).map fun c => (c.name, some c.value)

/-- The names set in one of the tables, in the order in which they were first set. -/
def firstNames (scope : Scope) (cs : List Call) : List (List UInt8) :=
  BoundedMap.firstKeys (entries scope cs)

/-- The value last set for a name in one of the tables. -/
def lastSet (scope : Scope) (name : List UInt8) (cs : List Call) : Option (List UInt8) :=
  (cs.filter fun c => c.scope = scope ∧ c.name = name).getLast?.map Call.value

/-! ### One call -/

/-- The new name is refused when the table is full. -/
theorem Table.set_of_full {t t' : Table} {name value : List UInt8} {stored : Bool}
    (hname : 0 ∉ name) (hlen : name.length < 320) (hfull : t.vars.length = maxVars)
    (habsent : t.Absent name) (hset : t.set name value = some (t', stored)) : t' = t := by
  have hfind : findVar name t.unused t.vars = some none :=
    findVar_of_absent hname habsent fun j hj => isSome_compareAt_of_length_lt hname hlen hj
  rw [Table.set, hfind, Option.map_some] at hset
  simp only [dif_neg (show ¬ t.vars.length < maxVars by omega)] at hset
  cases hset
  rfl

theorem table_of_ne {scope scope' : Scope} {s s' : Store} (hne : scope' ≠ scope)
    (hother : match scope with
      | .localVars => s'.globalVars = s.globalVars
      | .globalVars => s'.localVars = s.localVars) : s'.table scope' = s.table scope' := by
  cases scope with
  | localVars =>
    cases scope' with
    | localVars => exact absurd rfl hne
    | globalVars => exact hother
  | globalVars =>
    cases scope' with
    | localVars => exact hother
    | globalVars => exact absurd rfl hne

/-- What a call does to its table, and that it leaves the other one alone. -/
theorem call_eq_some {s s' : Store} {c : Call} (h : s.call c = some s') :
    (∃ stored, (s.table c.scope).set c.name c.value = some (s'.table c.scope, stored)) ∧
      ∀ scope, scope ≠ c.scope → s'.table scope = s.table scope := by
  obtain ⟨scope, name, value, h0, hlen, hshort⟩ := c
  cases scope with
  | localVars =>
    obtain ⟨⟨s₁, err⟩, hset, rfl⟩ := Option.map_eq_some_iff.mp h
    obtain ⟨⟨t, stored⟩, ht, heq⟩ := Option.map_eq_some_iff.mp hset
    cases heq
    exact ⟨⟨stored, ht⟩, fun scope hne => table_of_ne hne rfl⟩
  | globalVars =>
    obtain ⟨⟨s₁, err⟩, hset, rfl⟩ := Option.map_eq_some_iff.mp h
    obtain ⟨⟨t, stored⟩, ht, heq⟩ := Option.map_eq_some_iff.mp hset
    cases heq
    exact ⟨⟨stored, ht⟩, fun scope hne => table_of_ne hne rfl⟩

theorem exists_call {s : Store} {c : Call} {t : Table} {stored : Bool}
    (hset : (s.table c.scope).set c.name c.value = some (t, stored)) :
    ∃ s', s.call c = some s' := by
  obtain ⟨scope, name, value, h0, hlen, hshort⟩ := c
  cases scope with
  | localVars =>
    have hlocal : s.localVars.set name value = some (t, stored) := hset
    exact ⟨_, by rw [Store.call, setLocalVar, hlocal]; rfl⟩
  | globalVars =>
    have hglobal : s.globalVars.set name value = some (t, stored) := hset
    exact ⟨_, by rw [Store.call, setGlobalVar, hglobal]; rfl⟩

/-- **One call is one insertion.** -/
theorem call_refines {s : Store} (c : Call) {m : List (List UInt8 × Option (List UInt8))}
    (h : (s.table c.scope).Represents m) :
    ∃ s', s.call c = some s' ∧
      (s'.table c.scope).Represents (BoundedMap.insert maxVars c.name (some c.value) m) := by
  obtain ⟨t, stored, hset, hrep⟩ := Table.exists_set h c.zero_notMem c.length_lt c.value
  obtain ⟨s', hs'⟩ := exists_call hset
  obtain ⟨⟨stored', hset'⟩, -⟩ := call_eq_some hs'
  rw [hset] at hset'
  cases hset'
  exact ⟨s', hs', held_eq_some c.short ▸ hrep⟩

/-! ### Sequences of calls -/

theorem calls_append (s : Store) (cs ds : List Call) :
    s.calls (cs ++ ds) = (s.calls cs).bind fun s' => s'.calls ds := by
  induction cs generalizing s with
  | nil => rfl
  | cons c cs ih =>
    rw [List.cons_append, Store.calls, Store.calls, Option.bind_assoc]
    exact Option.bind_congr fun s' _ => ih s'

theorem entries_append_self (cs : List Call) (c : Call) :
    entries c.scope (cs ++ [c]) = entries c.scope cs ++ [(c.name, some c.value)] := by
  simp [entries]

theorem entries_append_of_ne {cs : List Call} {c : Call} {scope : Scope} (h : scope ≠ c.scope) :
    entries scope (cs ++ [c]) = entries scope cs := by
  simp [entries, h.symm]

/-- **Both tables follow the calls.** -/
theorem calls_refines (environ : List UInt8 → Option (List UInt8)) (cs : List Call) :
    ∃ s, (Store.initial environ).calls cs = some s ∧ ∀ scope,
      (s.table scope).Represents (BoundedMap.insertAll maxVars (entries scope cs)) := by
  induction cs using List.reverseRecOn with
  | nil =>
    refine ⟨_, rfl, fun scope => ?_⟩
    cases scope with
    | localVars => exact Table.represents_empty
    | globalVars => exact Table.represents_empty
  | append_singleton cs c ih =>
    obtain ⟨s, hs, hrep⟩ := ih
    obtain ⟨s', hs', hrep'⟩ := call_refines c (hrep c.scope)
    refine ⟨s', by rw [calls_append, hs, Option.bind_some, Store.calls, hs']; rfl,
      fun scope => ?_⟩
    rcases eq_or_ne scope c.scope with rfl | hne
    · rwa [entries_append_self, BoundedMap.insertAll_append]
    · rw [entries_append_of_ne hne, (call_eq_some hs').2 scope hne]
      exact hrep scope

theorem lastValue_entries (scope : Scope) (name : List UInt8) (cs : List Call) :
    BoundedMap.lastValue name (entries scope cs) = (lastSet scope name cs).map some := by
  rw [BoundedMap.lastValue, entries, List.filter_map, List.filter_filter, List.getLast?_map,
    lastSet, Option.map_map, Option.map_map]
  refine congrArg₂ _ rfl (congrArg _ (List.filter_congr fun c _ => ?_))
  simp [Bool.and_comm]

/-- What is read at an entry of a represented table. -/
theorem Table.Represents.read {t : Table} {m : List (List UInt8 × Option (List UInt8))}
    (h : t.Represents m) {i : ℕ} (hi : i < t.vars.length) :
    ∃ e, m[i]? = some e ∧ t.nameAt i = some e.1 ∧ ∀ value ∈ e.2, t.valueAt i = some value := by
  have hm : i < m.length := h.length_eq ▸ hi
  have hrep : t.vars[i].Represents m[i] := h.get hi hm
  refine ⟨m[i], List.getElem?_eq_getElem hm, ?_, fun value hvalue => ?_⟩
  · rw [nameAt, List.drop_eq_getElem_cons hi, memory_cons, readString_of_holds hrep.1]
  · rw [valueAt_eq hi, readString_of_holds (hrep.2 value hvalue)]

section InsertAll

variable {t : Table} {scope : Scope} {cs : List Call}
  (h : t.Represents (BoundedMap.insertAll maxVars (entries scope cs)))

include h

theorem Table.Represents.length_eq_min :
    t.vars.length = min maxVars (firstNames scope cs).length := by
  have hkeys : _ = (firstNames scope cs).take maxVars :=
    BoundedMap.keys_insertAll maxVars (entries scope cs)
  rw [h.length_eq, ← List.length_take, ← hkeys, BoundedMap.keys, List.length_map]

/-- What is read at an entry after a sequence of calls. -/
theorem Table.Represents.read_calls {i : ℕ} (hi : i < t.vars.length) :
    ∃ name value, t.nameAt i = some name ∧ (firstNames scope cs)[i]? = some name ∧
      t.valueAt i = some value ∧ lastSet scope name cs = some value := by
  have hkeys : _ = (firstNames scope cs).take maxVars :=
    BoundedMap.keys_insertAll maxVars (entries scope cs)
  have hnodup : (BoundedMap.keys (BoundedMap.insertAll maxVars (entries scope cs))).Nodup := by
    rw [BoundedMap.keys_insertAll]
    exact (BoundedMap.nodup_firstKeys _).sublist (List.take_sublist _ _)
  obtain ⟨⟨name, held⟩, he, hname, hvalue⟩ := h.read hi
  have hmem : name ∈ BoundedMap.keys (BoundedMap.insertAll maxVars (entries scope cs)) :=
    List.mem_map.mpr ⟨_, List.mem_of_getElem? he, rfl⟩
  have hfirst : ((firstNames scope cs).take maxVars)[i]? = some name := by
    rw [← hkeys, BoundedMap.keys, List.getElem?_map, he]
    rfl
  have hlast : some held = (lastSet scope name cs).map some := by
    rw [← lastValue_entries, ← BoundedMap.find_insertAll maxVars _ hmem,
      BoundedMap.find_of_getElem? hnodup he]
  obtain ⟨value, hset, hheld⟩ := Option.map_eq_some_iff.mp hlast.symm
  refine ⟨name, value, hname, ?_, hvalue value hheld.symm, hset⟩
  rw [List.getElem?_take] at hfirst
  split at hfirst
  · exact hfirst
  · cases hfirst

theorem Table.Represents.index_unique {i j : ℕ} (hi : i < t.vars.length) (hj : j < t.vars.length)
    (hij : t.nameAt i = t.nameAt j) : i = j := by
  obtain ⟨name, -, hname, hfirst, -⟩ := h.read_calls hi
  obtain ⟨name', -, hname', hfirst', -⟩ := h.read_calls hj
  obtain rfl : name = name' := Option.some.inj (hname.symm.trans (hij.trans hname'))
  obtain ⟨hi', heq⟩ := List.getElem?_eq_some_iff.mp hfirst
  obtain ⟨hj', heq'⟩ := List.getElem?_eq_some_iff.mp hfirst'
  have hnodup : (firstNames scope cs).Nodup := BoundedMap.nodup_firstKeys _
  exact hnodup.getElem_inj_iff.mp (heq.trans heq'.symm)

end InsertAll

/-- **The tables are bounded ordered maps.** After any sequence of calls that set variables of
either table, with names and values that fit their fields: a table has at most `MAX_VARS` used
entries; entry `i` has the `i`-th of the names that were set in this table, by the order in which
they were first set, so no two entries have the same name; and its value is the one last set for
that name in this table. A further call leaves the other table as it is, and its own table too if
that is full and the name is not in it. -/
theorem tables_refine_calls (environ : List UInt8 → Option (List UInt8)) (cs : List Call) :
    ∃ s, (Store.initial environ).calls cs = some s ∧
      (∀ scope,
        (s.table scope).vars.length = min maxVars (firstNames scope cs).length ∧
        (∀ i < (s.table scope).vars.length, ∃ name value,
          (s.table scope).nameAt i = some name ∧ (firstNames scope cs)[i]? = some name ∧
          (s.table scope).valueAt i = some value ∧ lastSet scope name cs = some value) ∧
        ∀ i < (s.table scope).vars.length, ∀ j < (s.table scope).vars.length,
          (s.table scope).nameAt i = (s.table scope).nameAt j → i = j) ∧
      ∀ c : Call, ∃ s', s.call c = some s' ∧
        ((s.table c.scope).vars.length = maxVars → (s.table c.scope).Absent c.name →
          s'.table c.scope = s.table c.scope) ∧
        ∀ scope, scope ≠ c.scope → s'.table scope = s.table scope := by
  obtain ⟨s, hs, hrep⟩ := calls_refines environ cs
  refine ⟨s, hs, fun scope => ?_, fun c => ?_⟩
  · exact ⟨(hrep scope).length_eq_min, fun i hi => (hrep scope).read_calls hi,
      fun i hi j hj hij => (hrep scope).index_unique hi hj hij⟩
  · obtain ⟨s', hs', -⟩ := call_refines c (hrep c.scope)
    obtain ⟨⟨stored, hset⟩, hother⟩ := call_eq_some hs'
    refine ⟨s', hs', fun hfull habsent => ?_, hother⟩
    have hshort := c.length_lt
    exact Table.set_of_full c.zero_notMem (by omega) hfull habsent hset

end MiniShell

end SystemProgramming
