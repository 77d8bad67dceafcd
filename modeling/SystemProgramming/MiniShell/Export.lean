import SystemProgramming.MiniShell.Commands

/-!
# Assigned and exported variables

A name can be in the local table, in the global table and in the environment. `get_var_value` looks
for it in this order; a plain assignment changes only the first place, an export only the other
two. So a history of commands leaves two values of a name behind, and which of them `$NAME` stands
for does not depend on which was written last.

A value of the initial environment can be longer than the field that `export NAME` copies it to.
`Clear` says that this does not happen.

## What a history is

A history is a list of commands that assign and export, one a line. Each is run by the main loop of
the shell as any other line, with its expansion, and none of them forks, so that nothing but the
shell changes its tables or reads its input. The records of the theorem are what such a history says
of a name when it is read from the front, without tables: the last assignment, the last export.

## How it goes

While fewer names are in use than a table has room for, no command is refused, and a table is a map
that is changed at one key (`Library.BoundedMap`). For each name the records are computed from the
history by a fold, and a command changes the record of its own name only. So `Tracks` is kept by
comparing one assignment to a map with one step of a fold, for the name of the command and for any
other name. That `export NAME` copies a value is where the initial environment comes in: it may be
the value that is copied, and `strncpy` cuts it if it is too long.

## Main definitions

* `Record` — what a history has done to one name
* `Tracks` — the tables and the environment are as the records say

## Main results

* `Tracks.step`, `runScript_commands` — every command, and so every history, keeps to the records
* `expands_to_latest_assigned` — `$NAME` is the last value assigned, or else the last one exported
* `exported_value_and_expansion` — what a child finds under an exported name, and what `$NAME` is
-/

namespace SystemProgramming

namespace MiniShell

/-! ### What a history does to one name -/

/-- The two values that a history of commands leaves behind. -/
structure Record where
  /-- By the last `NAME=VALUE`. -/
  assigned : Option (List UInt8)
  /-- By the last `export`. -/
  exported : Option (List UInt8)

namespace Record

/-- What `$NAME` stands for. -/
def value (initial : Option (List UInt8)) (r : Record) : List UInt8 :=
  r.assigned.getD (r.exported.getD (initial.getD []))

/-- What a command does to the name it names, whose value in the environment was `initial` at
first. -/
def write (initial : Option (List UInt8)) (r : Record) : Command → Record
  | .assign _ v => { r with assigned := some v.text }
  | .exportValue _ v => { r with exported := some v.text }
  | .exportName _ => { r with exported := some (r.value initial) }

/-- What a history has done to the name `N`. -/
def ofHistory (initial : Option (List UInt8)) (N : Name) (h : List Command) : Record :=
  h.foldl (fun r c => if c.name = N then r.write initial c else r) ⟨none, none⟩

theorem ofHistory_append (initial : Option (List UInt8)) (N : Name) (h : List Command)
    (c : Command) : ofHistory initial N (h ++ [c]) =
      if c.name = N then (ofHistory initial N h).write initial c else ofHistory initial N h := by
  rw [ofHistory, List.foldl_append]
  rfl

theorem ofHistory_append_self (initial : Option (List UInt8)) (h : List Command) (c : Command) :
    ofHistory initial c.name (h ++ [c]) = (ofHistory initial c.name h).write initial c := by
  rw [ofHistory_append, if_pos rfl]

theorem ofHistory_append_of_ne {c : Command} {N : Name} (hc : c.name ≠ N)
    (initial : Option (List UInt8)) (h : List Command) :
    ofHistory initial N (h ++ [c]) = ofHistory initial N h := by
  rw [ofHistory_append, if_neg hc]

/-- A plain assignment does not change what is exported. -/
theorem exported_append_assign (initial : Option (List UInt8)) (N : Name) (h : List Command)
    (M : Name) (v : Value) : (ofHistory initial N (h ++ [.assign M v])).exported =
      (ofHistory initial N h).exported := by
  rw [ofHistory_append]
  split <;> rfl

/-- An export does not change what is assigned. -/
theorem assigned_append_export {c : Command} (hc : ∀ M v, c ≠ .assign M v)
    (initial : Option (List UInt8)) (N : Name) (h : List Command) :
    (ofHistory initial N (h ++ [c])).assigned = (ofHistory initial N h).assigned := by
  rw [ofHistory_append]
  rcases c with ⟨M, v⟩ | ⟨M, v⟩ | M
  · exact absurd rfl (hc M v)
  · split <;> rfl
  · split <;> rfl

end Record

/-- No `export NAME` can come upon an initial value of `N` that is too long. -/
def Clear (initial : Option (List UInt8)) (N : Name) (h : List Command) : Prop :=
  (∀ v ∈ initial, Short v) ∨ .exportName N ∉ h

theorem Clear.of_append {initial : Option (List UInt8)} {N : Name} {h : List Command} {c : Command}
    (hclear : Clear initial N (h ++ [c])) : Clear initial N h :=
  hclear.imp_right fun hnot hmem => hnot (List.mem_append.mpr (Or.inl hmem))

theorem Value.short (v : Value) : Short v.text :=
  ⟨fun h0 => absurd (v.isWordByte 0 h0) (by decide), v.length_lt⟩

namespace Record

variable {initial : Option (List UInt8)} {N : Name}

theorem short_value {r : Record} (hinitial : ∀ v ∈ initial, Short v)
    (hassigned : ∀ v ∈ r.assigned, Short v) (hexported : ∀ v ∈ r.exported, Short v) :
    Short (r.value initial) := by
  rcases r with ⟨_ | v, _ | v'⟩
  · rcases initial with _ | v
    · exact short_nil
    · exact hinitial v rfl
  · exact hexported v' rfl
  · exact hassigned v rfl
  · exact hassigned v rfl

theorem value_eq_of_or {r : Record} {v : List UInt8} (hv : r.assigned.or r.exported = some v) :
    r.value initial = v := by
  rcases Option.or_eq_some_iff.mp hv with hassigned | ⟨hnone, hexported⟩
  · rw [value, hassigned]
    rfl
  · rw [value, hnone, hexported]
    rfl

theorem short_assigned (h : List Command) : ∀ v ∈ (ofHistory initial N h).assigned, Short v := by
  induction h using List.reverseRecOn with
  | nil => exact fun v hv => absurd hv (by simp [ofHistory])
  | append_singleton h c ih =>
    by_cases hc : c.name = N
    · rw [ofHistory_append, if_pos hc]
      rcases c with ⟨M, v⟩ | ⟨M, v⟩ | M
      · rintro _ ⟨⟩
        exact v.short
      · exact ih
      · exact ih
    · rw [ofHistory_append_of_ne hc]
      exact ih

theorem short_exported (h : List Command) (hclear : Clear initial N h) :
    ∀ v ∈ (ofHistory initial N h).exported, Short v := by
  induction h using List.reverseRecOn with
  | nil => exact fun v hv => absurd hv (by simp [ofHistory])
  | append_singleton h c ih =>
    specialize ih hclear.of_append
    by_cases hc : c.name = N
    · rw [ofHistory_append, if_pos hc]
      rcases c with ⟨M, v⟩ | ⟨M, v⟩ | M
      · exact ih
      · rintro _ ⟨⟩
        exact v.short
      · obtain rfl : M = N := hc
        have hinitial : ∀ v ∈ initial, Short v :=
          hclear.resolve_right fun hnot => hnot (List.mem_append.mpr (Or.inr List.mem_cons_self))
        rintro _ ⟨⟩
        exact short_value hinitial (short_assigned h) ih
    · rw [ofHistory_append_of_ne hc]
      exact ih

end Record

/-! ### The tables and the environment follow -/

/-- The names of a history. -/
def names (h : List Command) : Finset (List UInt8) := (h.map fun c => c.name.text).toFinset

/-- After a history, the tables hold the maps `l` and `g`, and these and the environment are what
the records say. -/
structure Tracks (environ : List UInt8 → Option (List UInt8)) (used : Finset (List UInt8))
    (l g : List (List UInt8 × Option (List UInt8))) (h : List Command) (s : Store) : Prop where
  localVars : s.localVars.Represents l
  globalVars : s.globalVars.Represents g
  fits_local : BoundedMap.Fits used l
  fits_global : BoundedMap.Fits used g
  assigned : ∀ N : Name, BoundedMap.find N.text l =
    (Record.ofHistory (environ N.text) N h).assigned.map some
  exported : ∀ N : Name, Clear (environ N.text) N h → BoundedMap.find N.text g =
    (Record.ofHistory (environ N.text) N h).exported.map some
  environ : ∀ N : Name, Clear (environ N.text) N h → s.environ N.text =
    (Record.ofHistory (environ N.text) N h).exported.or (environ N.text)

theorem tracks_initial (environ : List UInt8 → Option (List UInt8)) (used : Finset (List UInt8)) :
    Tracks environ used [] [] [] (.initial environ) where
  localVars := Table.represents_empty
  globalVars := Table.represents_empty
  fits_local := BoundedMap.fits_nil used
  fits_global := BoundedMap.fits_nil used
  assigned _ := rfl
  exported _ _ := rfl
  environ _ _ := rfl

theorem Name.zero_notMem (N : Name) : 0 ∉ N.text := N.notMem (by decide)

/-- `setenv` refuses no name. -/
theorem setenv_name (environ : List UInt8 → Option (List UInt8)) (N : Name) (value : List UInt8) :
    setenv environ N.text value = Function.update environ N.text (some value) :=
  if_neg (not_or.mpr ⟨N.ne_nil, N.notMem (by decide)⟩)

namespace Tracks

variable {environ : List UInt8 → Option (List UInt8)} {used : Finset (List UInt8)}
  {l g : List (List UInt8 × Option (List UInt8))} {h : List Command} {s : Store}

/-- **Looking up a name.** -/
theorem exists_getVarValue (ht : Tracks environ used l g h s) (hused : used.card < maxVars)
    (N : Name) : ∃ value, getVarValue s N.text = some value ∧
      (Clear (environ N.text) N h →
        value = (Record.ofHistory (environ N.text) N h).value (environ N.text)) := by
  have hlocal := ht.localVars.length_lt ht.fits_local hused
  have hglobal := ht.globalVars.length_lt ht.fits_global hused
  have hassigned := ht.assigned N
  cases hl : BoundedMap.find N.text l with
  | some e =>
    obtain ⟨value, hget, hvalue⟩ := Table.exists_get ht.localVars hlocal N.zero_notMem hl
    refine ⟨value, by rw [getVarValue, hget]; rfl, fun _ => ?_⟩
    obtain ⟨v, hv, rfl⟩ := Option.map_eq_some_iff.mp (hassigned.symm.trans hl)
    rw [hvalue v rfl, Record.value, hv]
    rfl
  | none =>
    have hnone := Option.map_eq_none_iff.mp (hassigned.symm.trans hl)
    have hget := Table.get_of_absent ht.localVars N.zero_notMem hl
    cases hg : BoundedMap.find N.text g with
    | some e =>
      obtain ⟨value, hget', hvalue⟩ := Table.exists_get ht.globalVars hglobal N.zero_notMem hg
      refine ⟨value, by rw [getVarValue, hget, Option.bind_some, hget']; rfl, fun hclear => ?_⟩
      obtain ⟨v, hv, rfl⟩ := Option.map_eq_some_iff.mp ((ht.exported N hclear).symm.trans hg)
      rw [hvalue v rfl, Record.value, hnone, hv]
      rfl
    | none =>
      have hget' := Table.get_of_absent ht.globalVars N.zero_notMem hg
      refine ⟨_, by rw [getVarValue, hget, Option.bind_some, hget']; rfl, fun hclear => ?_⟩
      have hnone' := Option.map_eq_none_iff.mp ((ht.exported N hclear).symm.trans hg)
      show (s.environ N.text).getD [] = _
      rw [ht.environ N hclear, Record.value, hnone, hnone']
      rfl

/-- What `$NAME` expands to, once the name has been assigned or exported. -/
theorem expandVariables_eq (ht : Tracks environ used l g h s) (hused : used.card < maxVars)
    {N : Name} (hclear : Clear (environ N.text) N h) {v : List UInt8}
    (hv : (Record.ofHistory (environ N.text) N h).assigned.or
      (Record.ofHistory (environ N.text) N h).exported = some v) :
    expandVariables s (dollar :: N.text) = some v := by
  have hshort : Short v := by
    rcases Option.or_eq_some_iff.mp hv with hv | ⟨-, hv⟩
    · exact Record.short_assigned h v hv
    · exact Record.short_exported h hclear v hv
  have hfits : v.length < maxLine := hshort.2.trans (by decide)
  obtain ⟨value, hget, hvalue⟩ := ht.exists_getVarValue hused N
  rw [hvalue hclear, Record.value_eq_of_or hv] at hget
  exact expandVariables_reference N.isNameByte N.length_lt hget hfits

theorem step_assign (ht : Tracks environ used l g h s) (hused : used.card < maxVars) {M : Name}
    (hM : M.text ∈ used) (v : Value) :
    ∃ s' err, (Command.assign M v).run s = some (s', err) ∧
      ∃ l' g', Tracks environ used l' g' (h ++ [.assign M v]) s' := by
  obtain ⟨t, stored, hset, hrep⟩ :=
    Table.exists_set ht.localVars M.zero_notMem M.length_lt v.text
  rw [ht.fits_local.insert_eq_put hused, held_eq_some v.short] at hrep
  refine ⟨{ s with localVars := t }, _, by rw [Command.run, setLocalVar, hset]; rfl,
    BoundedMap.put M.text (some v.text) l, g, ?_⟩
  constructor
  case localVars => exact hrep
  case globalVars => exact ht.globalVars
  case fits_local => exact ht.fits_local.put hM _
  case fits_global => exact ht.fits_global
  case assigned =>
    intro N
    by_cases hN : M = N
    · subst hN
      have hself := Record.ofHistory_append_self (environ M.text) h (.assign M v)
      exact (BoundedMap.find_put_self ..).trans (congrArg (·.assigned.map some) hself).symm
    · rw [BoundedMap.find_put_of_ne (fun heq => hN (M.text_inj.mp heq).symm),
        Record.ofHistory_append_of_ne (c := .assign M v) hN]
      exact ht.assigned N
  case exported =>
    intro N hclear
    rw [Record.exported_append_assign]
    exact ht.exported N hclear.of_append
  case environ =>
    intro N hclear
    rw [Record.exported_append_assign]
    exact ht.environ N hclear.of_append

/-- An export, once it is known what is exported. -/
theorem step_export (ht : Tracks environ used l g h s) (hused : used.card < maxVars) {c : Command}
    (hc : c.name.text ∈ used) (value : List UInt8)
    (hform : ∀ M v, c ≠ .assign M v)
    (hexported : Clear (environ c.name.text) c.name (h ++ [c]) →
      (Record.ofHistory (environ c.name.text) c.name (h ++ [c])).exported = some value) :
    ∃ s' err, setGlobalVar s c.name.text value = some (s', err) ∧
      ∃ l' g', Tracks environ used l' g' (h ++ [c]) s' := by
  obtain ⟨t, stored, hset, hrep⟩ :=
    Table.exists_set ht.globalVars c.name.zero_notMem c.name.length_lt value
  rw [ht.fits_global.insert_eq_put hused] at hrep
  have hne : ∀ {N : Name}, c.name ≠ N → N.text ≠ c.name.text := fun hN heq =>
    hN (c.name.text_inj.mp heq).symm
  refine ⟨{ s with environ := setenv s.environ c.name.text value, globalVars := t }, _,
    by rw [setGlobalVar, hset]; rfl, l, BoundedMap.put c.name.text (held value) g, ?_⟩
  constructor
  case localVars => exact ht.localVars
  case globalVars => exact hrep
  case fits_local => exact ht.fits_local
  case fits_global => exact ht.fits_global.put hc _
  case assigned =>
    intro N
    rw [Record.assigned_append_export hform]
    exact ht.assigned N
  case exported =>
    intro N hclear
    by_cases hN : c.name = N
    · subst hN
      have hshort := Record.short_exported _ hclear value (hexported hclear)
      rw [BoundedMap.find_put_self, hexported hclear, held_eq_some hshort]
      rfl
    · rw [BoundedMap.find_put_of_ne (hne hN), Record.ofHistory_append_of_ne hN]
      exact ht.exported N hclear.of_append
  case environ =>
    intro N hclear
    show setenv s.environ c.name.text value N.text = _
    rw [setenv_name]
    by_cases hN : c.name = N
    · subst hN
      rw [Function.update_self, hexported hclear]
      rfl
    · rw [Function.update_of_ne (hne hN), Record.ofHistory_append_of_ne hN]
      exact ht.environ N hclear.of_append

/-- **Every command** keeps to the records. -/
theorem step (ht : Tracks environ used l g h s) (hused : used.card < maxVars) {c : Command}
    (hc : c.name.text ∈ used) :
    ∃ s' err, c.run s = some (s', err) ∧ ∃ l' g', Tracks environ used l' g' (h ++ [c]) s' := by
  rcases c with ⟨M, v⟩ | ⟨M, v⟩ | M
  · exact ht.step_assign hused hc v
  · refine ht.step_export hused (c := .exportValue M v) hc v.text (by simp) fun _ => ?_
    exact congrArg Record.exported (Record.ofHistory_append_self _ h (.exportValue M v))
  · obtain ⟨value, hget, hvalue⟩ := ht.exists_getVarValue hused M
    rw [Command.run, hget, Option.bind_some]
    refine ht.step_export hused (c := .exportName M) hc value (by simp) fun hclear => ?_
    rw [hvalue hclear.of_append]
    exact congrArg Record.exported (Record.ofHistory_append_self _ h (.exportName M))

end Tracks

section Program

variable {W : Type*} (sys : System W)

/-- The loop of `main` on commands that are still to come. -/
theorem mainLoop_commands {environ : List UInt8 → Option (List UInt8)}
    {used : Finset (List UInt8)} (hused : used.card < maxVars) :
    ∀ (cmds : List Command) {l g : List (List UInt8 × Option (List UInt8))} {h : List Command}
      (sh : Shell W) (n : ℕ), Tracks environ used l g h sh.store →
      (∀ c ∈ cmds, c.name.text ∈ used) →
      ∃ log sh', mainLoop (miniShell1 sys) cmds.length sh ⟨n, cmds.map Command.line⟩ =
          (log, .running sh') ∧
        ∃ l' g', Tracks environ used l' g' (h ++ cmds) sh'.store := by
  intro cmds
  induction cmds with
  | nil =>
    intro l g h sh n ht _
    refine ⟨_, sh, rfl, l, g, ?_⟩
    rw [List.append_nil]
    exact ht
  | cons c cmds ih =>
    intro l g h sh n ht hcmds
    obtain ⟨store, err, hrun, l', g', ht'⟩ := ht.step hused (hcmds c List.mem_cons_self)
    obtain ⟨log, hline⟩ :=
      processLine_command sys hrun n ⟨n + 1, cmds.map Command.line⟩
    obtain ⟨log', sh', hloop, hend⟩ := ih { sh with store := store } (n + 1) ht'
      fun d hd => hcmds d (List.mem_cons_of_mem _ hd)
    refine ⟨(.processed n :: log) ++ log', sh', ?_, ?_⟩
    · rw [List.map_cons, List.length_cons, mainLoop]
      simp only [hline, Run.andThen, hloop]
    · rw [List.append_assoc, List.singleton_append] at hend
      exact hend

/-- **Every history** keeps to the records. -/
theorem runScript_commands (environ : List UInt8 → Option (List UInt8)) (w : W) {h : List Command}
    (hnames : (names h).card < maxVars) :
    ∃ log sh, runScript (miniShell1 sys) ⟨.initial environ, w⟩ (h.flatMap Command.line) =
        (log, .running sh) ∧
      ∃ l g, Tracks environ (names h) l g h sh.store := by
  have hmem : ∀ c ∈ h, c.name.text ∈ names h := fun c hc =>
    List.mem_toFinset.mpr (List.mem_map.mpr ⟨c, hc, rfl⟩)
  obtain ⟨log, sh, hloop, hend⟩ := mainLoop_commands sys hnames h ⟨.initial environ, w⟩ 0
    (tracks_initial environ (names h)) hmem
  refine ⟨log, sh, ?_, hend⟩
  rw [runScript, readLines_commands, List.length_map]
  exact hloop

end Program

/-! ### The last command of a kind -/

namespace Command

/-- VALUE, if the command is `NAME=VALUE`. -/
def assigns (N : Name) : Command → Option (List UInt8)
  | assign M v => if M = N then some v.text else none
  | _ => none

/-- VALUE, if the command is `export NAME=VALUE`. -/
def exports (N : Name) : Command → Option (List UInt8)
  | exportValue M v => if M = N then some v.text else none
  | _ => none

/-- VALUE, if the command is of either form. -/
def writes (N : Name) (c : Command) : Option (List UInt8) := (c.assigns N).or (c.exports N)

/-- The command is of either form. -/
def HasValue (c : Command) : Prop := ∀ N, c ≠ exportName N

/-- The command exports the name. -/
def Exports (N : Name) (c : Command) : Prop := c.name = N ∧ ∀ v, c ≠ assign N v

end Command

/-- VALUE of the most recent command of a kind. -/
def latest (kind : Command → Option (List UInt8)) (h : List Command) : Option (List UInt8) :=
  (h.filterMap kind).getLast?

theorem latest_append (kind : Command → Option (List UInt8)) (h : List Command) (c : Command) :
    latest kind (h ++ [c]) = (kind c).or (latest kind h) := by
  rw [latest, List.filterMap_append, List.getLast?_append]
  cases hc : kind c <;> simp [hc, latest]

namespace Record

theorem assigned_eq_latest (initial : Option (List UInt8)) (N : Name) (h : List Command) :
    (ofHistory initial N h).assigned = latest (Command.assigns N) h := by
  induction h using List.reverseRecOn with
  | nil => rfl
  | append_singleton h c ih =>
    rw [latest_append, ← ih]
    rcases c with ⟨M, v⟩ | ⟨M, v⟩ | M
    · rw [ofHistory_append, Command.assigns]
      show (if M = N then _ else _ : Record).assigned = _
      split <;> rfl
    · exact assigned_append_export (by simp) initial N h
    · exact assigned_append_export (by simp) initial N h

theorem exported_eq_latest (initial : Option (List UInt8)) (N : Name) (h : List Command) :
    (∀ c ∈ h, c.HasValue) → (ofHistory initial N h).exported = latest (Command.exports N) h := by
  induction h using List.reverseRecOn with
  | nil => exact fun _ => rfl
  | append_singleton h c ih =>
    intro hform
    rw [latest_append, ← ih fun d hd => hform d (List.mem_append.mpr (Or.inl hd))]
    rcases c with ⟨M, v⟩ | ⟨M, v⟩ | M
    · exact exported_append_assign initial N h M v
    · rw [ofHistory_append, Command.exports]
      show (if M = N then _ else _ : Record).exported = _
      split <;> rfl
    · exact absurd rfl (hform (.exportName M) (List.mem_append.mpr (Or.inr List.mem_cons_self)) M)

theorem exists_exported (initial : Option (List UInt8)) (N : Name) (h : List Command) :
    (∃ c ∈ h, c.Exports N) → ∃ value, (ofHistory initial N h).exported = some value := by
  induction h using List.reverseRecOn with
  | nil => rintro ⟨c, hc, -⟩; cases hc
  | append_singleton h c ih =>
    rintro ⟨d, hd, hexp⟩
    rcases List.mem_append.mp hd with hd | hd
    · obtain ⟨value, hvalue⟩ := ih ⟨d, hd, hexp⟩
      rw [ofHistory_append]
      split
      · rcases c with ⟨M, v⟩ | ⟨M, v⟩ | M
        · exact ⟨value, hvalue⟩
        · exact ⟨_, rfl⟩
        · exact ⟨_, rfl⟩
      · exact ⟨value, hvalue⟩
    · obtain rfl := List.mem_singleton.mp hd
      rw [ofHistory_append, if_pos hexp.1]
      rcases d with ⟨M, v⟩ | ⟨M, v⟩ | M
      · exact absurd rfl (hexp.1 ▸ hexp.2 v)
      · exact ⟨_, rfl⟩
      · exact ⟨_, rfl⟩

end Record

/-! ### What `$NAME` is -/

section Program

variable {W : Type*} (sys : System W)

/-- **What `$NAME` expands to** after a history of `NAME=VALUE` and `export NAME=VALUE`: VALUE of
the most recent plain assignment, if there is one, and otherwise VALUE of the most recent
export. -/
theorem expands_to_latest_assigned (environ : List UInt8 → Option (List UInt8)) (w : W)
    {h : List Command} (hform : ∀ c ∈ h, c.HasValue) (hnames : (names h).card < maxVars) :
    ∃ log sh, runScript (miniShell1 sys) ⟨.initial environ, w⟩ (h.flatMap Command.line) =
        (log, .running sh) ∧
      ∀ (N : Name) (v : List UInt8),
        (latest (Command.assigns N) h).or (latest (Command.exports N) h) = some v →
          expandVariables sh.store (dollar :: N.text) = some v := by
  obtain ⟨log, sh, hrun, l, g, ht⟩ := runScript_commands sys environ w hnames
  refine ⟨log, sh, hrun, fun N v hv => ?_⟩
  have hclear : Clear (environ N.text) N h := Or.inr fun hmem => hform _ hmem N rfl
  refine ht.expandVariables_eq hnames hclear ?_
  rw [Record.assigned_eq_latest, Record.exported_eq_latest _ _ _ hform]
  exact hv

/-- The name `X`. -/
def nameX : Name := ⟨ascii "X", by decide, by decide, List.all_eq_true.mp (by decide)⟩

def valueOne : Value := ⟨ascii "1", by decide, List.all_eq_true.mp (by decide)⟩

def valueTwo : Value := ⟨ascii "2", by decide, List.all_eq_true.mp (by decide)⟩

/-- The plain value hides the one exported after it. -/
theorem latest_write_hidden :
    let h := [Command.assign nameX valueOne, Command.exportValue nameX valueTwo]
    (∀ c ∈ h, c.HasValue) ∧ (names h).card < maxVars ∧
      ¬ ∃ log sh, runScript (miniShell1 (constantSystem 0)) freshShell (h.flatMap Command.line) =
          (log, .running sh) ∧
        ∀ (N : Name) (v : List UInt8), latest (Command.writes N) h = some v →
          expandVariables sh.store (dollar :: N.text) = some v := by
  intro h
  have hform : ∀ c ∈ h, c.HasValue := by
    intro c hc N hN
    subst hN
    rcases List.mem_cons.mp hc with hc | hc
    · cases hc
    · cases List.mem_singleton.mp hc
  refine ⟨hform, by decide, ?_⟩
  rintro ⟨log, sh, hrun, hexpand⟩
  have hone : (match (runScript (miniShell1 (constantSystem 0)) freshShell
      (h.flatMap Command.line)).2 with
    | .running sh => expandVariables sh.store (ascii "$X")
    | .exited _ => none
    | .undefined => none) = some (ascii "1") := by decide
  rw [hrun] at hone
  have htwo := hexpand nameX (ascii "2") (by decide)
  exact absurd (hone.symm.trans htwo) (by decide)

theorem expands_to_latest_assigned_two :
    ∃ log sh, runScript (miniShell1 (constantSystem 0)) freshShell (ascii "export X=2\nX=1\n") =
        (log, .running sh) ∧
      expandVariables sh.store (ascii "$X") = some (ascii "1") := by
  obtain ⟨log, sh, hrun, hexpand⟩ := expands_to_latest_assigned (constantSystem 0)
    (fun _ => none) () (h := [.exportValue nameX valueTwo, .assign nameX valueOne])
    (by
      intro c hc N hN
      subst hN
      rcases List.mem_cons.mp hc with hc | hc
      · cases hc
      · cases List.mem_singleton.mp hc) (by decide)
  exact ⟨log, sh, hrun, hexpand nameX (ascii "1") (by decide)⟩

/-- **An exported name**, after any history. The last export gave it a value. A child that is
started now receives that value, while `$NAME` expands to VALUE of the most recent plain
assignment, if there is one; so the two are equal exactly when there is none, or its VALUE is the
exported value. -/
theorem exported_value_and_expansion (environ : List UInt8 → Option (List UInt8)) (w : W)
    {h : List Command} (hnames : (names h).card < maxVars) :
    ∃ log sh, runScript (miniShell1 sys) ⟨.initial environ, w⟩ (h.flatMap Command.line) =
        (log, .running sh) ∧
      ∀ N : Name, (∃ c ∈ h, c.Exports N) → Clear (environ N.text) N h →
        ∃ value, (Record.ofHistory (environ N.text) N h).exported = some value ∧
          (∀ args child status, .child child status ∈ (executeExternalCommand sys sh args).2.2 →
            child.environ N.text = some value) ∧
          expandVariables sh.store (dollar :: N.text) =
            some ((latest (Command.assigns N) h).getD value) ∧
          (sh.store.environ N.text = expandVariables sh.store (dollar :: N.text) ↔
            ∀ v ∈ latest (Command.assigns N) h, v = value) := by
  obtain ⟨log, sh, hrun, l, g, ht⟩ := runScript_commands sys environ w hnames
  refine ⟨log, sh, hrun, fun N hexp hclear => ?_⟩
  obtain ⟨value, hvalue⟩ := Record.exists_exported (environ N.text) N h hexp
  have henviron : sh.store.environ N.text = some value := by
    rw [ht.environ N hclear, hvalue]
    rfl
  have hexpand : expandVariables sh.store (dollar :: N.text) =
      some ((latest (Command.assigns N) h).getD value) := by
    refine ht.expandVariables_eq hnames hclear ?_
    rw [Record.assigned_eq_latest, hvalue, Option.or_some]
  refine ⟨value, hvalue, fun args child status hchild => ?_, hexpand, ?_⟩
  · rw [environ_of_child sys hchild]
    exact henviron
  · rw [henviron, hexpand]
    rcases latest (Command.assigns N) h with _ | v
    · simp
    · simp [eq_comm]

end Program

/-- A plain assignment after the export: a child finds the old value. -/
theorem exported_value_outdated :
    let h := [Command.exportValue nameX valueOne, Command.assign nameX valueTwo]
    (names h).card < maxVars ∧
      ¬ ∃ log sh, runScript (miniShell1 (constantSystem 0)) freshShell (h.flatMap Command.line) =
          (log, .running sh) ∧
        ∀ N : Name, (∃ c ∈ h, c.Exports N) → ∀ args child status,
          .child child status ∈ (executeExternalCommand (constantSystem 0) sh args).2.2 →
            child.environ N.text = expandVariables sh.store (dollar :: N.text) := by
  intro h
  refine ⟨by decide, ?_⟩
  rintro ⟨log, sh, hrun, hequal⟩
  have hrun' : (match (runScript (miniShell1 (constantSystem 0)) freshShell
      (h.flatMap Command.line)).2 with
    | .running sh => (sh.store.environ (ascii "X"), expandVariables sh.store (ascii "$X"))
    | .exited _ => (none, none)
    | .undefined => (none, none)) = (some (ascii "1"), some (ascii "2")) := by decide
  rw [hrun] at hrun'
  have henviron : sh.store.environ (ascii "X") = some (ascii "1") := congrArg Prod.fst hrun'
  have hexpand : expandVariables sh.store (ascii "$X") = some (ascii "2") :=
    congrArg Prod.snd hrun'
  have hexported : ∃ c ∈ h, c.Exports nameX :=
    ⟨.exportValue nameX valueOne, List.mem_cons_self, rfl, by simp⟩
  have hsame := hequal nameX hexported [ascii "c"] ⟨[ascii "c"], none, none, sh.store.environ⟩
    (.exited 0) List.mem_cons_self
  exact absurd (henviron.symm.trans (hsame.trans hexpand)) (by decide)

theorem exported_value_and_expansion_two :
    ∃ log sh, runScript (miniShell1 (constantSystem 0)) freshShell (ascii "export X=2\nX=1\n") =
        (log, .running sh) ∧
      (∀ args child status,
        .child child status ∈ (executeExternalCommand (constantSystem 0) sh args).2.2 →
          child.environ (ascii "X") = some (ascii "2")) ∧
      expandVariables sh.store (ascii "$X") = some (ascii "1") := by
  obtain ⟨log, sh, hrun, hall⟩ := exported_value_and_expansion (constantSystem 0) (fun _ => none) ()
    (h := [.exportValue nameX valueTwo, .assign nameX valueOne]) (by decide)
  obtain ⟨value, hvalue, hchild, hexpand, -⟩ := hall nameX
    ⟨.exportValue nameX valueTwo, List.mem_cons_self, rfl, by simp⟩ (Or.inl (by simp))
  obtain rfl : ascii "2" = value := Option.some.inj hvalue
  exact ⟨log, sh, hrun, hchild, hexpand⟩

end MiniShell

end SystemProgramming
