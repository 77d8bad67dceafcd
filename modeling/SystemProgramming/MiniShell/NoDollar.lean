import SystemProgramming.MiniShell.Expand
import SystemProgramming.MiniShell.Reach

/-!
# No reference survives the expansion

The words of a line have been expanded before anything is done with them, so what is assigned and
exported is expanded text. `NoDollar` says of a store that no byte of it is a `$`; every step of
the shell keeps it, and in a store that has it the expansion leaves no `$` in a line.

## How it goes

There are three ways for a byte to get into the store: from the environment at the beginning, from
a word of a line, and by copying inside the store. The words are those of the expanded line, and the
expansion puts there bytes of the line or of a value; a `$` of the line begins a reference, also if
no name follows, and is never copied. So if the store has no `$`, no word has one, and the store
that a command leaves has none either. The induction is over the states that can be reached
(`Reach`), and its hypothesis is about the first environment only.

What has no `$` is copied by the expansion byte by byte, hence to expand twice is to expand once,
also if the store has changed in between.

## Main results

* `NoDollar.step` — every step keeps the invariant
* `no_dollar_of_reaches` — what it means for the values, the words and the expansion
-/

namespace SystemProgramming

namespace MiniShell

/-- No byte of the table is a `$`. -/
def Table.NoDollar (t : Table) : Prop := ∀ v ∈ t.vars, dollar ∉ v.name ∧ dollar ∉ v.value

/-- No byte of the tables and of the values in the environment is a `$`. -/
structure NoDollar (s : Store) : Prop where
  localVars : s.localVars.NoDollar
  globalVars : s.globalVars.NoDollar
  environ : ∀ name value, s.environ name = some value → dollar ∉ value

/-! ### Bytes of strings -/

theorem mem_of_mem_strncpy {n : ℕ} {src : List UInt8} {b : UInt8} (hb : b ≠ 0)
    (h : b ∈ strncpy n src) : b ∈ src := by
  rw [strncpy] at h
  rcases List.mem_append.mp h with htake | hpad
  · exact List.mem_of_mem_take htake
  · exact absurd (List.eq_of_mem_replicate hpad) hb

theorem mem_of_mem_readString {b : UInt8} : ∀ {mem s : List UInt8}, readString mem = some s →
    b ∈ s → b ∈ mem
  | c :: mem, s, h, hb => by
    rw [readString] at h
    split at h
    · cases h
      exact absurd hb List.not_mem_nil
    · obtain ⟨s', hs', rfl⟩ := Option.map_eq_some_iff.mp h
      rcases List.mem_cons.mp hb with rfl | hrest
      · exact List.mem_cons_self
      · exact List.mem_cons_of_mem _ (mem_of_mem_readString hs' hrest)

theorem mem_of_splitAtByte {c b : UInt8} {s name value : List UInt8}
    (h : splitAtByte c s = some (name, value)) : (b ∈ name → b ∈ s) ∧ (b ∈ value → b ∈ s) := by
  rw [← append_of_splitAtByte h]
  exact ⟨List.mem_append_left _, fun hb => List.mem_append_right _ (List.mem_cons_of_mem _ hb)⟩

/-! ### Tables -/

namespace Table

variable {t : Table}

theorem noDollar_empty : empty.NoDollar := fun _ hv => absurd hv List.not_mem_nil

theorem noDollar_make {name value : List UInt8} (hname : dollar ∉ name) (hvalue : dollar ∉ value) :
    dollar ∉ (Variable.make name value).name ∧ dollar ∉ (Variable.make name value).value :=
  ⟨fun h => hname (mem_of_mem_strncpy (by decide) h),
    fun h => hvalue (mem_of_mem_strncpy (by decide) h)⟩

theorem NoDollar.set (h : t.NoDollar) {name value : List UInt8} (hname : dollar ∉ name)
    (hvalue : dollar ∉ value) {t' : Table} {stored : Bool}
    (hset : t.set name value = some (t', stored)) : t'.NoDollar := by
  rw [Table.set] at hset
  obtain ⟨found, -, hset⟩ := Option.map_eq_some_iff.mp hset
  cases found with
  | some i =>
    cases hset
    intro v hv
    obtain ⟨j, hj⟩ := List.mem_iff_getElem?.mp hv
    rw [List.getElem?_modify] at hj
    obtain ⟨v₀, hv₀, heq⟩ := Option.map_eq_some_iff.mp hj
    have hclean := h v₀ (List.mem_iff_getElem?.mpr ⟨j, hv₀⟩)
    by_cases hij : i = j
    · rw [if_pos hij] at heq
      subst heq
      exact ⟨hclean.1, fun hb => hvalue (mem_of_mem_strncpy (by decide) hb)⟩
    · rw [if_neg hij] at heq
      exact heq ▸ hclean
  | none =>
    by_cases hroom : t.vars.length < maxVars
    · simp only [dif_pos hroom] at hset
      cases hset
      intro v hv
      rcases List.mem_append.mp hv with hold | hnew
      · exact h v hold
      · rw [List.mem_singleton.mp hnew]
        exact noDollar_make hname hvalue
    · simp only [dif_neg hroom] at hset
      cases hset
      exact h

theorem NoDollar.notMem_memory (h : t.NoDollar) (i : ℕ) :
    dollar ∉ memory (t.vars.drop i) t.unused := by
  intro hmem
  rcases List.mem_append.mp hmem with hvars | hunused
  · obtain ⟨v, hv, hb⟩ := List.mem_flatMap.mp hvars
    have hclean := h v (List.mem_of_mem_drop hv)
    rcases List.mem_append.mp hb with hname | hvalue
    · exact hclean.1 hname
    · exact hclean.2 hvalue
  · exact absurd (List.eq_of_mem_replicate hunused) (by decide)

theorem NoDollar.notMem_valueAt (h : t.NoDollar) {i : ℕ} {value : List UInt8}
    (hvalue : t.valueAt i = some value) : dollar ∉ value :=
  fun hmem => h.notMem_memory i (List.mem_of_mem_drop (mem_of_mem_readString hvalue hmem))

theorem NoDollar.notMem_get (h : t.NoDollar) {name value : List UInt8}
    (hget : t.get name = some (some value)) : dollar ∉ value := by
  rw [get] at hget
  obtain ⟨found, -, hget⟩ := Option.bind_eq_some_iff.mp hget
  cases found with
  | none => cases hget
  | some i =>
    obtain ⟨value', hvalue, heq⟩ := Option.map_eq_some_iff.mp hget
    cases heq
    exact h.notMem_valueAt hvalue

end Table

/-! ### The functions of the shell -/

theorem noDollar_initial {environ : List UInt8 → Option (List UInt8)}
    (h : ∀ name value, environ name = some value → dollar ∉ value) :
    NoDollar (.initial environ) :=
  ⟨Table.noDollar_empty, Table.noDollar_empty, h⟩

namespace NoDollar

variable {s : Store}

theorem notMem_getVarValue (h : NoDollar s) {name value : List UInt8}
    (hget : getVarValue s name = some value) : dollar ∉ value := by
  rw [getVarValue] at hget
  obtain ⟨found, hlocal, hget⟩ := Option.bind_eq_some_iff.mp hget
  cases found with
  | some v =>
    cases hget
    exact h.localVars.notMem_get hlocal
  | none =>
    obtain ⟨found, hglobal, hget⟩ := Option.map_eq_some_iff.mp hget
    subst hget
    cases found with
    | some v => exact h.globalVars.notMem_get hglobal
    | none =>
      cases henv : s.environ name with
      | none => exact List.not_mem_nil
      | some v => exact h.environ name v henv

/-- **The expansion leaves no `$`.** -/
theorem notMem_expandVariables (h : NoDollar s) {line text : List UInt8}
    (hexp : expandVariables s line = some text) : dollar ∉ text := by
  rw [expandVariables_eq] at hexp
  split at hexp
  · cases hexp
    intro hmem
    rcases mem_substitute hmem with ⟨-, hne⟩ | ⟨name, -, hvalue⟩
    · exact hne rfl
    · cases hget : getVarValue s name with
      | none => simp [hget] at hvalue
      | some v =>
        rw [hget] at hvalue
        exact h.notMem_getVarValue hget hvalue
  · cases hexp

theorem notMem_parseCommand (h : NoDollar s) {line : List UInt8} {args : List (List UInt8)}
    {warning : List UInt8} (hparse : parseCommand s line = some (args, warning)) :
    ∀ arg ∈ args, dollar ∉ arg := by
  obtain ⟨text, hexp, heq⟩ := Option.map_eq_some_iff.mp hparse
  cases heq
  exact fun arg harg hmem => h.notMem_expandVariables hexp
    (mem_of_mem_tokens (List.mem_of_mem_take harg) hmem)

theorem setLocalVar (h : NoDollar s) {name value : List UInt8} (hname : dollar ∉ name)
    (hvalue : dollar ∉ value) {s' : Store} {err : List UInt8}
    (hset : MiniShell.setLocalVar s name value = some (s', err)) : NoDollar s' := by
  obtain ⟨⟨t, stored⟩, ht, heq⟩ := Option.map_eq_some_iff.mp hset
  cases heq
  exact ⟨h.localVars.set hname hvalue ht, h.globalVars, h.environ⟩

theorem setGlobalVar (h : NoDollar s) {name value : List UInt8} (hname : dollar ∉ name)
    (hvalue : dollar ∉ value) {s' : Store} {err : List UInt8}
    (hset : MiniShell.setGlobalVar s name value = some (s', err)) : NoDollar s' := by
  obtain ⟨⟨t, stored⟩, ht, heq⟩ := Option.map_eq_some_iff.mp hset
  cases heq
  refine ⟨h.localVars, h.globalVars.set hname hvalue ht, fun name' value' henv => ?_⟩
  -- `setenv` changes one value, to the one that was expanded
  change setenv s.environ name value name' = some value' at henv
  rw [setenv] at henv
  split at henv
  · exact h.environ name' value' henv
  · rcases eq_or_ne name' name with rfl | hne
    · rw [Function.update_self] at henv
      exact Option.some.inj henv ▸ hvalue
    · rw [Function.update_of_ne hne] at henv
      exact h.environ name' value' henv

/-- What `export` finds in a word: the two sides of its `=`, or the word and the value it has. -/
theorem notMem_assignment (h : NoDollar s) {arg name value : List UInt8} (harg : dollar ∉ arg)
    (hassign : (match splitAtByte 61 arg with
      | some (name, value) => some (name, value)
      | none => (getVarValue s arg).map fun val => (arg, val)) = some (name, value)) :
    dollar ∉ name ∧ dollar ∉ value := by
  cases hsplit : splitAtByte 61 arg with
  | some p =>
    rw [hsplit] at hassign
    cases hassign
    exact ⟨fun hb => harg ((mem_of_splitAtByte hsplit).1 hb),
      fun hb => harg ((mem_of_splitAtByte hsplit).2 hb)⟩
  | none =>
    rw [hsplit] at hassign
    obtain ⟨val, hget, heq⟩ := Option.map_eq_some_iff.mp hassign
    cases heq
    exact ⟨harg, h.notMem_getVarValue hget⟩

/-- `export` splits a word at `=`, or takes the value that the name has. -/
theorem exportArgs {args : List (List UInt8)} : ∀ {s s' : Store} {err : List UInt8}, NoDollar s →
    (∀ arg ∈ args, dollar ∉ arg) → MiniShell.exportArgs s args = some (s', err) → NoDollar s' := by
  induction args with
  | nil =>
    intro s s' err h _ hexport
    cases hexport
    exact h
  | cons arg args ih =>
    intro s s' err h hargs hexport
    obtain ⟨harg, hrest⟩ := List.forall_mem_cons.mp hargs
    rw [MiniShell.exportArgs] at hexport
    obtain ⟨⟨name, value⟩, hassign, hexport⟩ := Option.bind_eq_some_iff.mp hexport
    obtain ⟨⟨s₁, err₁⟩, hset, hexport⟩ := Option.bind_eq_some_iff.mp hexport
    obtain ⟨⟨s₂, err₂⟩, hrest', heq⟩ := Option.map_eq_some_iff.mp hexport
    cases heq
    obtain ⟨hname, hvalue⟩ := h.notMem_assignment harg hassign
    exact ih (h.setGlobalVar hname hvalue hset) hrest hrest'

/-- **What a command leaves.** -/
theorem storeAfter {s' : Store} {args : List (List UInt8)} (h : NoDollar s)
    (hargs : ∀ arg ∈ args, dollar ∉ arg) (hafter : StoreAfter s args s') : NoDollar s' := by
  cases hafter with
  | same => exact h
  | assigned hsplit hset =>
    have harg := hargs _ List.mem_cons_self
    exact h.setLocalVar (fun hb => harg ((mem_of_splitAtByte hsplit).1 hb))
      (fun hb => harg ((mem_of_splitAtByte hsplit).2 hb)) hset
  | exported hexport =>
    exact h.exportArgs (fun arg harg => hargs arg (List.mem_cons_of_mem _ harg)) hexport

variable {W : Type*} {sys : System W}

theorem notMem_args {sh : Shell W} (h : NoDollar sh.store) {line : List UInt8}
    {args : List (List UInt8)} {warning : List Effect}
    (hparse : (miniShell1 sys).parseCommand sh line = some (args, warning)) :
    ∀ arg ∈ args, dollar ∉ arg := by
  obtain ⟨⟨words, text⟩, hwords, heq⟩ := Option.map_eq_some_iff.mp hparse
  cases heq
  exact h.notMem_parseCommand hwords

/-- **A step of the shell keeps the invariant.** -/
theorem step {sh sh' : Shell W} (h : NoDollar sh.store) (hstep : (miniShell1 sys).Step sh sh') :
    NoDollar sh'.store := by
  cases hstep with
  | command hparse hexec =>
    exact h.storeAfter (h.notMem_args hparse) (storeAfter_of_executeCommand hexec (Or.inl rfl))
  | exit hparse hexec =>
    exact h.storeAfter (h.notMem_args hparse) (storeAfter_of_executeCommand hexec (Or.inr rfl))
  | condition hparse =>
    show NoDollar (executeExternalCommand sys sh _).2.1.store
    rwa [store_executeExternalCommand]

end NoDollar

theorem length_lt_of_expandVariables {s : Store} {line text : List UInt8}
    (h : expandVariables s line = some text) : text.length < maxLine := by
  obtain ⟨buffer, -, hfits⟩ := Option.bind_eq_some_iff.mp h
  split at hfits
  · cases hfits
    assumption
  · cases hfits

/-- **No reference gets past the expansion.** When no value in the initial environment contains a
`$`, then in every state that input lines can lead to, no value in the tables and the environment
contains one, nor does a word of any line that is executed, and expanding what has been expanded,
at that moment or in any later state, changes nothing. Every state that the loop of `main` comes to
on a script, and every state in which it executes words, is among these states. -/
theorem no_dollar_of_reaches {W : Type*} (sys : System W)
    (environ : List UInt8 → Option (List UInt8)) (w : W)
    (henv : ∀ name value, environ name = some value → dollar ∉ value) :
    (∀ sh, (miniShell1 sys).Reaches ⟨.initial environ, w⟩ sh →
      (∀ i value, sh.store.localVars.valueAt i = some value → dollar ∉ value) ∧
      (∀ i value, sh.store.globalVars.valueAt i = some value → dollar ∉ value) ∧
      (∀ name value, sh.store.environ name = some value → dollar ∉ value) ∧
      (∀ line args warning, parseCommand sh.store line = some (args, warning) →
        ∀ arg ∈ args, dollar ∉ arg) ∧
      ∀ line text, expandVariables sh.store line = some text →
        ∀ s : Store, expandVariables s text = some text) ∧
    ∀ (rounds : ℕ) (input : Input),
      (∀ sh, (mainLoop (miniShell1 sys) rounds ⟨.initial environ, w⟩ input).2 = .running sh ∨
          (mainLoop (miniShell1 sys) rounds ⟨.initial environ, w⟩ input).2 = .exited sh →
        (miniShell1 sys).Reaches ⟨.initial environ, w⟩ sh) ∧
      ∀ n args,
        .executed n args ∈ (mainLoop (miniShell1 sys) rounds ⟨.initial environ, w⟩ input).1 →
          ∀ arg ∈ args, dollar ∉ arg := by
  have hinv : ∀ sh, (miniShell1 sys).Reaches ⟨.initial environ, w⟩ sh → NoDollar sh.store :=
    fun sh hreach => Interpreter.invariant_of_reaches (P := fun sh => NoDollar sh.store)
      (fun _ _ h hstep => h.step hstep) (noDollar_initial henv) hreach
  refine ⟨fun sh hreach => ?_, fun rounds input => ?_⟩
  · have h := hinv sh hreach
    refine ⟨fun _ _ => h.localVars.notMem_valueAt, fun _ _ => h.globalVars.notMem_valueAt,
      h.environ, fun _ _ _ => h.notMem_parseCommand, fun line text hexp s => ?_⟩
    exact expandVariables_of_literal s (h.notMem_expandVariables hexp)
      (length_lt_of_expandVariables hexp)
  · have htracks := Interpreter.tracks_mainLoop (I := miniShell1 sys) rounds
      ⟨.initial environ, w⟩ input
    refine ⟨fun sh hflow => hflow.elim (htracks.running sh) (htracks.exited sh),
      fun n args hmem => ?_⟩
    obtain ⟨sh, line, warning, hreach, hparse⟩ := htracks.executed n args hmem
    exact (hinv sh hreach).notMem_args hparse

/-- `A=$H` with `H` in the environment: the value that `A` has then is free of `$`. -/
theorem no_dollar_of_reaches_home :
    ∃ sh, (mainLoop (miniShell1 (constantSystem 0)) 1
        ⟨.initial fun name => if name = ascii "H" then some (ascii "/r") else none, ()⟩
        ⟨0, [ascii "A=$H"]⟩).2 = .running sh ∧
      sh.store.localVars.valueAt 0 = some (ascii "/r") ∧
      ∀ i value, sh.store.localVars.valueAt i = some value → dollar ∉ value := by
  have hmain := no_dollar_of_reaches (constantSystem 0)
    (fun name => if name = ascii "H" then some (ascii "/r") else none) ()
    (by
      intro name value hvalue
      split at hvalue
      · cases hvalue
        decide
      · cases hvalue)
  have hreach := (hmain.2 1 ⟨0, [ascii "A=$H"]⟩).1 _ (Or.inl rfl)
  exact ⟨_, rfl, by decide, (hmain.1 _ hreach).1⟩

end MiniShell

end SystemProgramming
