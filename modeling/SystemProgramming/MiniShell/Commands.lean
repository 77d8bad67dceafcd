import SystemProgramming.MiniShell.Script

/-!
# Commands that set variables

`NAME=VALUE`, `export NAME=VALUE` and `export NAME`, as they stand in a script, and what the main
loop of `mini-shell-1` makes of them.

## Why these commands only

The commands are given by their parts and not by their lines, and the parts carry the proofs that
nothing in them means anything to the shell: a name is made of the bytes that `expand_variables`
takes for a name, a value has no blank, no `$` and no NUL, and both have room in their fields. So
the line of a command is expanded to itself and cut into the words that it was put together from,
and what remains of the main loop is a call of `set_local_var` or `set_global_var`. Lines with
references are the subject of `Expand`.

## Main definitions

* `Name`, `Value` — what the commands are made of
* `Command`, `Command.line` — the three forms, and the line of each
* `Command.run` — what a command does with the tables and the environment

## Main results

* `readLines_commands` — the lines of a script of commands
* `processLine_command` — the main loop runs the command that stands on the line
-/

namespace SystemProgramming

namespace MiniShell

/-- The name of a variable: 1 to 63 letters, digits and underscores. -/
structure Name where
  text : List UInt8
  ne_nil : text ≠ []
  length_lt : text.length < 64
  isNameByte : ∀ b ∈ text, isNameByte b = true
  deriving DecidableEq

/-- A byte that has no meaning of its own in a line. -/
def isWordByte (b : UInt8) : Bool := b != 0 && b != dollar && !isSep b

/-- A value: at most 255 bytes, without blanks or `$`. -/
structure Value where
  text : List UInt8
  length_lt : text.length < 256
  isWordByte : ∀ b ∈ text, isWordByte b = true
  deriving DecidableEq

inductive Command
  /-- `NAME=VALUE` -/
  | assign (name : Name) (value : Value)
  /-- `export NAME=VALUE` -/
  | exportValue (name : Name) (value : Value)
  | exportName (name : Name)
  deriving DecidableEq

namespace Command

/-- The name that a command names. -/
def name : Command → Name
  | assign name _ | exportValue name _ | exportName name => name

/-- The word with the name. -/
def word : Command → List UInt8
  | assign name value | exportValue name value => name.text ++ 61 :: value.text
  | exportName name => name.text

/-- All words. -/
def args : Command → List (List UInt8)
  | c@(assign ..) => [c.word]
  | c => [ascii "export", c.word]

/-- The command, without the end of the line. -/
def text : Command → List UInt8
  | c@(assign ..) => c.word
  | c => ascii "export " ++ c.word

def line (c : Command) : List UInt8 := c.text ++ [10]

/-- What `execute_command` does with the store, and what is printed to `stderr`. -/
def run (s : Store) : Command → Option (Store × List UInt8)
  | assign name value => setLocalVar s name.text value.text
  | exportValue name value => setGlobalVar s name.text value.text
  | exportName name => (getVarValue s name.text).bind (setGlobalVar s name.text)

end Command

/-! ### The bytes of a command -/

theorem isWordByte_of_isNameByte {b : UInt8} (h : isNameByte b = true) : isWordByte b = true := by
  by_contra hb
  have hcases : b = 0 ∨ b = dollar ∨ b = 32 ∨ b = 9 ∨ b = 10 := by
    simp only [isWordByte, isSep, Bool.and_eq_true, bne_iff_ne, Bool.not_eq_true',
      Bool.or_eq_false_iff, beq_eq_false_iff_ne] at hb
    tauto
  rcases hcases with rfl | rfl | rfl | rfl | rfl <;> exact absurd h (by decide)

theorem isSep_of_isWordByte {b : UInt8} (h : isWordByte b = true) : isSep b = false := by
  simp only [isWordByte, Bool.and_eq_true, Bool.not_eq_true'] at h
  exact h.2

theorem isspace_of_isNameByte {b : UInt8} (h : isNameByte b = true) : isspace b = false := by
  simp only [isNameByte, isalnum, Bool.or_eq_true, Bool.and_eq_true, decide_eq_true_eq,
    beq_iff_eq, UInt8.le_iff_toNat_le, ← UInt8.toNat_inj] at h
  -- all of them are above the blanks
  have hge : 48 ≤ b.toNat := by
    simp only [UInt8.reduceToNat] at h
    omega
  simp only [isspace, Bool.or_eq_false_iff, beq_eq_false_iff_ne, Bool.and_eq_false_iff,
    decide_eq_false_iff_not, UInt8.le_iff_toNat_le, ne_eq, ← UInt8.toNat_inj, UInt8.reduceToNat]
  omega

namespace Name

variable (N : Name)

theorem notMem {c : UInt8} (hc : MiniShell.isNameByte c = false) : c ∉ N.text := by
  intro hmem
  rw [N.isNameByte c hmem] at hc
  cases hc

theorem text_inj {M : Name} : M.text = N.text ↔ M = N := by
  rcases M with ⟨text, _, _, _⟩
  rcases N with ⟨text', _, _, _⟩
  rw [Name.mk.injEq]

end Name

namespace Command

variable (c : Command)

theorem isWordByte_word : ∀ b ∈ c.word, isWordByte b = true := by
  have hname : ∀ N : Name, ∀ b ∈ N.text, isWordByte b = true := fun N b hb =>
    isWordByte_of_isNameByte (N.isNameByte b hb)
  have hboth : ∀ (N : Name) (v : Value), ∀ b ∈ N.text ++ 61 :: v.text, isWordByte b = true := by
    intro N v b hb
    rcases List.mem_append.mp hb with hb | hb
    · exact hname N b hb
    · rcases List.mem_cons.mp hb with rfl | hb
      · decide
      · exact v.isWordByte b hb
  rcases c with ⟨N, v⟩ | ⟨N, v⟩ | N
  · exact hboth N v
  · exact hboth N v
  · exact hname N

theorem name_subset_word : c.name.text ⊆ c.word := by
  rcases c with ⟨N, v⟩ | ⟨N, v⟩ | N
  · exact List.subset_append_left _ _
  · exact List.subset_append_left _ _
  · exact List.Subset.refl _

theorem word_ne_nil : c.word ≠ [] := by
  intro hnil
  have hsub := c.name_subset_word
  rw [hnil] at hsub
  exact c.name.ne_nil (List.subset_nil.mp hsub)

theorem length_word_lt : c.word.length < 320 := by
  have hboth : ∀ (N : Name) (v : Value), (N.text ++ 61 :: v.text).length < 320 := by
    intro N v
    have hN := N.length_lt
    have hv := v.length_lt
    rw [List.length_append, List.length_cons]
    omega
  rcases c with ⟨N, v⟩ | ⟨N, v⟩ | N
  · exact hboth N v
  · exact hboth N v
  · exact N.length_lt.trans (by decide)

theorem isWordByte_export : ∀ b ∈ ascii "export", MiniShell.isWordByte b = true :=
  List.all_eq_true.mp (by decide)

theorem isWordByte_text : ∀ b ∈ c.text, isWordByte b = true ∨ b = 32 := by
  intro b hb
  have hexport : b ∈ ascii "export " ++ c.word → isWordByte b = true ∨ b = 32 := by
    intro hb
    rcases List.mem_append.mp hb with hb | hb
    · rcases List.mem_append.mp (show b ∈ ascii "export" ++ [32] from hb) with hb | hb
      · exact Or.inl (isWordByte_export b hb)
      · exact Or.inr (List.mem_singleton.mp hb)
    · exact Or.inl (c.isWordByte_word b hb)
  rcases c with ⟨N, v⟩ | ⟨N, v⟩ | N
  · exact Or.inl (isWordByte_word (.assign N v) b hb)
  · exact hexport hb
  · exact hexport hb

theorem notMem_text {b : UInt8} (hb : isWordByte b = false) (hne : b ≠ 32) : b ∉ c.text := by
  intro hmem
  rcases c.isWordByte_text b hmem with h | h
  · rw [h] at hb
    cases hb
  · exact hne h

theorem word_subset_text : c.word ⊆ c.text := by
  rcases c with ⟨N, v⟩ | ⟨N, v⟩ | N
  · exact List.Subset.refl _
  · exact List.subset_append_right _ _
  · exact List.subset_append_right _ _

theorem length_text_lt : c.text.length < 327 := by
  have hword := c.length_word_lt
  have hexport : (ascii "export " ++ c.word).length < 327 := by
    rw [List.length_append, show (ascii "export ").length = 7 by decide]
    omega
  rcases c with ⟨N, v⟩ | ⟨N, v⟩ | N
  · exact hword.trans (by decide)
  · exact hexport
  · exact hexport

theorem length_line_lt : c.line.length < maxLine := by
  have htext := c.length_text_lt
  rw [line, List.length_append, List.length_singleton, maxLine]
  omega

theorem notMem_line {b : UInt8} (hb : isWordByte b = false) (hne : b ≠ 32) (hnl : b ≠ 10) :
    b ∉ c.line := by
  rw [line, List.mem_append, List.mem_singleton, not_or]
  exact ⟨c.notMem_text hb hne, hnl⟩

end Command

/-! ### Reading a command -/

theorem readLines_commands : ∀ cmds : List Command,
    readLines (cmds.flatMap Command.line) = cmds.map Command.line
  | [] => rfl
  | c :: cmds => by
    have hsize : ([] : List UInt8).length + c.text.length + 1 < maxLine := by
      have htext := c.length_text_lt
      rw [List.length_nil, maxLine]
      omega
    have hline := fgetsFrom_line (cmds.flatMap Command.line)
      (c.notMem_text (b := 10) (by decide) (by decide)) hsize
    have htail := readLines_commands cmds
    rw [readLines] at htail ⊢
    rw [List.flatMap_cons, Command.line, List.append_assoc, List.singleton_append, hline,
      List.map_cons, htail, List.nil_append, List.map_cons]
    congr 1
    exact cstring_eq_self (c.notMem_line (by decide) (by decide) (by decide))

theorem tokens_line (c : Command) : tokens isSep c.line = c.args := by
  have hsep : ∀ b ∈ c.word, isSep b = false := fun b hb =>
    isSep_of_isWordByte (c.isWordByte_word b hb)
  have hword : tokens isSep (c.word ++ [10]) = [c.word] :=
    tokens_append_cons c.word_ne_nil hsep rfl []
  have hexport : tokens isSep (ascii "export " ++ c.word ++ [10]) = [ascii "export", c.word] := by
    have hsplit : ascii "export " ++ c.word ++ [10] =
        ascii "export" ++ 32 :: (c.word ++ [10]) := rfl
    have hsep' : ∀ b ∈ ascii "export", isSep b = false := fun b hb =>
      isSep_of_isWordByte (Command.isWordByte_export b hb)
    rw [hsplit, tokens_append_cons (by decide) hsep' rfl, hword]
  rcases c with ⟨N, v⟩ | ⟨N, v⟩ | N
  · exact hword
  · exact hexport
  · exact hexport

theorem parseCommand_line (s : Store) (c : Command) :
    parseCommand s c.line = some (c.args, []) := by
  rw [← tokens_line c]
  refine parseCommand_of_literal s (c.notMem_line (by decide) (by decide) (by decide))
    c.length_line_lt ?_
  rw [tokens_line c]
  rcases c with ⟨N, v⟩ | ⟨N, v⟩ | N
  · exact (by decide : 1 < maxArgs)
  · exact (by decide : 2 < maxArgs)
  · exact (by decide : 2 < maxArgs)

/-- The line of a command is not blank. -/
theorem isBlankLine_line (c : Command) : isBlankLine c.line = false := by
  obtain ⟨b, hb⟩ := List.exists_mem_of_ne_nil _ c.name.ne_nil
  have hmem : b ∈ c.line :=
    List.mem_append.mpr (Or.inl (c.word_subset_text (c.name_subset_word hb)))
  rw [isBlankLine, List.all_eq_false]
  refine ⟨b, hmem, ?_⟩
  rw [isspace_of_isNameByte (c.name.isNameByte b hb)]
  decide

theorem opensBlock_line (c : Command) : opensBlock c.line = false := by
  rcases c with ⟨N, v⟩ | ⟨N, v⟩ | N
  · rw [opensBlock, beq_eq_false_iff_ne]
    intro hzero
    have hif := (strncmp_length_eq_zero_iff _ (by decide : 0 ∉ ascii "if ")).mp hzero
    have hblank : (32 : UInt8) ∈ (Command.assign N v).line :=
      hif.subset (show (32 : UInt8) ∈ ascii "if " by decide)
    rcases List.mem_append.mp hblank with hmem | hmem
    · have hsep := isSep_of_isWordByte (Command.isWordByte_word (.assign N v) 32 hmem)
      cases hsep
    · exact absurd hmem (by decide)
  · rfl
  · rfl

section Program

variable {W : Type*} (sys : System W)

theorem exportArgs_singleton (s : Store) (arg : List UInt8) :
    exportArgs s [arg] = match splitAtByte 61 arg with
      | some (name, value) => setGlobalVar s name value
      | none => (getVarValue s arg).bind (setGlobalVar s arg) := by
  have hlast : ∀ r : Option (Store × List UInt8),
      (r.bind fun p => (exportArgs p.1 []).map fun q => (q.1, p.2 ++ q.2)) = r := by
    intro r
    rcases r with _ | ⟨s', err⟩
    · rfl
    · simp [exportArgs]
  rw [exportArgs]
  cases splitAtByte 61 arg with
  | some p => exact hlast _
  | none =>
    cases getVarValue s arg with
    | none => rfl
    | some val => exact hlast _

theorem executeCommand_args {sh : Shell W} {c : Command} {store : Store} {err : List UInt8}
    (h : c.run sh.store = some (store, err)) :
    executeCommand sys sh c.args = (stderrOf err, .running { sh with store := store }) := by
  have hsplit : ∀ (N : Name) (v : Value),
      splitAtByte 61 (N.text ++ 61 :: v.text) = some (N.text, v.text) := fun N v =>
    splitAtByte_append (N.notMem (by decide))
  have hexport : exportArgs sh.store [c.word] = some (store, err) →
      executeCommand sys sh [ascii "export", c.word] =
        (stderrOf err, .running { sh with store := store }) := by
    intro hargs
    have hhead : (ascii "export").head? ≠ some 45 := by decide
    have hnone : splitAtByte 61 (ascii "export") = none := splitAtByte_of_notMem (by decide)
    have hexit : ascii "export" ≠ ascii "exit" := by decide
    rw [executeCommand, if_neg hhead, hnone]
    simp only [if_neg hexit, if_true, hargs]
  rcases c with ⟨N, v⟩ | ⟨N, v⟩ | N
  · have hhead : (N.text ++ 61 :: v.text).head? ≠ some 45 := by
      intro hhead
      rw [List.head?_append_of_ne_nil _ N.ne_nil] at hhead
      exact N.notMem (by decide) (List.mem_of_mem_head? hhead)
    change setLocalVar sh.store N.text v.text = some (store, err) at h
    show executeCommand sys sh [N.text ++ 61 :: v.text] = _
    rw [executeCommand, if_neg hhead, hsplit N v]
    simp only [h]
  · refine hexport ?_
    show exportArgs sh.store [N.text ++ 61 :: v.text] = _
    rw [exportArgs_singleton, hsplit N v]
    exact h
  · refine hexport ?_
    show exportArgs sh.store [N.text] = _
    rw [exportArgs_singleton, splitAtByte_of_notMem (N.notMem (by decide))]
    exact h

/-- **Processing a command.** The main loop runs the command that stands on the line. -/
theorem processLine_command {sh : Shell W} {c : Command} {store : Store} {err : List UInt8}
    (h : c.run sh.store = some (store, err)) (n : ℕ) (input : Input) :
    ∃ log, processLine (miniShell1 sys) sh n c.line input =
      ((log, .running { sh with store := store }), input) := by
  have hparse : (miniShell1 sys).parseCommand sh c.line = some (c.args, []) := by
    show (MiniShell.parseCommand sh.store c.line).map _ = _
    rw [parseCommand_line]
    rfl
  have hexec : (miniShell1 sys).executeCommand sh c.args =
      (stderrOf err, .running { sh with store := store }) := executeCommand_args sys h
  rw [processLine, isBlankLine_line, if_neg Bool.false_ne_true, opensBlock_line,
    if_neg Bool.false_ne_true, runLine, hparse]
  simp only [hexec]
  exact ⟨_, rfl⟩

end Program

end MiniShell

end SystemProgramming
