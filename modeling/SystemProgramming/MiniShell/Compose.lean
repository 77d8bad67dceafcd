import SystemProgramming.MiniShell.IfBlock

/-!
# A script inside a block

The lines of a block are handed to `parse_command` and `execute_command`, as the lines of a script
are that open no block. So a script of simple commands does the same inside a block whose condition
is `true`. A block inside a block is something else: its lines are taken for commands, up to the
first `fi`.

What a run does is compared by its actions: the lines behind `if` have other numbers than the same
lines in a script of their own. The two scripts are read from files of different lengths, so what
children do to their offsets cannot be compared; in both runs they leave them alone.

## How it goes

The two runs differ in where a line is read and in nothing else. At top level the main loop takes it
off the script and executes it before the next one is read; in a block all lines are read first. As
no line of the script opens a block, the loop over the block and the main loop hand the same words
to the same functions in the same order (`runBlock_numbered`, by induction on the lines). Blank
lines are left out by the first and skipped by the second.

The condition comes in front. It is a command like any other, and assumed to exit with status 0 and
to change nothing: a system in which `true` does something else is not excluded by the model.

## Main definitions

* `Action`, `Run.actions` — what a run does
* `IsSimple`, `Terminated` — the scripts that can be put into a block

## Main results

* `runBlock_numbered` — a block does what its lines do
* `block_composes` — a script of simple commands inside a block
* `nested_block_differs` — a script that is itself a block
-/

namespace SystemProgramming

namespace MiniShell

variable {σ ε : Type*}

/-! ### Actions -/

/-- What a run does, without the numbers of the lines. -/
inductive Action (ε : Type*)
  /-- These words were handed to `execute_command`. -/
  | command (args : List (List UInt8))
  | effect (e : ε)

/-- What is done by an event. -/
def Event.action : Event ε → Option (Action ε)
  | .executed _ args => some (.command args)
  | .effect e => some (.effect e)
  | _ => none

/-- What a run does, in order, and how the shell goes on. -/
def Run.actions (r : Run σ ε) : List (Action ε) × Flow σ := (r.1.filterMap Event.action, r.2)

/-- The actions of a run followed by another depend only on the actions of both. -/
theorem Run.actions_andThen {r r' : Run σ ε} {next next' : σ → Run σ ε}
    (h : r.actions = r'.actions) (hnext : ∀ s, (next s).actions = (next' s).actions) :
    (r.andThen next).actions = (r'.andThen next').actions := by
  obtain ⟨hlog, hflow⟩ := Prod.mk.inj h
  rw [Run.andThen, Run.andThen, hflow]
  rcases r'.2 with s | s | _
  · obtain ⟨hlog', hflow'⟩ := Prod.mk.inj (hnext s)
    rw [Run.actions, Run.actions, List.filterMap_append, List.filterMap_append, hlog, hlog', hflow']
  · exact h
  · exact h

/-- Nothing comes after a run when nothing is to be done. -/
theorem Run.andThen_nil {r : Run σ ε} {next : σ → Run σ ε} (h : ∀ s, next s = ([], .running s)) :
    r.andThen next = r := by
  obtain ⟨log, s | s | _⟩ := r
  · simp only [Run.andThen, h, List.append_nil]
  · rfl
  · rfl

/-- Nothing is done by the main loop when it takes a line off the script. -/
theorem Run.actions_processed (n : ℕ) (r : Run σ ε) :
    Run.actions (.processed n :: r.1, r.2) = r.actions := rfl

variable (I : Interpreter σ ε)

/-- The number of a line does not matter for what it does. -/
theorem actions_runLine (s : σ) (n m : ℕ) (line : List UInt8) :
    (runLine I s n line).actions = (runLine I s m line).actions := by
  rw [runLine, runLine]
  rcases I.parseCommand s line with _ | ⟨args, warning⟩
  · rfl
  · simp only [Run.actions, List.filterMap_append, List.filterMap_cons, Event.action]

/-- At the end of the script the main loop does nothing. -/
theorem mainLoop_end (rounds : ℕ) (s : σ) (n : ℕ) :
    mainLoop I rounds s ⟨n, []⟩ = ([], .running s) := by
  rcases rounds with _ | rounds
  · rfl
  · rfl

/-- **A block does what its lines do.** On lines that open no block, the loop that executes a block
and the main loop do the same. -/
theorem runBlock_numbered : ∀ {body : List (List UInt8)} {rounds : ℕ} (s : σ) (n m : ℕ),
    (∀ line ∈ body, opensBlock line = false) → body.length ≤ rounds →
    (runBlock I (numbered n body) s).actions = (mainLoop I rounds s ⟨m, body⟩).actions
  | [], 0, s, n, m, _, _ => rfl
  | [], rounds + 1, s, n, m, _, _ => rfl
  | line :: body, rounds + 1, s, n, m, hbody, hrounds => by
    have ih := fun s' => runBlock_numbered s' (n + 1) (m + 1)
      (fun l hl => hbody l (List.mem_cons_of_mem line hl)) (Nat.le_of_succ_le_succ hrounds)
    have hline := hbody line List.mem_cons_self
    rw [numbered, mainLoop]
    by_cases hblank : isBlankLine line = true
    · simp only [processLine, hblank, if_true]
      rw [ih s]
      rfl
    · simp only [processLine, hblank, hline, if_false, Bool.false_eq_true]
      exact Run.actions_andThen (actions_runLine I s n m line) ih

/-! ### Scripts of simple commands -/

/-- A line that `handle_if_block` takes for a line of the block, and `process_line` for a
command. -/
def IsSimple (line : List UInt8) : Prop :=
  opensBlock line = false ∧ firstWord line ≠ some (ascii "fi")

/-- A text whose last line is complete. -/
def Terminated (script : List UInt8) : Prop := script = [] ∨ ∃ text, script = text ++ [10]

/-- `if true`, `then`, a script, `fi`. -/
def inBlock (script : List UInt8) : List UInt8 :=
  ascii "if true\nthen\n" ++ script ++ ascii "fi\n"

theorem readLines_append {script : List UInt8} (h : Terminated script) (tail : List UInt8) :
    readLines (script ++ tail) = readLines script ++ readLines tail := by
  rcases h with rfl | ⟨text, rfl⟩
  · rfl
  · rw [List.append_assoc, List.singleton_append, readLines, fgetsFrom_append, List.map_append]
    rfl

theorem readLines_inBlock {script : List UInt8} (h : Terminated script) :
    readLines (inBlock script) =
      ascii "if true\n" :: ascii "then\n" :: (readLines script ++ [ascii "fi\n"]) := by
  have hhead : Terminated (ascii "if true\nthen\n") := Or.inr ⟨ascii "if true\nthen", by decide⟩
  have hif : readLines (ascii "if true\nthen\n") = [ascii "if true\n", ascii "then\n"] := by decide
  have hfi : readLines (ascii "fi\n") = [ascii "fi\n"] := by decide
  rw [inBlock, List.append_assoc, readLines_append hhead, readLines_append h, hif, hfi]
  rfl

/-! ### The condition `true` -/

variable {W : Type*} {sys : System W}

/-- The command `true` exits with status 0, and does nothing else. -/
def RunsTrue (sys : System W) : Prop :=
  ∀ w environ, sys.run w ⟨[ascii "true"], none, none, environ⟩ = (some (.exited 0), w)

/-- The child of the condition. -/
def trueChild (sh : Shell W) : Child := ⟨[ascii "true"], none, none, sh.store.environ⟩

theorem executeExternalCommand_true (htrue : RunsTrue sys) (sh : Shell W) :
    executeExternalCommand sys sh [ascii "true"] =
      (0, sh, [.child (trueChild sh) (.exited 0)]) := by
  simp only [executeExternalCommand, scanArgs, htrue sh.world sh.store.environ]
  rfl

/-- With the condition `true`, a block is run. -/
theorem runCondition_true (htrue : RunsTrue sys) (sh : Shell W) (n : ℕ)
    (block : List (ℕ × List UInt8)) :
    runCondition (miniShell1 sys) sh n (ascii "true\n") block =
      Run.andThen ([.effect (.child (trueChild sh) (.exited 0)),
          .condition n [ascii "true"] 0 true], .running sh)
        (runBlock (miniShell1 sys) block) := by
  have hparse : parseCommand sh.store (ascii "true\n") = some ([ascii "true"], []) :=
    parseCommand_of_literal sh.store (by decide) (by decide) (by decide)
  have hshell : (miniShell1 sys).parseCommand sh (ascii "true\n") = some ([ascii "true"], []) := by
    simp only [miniShell1, hparse]
    rfl
  have hrun : (miniShell1 sys).executeExternalCommand sh [ascii "true"] =
      (0, sh, [.child (trueChild sh) (.exited 0)]) := executeExternalCommand_true htrue sh
  rw [runCondition, hshell]
  simp only [hrun, if_true]
  rfl

/-- **Blocks compose with simple commands.** Take a script of simple commands with at most
`MAX_BLOCK_LINES` lines, at top level and in a block whose condition is `true`, on files whose
offsets are left alone by the children. The shell does the same, after it has run the condition:
the same commands in the same order, with the same effects, and the shell and the world are the
same afterwards. -/
theorem block_composes (htrue : RunsTrue sys) (sh : Shell W) {top nested : InputFile}
    {script : List UInt8} (htop : top.upcoming = script)
    (hnested : nested.upcoming = inBlock script) (hterm : Terminated script)
    (hsimple : ∀ line ∈ readLines script, IsSimple line)
    (hle : nonBlank (readLines script) ≤ maxBlockLines) {moved moved' : ℕ → Option ℕ}
    (hstill : ∀ n, moved n = none) (hstill' : ∀ n, moved' n = none) {calls calls' : ℕ}
    (hcalls : (readLines script).length ≤ calls)
    (hcalls' : (readLines (inBlock script)).length ≤ calls') :
    (runFile (miniShell1 sys) sh nested moved' calls').actions =
      (.effect (.child (trueChild sh) (.exited 0)) ::
          (runFile (miniShell1 sys) sh top moved calls).actions.1,
        (runFile (miniShell1 sys) sh top moved calls).actions.2) := by
  subst htop
  have hline : processLine (miniShell1 sys) sh 0 (ascii "if true\n")
        ⟨1, ascii "then\n" :: (readLines top.upcoming ++ [ascii "fi\n"])⟩ =
      (runCondition (miniShell1 sys) sh 0 (ascii "true\n") (numbered 2 (readLines top.upcoming)),
        ⟨0 + (readLines top.upcoming).length + 3, []⟩) :=
    processLine_block (miniShell1 sys) sh 0 [] (by decide) (by decide) (by decide) (by decide)
      (fun line hl => ⟨length_of_mem_readLines hl, (hsimple line hl).2⟩) hle
  have hblock : (runBlock (miniShell1 sys) (numbered 2 (readLines top.upcoming)) sh).actions =
      (runFile (miniShell1 sys) sh top moved calls).actions := by
    rw [runFile_of_still _ _ hstill hcalls]
    exact runBlock_numbered (miniShell1 sys) sh 2 0 (fun line hl => (hsimple line hl).1) hcalls
  have hlines : readLines nested.upcoming =
      ascii "if true\n" :: ascii "then\n" :: (readLines top.upcoming ++ [ascii "fi\n"]) := by
    rw [hnested, readLines_inBlock hterm]
  obtain ⟨calls', rfl⟩ : ∃ c, calls' = c + 1 := by
    rw [← hnested, hlines, List.length_cons] at hcalls'
    exact ⟨calls' - 1, by omega⟩
  rw [runFile_of_still _ _ hstill' (by rwa [hnested]), hlines, mainLoop]
  simp only [Nat.zero_add] at hline ⊢
  rw [hline, runCondition_true htrue, Run.andThen_nil fun s => mainLoop_end _ _ s _,
    Run.actions_processed, ← hblock]
  rfl

/-- A run on a file that can be seeked in, of which no child moves the offset. -/
def runText (text : List UInt8) (calls : ℕ) : Run (Shell Unit) Effect :=
  runFile (miniShell1 (constantSystem 0)) freshShell (.opened text true fun _ => 4095)
    (fun _ => none) calls

/-- Two lines in a block, of which the second uses what the first has assigned. -/
theorem block_composes_two :
    (runText (inBlock (ascii "x=1\necho $x\n")) 5).actions =
      (.effect (.child (trueChild freshShell) (.exited 0)) ::
          (runText (ascii "x=1\necho $x\n") 2).actions.1,
        (runText (ascii "x=1\necho $x\n") 2).actions.2) := by
  have hlines : readLines (ascii "x=1\necho $x\n") = [ascii "x=1\n", ascii "echo $x\n"] := by
    decide
  have hsimple : ∀ line ∈ readLines (ascii "x=1\necho $x\n"), IsSimple line := by
    rw [hlines]
    simp only [List.mem_cons, List.not_mem_nil, or_false, forall_eq_or_imp, forall_eq]
    exact ⟨⟨by decide, by decide⟩, ⟨by decide, by decide⟩⟩
  have hterm : Terminated (ascii "x=1\necho $x\n") := Or.inr ⟨ascii "x=1\necho $x", by decide⟩
  exact block_composes (fun _ _ => rfl) freshShell (InputFile.upcoming_opened _ true _)
    (InputFile.upcoming_opened _ true _) hterm hsimple (by decide) (fun _ => rfl) (fun _ => rfl)
    (by decide) (by decide)

/-! ### A block in a block -/

/-- The words that were handed to `execute_command`. -/
def commands (actions : List (Action ε)) : List (List (List UInt8)) :=
  actions.filterMap fun
    | .command args => some args
    | .effect _ => none

/-- `if true`, `then`, `echo a`, `fi` -/
def innerBlock : List UInt8 := inBlock (ascii "echo a\n")

/-- A script that is one complete block: inside another block, its first lines are executed. -/
theorem nested_block_differs :
    (readLines innerBlock).length ≤ maxBlockLines ∧ RunsTrue (constantSystem 0) ∧
      (runText (inBlock innerBlock) 7).actions.1 ≠
        .effect (.child (trueChild freshShell) (.exited 0)) ::
          (runText innerBlock 4).actions.1 := by
  refine ⟨by decide, fun _ _ => rfl, fun heq => ?_⟩
  have hcommands := congrArg commands heq
  have hnested : commands (runText (inBlock innerBlock) 7).actions.1 ≠
    commands (.effect (.child (trueChild freshShell) (.exited 0)) ::
      (runText innerBlock 4).actions.1) := by decide
  exact hnested hcommands

end MiniShell

end SystemProgramming
