import SystemProgramming.MiniShell.Parse

/-!
# `execute_command` of `mini-shell-1`

The built-in commands of `lab7-lyjae/mini-shell-1.c` and its `execute_external_command`. What the
system does is given by a `System` over an arbitrary type of worlds: a world is everything outside
the shell's own variables, so a child may change it in any way, and whether a file can be opened
or a child be forked is decided by it.

The translation returns what the shell did, as a list of effects in order, and how it goes on.

## What is assumed

`execvp` either replaces the child or fails, and then the child calls `exit(1)`; both are part of
`run`, as is what `dup2` does to the descriptors of the child. `setenv` succeeds. The position of
the shell in its script is not among the things that `run` changes: it is looked at in `Script`,
where the lines come from.

## Main definitions

* `System`, `Child`, `Effect` — the outside of the shell
* `Flow` — how the shell goes on after a command
* `executeExternalCommand`, `executeCommand` — the functions of the source

## Main results

* `executeExternalCommand_eq_zero` — a result 0 is the status of a child
* `environ_of_child` — a child receives the environment of the shell
* `storeAfter_of_executeCommand` — what a command does to the variables
-/

namespace SystemProgramming

namespace MiniShell

/-- What a child is started with. -/
structure Child where
  /-- `clean_args` -/
  args : List (List UInt8)
  /-- `input_fd` and `output_fd`, when they are not `-1`. -/
  input : Option ℕ
  output : Option ℕ
  /-- The environment it receives. -/
  environ : List UInt8 → Option (List UInt8)

/-- What `waitpid` says of a child. -/
inductive ChildStatus
  | exited (code : UInt8)
  | killed
  deriving DecidableEq, Repr

/-- `WIFEXITED(status) ? WEXITSTATUS(status) : -1` -/
def ChildStatus.result : ChildStatus → ℤ
  | .exited code => code.toNat
  | .killed => -1

/-- The calls of `execute_external_command`. -/
structure System (W : Type*) where
  /-- `open(path, O_RDONLY)` -/
  openInput : W → List UInt8 → Option ℕ × W
  /-- `open(path, O_WRONLY | O_CREAT | O_TRUNC, 0644)` -/
  openOutput : W → List UInt8 → Option ℕ × W
  /-- `fork`, the child's `dup2` and `execvp`, and `waitpid`; no status when `fork` fails. -/
  run : W → Child → Option ChildStatus × W

/-- What the shell does, as seen from outside. -/
inductive Effect
  | stdout (text : List UInt8)
  | stderr (text : List UInt8)
  | perror (text : List UInt8)
  | openInput (path : List UInt8) (fd : Option ℕ)
  | openOutput (path : List UInt8) (fd : Option ℕ)
  | child (child : Child) (status : ChildStatus)

/-- How the shell goes on. -/
inductive Flow (σ : Type*)
  | running (s : σ)
  /-- `exit` was called. -/
  | exited (s : σ)
  /-- The source does something that has no defined behaviour. -/
  | undefined

/-- The state of `mini-shell-1`, and of the world around it. -/
structure Shell (W : Type*) where
  store : Store
  world : W

/-- A text that is printed to `stderr`, if there is any. -/
def stderrOf (text : List UInt8) : List Effect := if text.isEmpty then [] else [.stderr text]

section Program

variable {W : Type*} (sys : System W)

/-- The loop over `args`: the redirections are opened, the other words kept. No result when an
`open` fails, and the function returns. -/
def scanArgs : List (List UInt8) → W → Option ℕ → Option ℕ →
    List Effect × W × Option (Option ℕ × Option ℕ × List (List UInt8))
  | [], w, input, output => ([], w, some (input, output, []))
  | [arg], w, input, output => ([], w, some (input, output, [arg]))
  | arg :: next :: args, w, input, output =>
    if arg = ascii "<" then
      match sys.openInput w next with
      | (none, w) => ([.openInput next none, .perror (ascii "open for input")], w, none)
      | (some fd, w) =>
        let r := scanArgs args w (some fd) output
        (.openInput next (some fd) :: r.1, r.2)
    else if arg = ascii ">" then
      match sys.openOutput w next with
      | (none, w) => ([.openOutput next none, .perror (ascii "open for output")], w, none)
      | (some fd, w) =>
        let r := scanArgs args w input (some fd)
        (.openOutput next (some fd) :: r.1, r.2)
    else
      let r := scanArgs (next :: args) w input output
      (r.1, r.2.1, r.2.2.map fun q => (q.1, q.2.1, arg :: q.2.2))

/-- `execute_external_command`: its result, the state after it, and what it did. -/
def executeExternalCommand (sh : Shell W) (args : List (List UInt8)) :
    ℤ × Shell W × List Effect :=
  match scanArgs sys args sh.world none none with
  | (log, w, none) => (-1, { sh with world := w }, log)
  | (log, w, some (input, output, cleanArgs)) =>
    let child : Child := ⟨cleanArgs, input, output, sh.store.environ⟩
    match sys.run w child with
    | (none, w) => (-1, { sh with world := w }, log ++ [.perror (ascii "fork")])
    | (some status, w) => (status.result, { sh with world := w }, log ++ [.child child status])

/-- The result is 0 only when a child was started and exited with status 0. -/
theorem executeExternalCommand_eq_zero {sh : Shell W} {args : List (List UInt8)}
    (h : (executeExternalCommand sys sh args).1 = 0) :
    ∃ c, Effect.child c (.exited 0) ∈ (executeExternalCommand sys sh args).2.2 := by
  rw [executeExternalCommand] at h ⊢
  split at h
  · exact absurd h (show ¬ (-1 : ℤ) = 0 by decide)
  · rename_i log w input output cleanArgs hscan
    cases hrun : sys.run w ⟨cleanArgs, input, output, sh.store.environ⟩ with
    | mk status w' =>
      simp only [hrun] at h ⊢
      cases status with
      | none => exact absurd h (show ¬ (-1 : ℤ) = 0 by decide)
      | some status =>
        cases status with
        | exited code =>
          obtain rfl : code = 0 := by
            have hcode : (code.toNat : ℤ) = 0 := h
            exact UInt8.toNat_inj.mp (by exact_mod_cast hcode)
          exact ⟨_, List.mem_append.mpr (Or.inr List.mem_cons_self)⟩
        | killed => exact absurd h (show ¬ (-1 : ℤ) = 0 by decide)

@[simp] theorem store_executeExternalCommand (sh : Shell W) (args : List (List UInt8)) :
    (executeExternalCommand sys sh args).2.1.store = sh.store := by
  rw [executeExternalCommand]
  obtain ⟨log, w, _ | ⟨input, output, cleanArgs⟩⟩ := scanArgs sys args sh.world none none
  · rfl
  · show (match sys.run w ⟨cleanArgs, input, output, sh.store.environ⟩ with
      | (none, w) => _
      | (some status, w) => _ : ℤ × Shell W × List Effect).2.1.store = sh.store
    obtain ⟨_ | status, w'⟩ := sys.run w ⟨cleanArgs, input, output, sh.store.environ⟩
    · rfl
    · rfl

/-- Opening the redirections starts no child. -/
theorem child_notMem_scanArgs (child : Child) (status : ChildStatus) :
    ∀ (args : List (List UInt8)) (w : W) (input output : Option ℕ),
      .child child status ∉ (scanArgs sys args w input output).1
  | [], _, _, _ => List.not_mem_nil
  | [_], _, _, _ => List.not_mem_nil
  | arg :: next :: args, w, input, output => by
    rw [scanArgs]
    by_cases hin : arg = ascii "<"
    · rw [if_pos hin]
      rcases sys.openInput w next with ⟨_ | fd, w'⟩
      · simp
      · simpa using child_notMem_scanArgs child status args w' (some fd) output
    · rw [if_neg hin]
      by_cases hout : arg = ascii ">"
      · rw [if_pos hout]
        rcases sys.openOutput w next with ⟨_ | fd, w'⟩
        · simp
        · simpa using child_notMem_scanArgs child status args w' input (some fd)
      · rw [if_neg hout]
        exact child_notMem_scanArgs child status (next :: args) w input output

/-- Every child is started with the environment of the shell. -/
theorem environ_of_child {sh : Shell W} {args : List (List UInt8)} {child : Child}
    {status : ChildStatus}
    (h : .child child status ∈ (executeExternalCommand sys sh args).2.2) :
    child.environ = sh.store.environ := by
  have hscan := child_notMem_scanArgs sys child status args sh.world none none
  rw [executeExternalCommand] at h
  rcases hr : scanArgs sys args sh.world none none with ⟨log, w, _ | ⟨input, output, cleanArgs⟩⟩
  · rw [hr] at h hscan
    exact absurd h hscan
  · rw [hr] at h hscan
    rcases hrun : sys.run w ⟨cleanArgs, input, output, sh.store.environ⟩ with ⟨_ | code, w'⟩
    · simp only [hrun] at h
      rcases List.mem_append.mp h with h | h
      · exact absurd h hscan
      · cases List.mem_singleton.mp h
    · simp only [hrun] at h
      rcases List.mem_append.mp h with h | h
      · exact absurd h hscan
      · cases List.mem_singleton.mp h
        rfl

/-- The loop of `export`, and what is printed to `stderr`. -/
def exportArgs : Store → List (List UInt8) → Option (Store × List UInt8)
  | s, [] => some (s, [])
  | s, arg :: args =>
    let assignment := match splitAtByte 61 arg with
      | some (name, value) => some (name, value)
      | none => (getVarValue s arg).map fun val => (arg, val)
    assignment.bind fun (name, value) =>
      (setGlobalVar s name value).bind fun (s', err) =>
        (exportArgs s' args).map fun (s'', err') => (s'', err ++ err')

/-- One line of the output of `set`. -/
def printVar (t : Table) (before : List UInt8) (i : ℕ) : Option (List UInt8) :=
  (t.nameAt i).bind fun name => (t.valueAt i).map fun value =>
    before ++ name ++ ascii "=" ++ value ++ ascii "\n"

/-- The output of `set`. -/
def printVars (s : Store) : Option (List (List UInt8)) :=
  ((List.range s.localVars.vars.length).mapM (printVar s.localVars [])).bind fun localLines =>
    ((List.range s.globalVars.vars.length).mapM (printVar s.globalVars (ascii "export "))).map
      fun globalLines => localLines ++ globalLines

def executeCommand (sh : Shell W) : List (List UInt8) → List Effect × Flow (Shell W)
  | [] => ([], .running sh)
  | arg :: args =>
    match if arg.head? = some 45 then none else splitAtByte 61 arg with
    | some (name, value) =>
      match setLocalVar sh.store name value with
      | none => ([], .undefined)
      | some (store, err) => (stderrOf err, .running { sh with store := store })
    | none =>
      if arg = ascii "exit" then ([], .exited sh)
      else if arg = ascii "export" then
        match exportArgs sh.store args with
        | none => ([], .undefined)
        | some (store, err) => (stderrOf err, .running { sh with store := store })
      else if arg = ascii "set" then
        match printVars sh.store with
        | none => ([], .undefined)
        | some lines => (lines.map .stdout, .running sh)
      else
        let r := executeExternalCommand sys sh (arg :: args)
        (r.2.2, .running r.2.1)

/-! ### What a command changes -/

theorem localVars_exportArgs {args : List (List UInt8)} : ∀ {s s' : Store} {err : List UInt8},
    exportArgs s args = some (s', err) → s'.localVars = s.localVars := by
  induction args with
  | nil =>
    intro s s' err h
    cases h
    rfl
  | cons arg args ih =>
    intro s s' err h
    rw [exportArgs] at h
    obtain ⟨⟨name, value⟩, -, h⟩ := Option.bind_eq_some_iff.mp h
    obtain ⟨⟨s₁, err₁⟩, hset, h⟩ := Option.bind_eq_some_iff.mp h
    obtain ⟨⟨s₂, err₂⟩, hrest, heq⟩ := Option.map_eq_some_iff.mp h
    obtain ⟨p, -, hset⟩ := Option.map_eq_some_iff.mp hset
    cases heq
    cases hset
    exact (ih hrest).trans rfl

/-- What becomes of the variables when these words are executed. -/
inductive StoreAfter (s : Store) : List (List UInt8) → Store → Prop
  | same (args : List (List UInt8)) : StoreAfter s args s
  | assigned {arg name value err : List UInt8} {args : List (List UInt8)} {s' : Store}
    (hsplit : splitAtByte 61 arg = some (name, value))
    (hset : setLocalVar s name value = some (s', err)) : StoreAfter s (arg :: args) s'
  | exported {arg err : List UInt8} {args : List (List UInt8)} {s' : Store}
    (hexport : exportArgs s args = some (s', err)) : StoreAfter s (arg :: args) s'

variable {sys}

theorem Flow.eq_of_running {σ : Type*} {s s' : σ}
    (h : (Flow.running s : Flow σ) = .running s' ∨ (Flow.running s : Flow σ) = .exited s') :
    s = s' := by
  rcases h with heq | heq
  · exact Flow.running.inj heq
  · cases heq

/-- **Inversion of a command**, as far as the variables go. -/
theorem storeAfter_of_executeCommand {sh sh' : Shell W} {args : List (List UInt8)}
    {log : List Effect} {flow : Flow (Shell W)}
    (hexec : executeCommand sys sh args = (log, flow))
    (hflow : flow = .running sh' ∨ flow = .exited sh') : StoreAfter sh.store args sh'.store := by
  cases args with
  | nil =>
    cases hexec
    rw [← Flow.eq_of_running hflow]
    exact .same []
  | cons arg args =>
    rw [executeCommand] at hexec
    split at hexec
    · rename_i name value hsplit
      split at hexec
      · cases hexec
        simp at hflow
      · rename_i store err hset
        cases hexec
        rw [← Flow.eq_of_running hflow]
        refine .assigned ?_ hset
        split at hsplit
        · cases hsplit
        · exact hsplit
    split at hexec
    · cases hexec
      obtain rfl : sh = sh' := by simpa using hflow
      exact .same _
    split at hexec
    · split at hexec
      · cases hexec
        simp at hflow
      · rename_i store err hexport
        cases hexec
        rw [← Flow.eq_of_running hflow]
        exact .exported hexport
    split at hexec
    · split at hexec
      · cases hexec
        simp at hflow
      · cases hexec
        rw [← Flow.eq_of_running hflow]
        exact .same _
    · cases hexec
      rw [← Flow.eq_of_running hflow, store_executeExternalCommand]
      exact .same _

end Program

end MiniShell

end SystemProgramming
