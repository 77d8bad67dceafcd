import SystemProgramming.Library.Ensures
import SystemProgramming.Library.SharedInput

/-!
# The prompting shells

`lab6-lyjae/psh2.c` and `psh3.c`: the loop of `main`, which asks for one argument a line and runs
the command at an empty line. A round of the loop is one step. The actions say whether `malloc`
succeeds where the round calls it, and what comes of the command where the round runs one.

The shell and its commands share the standard input, as described in
`SystemProgramming.Library.SharedInput`. A command may read from it. And where `execvp` fails, the
child of the shell calls `exit(1)` with a copy of the shell's buffer, which moves the offset back if
standard input can be seeked in: a file, but not a pipe or a terminal. The shell goes on with its
buffer, and reads the same bytes again behind it.

A command that is executed ends. What is printed, the text of the messages and the exit status of a
command have no part in the loop.

## Two statements about the input

What a shell does at a command depends on what it reads there, and what it reads depends on what the
commands before have done to the offset. So `runs_typed_iff` has a part for each: from any state in
which the bytes of the command are upcoming, the rounds of the command are characterised, whatever
comes of it; and where the standard input is left alone, what is upcoming after some rounds is what
follows the bytes that these rounds have read.

## Main definitions

* `Child` — what comes of a command, and of the standard input
* `State`, `machine` — a shell and its input
* `argument` — what is kept of a line
* `Runs` — a command is run as it was typed

## Main results

* `runFrom_collect` — the rounds in which arguments are collected
* `reads_of_runFrom` — nothing is lost, and nothing read twice, while the offset is left alone
* `runs_typed_iff` — when a command is run as it was typed
-/

namespace SystemProgramming

namespace Psh

def maxArgs : ℕ := 20

def argLen : ℕ := 100

/-- The two shells. -/
inductive Shell
  | psh2
  | psh3
  deriving DecidableEq, Repr

inductive Status
  | running
  /-- `main` has returned. -/
  | returned
  /-- `exit` was called. -/
  | exited (status : ℕ)
  deriving DecidableEq, Repr

/-- What comes of a command that `execute` runs. -/
inductive Child
  | forkFails
  /-- `execvp` fails, and the child calls `exit(1)`. -/
  | execFails
  /-- The command ends, and has left the standard input alone. -/
  | ran
  /-- The command ends, and has left the offset of the standard input there. -/
  | moves (offset : ℕ)
  deriving DecidableEq, Repr

/-- What becomes of the standard input of the shell. -/
def Child.after : Child → InputFile → InputFile
  | .execFails, stdin => stdin.childExits
  | .moves offset, stdin => stdin.childLeaves offset
  | _, stdin => stdin

/-- A standard input that can be seeked in or not is left alone. -/
def Child.Quiet (seekable : Bool) : Child → Prop
  | .execFails => seekable = false
  | .moves _ => False
  | _ => True

/-- The standard input, and `arglist` up to `numargs`. -/
structure State where
  status : Status
  stdin : InputFile
  arglist : List (List UInt8)

inductive Act
  /-- The next round of the loop. -/
  | round (mallocOk : Bool) (child : Child)
  deriving DecidableEq, Repr

def Act.Quiet (seekable : Bool) : Act → Prop
  | .round _ child => child.Quiet seekable

inductive Event
  /-- `Arg[numargs]? ` is printed. -/
  | prompt (numargs : ℕ)
  /-- `fgets` delivers a piece of the input, or `NULL` if it is empty. -/
  | read (piece : List UInt8)
  /-- `Exiting shell.` is printed. -/
  | exiting
  /-- `execute` is called. -/
  | execute (arglist : List (List UInt8))
  deriving DecidableEq, Repr

/-- The string in `argbuf` once `argbuf[strcspn(argbuf, "\n")]` is NUL. -/
def argument (piece : List UInt8) : List UInt8 := (cstring piece).takeWhile (· != 10)

/-- The branch without an argument: an empty line, or the end of the input. -/
def noArgument (s : State) (child : Child) : State × List Event :=
  if 0 < s.arglist.length then
    if child = .forkFails then ({ s with status := .exited 1 }, [.execute s.arglist])
    else ({ s with stdin := child.after s.stdin, arglist := [] }, [.execute s.arglist])
  else (s, [])

/-- The argument ends the shell: only `psh3` compares it with `exit`. -/
def Ends (shell : Shell) (arg : List UInt8) : Prop := shell = .psh3 ∧ arg = ascii "exit"

instance (shell : Shell) (arg : List UInt8) : Decidable (Ends shell arg) :=
  inferInstanceAs (Decidable (_ ∧ _))

/-- The branch with an argument. -/
def takeArgument (shell : Shell) (s : State) (arg : List UInt8) (mallocOk : Bool) :
    State × List Event :=
  if Ends shell arg then ({ s with status := .exited 0 }, [.exiting])
  else if mallocOk then ({ s with arglist := s.arglist ++ [arg] }, [])
  else ({ s with status := .exited 1 }, [])

/-- `fgets(argbuf, ARGLEN, stdin) && *argbuf != '\n'` -/
def IsWord (piece : List UInt8) : Prop := piece ≠ [] ∧ charAt piece 0 ≠ 10

instance (piece : List UInt8) : Decidable (IsWord piece) :=
  inferInstanceAs (Decidable (_ ∧ _))

/-- The `if` in the body of the loop, with what `fgets` has delivered. -/
def branch (shell : Shell) (s : State) (piece : List UInt8) (mallocOk : Bool) (child : Child) :
    State × List Event :=
  if IsWord piece then takeArgument shell s (argument piece) mallocOk else noArgument s child

/-- The body of the loop. -/
def body (shell : Shell) (s : State) (mallocOk : Bool) (child : Child) : State × List Event :=
  let r := InputFile.fgets (argLen - 1) s.stdin
  let p := branch shell { s with stdin := r.2 } r.1 mallocOk child
  (p.1, .prompt s.arglist.length :: .read r.1 :: p.2)

/-- A round of the loop. -/
def step (shell : Shell) (possible : Child → Bool) (s : State) : Act → Option (State × List Event)
  | .round mallocOk child =>
    if s.status = .running ∧ possible child = true then
      if s.arglist.length < maxArgs then some (body shell s mallocOk child)
      else some ({ s with status := .returned }, [])
    else none

/-- A shell with an input, on a system where this may come of commands. -/
def machine (shell : Shell) (possible : Child → Bool) (stdin : InputFile) :
    Machine State Act Event where
  init := ⟨.running, stdin, []⟩
  step := step shell possible

/-- A system where anything may come of commands. -/
def anything : Child → Bool := fun _ => true

/-- The arguments with which `execute` has been called. -/
def executed (es : List Event) : List (List (List UInt8)) :=
  es.filterMap fun
    | .execute arglist => some arglist
    | _ => none

/-- What `fgets` has delivered. -/
def reads (es : List Event) : List (List UInt8) :=
  es.filterMap fun
    | .read piece => some piece
    | _ => none

@[simp] theorem executed_append (es es' : List Event) :
    executed (es ++ es') = executed es ++ executed es' := List.filterMap_append ..

@[simp] theorem reads_append (es es' : List Event) :
    reads (es ++ es') = reads es ++ reads es' := List.filterMap_append ..

/-! ### What is read -/

section Reads

variable {shell : Shell} {possible : Child → Bool} {stdin : InputFile} {s : State}

theorem quiet_after {child : Child} {f : InputFile} (h : child.Quiet f.seekable) :
    child.after f = f := by
  cases child with
  | execFails => exact InputFile.childExits_of_not_seekable h
  | moves offset => exact absurd h id
  | forkFails => rfl
  | ran => rfl

/-- The `if` in the body of the loop reads nothing. -/
theorem reads_branch (shell : Shell) (s : State) (piece : List UInt8) (mallocOk : Bool)
    {child : Child} (hquiet : child.Quiet s.stdin.seekable) :
    (branch shell s piece mallocOk child).1.stdin = s.stdin ∧
      reads (branch shell s piece mallocOk child).2 = [] := by
  rw [branch]
  split
  · rw [takeArgument]
    split
    · exact ⟨rfl, rfl⟩
    · split <;> exact ⟨rfl, rfl⟩
  · rw [noArgument]
    split
    · split
      · exact ⟨rfl, rfl⟩
      · exact ⟨quiet_after hquiet, rfl⟩
    · exact ⟨rfl, rfl⟩

theorem reads_of_step {a : Act} {s' : State} {es : List Event}
    (hquiet : a.Quiet s.stdin.seekable) (h : step shell possible s a = some (s', es)) :
    s'.stdin.seekable = s.stdin.seekable ∧
      (reads es).flatten ++ s'.stdin.upcoming = s.stdin.upcoming := by
  obtain ⟨mallocOk, child⟩ := a
  obtain ⟨-, h⟩ := Option.ite_none_right_eq_some.mp h
  split at h
  · have hbody : body shell s mallocOk child = (s', es) := Option.some.inj h
    have hseek := @InputFile.seekable_fgets (argLen - 1) s.stdin
    have hquiet' : child.Quiet (InputFile.fgets (argLen - 1) s.stdin).2.seekable := by
      rw [hseek]
      exact hquiet
    obtain ⟨hbranch, hreads⟩ := reads_branch shell
      { s with stdin := (InputFile.fgets (argLen - 1) s.stdin).2 }
      (InputFile.fgets (argLen - 1) s.stdin).1 mallocOk hquiet'
    have hstdin : (body shell s mallocOk child).1.stdin =
        (InputFile.fgets (argLen - 1) s.stdin).2 := hbranch
    have hread : reads (body shell s mallocOk child).2 =
        [(InputFile.fgets (argLen - 1) s.stdin).1] := congrArg (_ :: ·) hreads
    rw [hbody] at hstdin hread
    rw [hstdin, hread, List.flatten_singleton]
    exact ⟨hseek, InputFile.fgets_append_upcoming⟩
  · obtain ⟨rfl, rfl⟩ := Prod.mk.inj (Option.some.inj h)
    exact ⟨rfl, rfl⟩

/-- **Nothing is lost, and nothing read twice**, while the offset is left alone. -/
theorem reads_of_runFrom : ∀ {as : List Act} {s : State} {q : State × List Event},
    (∀ a ∈ as, a.Quiet s.stdin.seekable) → (machine shell possible stdin).runFrom s as = some q →
      (reads q.2).flatten ++ q.1.stdin.upcoming = s.stdin.upcoming
  | [], s, q, _, h => by
    obtain rfl := Option.some.inj h
    rfl
  | a :: as, s, q, hquiet, h => by
    obtain ⟨p, hp, r, hr, rfl⟩ := Machine.runFrom_cons_eq_some.mp h
    obtain ⟨ha, hquiet⟩ := List.forall_mem_cons.mp hquiet
    obtain ⟨hseek, hstep⟩ := reads_of_step ha hp
    have hrest := reads_of_runFrom (fun b hb => hseek ▸ hquiet b hb) hr
    rw [reads_append, List.flatten_append, List.append_assoc, hrest, hstep]

end Reads

/-! ### Collecting arguments -/

section Collect

variable {shell : Shell} {stdin f : InputFile} {line : List UInt8} {lines : List (List UInt8)}
  {rest : List UInt8} {args : List (List UInt8)} {child : Child}

theorem argument_line (h : 10 ∉ line) : argument (line ++ [10]) = cstring line := by
  have hall : ∀ b ∈ line, (b != 10) = true := by
    intro b hb
    simp only [bne_iff_ne]
    rintro rfl
    exact h hb
  have hcut : (cstring line).takeWhile (· != 10) = cstring line :=
    List.takeWhile_eq_self_iff.mpr fun b hb => hall b ((List.takeWhile_prefix _).subset hb)
  by_cases h0 : 0 ∈ line
  · have hsame : cstring (line ++ [10]) = cstring line := by
      rw [cstring, List.takeWhile_append, if_neg]
      · rfl
      · intro hlen
        have heq := (List.takeWhile_prefix (p := (· != 0)) (l := line)).eq_of_length hlen
        rw [List.takeWhile_eq_self_iff] at heq
        exact absurd (heq 0 h0) (by decide)
    rw [argument, hsame, hcut]
  · rw [cstring_eq_self h0, argument, cstring_eq_self (by simp [h0]),
      List.takeWhile_append_of_pos hall]
    simp

theorem isWord_line (h : line ≠ []) (hnl : 10 ∉ line) : IsWord (line ++ [10]) := by
  cases line with
  | nil => exact absurd rfl h
  | cons c line =>
    refine ⟨by simp, fun hc => hnl ?_⟩
    simp [show c = 10 from hc]

/-- The round of a line that is upcoming. -/
theorem step_line (shell : Shell) (child : Child) (h : line ≠ []) (hnl : 10 ∉ line)
    (hfits : line.length + 1 < argLen)
    (hup : f.upcoming = line ++ 10 :: rest) (hroom : args.length < maxArgs) :
    ∃ f', f'.upcoming = rest ∧
      step shell anything ⟨.running, f, args⟩ (.round true child) =
        if Ends shell (cstring line) then some (⟨.exited 0, f', args⟩,
          [.prompt args.length, .read (line ++ [10]), .exiting])
        else some (⟨.running, f', args ++ [cstring line]⟩,
          [.prompt args.length, .read (line ++ [10])]) := by
  obtain ⟨hpiece, hrest⟩ :=
    @InputFile.fgets_line f (argLen - 1) line rest hnl (by omega) hup
  refine ⟨_, hrest, ?_⟩
  rw [step, if_pos ⟨rfl, rfl⟩, if_pos hroom, body]
  simp only [hpiece, branch, if_pos (isWord_line h hnl), argument_line hnl, takeArgument]
  by_cases hends : Ends shell (cstring line)
  · rw [if_pos hends, if_pos hends]
  · rw [if_neg hends, if_neg hends]
    rfl

/-- The round of the empty line behind a command. -/
theorem step_empty (shell : Shell) (hchild : child ≠ .forkFails) (hup : f.upcoming = 10 :: rest)
    (hargs : 0 < args.length) (hroom : args.length < maxArgs) :
    ∃ f', f'.upcoming = rest ∧
      step shell anything ⟨.running, f, args⟩ (.round true child) =
        some (⟨.running, child.after f', []⟩,
          [.prompt args.length, .read [10], .execute args]) := by
  obtain ⟨hpiece, hrest⟩ :=
    @InputFile.fgets_line f (argLen - 1) [] rest List.not_mem_nil (by decide) hup
  refine ⟨_, hrest, ?_⟩
  have hempty : ¬ IsWord ([] ++ [10]) := by decide
  rw [step, if_pos ⟨rfl, rfl⟩, if_pos hroom, body]
  simp only [hpiece, branch, if_neg hempty, noArgument, if_pos hargs, if_neg hchild]
  rfl

/-- The round behind `MAXARGS` arguments. -/
theorem step_full (hfull : ¬ args.length < maxArgs) :
    step shell anything ⟨.running, f, args⟩ (.round true child) =
      some (⟨.returned, f, args⟩, []) := by
  rw [step, if_pos ⟨rfl, rfl⟩, if_neg hfull]

/-- The rounds in which the lines of a command are collected. -/
theorem runFrom_collect (shell : Shell) (stdin : InputFile) (child : Child) :
    ∀ {lines : List (List UInt8)} {f : InputFile} (args : List (List UInt8)),
    (∀ line ∈ lines, line ≠ [] ∧ 10 ∉ line ∧ line.length + 1 < argLen) →
      (∀ line ∈ lines, ¬ Ends shell (cstring line)) → args.length + lines.length ≤ maxArgs →
        f.upcoming = unlines lines ++ rest →
        ∃ f' es, (machine shell anything stdin).runFrom ⟨.running, f, args⟩
            (List.replicate lines.length (.round true child)) =
              some (⟨.running, f', args ++ lines.map cstring⟩, es) ∧
          f'.upcoming = rest ∧ reads es = lines.map (· ++ [10]) ∧ executed es = [] := by
  intro lines
  induction lines with
  | nil =>
    intro f args _ _ _ hup
    exact ⟨f, [], by simp, hup, rfl, rfl⟩
  | cons line lines ih =>
    intro f args hlines hends hroom hup
    obtain ⟨⟨hne, hnl, hfits⟩, hlines⟩ := List.forall_mem_cons.mp hlines
    obtain ⟨hend, hends⟩ := List.forall_mem_cons.mp hends
    rw [List.length_cons] at hroom
    rw [unlines_cons, List.append_assoc, List.cons_append] at hup
    obtain ⟨f₁, hup₁, hstep⟩ := step_line shell child hne hnl hfits hup
      (show args.length < maxArgs by omega)
    rw [if_neg hend] at hstep
    obtain ⟨f', es, hrun, hup', hreads, hes⟩ := ih (args ++ [cstring line]) hlines hends
      (by rw [List.length_append, List.length_singleton]; omega) hup₁
    refine ⟨f', [.prompt args.length, .read (line ++ [10])] ++ es, ?_, hup', ?_, ?_⟩
    · rw [List.length_cons, List.replicate_succ, Machine.runFrom_cons_eq_some]
      refine ⟨_, hstep, _, hrun, ?_⟩
      rw [List.map_cons, List.append_assoc, List.singleton_append]
    · rw [reads_append, hreads]
      rfl
    · rw [executed_append, hes]
      rfl

/-- A shell that has ended makes no step. -/
theorem stuck {s : State} {n : ℕ} {possible : Child → Bool} (h : s.status ≠ .running) :
    (machine shell possible stdin).runFrom s (List.replicate (n + 1) (.round true child)) =
      none := by
  have hnone : (machine shell possible stdin).step s (.round true child) = none :=
    if_neg fun hrun => h hrun.1
  rw [List.replicate_succ, Machine.runFrom, hnone]
  rfl

/-- The round of a word, when there is a round behind it. -/
theorem runFrom_line_inv {q : State × List Event} {n : ℕ} (h : line ≠ []) (hnl : 10 ∉ line)
    (hfits : line.length + 1 < argLen) (hup : f.upcoming = line ++ 10 :: rest)
    (hrun : (machine shell anything stdin).runFrom ⟨.running, f, args⟩
      (List.replicate (n + 2) (.round true child)) = some q) :
    (args.length < maxArgs ∧ ¬ Ends shell (cstring line)) ∧
      ∃ f' es, f'.upcoming = rest ∧
        (machine shell anything stdin).runFrom ⟨.running, f', args ++ [cstring line]⟩
          (List.replicate (n + 1) (.round true child)) = some (q.1, es) ∧
        executed q.2 = executed es := by
  obtain ⟨p, hp, r, hr, rfl⟩ := Machine.runFrom_cons_eq_some.mp hrun
  by_cases hroom : args.length < maxArgs
  · obtain ⟨f', hup', hstep⟩ := step_line shell child h hnl hfits hup hroom
    have hstep := hstep.symm.trans hp
    by_cases hend : Ends shell (cstring line)
    · rw [if_pos hend] at hstep
      obtain rfl := Option.some.inj hstep
      exact absurd ((stuck (by simp)).symm.trans hr) (by simp)
    · rw [if_neg hend] at hstep
      obtain rfl := Option.some.inj hstep
      exact ⟨⟨hroom, hend⟩, f', r.2, hup', hr, rfl⟩
  · obtain rfl := Option.some.inj ((step_full hroom).symm.trans hp)
    exact absurd ((stuck (by simp)).symm.trans hr) (by simp)

/-- The round of the empty line, if the shell runs behind it. -/
theorem step_empty_inv {q : State × List Event} (hchild : child ≠ .forkFails)
    (hup : f.upcoming = 10 :: rest) (hargs : 0 < args.length)
    (hstep : step shell anything ⟨.running, f, args⟩ (.round true child) = some q)
    (hrunning : q.1.status = .running) : args.length < maxArgs ∧ executed q.2 = [args] := by
  by_cases hroom : args.length < maxArgs
  · obtain ⟨f', -, hempty⟩ := step_empty shell hchild hup hargs hroom
    obtain rfl := Option.some.inj (hempty.symm.trans hstep)
    exact ⟨hroom, rfl⟩
  · obtain rfl := Option.some.inj ((step_full hroom).symm.trans hstep)
    cases hrunning

/-- The rounds of a command, read backwards: a shell that is still running behind them has run all
its words, each cut at a NUL, together with the arguments it had before. -/
theorem runFrom_command_inv {s : State} {es : List Event} (hchild : child ≠ .forkFails) :
    ∀ {lines : List (List UInt8)} {f : InputFile} (args : List (List UInt8)),
    (∀ line ∈ lines, line ≠ [] ∧ 10 ∉ line ∧ line.length + 1 < argLen) →
      1 ≤ args.length + lines.length → f.upcoming = unlines lines ++ 10 :: rest →
      (machine shell anything stdin).runFrom ⟨.running, f, args⟩
          (List.replicate (lines.length + 1) (.round true child)) = some (s, es) →
        s.status = .running →
          (args.length + lines.length < maxArgs ∧ ∀ line ∈ lines, ¬ Ends shell (cstring line)) ∧
            executed es = [args ++ lines.map cstring] := by
  intro lines
  induction lines generalizing es with
  | nil =>
    intro f args _ hargs hup hrun hrunning
    obtain ⟨p, hp, r, hr, heq⟩ := Machine.runFrom_cons_eq_some.mp hrun
    obtain rfl := Option.some.inj hr
    obtain ⟨rfl, rfl⟩ := Prod.mk.inj heq
    obtain ⟨hroom, hexecuted⟩ := step_empty_inv hchild hup hargs hp hrunning
    refine ⟨⟨hroom, fun line hline => absurd hline List.not_mem_nil⟩, ?_⟩
    rw [List.append_nil, hexecuted, List.map_nil, List.append_nil]
  | cons line lines ih =>
    intro f args hlines _ hup hrun hrunning
    obtain ⟨⟨hne, hnl, hfits⟩, hlines⟩ := List.forall_mem_cons.mp hlines
    rw [unlines_cons, List.append_assoc, List.cons_append] at hup
    obtain ⟨⟨-, hend⟩, f', es₁, hup', hrest, hes⟩ := runFrom_line_inv hne hnl hfits hup hrun
    obtain ⟨⟨hmost, hends⟩, hexecuted⟩ := ih (args ++ [cstring line]) hlines
      (by rw [List.length_append, List.length_singleton]; omega) hup' hrest hrunning
    refine ⟨⟨?_, List.forall_mem_cons.mpr ⟨hend, hends⟩⟩, ?_⟩
    · rw [List.length_append, List.length_singleton] at hmost
      rw [List.length_cons]
      omega
    · rw [hes, hexecuted, List.append_assoc]
      rfl

end Collect

/-! ### A command -/

section Typed

variable {shell : Shell} {stdin : InputFile} {pre post : List UInt8}
  {lines args : List (List UInt8)} {as : List Act} {s : State} {es : List Event}

/-- Behind a run, the rounds of a command read exactly these lines and the empty one, pass exactly
these strings to `execute`, and leave the shell at `Arg[0]` with the rest of the input, except for
what the command itself does to it. -/
def Runs (shell : Shell) (stdin : InputFile) (as : List Act) (es : List Event)
    (lines : List (List UInt8)) (post : List UInt8) : Prop :=
  ∀ child ≠ .forkFails, ∃ f es', (machine shell anything stdin).run
      (as ++ List.replicate (lines.length + 1) (.round true child)) =
        some (⟨.running, child.after f, []⟩, es ++ es') ∧
    f.upcoming = post ∧ reads es' = lines.map (· ++ [10]) ++ [[10]] ∧ executed es' = [lines]

theorem map_cstring_iff : lines.map cstring = lines ↔ ∀ line ∈ lines, cstring line = line := by
  conv_lhs => rhs; rw [← List.map_id lines]
  exact List.map_inj_left

/-- What has been run is what was typed only if there were no arguments before it. -/
theorem eq_nil_of_append_map_cstring (h : args ++ lines.map cstring = lines) :
    args = [] ∧ ∀ line ∈ lines, cstring line = line := by
  have hlength := congrArg List.length h
  rw [List.length_append, List.length_map] at hlength
  obtain rfl : args = [] := List.eq_nil_of_length_eq_zero (by omega)
  exact ⟨rfl, map_cstring_iff.mp h⟩

/-- The rounds of a command that does not end the shell. -/
theorem runFrom_command {f : InputFile} {child : Child} (hchild : child ≠ .forkFails)
    (hlines : ∀ line ∈ lines, line ≠ [] ∧ 10 ∉ line ∧ line.length + 1 < argLen)
    (hends : ∀ line ∈ lines, ¬ Ends shell (cstring line)) (hsome : 1 ≤ lines.length)
    (hroom : lines.length < maxArgs) (hup : f.upcoming = unlines lines ++ 10 :: post) :
    ∃ f' es, (machine shell anything stdin).runFrom ⟨.running, f, []⟩
        (List.replicate (lines.length + 1) (.round true child)) =
          some (⟨.running, child.after f', []⟩, es) ∧
      f'.upcoming = post ∧ reads es = lines.map (· ++ [10]) ++ [[10]] ∧
      executed es = [lines.map cstring] := by
  obtain ⟨f₁, es₁, hrun, hup₁, hreads, hes⟩ := runFrom_collect shell stdin child []
    hlines hends (by rw [List.length_nil]; omega) hup
  have hargs : 0 < (lines.map cstring).length := by rwa [List.length_map]
  have hroom' : (lines.map cstring).length < maxArgs := by rwa [List.length_map]
  obtain ⟨f', hup', hempty⟩ := step_empty shell hchild hup₁ hargs hroom'
  refine ⟨f', es₁ ++ [.prompt (lines.map cstring).length, .read [10],
    .execute (lines.map cstring)], ?_, hup', ?_, ?_⟩
  · rw [List.replicate_succ', Machine.runFrom_concat_eq_some]
    exact ⟨_, hrun, _, hempty, rfl⟩
  · rw [reads_append, hreads]
    rfl
  · rw [executed_append, hes]
    rfl

theorem flatten_lines : (lines.map (· ++ [10]) ++ [[10]]).flatten ++ post =
    unlines lines ++ 10 :: post := by
  rw [List.flatten_append, unlines, List.flatMap_def, List.append_assoc]
  rfl

/-- **Commands are run as they were typed**, behind any run that has read the input before them, if
the shell stands at `Arg[0]`, they are what it will read next, and they have less than `MAXARGS`
words, no NUL, and, in `psh3`, no word `exit`; and only then. They are what it will read next as
long as the standard input has been left alone. -/
theorem runs_typed_iff
    (hlines : ∀ line ∈ lines, line ≠ [] ∧ 10 ∉ line ∧ line.length + 1 < argLen)
    (hsome : 1 ≤ lines.length) (hstdin : stdin.upcoming = pre ++ unlines lines ++ 10 :: post)
    (hpre : (machine shell anything stdin).run as = some (s, es))
    (hread : (reads es).flatten = pre) :
    (Runs shell stdin as es lines post ↔
      (s.status = .running ∧ s.arglist = []) ∧ s.stdin.upcoming = unlines lines ++ 10 :: post ∧
        lines.length < maxArgs ∧ ∀ line ∈ lines, 0 ∉ line ∧ ¬ Ends shell line) ∧
    ((∀ a ∈ as, a.Quiet stdin.seekable) → s.stdin.upcoming = unlines lines ++ 10 :: post) := by
  obtain ⟨status, f, args⟩ := s
  refine ⟨⟨fun hruns => ?_, ?_⟩, fun hquiet => ?_⟩
  · obtain ⟨f', es', hrun, hup', hreads, hexecuted⟩ := hruns .ran nofun
    obtain ⟨q₁, hq₁, ⟨s₂, es₂⟩, hq₂, heq⟩ := Machine.runFrom_append_eq_some.mp hrun
    obtain rfl := Option.some.inj (hpre.symm.trans hq₁)
    obtain ⟨hstate, hevents⟩ := Prod.mk.inj heq
    obtain rfl := List.append_cancel_left hevents
    obtain rfl : s₂ = ⟨.running, f', []⟩ := hstate
    have hup : f.upcoming = unlines lines ++ 10 :: post := by
      have hflat := reads_of_runFrom (fun a ha => (List.eq_of_mem_replicate ha) ▸ trivial) hq₂
      rw [hreads] at hflat
      rw [← flatten_lines, ← hup']
      exact hflat.symm
    by_cases hrunning : status = .running
    · subst hrunning
      obtain ⟨⟨hmost, hends⟩, hall⟩ := runFrom_command_inv (show Child.ran ≠ .forkFails from nofun)
        args hlines (by omega) hup hq₂ rfl
      have hsame : args ++ lines.map cstring = lines := by
        rw [hexecuted] at hall
        exact (List.cons.inj hall).1.symm
      obtain ⟨rfl, hline⟩ := eq_nil_of_append_map_cstring hsame
      rw [List.length_nil, Nat.zero_add] at hmost
      refine ⟨⟨rfl, rfl⟩, hup, hmost, fun line hmem => ⟨?_, ?_⟩⟩
      · rw [← hline line hmem]
        exact zero_notMem_cstring line
      · rw [← hline line hmem]
        exact hends line hmem
    · rw [stuck hrunning] at hq₂
      cases hq₂
  · rintro ⟨⟨hrunning, hargs⟩, hup, hroom, hclean⟩ child hchild
    obtain rfl : status = .running := hrunning
    obtain rfl : args = [] := hargs
    have hline : ∀ line ∈ lines, cstring line = line :=
      fun line hmem => cstring_eq_self (hclean line hmem).1
    have hends : ∀ line ∈ lines, ¬ Ends shell (cstring line) := by
      intro line hmem
      rw [hline line hmem]
      exact (hclean line hmem).2
    obtain ⟨f', es', hcommand, hup', hreads, hes'⟩ :=
      runFrom_command hchild hlines hends hsome hroom hup
    refine ⟨f', es', Machine.runFrom_append_eq_some.mpr ⟨_, hpre, _, hcommand, rfl⟩, hup', hreads,
      ?_⟩
    rw [hes', map_cstring_iff.mpr hline]
  · have hflat := reads_of_runFrom (s := (machine shell anything stdin).init) hquiet hpre
    rw [hread] at hflat
    have hrest : stdin.upcoming = pre ++ (unlines lines ++ 10 :: post) := by
      rw [hstdin, List.append_assoc]
    exact List.append_cancel_left (hflat.trans hrest)

/-- `echo hi` in a `psh3` that has run a command which is not there, on a terminal. -/
theorem runs_typed_echo : ∃ s es,
    (machine .psh3 anything (.opened (ascii "nosuch\n\necho\nhi\n\n") false fun _ => 12)).run
        [.round true .ran, .round true .execFails] = some (s, es) ∧
      executed es = [[ascii "nosuch"]] ∧
      Runs .psh3 (.opened (ascii "nosuch\n\necho\nhi\n\n") false fun _ => 12)
        [.round true .ran, .round true .execFails] es [ascii "echo", ascii "hi"] [] := by
  refine ⟨_, _, rfl, rfl, ?_⟩
  obtain ⟨hiff, hup⟩ := @runs_typed_iff .psh3
    (.opened (ascii "nosuch\n\necho\nhi\n\n") false fun _ => 12) (ascii "nosuch\n\n") []
    [ascii "echo", ascii "hi"] [.round true .ran, .round true .execFails] _ _ (by decide)
    (by decide) rfl rfl rfl
  exact hiff.mpr ⟨⟨rfl, rfl⟩, hup (by simp [Act.Quiet, Child.Quiet, InputFile.opened]), by decide,
    by decide⟩

/-- The same on a file: the words in the buffer when the child calls `exit` are read twice. -/
example : ∃ s es,
    (machine .psh3 anything (.opened (ascii "nosuch\n\necho\nhi\n\n") true fun _ => 12)).run
        [.round true .ran, .round true .execFails, .round true .ran, .round true .ran,
          .round true .ran, .round true .ran] = some (s, es) ∧
      executed es = [[ascii "nosuch"], [ascii "echo", ascii "echo", ascii "hi"]] :=
  ⟨_, _, rfl, rfl⟩

/-- **A command of `MAXARGS` words**, none of them `exit`: both shells have room for it, and end
before its empty line is read. -/
theorem twenty_words_lost :
    (∀ line ∈ List.replicate maxArgs (ascii "w"),
      line ≠ [] ∧ 10 ∉ line ∧ line.length + 1 < argLen ∧ line ≠ ascii "exit") ∧
      ∀ shell, ¬ Runs shell
        (.opened (unlines (List.replicate maxArgs (ascii "w")) ++ 10 :: []) false fun _ => 0) [] []
        (List.replicate maxArgs (ascii "w")) [] := by
  have hwords : ∀ line ∈ List.replicate maxArgs (ascii "w"),
      line ≠ [] ∧ 10 ∉ line ∧ line.length + 1 < argLen ∧ line ≠ ascii "exit" := by
    intro line hline
    obtain rfl := List.eq_of_mem_replicate hline
    decide
  refine ⟨hwords, fun shell hruns => ?_⟩
  obtain ⟨f, es', hrun, -⟩ := hruns .ran nofun
  obtain ⟨⟨hmost, -⟩, -⟩ := runFrom_command_inv (show Child.ran ≠ .forkFails from nofun) []
    (fun line hline => ⟨(hwords line hline).1, (hwords line hline).2.1, (hwords line hline).2.2.1⟩)
    (by decide) rfl hrun rfl
  exact absurd hmost (by decide)

end Typed

end Psh

end SystemProgramming
