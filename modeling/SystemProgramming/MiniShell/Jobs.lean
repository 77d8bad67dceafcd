import SystemProgramming.Library.Machine
import SystemProgramming.MiniShell.Script
import Mathlib.Logic.Function.Basic

/-!
# Jobs: `mini-shell-2` and `mini-shell-3`

`lab7-lyjae/mini-shell-2.c` and `lab7-lyjae/mini-shell-3.c` keep a table of jobs and forward
`SIGTSTP` to the child in the foreground. The two differ in what an `Edition` says: `mini-shell-2`
checks the result of `fork` and the room in the table, `mini-shell-3` has the command `fg`.

The shell is a thread that may be interrupted between any two of its steps, and its children
change on their own: both are choices of the schedule. A child that has ended stays until
`waitpid` reaps it. The variables of the shell, which no function here reads, are left out, and so
is where the words of a command come from.

## What is assumed

`fork` returns the pid of no child that is still there, and not -1 unless it fails. A child may run,
stop, go on and end at any time, by itself or by a signal, and `waitpid` returns for a child that
has changed. Children are not shared with other processes, and none is adopted.

The table has `MAX_JOBS` entries. `mini-shell-3` does not test for room; where it writes behind the
table, or a command does not fit in its field, the run ends in `undefined`.

## Steps of the shell

What is one line of the source can be several steps here, and the other way around. A step ends
where something else may happen that makes a difference: behind `fork`, behind the assignment of
`fg_pid`, in `waitpid`, behind it, and behind the update of the table. The loops over the table are
one step, as no handler reads it. `Position` has what the shell has in its local variables at these
places: the `pid`, the status, and whether it waits for a command or for a job.

`Transition` lists the steps with what has been tested on the way, and `transition_of_step` is the
one place where `step` is unfolded. All invariants of the shell go through its cases.

## Main definitions

* `Job`, `Position`, `State` — the table of jobs, and where the shell is
* `executeExternalCommand`, `recordJob`, `fgIndex`, `executeCommand` — the functions of the source
* `Act`, `step`, `machine` — runs of a shell
* `CommandResult`, `Transition` — what a command and what a step can do

## Main results

* `commandResult`, `transition_of_step` — inversion of a command and of a step
-/

namespace SystemProgramming

namespace JobShell

open MiniShell (ChildStatus maxLine)

def maxJobs : ℕ := 64

/-- The two shells. -/
inductive Edition
  | miniShell2
  | miniShell3
  deriving DecidableEq, Repr

structure Job where
  pid : ℤ
  command : List UInt8
  stopped : Bool
  deriving DecidableEq, Repr

/-- A child that has not been reaped. -/
inductive ChildState
  | running
  /-- `reported` once `waitpid` has returned for it. -/
  | stopped (reported : Bool)
  | ended (status : ChildStatus)
  deriving DecidableEq, Repr

/-- What `waitpid` stores in `status`. -/
inductive WaitStatus
  | stopped
  | ended (status : ChildStatus)
  deriving DecidableEq, Repr

/-- What the shell waits for. -/
inductive Foreground
  /-- The child of a command. -/
  | command (text : List UInt8)
  /-- The job that `fg` resumed. -/
  | job (idx : ℕ)
  deriving DecidableEq, Repr

/-- Where the shell is. -/
inductive Position
  /-- Before the next command. -/
  | ready
  /-- Before `fork`. -/
  | forking (background : Bool) (text : List UInt8)
  /-- Before `fg_pid = pid`. -/
  | forked (pid : ℤ) (f : Foreground)
  /-- In `waitpid(pid, &status, WUNTRACED)`. -/
  | waiting (pid : ℤ) (f : Foreground)
  /-- Before the table is updated. -/
  | waited (pid : ℤ) (status : WaitStatus) (f : Foreground)
  /-- Before `fg_pid = -1`. -/
  | recorded (status : WaitStatus)
  /-- After `exit`. -/
  | exited
  /-- The source has done something that has no defined behaviour. -/
  | undefined
  deriving DecidableEq, Repr

structure State where
  /-- `jobs[0]` to `jobs[job_count - 1]` -/
  jobs : List Job
  fgPid : ℤ
  /-- The children that have not been reaped. -/
  children : ℤ → Option ChildState
  position : Position

/-- What a run is judged by. -/
inductive Event
  | stdout (text : List UInt8)
  | perror (text : List UInt8)
  /-- `fork` returned a child. -/
  | forked (pid : ℤ) (background : Bool)
  /-- `fork` failed. -/
  | forkFailed
  /-- `fg` sent `SIGCONT` to the process of a job. -/
  | resumed (pid : ℤ)
  /-- `waitpid` returned because the child was stopped. -/
  | stopped (pid : ℤ)
  /-- `waitpid` returned because the child has ended; the child is gone. -/
  | reaped (pid : ℤ)
  /-- `fg_pid = -1` -/
  | cleared
  /-- `SIGTSTP` was delivered to the shell; the handler sent it to `killed`. -/
  | sigtstp (killed : Option ℤ)
  /-- A child ended. -/
  | terminated (pid : ℤ)
  /-- `jobs` printed these entries. -/
  | listed (jobs : List Job)
  deriving DecidableEq, Repr

/-! ### The table -/

def printJobStatus (idx : ℕ) (job : Job) : List UInt8 :=
  let status := if job.stopped then ascii "Stopped " else ascii "Running "
  ascii "[" ++ decimal (idx + 1) ++ ascii "] " ++ status ++ ascii " " ++ decimal job.pid ++
    ascii " " ++ job.command ++ ascii "\n"

/-- The loops of `strncat` that fill `jobs[job_count].command`. -/
def commandText : List (List UInt8) → List UInt8
  | [] => []
  | [arg] => arg.take (maxLine - 1)
  | arg :: args => arg.take (maxLine - 1) ++ ascii " " ++ commandText args

/-- Recording a job: `jobs[job_count]` is filled and `job_count` incremented. -/
def recordJob (v : Edition) (s : State) (job : Job) : State :=
  if s.jobs.length < maxJobs then
    if job.command.length < maxLine then { s with jobs := s.jobs ++ [job] }
    else { s with position := .undefined }
  else
    match v with
    | .miniShell2 => s
    | .miniShell3 => { s with position := .undefined }

/-- `n` rounds of the loop `for (int i = idx; i < job_count - 1; i++) jobs[i] = jobs[i + 1];`. -/
def shiftJobs (jobs : List Job) (i : ℕ) : ℕ → List Job
  | 0 => jobs
  | n + 1 => shiftJobs ((jobs[i + 1]?).elim jobs (jobs.set i)) (i + 1) n

/-- Removing a job: the loop, and `job_count--`. -/
def removeJob (jobs : List Job) (idx : ℕ) : List Job :=
  (shiftJobs jobs idx (jobs.length - 1 - idx)).take (jobs.length - 1)

/-! ### Commands -/

/-- The words of a command that are not part of a redirection: `clean_args`. -/
def cleanArgs : List (List UInt8) → List (List UInt8)
  | [] => []
  | [arg] => [arg]
  | arg :: next :: args =>
    if arg = ascii "<" ∨ arg = ascii ">" then cleanArgs args else arg :: cleanArgs (next :: args)

/-- `execute_external_command` up to `fork`; `opened` says whether all the redirections can be
opened, if there are any. -/
def executeExternalCommand (s : State) (args : List (List UInt8)) (opened : Bool) : State :=
  let background := args.getLast? = some (ascii "&")
  let args := if background then args.dropLast else args
  if opened = true ∨ cleanArgs args = args then
    { s with position := .forking background (commandText (cleanArgs args)) }
  else s

/-- The job that `fg` resumes, or the message that it prints. -/
def fgIndex (jobs : List Job) : Option (List UInt8) → Except (List UInt8) ℕ
  | none =>
    match (List.range jobs.length).reverse.find? fun i => (jobs[i]?.any Job.stopped) with
    | none => .error (ascii "fg: no current job\n")
    | some idx => .ok idx
  | some arg =>
    let n := atoi arg
    if n < 1 ∨ jobs.length < n then .error (ascii "fg: job " ++ arg ++ ascii " not found\n")
    else if jobs[(n - 1).toNat]?.any Job.stopped then .ok (n - 1).toNat
    else .error (ascii "fg: job " ++ decimal n ++ ascii " not stopped\n")

/-- `SIGCONT` -/
def ChildState.continued : ChildState → ChildState
  | .stopped _ => .running
  | c => c

/-- `kill(pid, SIGCONT)`; a `pid` of -1 is every process. -/
def sendSigcont (s : State) (pid : ℤ) : State :=
  { s with
    children := fun c => if c = pid ∨ pid = -1 then (s.children c).map .continued
      else s.children c }

/-- `jobs[idx].stopped = stopped` -/
def setStopped (jobs : List Job) (idx : ℕ) (stopped : Bool) : List Job :=
  jobs.modify idx fun job => { job with stopped := stopped }

/-- The command `fg`, up to `fg_pid = pid`. -/
def fg (s : State) (arg : Option (List UInt8)) : State × List Event :=
  match fgIndex s.jobs arg with
  | .error text => (s, [.stdout text])
  | .ok idx =>
    match s.jobs[idx]? with
    | none => ({ s with position := .undefined }, [])
    | some job =>
      ({ sendSigcont { s with jobs := setStopped s.jobs idx false } job.pid with
          position := .forked job.pid (.job idx) },
        [.stdout (ascii "Resuming job [" ++ decimal (idx + 1) ++ ascii "] " ++ job.command ++
          ascii "\n"), .resumed job.pid])

/-- `execute_command`, as far as jobs are concerned. -/
def executeCommand (v : Edition) (s : State) (args : List (List UInt8)) (opened : Bool) :
    State × List Event :=
  match args with
  | [] => (s, [])
  | arg :: rest =>
    if (splitAtByte 61 arg).isSome ∧ arg.head? ≠ some 45 then (s, [])
    else if arg = ascii "exit" then ({ s with position := .exited }, [])
    else if arg = ascii "export" ∨ arg = ascii "set" then (s, [])
    else if arg = ascii "jobs" then
      (s, s.jobs.mapIdx (fun i job => .stdout (printJobStatus i job)) ++ [.listed s.jobs])
    else if v = .miniShell3 ∧ arg = ascii "fg" then fg s rest.head?
    else (executeExternalCommand s args opened, [])

/-! ### Runs -/

/-- The choices of the schedule. -/
inductive Act
  /-- The next command. -/
  | command (args : List (List UInt8)) (opened : Bool)
  /-- The condition of an `if`, which goes to `execute_external_command`. -/
  | condition (args : List (List UInt8)) (opened : Bool)
  /-- `fork` returns, in the shell. -/
  | fork (pid : Option ℤ)
  /-- `fg_pid = pid` -/
  | setForeground
  /-- `waitpid` returns for a child. -/
  | waitpid (child : ℤ)
  /-- `waitpid` fails: there is no such child. -/
  | waitpidFails
  /-- The table is updated. -/
  | record
  /-- `fg_pid = -1`, and back to the loop. -/
  | clearForeground
  /-- `SIGTSTP` is delivered to the shell. -/
  | sigtstp
  /-- A child is stopped. -/
  | childStops (pid : ℤ)
  /-- A child is continued. -/
  | childContinues (pid : ℤ)
  /-- A child ends. -/
  | childEnds (pid : ℤ) (status : ChildStatus)
  deriving DecidableEq, Repr

/-- The state of one child changes, the child being gone with none. -/
def State.setChild (s : State) (pid : ℤ) (c : Option ChildState) : State :=
  { s with children := Function.update s.children pid c }

/-- `fork` and what follows it, up to `fg_pid = pid` or the return. -/
def fork (v : Edition) (s : State) (background : Bool) (text : List UInt8) :
    Option ℤ → Option (State × List Event)
  | some pid =>
    if 0 < pid ∧ s.children pid = none then
      let s := s.setChild pid (some .running)
      if background then
        some (recordJob v { s with position := .ready } ⟨pid, text, false⟩,
          [.forked pid true, .stdout (ascii "[background pid " ++ decimal pid ++ ascii "]\n")])
      else some ({ s with position := .forked pid (.command text) }, [.forked pid false])
    else none
  | none =>
    match v with
    | .miniShell2 => some ({ s with position := .ready }, [.forkFailed, .perror (ascii "fork")])
    | .miniShell3 =>
      -- the result is not checked: `pid` is -1
      if background then
        some (recordJob v { s with position := .ready } ⟨-1, text, false⟩,
          [.forkFailed, .stdout (ascii "[background pid " ++ decimal (-1) ++ ascii "]\n")])
      else some ({ s with position := .forked (-1) (.command text) }, [.forkFailed])

/-- `waitpid` returns for a child, if it can. -/
def waitpid (s : State) (pid : ℤ) (f : Foreground) (child : ℤ) : Option (State × List Event) :=
  if child = pid ∨ pid = -1 then
    match s.children child with
    | some (.ended status) =>
      some ({ s.setChild child none with position := .waited pid (.ended status) f },
        [.reaped child])
    | some (.stopped false) =>
      some ({ s.setChild child (some (.stopped true)) with position := .waited pid .stopped f },
        [.stopped child])
    | _ => none
  else none

/-- What is done with the status. -/
def record (v : Edition) (s : State) (pid : ℤ) : WaitStatus → Foreground → State × List Event
  | .stopped, .command text =>
    (recordJob v { s with position := .recorded .stopped } ⟨pid, text, true⟩,
      [.stdout (ascii "[Stopped] pid " ++ decimal pid ++ ascii "\n")])
  | .stopped, .job idx =>
    ({ s with jobs := setStopped s.jobs idx true, position := .recorded .stopped },
      [.stdout (ascii "[Stopped] pid " ++ decimal pid ++ ascii "\n")])
  | .ended status, .command _ => ({ s with position := .recorded (.ended status) }, [])
  | .ended status, .job idx =>
    ({ s with jobs := removeJob s.jobs idx, position := .recorded (.ended status) }, [])

def sigtstpHandler (s : State) : Option ℤ := if 0 < s.fgPid then some s.fgPid else none

def step (v : Edition) (s : State) : Act → Option (State × List Event)
  | .command args opened =>
    if s.position = .ready then some (executeCommand v s args opened) else none
  | .condition args opened =>
    if s.position = .ready then some (executeExternalCommand s args opened, []) else none
  | .fork pid =>
    match s.position with
    | .forking background text => fork v s background text pid
    | _ => none
  | .setForeground =>
    match s.position with
    | .forked pid f => some ({ s with fgPid := pid, position := .waiting pid f }, [])
    | _ => none
  | .waitpid child =>
    match s.position with
    | .waiting pid f => waitpid s pid f child
    | _ => none
  | .waitpidFails =>
    match s.position with
    | .waiting pid _ =>
      -- `status` is read, and was never written
      if s.children pid = none then some ({ s with position := .undefined }, []) else none
    | _ => none
  | .record =>
    match s.position with
    | .waited pid status f => some (record v s pid status f)
    | _ => none
  | .clearForeground =>
    match s.position with
    | .recorded _ => some ({ s with fgPid := -1, position := .ready }, [.cleared])
    | _ => none
  | .sigtstp =>
    if s.position = .exited ∨ s.position = .undefined then none
    else some (s, [.sigtstp (sigtstpHandler s)])
  | .childStops pid =>
    if s.children pid = some .running then
      some (s.setChild pid (some (.stopped false)), [])
    else none
  | .childContinues pid =>
    match s.children pid with
    | some (.stopped _) => some (s.setChild pid (some .running), [])
    | _ => none
  | .childEnds pid status =>
    match s.children pid with
    | some (.ended _) | none => none
    | _ => some (s.setChild pid (some (.ended status)), [.terminated pid])

/-- A shell, from the moment `main` enters its loop. -/
def machine (v : Edition) : Machine State Act Event where
  init := ⟨[], -1, fun _ => none, .ready⟩
  step := step v

/-! ### What the functions change -/

/-- Recording a job enters it where there is room, leaves a full table as it is, or has no defined
behaviour. -/
theorem recordJob_cases (v : Edition) (s : State) (job : Job) :
    (s.jobs.length < maxJobs ∧ recordJob v s job = { s with jobs := s.jobs ++ [job] }) ∨
      (maxJobs ≤ s.jobs.length ∧ recordJob v s job = s) ∨
      recordJob v s job = { s with position := .undefined } := by
  rw [recordJob.eq_def]
  split
  · split
    · exact Or.inl ⟨‹_›, rfl⟩
    · exact Or.inr (Or.inr rfl)
  · cases v
    · exact Or.inr (Or.inl ⟨by omega, rfl⟩)
    · exact Or.inr (Or.inr rfl)

/-! ### Removing a job -/

theorem length_set_getElem? (jobs : List Job) (i j : ℕ) :
    ((jobs[j]?).elim jobs (jobs.set i)).length = jobs.length := by
  cases jobs[j]? with
  | none => rfl
  | some job => exact List.length_set

theorem length_shiftJobs : ∀ (n i : ℕ) (jobs : List Job),
    (shiftJobs jobs i n).length = jobs.length
  | 0, _, _ => rfl
  | n + 1, i, jobs => by rw [shiftJobs, length_shiftJobs n, length_set_getElem?]

/-- The loop moves each job it comes to by one place. -/
theorem getElem?_shiftJobs : ∀ (n i : ℕ) (jobs : List Job), i + n < jobs.length → ∀ j,
    (shiftJobs jobs i n)[j]? = if i ≤ j ∧ j < i + n then jobs[j + 1]? else jobs[j]?
  | 0, i, jobs, _, j => by
    rw [if_neg (by omega)]
    rfl
  | n + 1, i, jobs, h, j => by
    have hsome : jobs[i + 1]? = some jobs[i + 1] := List.getElem?_eq_getElem (by omega)
    rw [shiftJobs, hsome, Option.elim_some,
      getElem?_shiftJobs n (i + 1) _ (by rw [List.length_set]; omega)]
    by_cases hin : i + 1 ≤ j ∧ j < i + 1 + n
    · rw [if_pos hin, if_pos (by omega), List.getElem?_set_ne (by omega)]
    · rw [if_neg hin]
      by_cases hij : i = j
      · subst hij
        rw [if_pos (by omega), List.getElem?_set_self (by omega), hsome]
      · rw [if_neg (by omega), List.getElem?_set_ne hij]

/-- **The loop removes the job at its index**, and keeps the others in their order. -/
theorem removeJob_eq_eraseIdx {jobs : List Job} {idx : ℕ} (h : idx < jobs.length) :
    removeJob jobs idx = jobs.eraseIdx idx := by
  refine List.ext_getElem? fun j => ?_
  rw [removeJob, List.getElem?_take, List.getElem?_eraseIdx,
    getElem?_shiftJobs _ _ _ (by omega)]
  by_cases hj : j < jobs.length - 1
  · rw [if_pos hj]
    by_cases hidx : j < idx
    · rw [if_pos hidx, if_neg (by omega)]
    · rw [if_neg hidx, if_pos (by omega)]
  · rw [if_neg hj]
    by_cases hidx : j < idx
    · omega
    · rw [if_neg hidx, List.getElem?_eq_none (by omega)]

theorem mem_of_mem_shiftJobs {job : Job} : ∀ (n i : ℕ) (jobs : List Job),
    job ∈ shiftJobs jobs i n → job ∈ jobs
  | 0, _, _, h => h
  | n + 1, i, jobs, h => by
    have hmem := mem_of_mem_shiftJobs n (i + 1) _ h
    rcases hnext : jobs[i + 1]? with _ | next
    · rwa [hnext] at hmem
    · rw [hnext] at hmem
      rcases List.mem_or_eq_of_mem_set hmem with hmem | rfl
      · exact hmem
      · exact List.mem_of_getElem? hnext

theorem mem_of_mem_removeJob {jobs : List Job} {idx : ℕ} {job : Job}
    (h : job ∈ removeJob jobs idx) : job ∈ jobs :=
  mem_of_mem_shiftJobs _ _ _ (List.mem_of_mem_take h)

theorem length_removeJob_le (jobs : List Job) (idx : ℕ) :
    (removeJob jobs idx).length ≤ jobs.length :=
  (List.length_take_le' ..).trans (length_shiftJobs ..).le

theorem executeExternalCommand_cases (s : State) (args : List (List UInt8)) (opened : Bool) :
    executeExternalCommand s args opened = s ∨ ∃ background text,
      executeExternalCommand s args opened = { s with position := .forking background text } := by
  simp only [executeExternalCommand]
  by_cases hredirect : opened = true ∨ cleanArgs (if args.getLast? = some (ascii "&") then
      args.dropLast else args) = if args.getLast? = some (ascii "&") then args.dropLast else args
  · rw [if_pos hredirect]
    exact Or.inr ⟨_, _, rfl⟩
  · rw [if_neg hredirect]
    exact Or.inl rfl

/-! ### The children -/

/-- The process is a child that has not been reaped. -/
def State.present (s : State) (pid : ℤ) : Bool := (s.children pid).isSome

section Present

variable (s : State)

theorem present_setChild (pid : ℤ) (c : Option ChildState) :
    (s.setChild pid c).present = Function.update s.present pid c.isSome := by
  funext q
  by_cases hq : q = pid
  · subst hq
    simp [State.present, State.setChild]
  · simp [State.present, State.setChild, hq]

theorem present_setChild_self (pid : ℤ) (c : Option ChildState) :
    (s.setChild pid c).present pid = c.isSome := by
  rw [present_setChild, Function.update_self]

theorem present_setChild_of_ne {pid q : ℤ} (hq : q ≠ pid) (c : Option ChildState) :
    (s.setChild pid c).present q = s.present q := by
  rw [present_setChild, Function.update_of_ne hq]

/-- A new child leaves the others there. -/
theorem present_setChild_some {pid q : ℤ} {c : ChildState} (h : s.present q = true) :
    (s.setChild pid (some c)).present q = true := by
  rcases eq_or_ne q pid with rfl | hq
  · exact present_setChild_self s q (some c)
  · exact (present_setChild_of_ne s hq _).trans h

/-- Children keep positive pids. -/
theorem pos_of_present_setChild {pid q : ℤ} {c : Option ChildState}
    (hpos : ∀ q, s.present q = true → 0 < q) (hpid : 0 < pid)
    (hq : (s.setChild pid c).present q = true) : 0 < q := by
  rcases eq_or_ne q pid with rfl | hne
  · exact hpid
  · exact hpos q ((present_setChild_of_ne s hne c).symm.trans hq)

theorem present_setChild_of_present {pid : ℤ} (c : ChildState) (h : s.present pid = true) :
    (s.setChild pid (some c)).present = s.present := by
  rw [present_setChild, Option.isSome_some, ← h, Function.update_eq_self]

theorem present_sendSigcont (pid : ℤ) : (sendSigcont s pid).present = s.present := by
  funext q
  simp only [State.present, sendSigcont]
  split
  · exact Option.isSome_map
  · rfl

end Present

theorem present_of_eq_some {s : State} {pid : ℤ} {c : ChildState} (h : s.children pid = some c) :
    s.present pid = true := by
  rw [State.present, h]
  rfl

theorem present_recordJob (v : Edition) (s : State) (job : Job) :
    (recordJob v s job).present = s.present := by
  rcases recordJob_cases v s job with ⟨-, heq⟩ | ⟨-, heq⟩ | heq <;> rw [heq] <;> rfl

/-! ### What a command can do -/

/-- What `fg` comes to. -/
inductive FgResult (s : State) (arg : Option (List UInt8)) : State × List Event → Prop
  | fails (text : List UInt8) : FgResult s arg (s, [.stdout text])
  | undefined : FgResult s arg ({ s with position := .undefined }, [])
  | resumes {idx : ℕ} {job : Job} (hjob : s.jobs[idx]? = some job) (text : List UInt8) :
    FgResult s arg
      ({ sendSigcont { s with jobs := setStopped s.jobs idx false } job.pid with
        position := .forked job.pid (.job idx) }, [.stdout text, .resumed job.pid])

theorem fgResult (s : State) (arg : Option (List UInt8)) : FgResult s arg (fg s arg) := by
  rw [fg]
  split
  · exact .fails _
  · split
    · exact .undefined
    · exact .resumes ‹_› _

/-- What a command comes to. -/
inductive CommandResult (v : Edition) (s : State) (args : List (List UInt8)) (opened : Bool) :
    State × List Event → Prop
  | quiet : CommandResult v s args opened (s, [])
  | exit : CommandResult v s args opened ({ s with position := .exited }, [])
  | jobs : CommandResult v s args opened
      (s, s.jobs.mapIdx (fun i job => .stdout (printJobStatus i job)) ++ [.listed s.jobs])
  | fg (arg : Option (List UInt8)) : CommandResult v s args opened (fg s arg)
  | external : CommandResult v s args opened (executeExternalCommand s args opened, [])

/-- **Inversion of a command.** -/
theorem commandResult (v : Edition) (s : State) (args : List (List UInt8)) (opened : Bool) :
    CommandResult v s args opened (executeCommand v s args opened) := by
  rw [executeCommand.eq_def]
  split
  · exact .quiet
  split
  · exact .quiet
  split
  · exact .exit
  split
  · exact .quiet
  split
  · exact .jobs
  split
  · exact .fg _
  · exact .external

/-- The command `jobs` prints text, and the table. -/
theorem stdout_or_listed_of_mem {jobs : List Job} {e : Event}
    (h : e ∈ jobs.mapIdx (fun i job => .stdout (printJobStatus i job)) ++ [.listed jobs]) :
    (∃ text, e = .stdout text) ∨ e = .listed jobs := by
  rcases List.mem_append.mp h with h | h
  · obtain ⟨i, hi, rfl⟩ := List.mem_mapIdx.mp h
    exact Or.inl ⟨_, rfl⟩
  · exact Or.inr (List.mem_singleton.mp h)

/-! ### What a step can do -/

/-- The possible steps, with what the code has tested on the way. -/
inductive Transition (v : Edition) (s : State) : Act → State → List Event → Prop
  | command {args : List (List UInt8)} {opened : Bool} {s' : State} {es : List Event}
    (hpos : s.position = .ready) (h : executeCommand v s args opened = (s', es)) :
    Transition v s (.command args opened) s' es
  | condition {args : List (List UInt8)} {opened : Bool} (hpos : s.position = .ready) :
    Transition v s (.condition args opened) (executeExternalCommand s args opened) []
  | fork {background : Bool} {text : List UInt8} {pid : Option ℤ} {s' : State} {es : List Event}
    (hpos : s.position = .forking background text)
    (h : fork v s background text pid = some (s', es)) : Transition v s (.fork pid) s' es
  | setForeground {pid : ℤ} {f : Foreground} (hpos : s.position = .forked pid f) :
    Transition v s .setForeground { s with fgPid := pid, position := .waiting pid f } []
  | waitpid {pid child : ℤ} {f : Foreground} {s' : State} {es : List Event}
    (hpos : s.position = .waiting pid f) (h : waitpid s pid f child = some (s', es)) :
    Transition v s (.waitpid child) s' es
  | waitpidFails {pid : ℤ} {f : Foreground} (hpos : s.position = .waiting pid f) :
    Transition v s .waitpidFails { s with position := .undefined } []
  | record {pid : ℤ} {status : WaitStatus} {f : Foreground} {s' : State} {es : List Event}
    (hpos : s.position = .waited pid status f) (h : record v s pid status f = (s', es)) :
    Transition v s .record s' es
  | clearForeground {status : WaitStatus} (hpos : s.position = .recorded status) :
    Transition v s .clearForeground { s with fgPid := -1, position := .ready } [.cleared]
  | sigtstp : Transition v s .sigtstp s [.sigtstp (sigtstpHandler s)]
  | childStops {pid : ℤ} (hpid : s.present pid = true) :
    Transition v s (.childStops pid) (s.setChild pid (some (.stopped false))) []
  | childContinues {pid : ℤ} (hpid : s.present pid = true) :
    Transition v s (.childContinues pid) (s.setChild pid (some .running)) []
  | childEnds {pid : ℤ} {status : ChildStatus} (hpid : s.present pid = true) :
    Transition v s (.childEnds pid status) (s.setChild pid (some (.ended status)))
      [.terminated pid]

/-- **Inversion of a step.** -/
theorem transition_of_step {v : Edition} {s s' : State} {a : Act} {es : List Event}
    (h : step v s a = some (s', es)) : Transition v s a s' es := by
  rw [step.eq_def] at h
  split at h
  · obtain ⟨hpos, heq⟩ := Option.ite_none_right_eq_some.mp h
    exact .command hpos (Option.some.inj heq)
  · obtain ⟨hpos, heq⟩ := Option.ite_none_right_eq_some.mp h
    cases heq
    exact .condition hpos
  · split at h
    · exact .fork ‹_› h
    · cases h
  · split at h <;> cases h
    exact .setForeground ‹_›
  · split at h
    · exact .waitpid ‹_› h
    · cases h
  · split at h
    · obtain ⟨-, heq⟩ := Option.ite_none_right_eq_some.mp h
      cases heq
      exact .waitpidFails ‹_›
    · cases h
  · split at h
    · exact .record ‹_› (Option.some.inj h)
    · cases h
  · split at h <;> cases h
    exact .clearForeground ‹_›
  · obtain ⟨-, heq⟩ := Option.ite_none_left_eq_some.mp h
    cases heq
    exact .sigtstp
  · obtain ⟨hchild, heq⟩ := Option.ite_none_right_eq_some.mp h
    cases heq
    exact .childStops (present_of_eq_some hchild)
  · split at h <;> cases h
    exact .childContinues (present_of_eq_some ‹_›)
  · split at h <;> cases h
    exact .childEnds (Option.isSome_iff_ne_none.mpr ‹_›)

/-! ### What the steps say -/

/-- Commands deliver no signal to the shell. -/
theorem sigtstp_notMem_executeCommand (v : Edition) (s : State) (args : List (List UInt8))
    (opened : Bool) (killed : Option ℤ) : .sigtstp killed ∉ (executeCommand v s args opened).2 := by
  have hresult := commandResult v s args opened
  generalize executeCommand v s args opened = r at hresult ⊢
  cases hresult with
  | jobs =>
    intro hmem
    rcases stdout_or_listed_of_mem hmem with ⟨text, heq⟩ | heq <;> cases heq
  | fg arg =>
    have hfg := fgResult s arg
    generalize fg s arg = r at hfg ⊢
    cases hfg <;> simp
  | _ => exact List.not_mem_nil

/-- The steps that are neither a command nor the delivery of a signal are not recorded as one. -/
theorem notMem_of_step {v : Edition} {s s' : State} {a : Act} {es' : List Event}
    (hcommand : ∀ args opened, a ≠ .command args opened) (hsigtstp : a ≠ .sigtstp)
    (hstep : step v s a = some (s', es')) :
    (∀ killed, .sigtstp killed ∉ es') ∧ ∀ jobs, .listed jobs ∉ es' := by
  cases a with
  | command args opened => exact absurd rfl (hcommand args opened)
  | sigtstp => exact absurd rfl hsigtstp
  | _ =>
    simp only [step, fork, waitpid, record] at hstep
    grind

/-- Only the delivery of a signal is one. -/
theorem sigtstp_notMem {v : Edition} {s s' : State} {a : Act} {es' : List Event}
    (ha : a ≠ .sigtstp) (hstep : step v s a = some (s', es')) (killed : Option ℤ) :
    .sigtstp killed ∉ es' := by
  cases a with
  | command args opened =>
    obtain ⟨-, heq⟩ := Option.ite_none_right_eq_some.mp hstep
    have hcmd := sigtstp_notMem_executeCommand v s args opened killed
    rwa [Option.some.inj heq] at hcmd
  | _ =>
    refine (notMem_of_step ?_ ha hstep).1 killed
    exact fun _ _ => nofun

theorem listed_notMem_fg (s : State) (arg : Option (List UInt8)) (jobs : List Job) :
    .listed jobs ∉ (fg s arg).2 := by
  have hresult := fgResult s arg
  generalize fg s arg = r at hresult ⊢
  cases hresult <;> simp

/-- Only a command prints the table. -/
theorem listed_notMem {v : Edition} {s s' : State} {a : Act} {es' : List Event}
    (ha : ∀ args opened, a ≠ .command args opened) (hstep : step v s a = some (s', es'))
    (jobs : List Job) : .listed jobs ∉ es' := by
  cases a with
  | sigtstp =>
    obtain ⟨-, heq⟩ := Option.ite_none_left_eq_some.mp hstep
    obtain ⟨-, rfl⟩ := Prod.mk.inj (Option.some.inj heq)
    exact fun hmem => nomatch List.mem_singleton.mp hmem
  | _ => exact (notMem_of_step ha nofun hstep).2 jobs

end JobShell

end SystemProgramming
