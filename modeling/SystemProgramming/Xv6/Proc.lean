import SystemProgramming.Library.Machine
import Mathlib.Algebra.Order.Ring.Int
import Mathlib.Data.Fin.Basic
import Mathlib.Data.Fintype.Basic
import Mathlib.Logic.Function.Basic

/-!
# Processes and system calls of xv6

The process table of `lab3-lyjae/xv6-riscv/kernel`: `proc.c` (`allocproc`, `freeproc`, `fork`,
`exit`, `wait`, `kill`, sleeping and waking), `syscall.c` (the dispatch) and what `usertrap` does
with a killed process. A pointer to a `struct proc` is the index of its slot.

Every critical section (under `p->lock`, `wait_lock` or `pid_lock`) is one step, and any number of
processors take steps in any order. What a handler does besides (files, pipes, memory) does not
touch the fields modelled here; where such a handler sleeps, how it is woken and what it returns
are choices of the schedule.

## What is assumed

Interrupts and the scheduler may come between any two critical sections, and a process that is
runnable may wait arbitrarily long. `kalloc` and the copying of memory may fail where the code tests
for it. `nextpid` is an integer here: that it overflows is not modelled, and what is said of numbers
that are given out holds for runs with fewer than `2 ^ 31` processes. `syscall_count` is a number of
64 bits, as in the kernel.

One round of `wait` is one step: the loop over the table, the test of `killed` and the falling
asleep. In the kernel `p->lock` is taken and given up in between, twice, so that a `kill` may come
after the test; what is proved of `wait` does not speak of processes that have been killed.

## Main definitions

* `Proc`, `Kernel` — the process table
* `allocproc`, `freeproc`, `reparent`, `exit`, `wait`, `kill`, `wakeup` — the functions of `proc.c`
* `syscall` — the dispatch
* `Act`, `step`, `machine` — runs of the kernel
-/

namespace SystemProgramming

namespace Xv6

def nproc : ℕ := 64

instance : NeZero nproc := ⟨by decide⟩

/-- A slot of the process table. -/
abbrev Slot := Fin nproc

/-- `enum procstate` -/
inductive ProcState
  | unused | used | sleeping | runnable | running | zombie
  deriving DecidableEq, Repr

/-- The system calls. -/
inductive Syscall
  | fork | exit | wait | pipe | read | kill | exec | fstat | chdir | dup | getpid | sbrk | sleep
  | uptime | open | write | mknod | unlink | link | mkdir | close | hello | getsyscallcount
  deriving DecidableEq, Repr

/-- What a process sleeps on. -/
inductive Chan
  /-- A `struct proc`, in `wait`. -/
  | proc (p : Slot)
  /-- Any other address: `ticks`, a pipe, a buffer. -/
  | addr (a : ℕ)
  deriving DecidableEq, Repr

/-- The user registers that the dispatch reads and writes. -/
structure Trapframe where
  a0 : BitVec 64
  a7 : BitVec 64
  deriving DecidableEq, Repr

/-- Where a process is, as its kernel stack says. -/
inductive Context
  /-- In user space, or on its way there. -/
  | user
  /-- In the handler of a system call. -/
  | handler (call : Syscall)
  /-- In `fork`, copying to the slot that `allocproc` returned. -/
  | forkCopies (np : Slot)
  /-- In `fork`, after `np->parent = p`. -/
  | forkAdopted (np : Slot)
  deriving DecidableEq, Repr

/-- `struct proc` -/
structure Proc where
  state : ProcState
  chan : Option Chan
  killed : Bool
  xstate : ℤ
  pid : ℤ
  parent : Option Slot
  trapframe : Trapframe
  syscallCount : BitVec 64
  context : Context

/-- The process table and what goes with it. -/
structure Kernel where
  proc : Slot → Proc
  nextpid : ℤ
  initproc : Option Slot

/-- Change the fields of one slot. -/
def Kernel.modify (s : Kernel) (p : Slot) (f : Proc → Proc) : Kernel :=
  { s with proc := Function.update s.proc p (f (s.proc p)) }

/-! ### `proc.c` -/

/-- `allocproc` from the label `found` on. -/
def found (s : Kernel) (np : Slot) : Kernel :=
  Kernel.modify { s with nextpid := s.nextpid + 1 } np fun p =>
    { p with pid := s.nextpid, state := .used, context := .user }

/-- `allocproc`, its scan having stopped at slot `np`. -/
def allocproc (s : Kernel) (np : Slot) : Option Kernel :=
  if (s.proc np).state = .unused then some (found s np) else none

def freeproc (s : Kernel) (p : Slot) : Kernel :=
  s.modify p fun p =>
    { p with
      pid := 0
      parent := none
      chan := none
      killed := false
      xstate := 0
      state := .unused }

/-- `wakeup`, called by process `me`, none in an interrupt. -/
def wakeup (s : Kernel) (me : Option Slot) (chan : Option Chan) : Kernel :=
  { s with
    proc := fun q =>
      if some q ≠ me ∧ (s.proc q).state = .sleeping ∧ (s.proc q).chan = chan then
        { s.proc q with state := .runnable }
      else s.proc q }

def reparent (s : Kernel) (p : Slot) : Kernel :=
  let s' : Kernel :=
    { s with
      proc := fun pp =>
        if (s.proc pp).parent = some p then { s.proc pp with parent := s.initproc }
        else s.proc pp }
  if ∃ pp, (s.proc pp).parent = some p then wakeup s' (some p) (s.initproc.map .proc) else s'

/-- `exit`; the kernel panics when `initproc` exits, and then there is no next state. -/
def exit (s : Kernel) (p : Slot) (status : ℤ) : Option Kernel :=
  if s.initproc = some p then none
  else
    let s' := reparent s p
    let s'' := wakeup s' (some p) ((s'.proc p).parent.map .proc)
    some (s''.modify p fun q => { q with xstate := status, state := .zombie })

/-- `sleep` up to `sched`. -/
def sleep (s : Kernel) (p : Slot) (chan : Chan) : Kernel :=
  s.modify p fun q => { q with chan := some chan, state := .sleeping }

/-- The child that the scan of `wait` stops at. -/
def zombieChild (s : Kernel) (p : Slot) : Option Slot :=
  (List.finRange nproc).find? fun pp =>
    (s.proc pp).parent = some p && (s.proc pp).state = .zombie

/-- One round of the loop of `wait`: the value returned, none when the process goes to sleep.
`copied` says whether the exit status can be stored at `addr`. -/
def wait (s : Kernel) (p : Slot) (addr : BitVec 64) (copied : Bool) : Kernel × Option ℤ :=
  match zombieChild s p with
  | some pp =>
    if addr ≠ 0 ∧ copied = false then (s, some (-1))
    else (freeproc s pp, some (s.proc pp).pid)
  | none =>
    if (∀ pp, (s.proc pp).parent ≠ some p) ∨ (s.proc p).killed = true then (s, some (-1))
    else (sleep s p (.proc p), none)

def kill (s : Kernel) (pid : ℤ) : Kernel × ℤ :=
  match (List.finRange nproc).find? fun p => (s.proc p).pid = pid with
  | some p =>
    (s.modify p fun q =>
      { q with
        killed := true
        state := if q.state = .sleeping then .runnable else q.state }, 0)
  | none => (s, -1)

def setkilled (s : Kernel) (p : Slot) : Kernel := s.modify p fun q => { q with killed := true }

/-! ### `syscall.c` -/

/-- `syscalls`, by the numbers of `syscall.h`. -/
def syscalls : List (Option Syscall) :=
  [none, some .fork, some .exit, some .wait, some .pipe, some .read, some .kill, some .exec,
    some .fstat, some .chdir, some .dup, some .getpid, some .sbrk, some .sleep, some .uptime,
    some .open, some .write, some .mknod, some .unlink, some .link, some .mkdir, some .close,
    some .hello, some .getsyscallcount]

/-- A register as an `int`. -/
def toInt32 (reg : BitVec 64) : ℤ := (reg.setWidth 32).toInt

/-- The handler of a number, if it is a valid one. -/
def handlerOf (num : ℤ) : Option Syscall :=
  if 0 < num ∧ num < syscalls.length then (syscalls[num.toNat]?).join else none

/-- What a run is judged by. -/
inductive Event
  /-- `allocproc` took slot `p` for a new process. -/
  | created (p : Slot)
  /-- `syscall` found a handler and calls it. -/
  | dispatched (p : Slot) (call : Syscall)
  /-- The handler returned. -/
  | returned (p : Slot) (call : Syscall) (ret : BitVec 64)
  /-- "unknown sys call" -/
  | unknown (p : Slot) (num : ℤ)
  /-- The process became a zombie. -/
  | exited (p : Slot)
  deriving DecidableEq, Repr

/-- `syscall`, up to the call of the handler. -/
def syscall (s : Kernel) (p : Slot) : Kernel × List Event :=
  let num := toInt32 (s.proc p).trapframe.a7
  match handlerOf num with
  | some call =>
    (s.modify p fun q =>
      { q with syscallCount := q.syscallCount + 1, context := .handler call },
      [.dispatched p call])
  | none =>
    (s.modify p fun q => { q with trapframe := { q.trapframe with a0 := -1 } }, [.unknown p num])

/-- `p->trapframe->a0 = syscalls[num]()`, when the handler returns. -/
def sysReturn (s : Kernel) (p : Slot) (call : Syscall) (ret : BitVec 64) : Kernel × List Event :=
  (s.modify p fun q => { q with trapframe := { q.trapframe with a0 := ret }, context := .user },
    [.returned p call ret])

/-! ### Runs -/

/-- The choices of the processors, the users and the devices. -/
inductive Act
  /-- `scheduler` switches to process `p`. -/
  | schedule (p : Slot)
  /-- A timer interrupt: `yield`. -/
  | yield (p : Slot)
  /-- A device or a handler wakes the processes that sleep on an address. -/
  | wakeup (a : ℕ)
  /-- Process `p` executes `ecall` with these registers. -/
  | ecall (p : Slot) (regs : Trapframe)
  /-- Process `p` traps otherwise; `unexpected` when no device interrupts. -/
  | trap (p : Slot) (unexpected : Bool)
  /-- A handler sleeps. -/
  | sleep (p : Slot) (a : ℕ)
  /-- A handler without a critical section of its own here ends; `ret` is what it returns where
  the process table does not say. -/
  | finish (p : Slot) (ret : BitVec 64)
  /-- `fork`: `allocproc` returns, its scan having stopped at `np`. -/
  | fork (p : Slot) (np : Option Slot)
  /-- `fork`: there is no memory for the child. -/
  | forkFails (p : Slot)
  /-- `fork`: `np->parent = p`. -/
  | forkAdopts (p : Slot)
  /-- `fork`: the child becomes runnable. -/
  | forkReturns (p : Slot)
  | exit (p : Slot)
  /-- A round of `wait`. -/
  | wait (p : Slot) (copied : Bool)
  deriving DecidableEq, Repr

/-- The value of a handler and what it does to the process table; none for the handlers that have
steps of their own. -/
def handle (s : Kernel) (p : Slot) (ret : BitVec 64) : Syscall → Option (Kernel × BitVec 64)
  | .fork | .exit | .wait => none
  | .kill =>
    let (s', r) := kill s (toInt32 (s.proc p).trapframe.a0)
    some (s', BitVec.ofInt 64 r)
  | .getpid => some (s, BitVec.ofInt 64 (s.proc p).pid)
  | .hello => some (s, 46201)
  | .getsyscallcount => some (s, (s.proc p).syscallCount)
  | _ => some (s, ret)

/-- `exit`, as a step. -/
def exits (s : Kernel) (p : Slot) (status : ℤ) : Option (Kernel × List Event) :=
  (exit s p status).map fun s' => (s', [.exited p])

/-- One step of the running process `p`, by where it is. -/
def stepOf (s : Kernel) (p : Slot) : Context → Act → Option (Kernel × List Event)
  | .user, .ecall _ regs =>
    if (s.proc p).killed = true then exits s p (-1)
    else some (syscall (s.modify p fun q => { q with trapframe := regs }) p)
  | .user, .trap _ unexpected =>
    let s' := if unexpected then setkilled s p else s
    if (s'.proc p).killed = true then exits s' p (-1) else some (s', [])
  | .handler .fork, .fork _ none => some (sysReturn s p .fork (-1))
  | .handler .fork, .fork _ (some np) =>
    (allocproc s np).map fun s' =>
      (s'.modify p fun q => { q with context := .forkCopies np }, [.created np])
  | .forkCopies np, .forkFails _ => some (sysReturn (freeproc s np) p .fork (-1))
  | .forkCopies np, .forkAdopts _ =>
    some ((s.modify np fun q =>
      { q with trapframe := { (s.proc p).trapframe with a0 := 0 }, parent := some p }).modify p
        fun q => { q with context := .forkAdopted np }, [])
  | .forkAdopted np, .forkReturns _ =>
    some (sysReturn (s.modify np fun q => { q with state := .runnable }) p .fork
      (BitVec.ofInt 64 (s.proc np).pid))
  | .handler .exit, .exit _ => exits s p (toInt32 (s.proc p).trapframe.a0)
  | .handler .wait, .wait _ copied =>
    match wait s p (s.proc p).trapframe.a0 copied with
    | (s', none) => some (s', [])
    | (s', some r) => some (sysReturn s' p .wait (BitVec.ofInt 64 r))
  | .handler call, .finish _ ret =>
    (handle s p ret call).map fun q => sysReturn q.1 p call q.2
  | .handler call, .sleep _ a => if call = .wait then none else some (sleep s p (.addr a), [])
  | _, _ => none

/-- The process that takes a step, in its own course. -/
def Act.actor : Act → Option Slot
  | .schedule _ | .yield _ | .wakeup _ => none
  | .ecall p _ | .trap p _ | .sleep p _ | .finish p _ | .fork p _ | .forkFails p | .forkAdopts p
  | .forkReturns p | .exit p | .wait p _ => some p

/-- One step of the kernel. -/
def step (s : Kernel) : Act → Option (Kernel × List Event)
  | .schedule p =>
    if (s.proc p).state = .runnable then
      -- a process that slept clears `p->chan` first
      some (s.modify p fun q => { q with state := .running, chan := none }, [])
    else none
  | .yield p =>
    if (s.proc p).state = .running then
      some (s.modify p fun q => { q with state := .runnable }, [])
    else none
  | .wakeup a => some (wakeup s none (some (.addr a)), [])
  | a =>
    a.actor.bind fun p =>
      if (s.proc p).state = .running then stepOf s p (s.proc p).context a else none

def procinit : Kernel where
  proc := fun _ => ⟨.unused, none, false, 0, 0, none, ⟨0, 0⟩, 0, .user⟩
  nextpid := 1
  initproc := none

/-- `userinit`; the scan of `allocproc` stops at the first slot. -/
def userinit (s : Kernel) : Kernel :=
  Kernel.modify { found s 0 with initproc := some 0 } 0 fun q => { q with state := .runnable }

/-- The kernel, from the moment the first process can run. -/
def machine : Machine Kernel Act Event where
  init := userinit procinit
  step := step

/-! ### The counters -/

/-- The counter of every slot. -/
def Kernel.counts (s : Kernel) : Slot → BitVec 64 := fun p => (s.proc p).syscallCount

section Counts

variable (s : Kernel) (p : Slot)

@[simp] theorem counts_modify {f : Proc → Proc} (hf : ∀ q, (f q).syscallCount = q.syscallCount) :
    (s.modify p f).counts = s.counts := by
  funext q
  by_cases hq : q = p
  · subst hq
    simp [Kernel.counts, Kernel.modify, hf]
  · simp [Kernel.counts, Kernel.modify, hq]

@[simp] theorem counts_found : (found s p).counts = s.counts :=
  counts_modify { s with nextpid := s.nextpid + 1 } p (by intro q; rfl)

@[simp] theorem counts_freeproc : (freeproc s p).counts = s.counts :=
  counts_modify s p (by intro q; rfl)

@[simp] theorem counts_wakeup (me : Option Slot) (chan : Option Chan) :
    (wakeup s me chan).counts = s.counts := by
  funext q
  simp only [Kernel.counts, wakeup]
  split <;> rfl

@[simp] theorem counts_reparent : (reparent s p).counts = s.counts := by
  have hmap : ({ s with
      proc := fun pp =>
        if (s.proc pp).parent = some p then { s.proc pp with parent := s.initproc }
        else s.proc pp } : Kernel).counts = s.counts := by
    funext q
    simp only [Kernel.counts]
    split <;> rfl
  rw [reparent]
  split
  · rw [counts_wakeup, hmap]
  · exact hmap

@[simp] theorem counts_sleep (chan : Chan) : (sleep s p chan).counts = s.counts :=
  counts_modify s p (by intro q; rfl)

@[simp] theorem counts_setkilled : (setkilled s p).counts = s.counts :=
  counts_modify s p (by intro q; rfl)

@[simp] theorem counts_kill (pid : ℤ) : (kill s pid).1.counts = s.counts := by
  rw [kill]
  split
  · dsimp only
    exact counts_modify s _ (by intro q; rfl)
  · rfl

@[simp] theorem counts_wait (addr : BitVec 64) (copied : Bool) :
    (wait s p addr copied).1.counts = s.counts := by
  rw [wait]
  split
  · split
    · rfl
    · exact counts_freeproc s _
  · split
    · rfl
    · exact counts_sleep s p _

theorem counts_exit {s s' : Kernel} {p : Slot} {status : ℤ} (h : exit s p status = some s') :
    s'.counts = s.counts := by
  rw [exit] at h
  split at h
  · cases h
  · cases h
    rw [counts_modify _ _ (by intro q; rfl), counts_wakeup, counts_reparent]

theorem counts_allocproc {s s' : Kernel} {np : Slot} (h : allocproc s np = some s') :
    s'.counts = s.counts := by
  rw [allocproc] at h
  split at h
  · cases h
    exact counts_found s np
  · cases h

theorem counts_handle {s s' : Kernel} {p : Slot} {ret r : BitVec 64} {call : Syscall}
    (h : handle s p ret call = some (s', r)) : s'.counts = s.counts := by
  cases call <;> simp only [handle, Option.some.injEq, Prod.mk.injEq, reduceCtorEq] at h <;>
    obtain ⟨rfl, -⟩ := h <;> simp only [counts_kill]

/-- A user's registers are no counter. -/
theorem counts_sysReturn (call : Syscall) (ret : BitVec 64) :
    (sysReturn s p call ret).1.counts = s.counts := by
  dsimp only [sysReturn]
  exact counts_modify s p (by intro q; rfl)

end Counts

end Xv6

end SystemProgramming
