import SystemProgramming.Library.FreeRunning
import SystemProgramming.Library.Machine
import Mathlib.Data.Fintype.Basic

/-!
# Pipes of the kernel

`pipewrite` and `piperead` hold the lock of the pipe all the time but while they sleep, so one
process at a time is at work in them, one round of a loop after the other. A process can be killed
at any moment, also between the test for it and `sleep`.

The last reference to an end of a pipe is given up by a process that is not at work with it, so
nobody is in `pipewrite` when the writing end is closed; that is what `fileclose` sees to.

## What is assumed

`copyin` and `copyout` may fail for any byte, and then the loop is left as in the code. The bytes
that are written are arbitrary. A wakeup wakes all sleepers on the channel, and nothing else does
but `kill`. The counters are numbers of 32 bits, as in the kernel.

## Main definitions

* `State`, `Activity` — `struct pipe`, and where a process is in the code
* `step`, `machine` — the calls, the rounds of the loops, `kill` and `pipeclose`
* `State.contents` — the bytes in the pipe

* `Move` — the steps, branch by branch
-/

namespace SystemProgramming

namespace Xv6

namespace Pipe

open FreeRunning

def pipeSize : ℕ := 512

/-- The values of `uint`. -/
def uint : ℕ := 2 ^ 32

/-- Where a process is; `i` is the number of bytes that a call of `pipewrite` has stored. -/
inductive Activity where
  | idle
  /-- At the head of the loop of `pipewrite`. -/
  | writing (bytes : List UInt8) (i : ℕ)
  /-- Behind the test of `readopen` and `killed`. -/
  | storing (bytes : List UInt8) (i : ℕ)
  | writeAsleep (bytes : List UInt8) (i : ℕ)
  | writeWoken (bytes : List UInt8) (i : ℕ)
  /-- At the head of the first loop of `piperead`. -/
  | reading (n : ℕ)
  /-- In its body. -/
  | waiting (n : ℕ)
  /-- Behind the test of `killed`. -/
  | drowsy (n : ℕ)
  | readAsleep (n : ℕ)
  | readWoken (n : ℕ)
  /-- In the second loop, with the bytes that have been copied. -/
  | copying (n : ℕ) (got : List UInt8)
  deriving DecidableEq, Repr

/-- The process holds the lock. -/
def Activity.Locks : Activity → Bool
  | .writing _ _ | .storing _ _ | .reading _ | .waiting _ | .drowsy _ | .copying _ _ => true
  | _ => false

/-- The process is in `pipewrite`. -/
def Activity.Writes : Activity → Bool
  | .writing _ _ | .storing _ _ | .writeAsleep _ _ | .writeWoken _ _ => true
  | _ => false

/-- The process is in `piperead`. -/
def Activity.Reads : Activity → Bool
  | .reading _ | .waiting _ | .drowsy _ | .readAsleep _ | .readWoken _ | .copying _ _ => true
  | _ => false

/-- A process that sleeps is made runnable. -/
def Activity.awake : Activity → Activity
  | .writeAsleep bytes i => .writeWoken bytes i
  | .readAsleep n => .readWoken n
  | a => a

/-- `struct pipe`, and what the processes do with it. -/
structure State (ι : Type*) where
  data : ℕ → UInt8
  nread : ℕ
  nwrite : ℕ
  readopen : Bool
  writeopen : Bool
  lock : Option ι
  act : ι → Activity
  killed : ι → Bool

/-- What can happen next; `copies` is whether `copyin` or `copyout` succeeds. -/
inductive Act (ι : Type*) where
  | write (t : ι) (bytes : List UInt8)
  | read (t : ι) (n : ℕ)
  | proceed (t : ι) (copies : Bool)
  | relock (t : ι)
  | closeWrite
  | closeRead
  | kill (t : ι)

/-- What is recorded: a byte that is stored or taken, and the end of a call with the number of bytes
it has stored, or with the bytes that it has copied; `ok` is whether the call returns a number, and
not -1. -/
inductive Event (ι : Type*) where
  | stored (t : ι) (b : UInt8)
  | taken (t : ι) (b : UInt8) (copied : Bool)
  | wrote (t : ι) (bytes : List UInt8) (i : ℕ) (ok : Bool)
  | got (t : ι) (n : ℕ) (bytes : List UInt8) (ok : Bool)
  deriving DecidableEq

section Step

variable {ι : Type*} [DecidableEq ι]

/-- `pi->nread == pi->nwrite` -/
def State.Empty (s : State ι) : Prop := s.nread = s.nwrite

/-- `pi->nwrite == pi->nread + PIPESIZE` -/
def State.Full (s : State ι) : Prop := s.nwrite = (s.nread + pipeSize) % uint

instance (s : State ι) : Decidable s.Empty := inferInstanceAs (Decidable (_ = _))

instance (s : State ι) : Decidable s.Full := inferInstanceAs (Decidable (_ = _))

/-- A process goes on with something else. -/
def State.set (s : State ι) (t : ι) (a : Activity) : State ι :=
  { s with act := Function.update s.act t a }

/-- `wakeup(&pi->nread)`: the readers that sleep are runnable. -/
def wakeReaders (s : State ι) : State ι :=
  { s with act := fun t => match s.act t with
    | .readAsleep n => .readWoken n
    | a => a }

/-- `wakeup(&pi->nwrite)` -/
def wakeWriters (s : State ι) : State ι :=
  { s with act := fun t => match s.act t with
    | .writeAsleep bytes i => .writeWoken bytes i
    | a => a }

/-- The call ends, and the lock is released. -/
def State.leave (s : State ι) (t : ι) : State ι := { s.set t .idle with lock := none }

/-- `pi->data[pi->nwrite++ % PIPESIZE] = ch` -/
def State.put (s : State ι) (b : UInt8) : State ι :=
  { s with
    data := Function.update s.data (s.nwrite % pipeSize) b
    nwrite := (s.nwrite + 1) % uint }

/-- `pi->data[pi->nread++ % PIPESIZE]` -/
def State.next (s : State ι) : UInt8 := s.data (s.nread % pipeSize)

/-- `pi->nread++` -/
def State.skip (s : State ι) : State ι := { s with nread := (s.nread + 1) % uint }

/-- A step of the process that holds the lock. -/
def proceed (s : State ι) (t : ι) (copies : Bool) : Option (State ι × List (Event ι)) :=
  match s.act t with
  | .writing bytes i =>
    if i < bytes.length then
      if s.readopen = false ∨ s.killed t then some (s.leave t, [.wrote t bytes i false])
      else some (s.set t (.storing bytes i), [])
    else some ((wakeReaders s).leave t, [.wrote t bytes i true])
  | .storing bytes i =>
    if s.Full then
      some ({ (wakeReaders s).set t (.writeAsleep bytes i) with lock := none }, [])
    else if copies then
      some ((s.put (bytes.getD i 0)).set t (.writing bytes (i + 1)), [.stored t (bytes.getD i 0)])
    else some ((wakeReaders s).leave t, [.wrote t bytes i true])
  | .reading n =>
    if s.Empty ∧ s.writeopen then some (s.set t (.waiting n), [])
    else some (s.set t (.copying n []), [])
  | .waiting n =>
    if s.killed t then some (s.leave t, [.got t n [] false])
    else some (s.set t (.drowsy n), [])
  | .drowsy n => some ({ s.set t (.readAsleep n) with lock := none }, [])
  | .copying n got =>
    if got.length < n ∧ ¬ s.Empty then
      if copies then
        some (s.skip.set t (.copying n (got ++ [s.next])), [.taken t s.next true])
      else some ((wakeWriters s.skip).leave t, [.taken t s.next false, .got t n got true])
    else some ((wakeWriters s).leave t, [.got t n got true])
  | _ => none

variable [Fintype ι]

/-- One step of the system. -/
def step (s : State ι) : Act ι → Option (State ι × List (Event ι))
  | .write t bytes =>
    if s.act t = .idle ∧ s.lock = none ∧ s.writeopen then
      some ({ s.set t (.writing bytes 0) with lock := some t }, [])
    else none
  | .read t n =>
    if s.act t = .idle ∧ s.lock = none ∧ s.readopen then
      some ({ s.set t (.reading n) with lock := some t }, [])
    else none
  | .proceed t copies => if s.lock = some t then proceed s t copies else none
  | .relock t =>
    if s.lock = none then
      match s.act t with
      | .writeWoken bytes i => some ({ s.set t (.writing bytes i) with lock := some t }, [])
      | .readWoken n => some ({ s.set t (.reading n) with lock := some t }, [])
      | _ => none
    else none
  | .closeWrite =>
    if s.lock = none ∧ s.writeopen ∧ ∀ t, (s.act t).Writes = false then
      some (wakeReaders { s with writeopen := false }, [])
    else none
  | .closeRead =>
    if s.lock = none ∧ s.readopen ∧ ∀ t, (s.act t).Reads = false then
      some (wakeWriters { s with readopen := false }, [])
    else none
  | .kill t =>
    some ({ s.set t (s.act t).awake with killed := Function.update s.killed t true }, [])

/-- A pipe as `pipealloc` makes it, whatever the page it is in holds. -/
def machine (ι : Type*) [DecidableEq ι] [Fintype ι] (data : ℕ → UInt8) :
    Machine (State ι) (Act ι) (Event ι) where
  init := ⟨data, 0, 0, true, true, none, fun _ => .idle, fun _ => false⟩
  step := step

/-- The bytes in the pipe, the oldest first. -/
def State.contents (s : State ι) : List UInt8 :=
  window s.data pipeSize s.nread (s.nread + (s.nwrite + (uint - s.nread)) % uint)

/-- The steps of the system, branch by branch. -/
inductive Move (s : State ι) : Act ι → State ι → List (Event ι) → Prop
  | write {t bytes} (hidle : s.act t = .idle) (hlock : s.lock = none) (hopen : s.writeopen = true) :
      Move s (.write t bytes) { s.set t (.writing bytes 0) with lock := some t } []
  | read {t n} (hidle : s.act t = .idle) (hlock : s.lock = none) (hopen : s.readopen = true) :
      Move s (.read t n) { s.set t (.reading n) with lock := some t } []
  | refuse {t copies bytes i} (hlock : s.lock = some t) (hact : s.act t = .writing bytes i)
      (hi : i < bytes.length) (hstop : s.readopen = false ∨ s.killed t = true) :
      Move s (.proceed t copies) (s.leave t) [.wrote t bytes i false]
  | goOn {t copies bytes i} (hlock : s.lock = some t) (hact : s.act t = .writing bytes i)
      (hi : i < bytes.length) (hopen : s.readopen = true) (hkilled : s.killed t = false) :
      Move s (.proceed t copies) (s.set t (.storing bytes i)) []
  | wrote {t copies bytes i} (hlock : s.lock = some t) (hact : s.act t = .writing bytes i)
      (hi : ¬ i < bytes.length) :
      Move s (.proceed t copies) ((wakeReaders s).leave t) [.wrote t bytes i true]
  | full {t copies bytes i} (hlock : s.lock = some t) (hact : s.act t = .storing bytes i)
      (hfull : s.Full) : Move s (.proceed t copies)
        { (wakeReaders s).set t (.writeAsleep bytes i) with lock := none } []
  | put {t bytes i} (hlock : s.lock = some t) (hact : s.act t = .storing bytes i)
      (hfull : ¬ s.Full) : Move s (.proceed t true)
        ((s.put (bytes.getD i 0)).set t (.writing bytes (i + 1))) [.stored t (bytes.getD i 0)]
  | noCopyin {t bytes i} (hlock : s.lock = some t) (hact : s.act t = .storing bytes i)
      (hfull : ¬ s.Full) :
      Move s (.proceed t false) ((wakeReaders s).leave t) [.wrote t bytes i true]
  | empty {t copies n} (hlock : s.lock = some t) (hact : s.act t = .reading n)
      (hempty : s.Empty) (hopen : s.writeopen = true) :
      Move s (.proceed t copies) (s.set t (.waiting n)) []
  | copy {t copies n} (hlock : s.lock = some t) (hact : s.act t = .reading n)
      (hcan : ¬ (s.Empty ∧ s.writeopen = true)) :
      Move s (.proceed t copies) (s.set t (.copying n [])) []
  | giveUp {t copies n} (hlock : s.lock = some t) (hact : s.act t = .waiting n)
      (hkilled : s.killed t = true) :
      Move s (.proceed t copies) (s.leave t) [.got t n [] false]
  | drowse {t copies n} (hlock : s.lock = some t) (hact : s.act t = .waiting n)
      (hkilled : s.killed t = false) :
      Move s (.proceed t copies) (s.set t (.drowsy n)) []
  | sleep {t copies n} (hlock : s.lock = some t) (hact : s.act t = .drowsy n) :
      Move s (.proceed t copies) { s.set t (.readAsleep n) with lock := none } []
  | take {t n got} (hlock : s.lock = some t) (hact : s.act t = .copying n got)
      (hmore : got.length < n) (hempty : ¬ s.Empty) :
      Move s (.proceed t true) (s.skip.set t (.copying n (got ++ [s.next]))) [.taken t s.next true]
  | noCopyout {t n got} (hlock : s.lock = some t) (hact : s.act t = .copying n got)
      (hmore : got.length < n) (hempty : ¬ s.Empty) :
      Move s (.proceed t false) ((wakeWriters s.skip).leave t)
        [.taken t s.next false, .got t n got true]
  | got {t copies n got} (hlock : s.lock = some t) (hact : s.act t = .copying n got)
      (hdone : ¬ (got.length < n ∧ ¬ s.Empty)) :
      Move s (.proceed t copies) ((wakeWriters s).leave t) [.got t n got true]
  | rewrite {t bytes i} (hlock : s.lock = none) (hact : s.act t = .writeWoken bytes i) :
      Move s (.relock t) { s.set t (.writing bytes i) with lock := some t } []
  | reread {t n} (hlock : s.lock = none) (hact : s.act t = .readWoken n) :
      Move s (.relock t) { s.set t (.reading n) with lock := some t } []
  | closeWrite (hlock : s.lock = none) (hopen : s.writeopen = true)
      (hnone : ∀ t, (s.act t).Writes = false) :
      Move s .closeWrite (wakeReaders { s with writeopen := false }) []
  | closeRead (hlock : s.lock = none) (hopen : s.readopen = true)
      (hnone : ∀ t, (s.act t).Reads = false) :
      Move s .closeRead (wakeWriters { s with readopen := false }) []
  | kill {t} : Move s (.kill t)
      { s.set t (s.act t).awake with killed := Function.update s.killed t true } []

omit [Fintype ι] in
theorem move_of_proceed {s s' : State ι} {t : ι} {copies : Bool} {es : List (Event ι)}
    (hlock : s.lock = some t) (h : proceed s t copies = some (s', es)) :
    Move s (.proceed t copies) s' es := by
  unfold proceed at h
  split at h
  · rename_i bytes i hact
    split at h
    · rename_i hi
      split at h
      · rename_i hstop
        obtain ⟨rfl, rfl⟩ := Prod.mk.inj (Option.some.inj h)
        exact .refuse hlock hact hi hstop
      · rename_i hgo
        obtain ⟨rfl, rfl⟩ := Prod.mk.inj (Option.some.inj h)
        rw [not_or] at hgo
        exact .goOn hlock hact hi (by simpa using hgo.1) (by simpa using hgo.2)
    · rename_i hi
      obtain ⟨rfl, rfl⟩ := Prod.mk.inj (Option.some.inj h)
      exact .wrote hlock hact hi
  · rename_i bytes i hact
    split at h
    · rename_i hfull
      obtain ⟨rfl, rfl⟩ := Prod.mk.inj (Option.some.inj h)
      exact .full hlock hact hfull
    · rename_i hfull
      cases copies with
      | true =>
        obtain ⟨rfl, rfl⟩ := Prod.mk.inj (Option.some.inj h)
        exact .put hlock hact hfull
      | false =>
        obtain ⟨rfl, rfl⟩ := Prod.mk.inj (Option.some.inj h)
        exact .noCopyin hlock hact hfull
  · rename_i n hact
    split at h
    · rename_i hempty
      obtain ⟨rfl, rfl⟩ := Prod.mk.inj (Option.some.inj h)
      exact .empty hlock hact hempty.1 hempty.2
    · rename_i hcan
      obtain ⟨rfl, rfl⟩ := Prod.mk.inj (Option.some.inj h)
      exact .copy hlock hact hcan
  · rename_i n hact
    split at h
    · rename_i hkilled
      obtain ⟨rfl, rfl⟩ := Prod.mk.inj (Option.some.inj h)
      exact .giveUp hlock hact hkilled
    · rename_i hkilled
      obtain ⟨rfl, rfl⟩ := Prod.mk.inj (Option.some.inj h)
      exact .drowse hlock hact (by simpa using hkilled)
  · rename_i n hact
    obtain ⟨rfl, rfl⟩ := Prod.mk.inj (Option.some.inj h)
    exact .sleep hlock hact
  · rename_i n got hact
    split at h
    · rename_i hmore
      cases copies with
      | true =>
        obtain ⟨rfl, rfl⟩ := Prod.mk.inj (Option.some.inj h)
        exact .take hlock hact hmore.1 hmore.2
      | false =>
        obtain ⟨rfl, rfl⟩ := Prod.mk.inj (Option.some.inj h)
        exact .noCopyout hlock hact hmore.1 hmore.2
    · rename_i hdone
      obtain ⟨rfl, rfl⟩ := Prod.mk.inj (Option.some.inj h)
      exact .got hlock hact hdone
  · cases h

theorem move_of_step {s s' : State ι} {a : Act ι} {es : List (Event ι)}
    (h : step s a = some (s', es)) : Move s a s' es := by
  cases a with
  | write t bytes =>
    rw [step] at h
    split at h
    · rename_i hcan
      obtain ⟨rfl, rfl⟩ := Prod.mk.inj (Option.some.inj h)
      exact .write hcan.1 hcan.2.1 hcan.2.2
    · cases h
  | read t n =>
    rw [step] at h
    split at h
    · rename_i hcan
      obtain ⟨rfl, rfl⟩ := Prod.mk.inj (Option.some.inj h)
      exact .read hcan.1 hcan.2.1 hcan.2.2
    · cases h
  | proceed t copies =>
    rw [step] at h
    split at h
    · rename_i hlock
      exact move_of_proceed hlock h
    · cases h
  | relock t =>
    rw [step] at h
    split at h
    · rename_i hlock
      split at h
      · rename_i bytes i hact
        obtain ⟨rfl, rfl⟩ := Prod.mk.inj (Option.some.inj h)
        exact .rewrite hlock hact
      · rename_i n hact
        obtain ⟨rfl, rfl⟩ := Prod.mk.inj (Option.some.inj h)
        exact .reread hlock hact
      · cases h
    · cases h
  | closeWrite =>
    rw [step] at h
    split at h
    · rename_i hcan
      obtain ⟨rfl, rfl⟩ := Prod.mk.inj (Option.some.inj h)
      exact .closeWrite hcan.1 hcan.2.1 hcan.2.2
    · cases h
  | closeRead =>
    rw [step] at h
    split at h
    · rename_i hcan
      obtain ⟨rfl, rfl⟩ := Prod.mk.inj (Option.some.inj h)
      exact .closeRead hcan.1 hcan.2.1 hcan.2.2
    · cases h
  | kill t =>
    obtain ⟨rfl, rfl⟩ := Prod.mk.inj (Option.some.inj h)
    exact .kill

end Step

end Pipe

end Xv6

end SystemProgramming
