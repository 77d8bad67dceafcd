import SystemProgramming.Library.FreeRunning
import SystemProgramming.Library.Machine
import SystemProgramming.Library.Terminal
import Mathlib.Data.Fintype.Basic

/-!
# The console of the kernel

`consoleintr` puts the keys into a circular buffer with three indices: up to `r` the bytes have been
read, up to `w` they can be read, and up to `e` they can still be edited. It holds the lock from its
first line to its last. `consoleread` holds the lock all the time but while it sleeps, so that
interrupts come between the rounds of its inner loop only.

## What is assumed

Keys come as single bytes, at any time the lock is free, and are lost when the buffer is full, as in
the code. What processes print, and the list of processes that Ctrl-P prints, are not followed: the
screen of `ConsoleScreen` is what the echo leaves on an ideal terminal, on which a backspace rubs
out the byte before it and a line is as long as it needs to be.

## Main definitions

* `Cons`, `consoleintr` — the buffer and the interrupt handler
* `State`, `step`, `machine` — with the processes that read
* `Move` — the steps, branch by branch
-/

namespace SystemProgramming

namespace Xv6

namespace Console

open FreeRunning

/-- `INPUT_BUF_SIZE` -/
def bufSize : ℕ := 128

/-- The values of `uint`. -/
def uint : ℕ := 2 ^ 32

def newline : UInt8 := 10

def carriageReturn : UInt8 := 13

/-- `'\x7f'` -/
def delete : UInt8 := 127

/-- `C('D')` -/
def ctrlD : UInt8 := 4

/-- `C('H')` -/
def ctrlH : UInt8 := 8

/-- `C('P')` -/
def ctrlP : UInt8 := 16

/-- `C('U')` -/
def ctrlU : UInt8 := 21

/-- `BACKSPACE`, which is no byte. -/
def backspace : ℕ := 0x100

/-- What `consputc` sends to the uart. -/
def consputc (c : ℕ) : List UInt8 := if c = backspace then [8, 32, 8] else [UInt8.ofNat c]

/-- `cons`, but for the lock. -/
structure Cons where
  buf : ℕ → UInt8
  r : ℕ
  w : ℕ
  e : ℕ

namespace Cons

/-- `x - y` -/
def minus (x y : ℕ) : ℕ := (x + (uint - y)) % uint

/-- `cons.buf[(cons.e-1) % INPUT_BUF_SIZE]` -/
def last (s : Cons) : UInt8 := s.buf (minus s.e 1 % bufSize)

/-- `cons.buf[cons.e++ % INPUT_BUF_SIZE] = c` -/
def push (s : Cons) (c : UInt8) : Cons :=
  { s with buf := Function.update s.buf (s.e % bufSize) c, e := (s.e + 1) % uint }

/-- `cons.buf[cons.r++ % INPUT_BUF_SIZE]`, the byte -/
def next (s : Cons) : UInt8 := s.buf (s.r % bufSize)

/-- `cons.r++` -/
def skip (s : Cons) : Cons := { s with r := (s.r + 1) % uint }

/-- `cons.r--` -/
def unskip (s : Cons) : Cons := { s with r := minus s.r 1 }

/-- The loop of control-u, at most `k` rounds of it, with the echo. -/
def killLine : ℕ → Cons → Cons × List UInt8
  | 0, s => (s, [])
  | k + 1, s =>
    if s.e ≠ s.w ∧ s.last ≠ newline then
      let q := killLine k { s with e := minus s.e 1 }
      (q.1, consputc backspace ++ q.2)
    else (s, [])

/-- The bytes that can be read. -/
def ready (s : Cons) : List UInt8 := window s.buf bufSize s.r (s.r + minus s.w s.r)

/-- The bytes that can be edited. -/
def editing (s : Cons) : List UInt8 := window s.buf bufSize s.w (s.w + minus s.e s.w)

end Cons

/-- `consoleintr`: the buffer, the echo, and whether it calls `wakeup`. The loop of control-u ends
when it comes to `w`, after `e - w` rounds. The list of processes that control-p prints is no
echo. -/
def consoleintr (s : Cons) (c : UInt8) : Cons × List UInt8 × Bool :=
  if c = ctrlP then (s, [], false)
  else if c = ctrlU then
    let q := Cons.killLine (Cons.minus s.e s.w) s
    (q.1, q.2, false)
  else if c = ctrlH ∨ c = delete then
    if s.e ≠ s.w then ({ s with e := Cons.minus s.e 1 }, consputc backspace, false)
    else (s, [], false)
  else if c ≠ 0 ∧ Cons.minus s.e s.r < bufSize then
    let c := if c = carriageReturn then newline else c
    let s := s.push c
    if c = newline ∨ c = ctrlD ∨ Cons.minus s.e s.r = bufSize then
      ({ s with w := s.e }, consputc c.toNat, true)
    else (s, consputc c.toNat, false)
  else (s, [], false)

/-- Where a process is; `n` is the number of bytes that it asks for, and `got` what has been
copied. -/
inductive Activity where
  | idle
  /-- At the head of a loop of `consoleread`. -/
  | reading (n : ℕ) (got : List UInt8)
  /-- In the body of the inner loop. -/
  | waiting (n : ℕ) (got : List UInt8)
  /-- Behind the test of `killed`. -/
  | drowsy (n : ℕ) (got : List UInt8)
  | asleep (n : ℕ) (got : List UInt8)
  | woken (n : ℕ) (got : List UInt8)
  deriving DecidableEq, Repr

/-- A process that sleeps is made runnable. -/
def Activity.awake : Activity → Activity
  | .asleep n got => .woken n got
  | a => a

/-- The console, and what the processes do with it. -/
structure State (ι : Type*) where
  cons : Cons
  lock : Option ι
  act : ι → Activity
  killed : ι → Bool

/-- What can happen next; `copies` is whether `either_copyout` succeeds. -/
inductive Act (ι : Type*) where
  | intr (c : UInt8)
  | read (t : ι) (n : ℕ)
  | proceed (t : ι) (copies : Bool)
  | relock (t : ι)
  | kill (t : ι)

/-- What is recorded: the echo, a byte that a process takes and whether it gets a copy of it, and
the end of a call with the bytes that have been copied; `ok` is whether the call returns their
number, and not -1. -/
inductive Event (ι : Type*) where
  | echo (bs : List UInt8)
  | taken (t : ι) (b : UInt8) (copied : Bool)
  | got (t : ι) (n : ℕ) (bytes : List UInt8) (ok : Bool)
  deriving DecidableEq

section Step

variable {ι : Type*} [DecidableEq ι]

/-- A process goes on with something else. -/
def State.set (s : State ι) (t : ι) (a : Activity) : State ι :=
  { s with act := Function.update s.act t a }

/-- The call ends, and the lock is released. -/
def State.leave (s : State ι) (t : ι) : State ι := { s.set t .idle with lock := none }

/-- The rest of a round of the outer loop, when there is something to read. -/
def take (s : State ι) (t : ι) (n : ℕ) (got : List UInt8) (copies : Bool) :
    State ι × List (Event ι) :=
  let c := s.cons.next
  let s' := { s with cons := s.cons.skip }
  if c = ctrlD then
    if 0 < got.length then ({ s' with cons := s'.cons.unskip }.leave t, [.got t n got true])
    else (s'.leave t, [.taken t c false, .got t n got true])
  else if copies then
    if c = newline then (s'.leave t, [.taken t c true, .got t n (got ++ [c]) true])
    else (s'.set t (.reading n (got ++ [c])), [.taken t c true])
  else (s'.leave t, [.taken t c false, .got t n got true])

/-- A step of the process that holds the lock. -/
def proceed (s : State ι) (t : ι) (copies : Bool) : Option (State ι × List (Event ι)) :=
  match s.act t with
  | .reading n got =>
    if got.length < n then
      if s.cons.r = s.cons.w then some (s.set t (.waiting n got), [])
      else some (take s t n got copies)
    else some (s.leave t, [.got t n got true])
  | .waiting n got =>
    if s.killed t then some (s.leave t, [.got t n got false])
    else some (s.set t (.drowsy n got), [])
  | .drowsy n got => some ({ s.set t (.asleep n got) with lock := none }, [])
  | _ => none

/-- One step of the system. -/
def step (s : State ι) : Act ι → Option (State ι × List (Event ι))
  | .intr c =>
    if s.lock = none then
      let q := consoleintr s.cons c
      some ({ s with
          cons := q.1
          act := fun t => if q.2.2 then (s.act t).awake else s.act t }, [.echo q.2.1])
    else none
  | .read t n =>
    if s.act t = .idle ∧ s.lock = none then
      some ({ s.set t (.reading n []) with lock := some t }, [])
    else none
  | .proceed t copies => if s.lock = some t then proceed s t copies else none
  | .relock t =>
    if s.lock = none then
      match s.act t with
      | .woken n got => some ({ s.set t (.reading n got) with lock := some t }, [])
      | _ => none
    else none
  | .kill t =>
    some ({ s.set t (s.act t).awake with killed := Function.update s.killed t true }, [])

/-- The console at the start: static memory. -/
def machine (ι : Type*) [DecidableEq ι] : Machine (State ι) (Act ι) (Event ι) where
  init := ⟨⟨fun _ => 0, 0, 0, 0⟩, none, fun _ => .idle, fun _ => false⟩
  step := step

/-- The steps of the system, branch by branch. -/
inductive Move (s : State ι) : Act ι → State ι → List (Event ι) → Prop
  | intr {c} (hlock : s.lock = none) : Move s (.intr c)
      { s with
        cons := (consoleintr s.cons c).1
        act := fun t => if (consoleintr s.cons c).2.2 then (s.act t).awake else s.act t }
      [.echo (consoleintr s.cons c).2.1]
  | read {t n} (hidle : s.act t = .idle) (hlock : s.lock = none) :
      Move s (.read t n) { s.set t (.reading n []) with lock := some t } []
  | done {t copies n got} (hlock : s.lock = some t) (hact : s.act t = .reading n got)
      (hn : ¬ got.length < n) : Move s (.proceed t copies) (s.leave t) [.got t n got true]
  | nothing {t copies n got} (hlock : s.lock = some t) (hact : s.act t = .reading n got)
      (hn : got.length < n) (hnone : s.cons.r = s.cons.w) :
      Move s (.proceed t copies) (s.set t (.waiting n got)) []
  | putBack {t copies n got} (hlock : s.lock = some t) (hact : s.act t = .reading n got)
      (hn : got.length < n) (hsome : s.cons.r ≠ s.cons.w) (hc : s.cons.next = ctrlD)
      (hgot : got ≠ []) :
      Move s (.proceed t copies) ({ s with cons := s.cons.skip.unskip }.leave t)
        [.got t n got true]
  | eof {t copies n} (hlock : s.lock = some t) (hact : s.act t = .reading n [])
      (hn : 0 < n) (hsome : s.cons.r ≠ s.cons.w) (hc : s.cons.next = ctrlD) :
      Move s (.proceed t copies) ({ s with cons := s.cons.skip }.leave t)
        [.taken t ctrlD false, .got t n [] true]
  | line {t n got} (hlock : s.lock = some t) (hact : s.act t = .reading n got)
      (hn : got.length < n) (hsome : s.cons.r ≠ s.cons.w) (hc : s.cons.next = newline) :
      Move s (.proceed t true) ({ s with cons := s.cons.skip }.leave t)
        [.taken t newline true, .got t n (got ++ [newline]) true]
  | copy {t n got} (hlock : s.lock = some t) (hact : s.act t = .reading n got)
      (hn : got.length < n) (hsome : s.cons.r ≠ s.cons.w) (hc : s.cons.next ≠ ctrlD)
      (hc' : s.cons.next ≠ newline) :
      Move s (.proceed t true)
        ({ s with cons := s.cons.skip }.set t (.reading n (got ++ [s.cons.next])))
        [.taken t s.cons.next true]
  | noCopy {t n got} (hlock : s.lock = some t) (hact : s.act t = .reading n got)
      (hn : got.length < n) (hsome : s.cons.r ≠ s.cons.w) (hc : s.cons.next ≠ ctrlD) :
      Move s (.proceed t false) ({ s with cons := s.cons.skip }.leave t)
        [.taken t s.cons.next false, .got t n got true]
  | giveUp {t copies n got} (hlock : s.lock = some t) (hact : s.act t = .waiting n got)
      (hkilled : s.killed t = true) :
      Move s (.proceed t copies) (s.leave t) [.got t n got false]
  | drowse {t copies n got} (hlock : s.lock = some t) (hact : s.act t = .waiting n got)
      (hkilled : s.killed t = false) :
      Move s (.proceed t copies) (s.set t (.drowsy n got)) []
  | sleep {t copies n got} (hlock : s.lock = some t) (hact : s.act t = .drowsy n got) :
      Move s (.proceed t copies) { s.set t (.asleep n got) with lock := none } []
  | reread {t n got} (hlock : s.lock = none) (hact : s.act t = .woken n got) :
      Move s (.relock t) { s.set t (.reading n got) with lock := some t } []
  | kill {t} : Move s (.kill t)
      { s.set t (s.act t).awake with killed := Function.update s.killed t true } []

theorem move_of_take {s s' : State ι} {t : ι} {n : ℕ} {got : List UInt8} {copies : Bool}
    {es : List (Event ι)} (hlock : s.lock = some t) (hact : s.act t = .reading n got)
    (hn : got.length < n) (hsome : s.cons.r ≠ s.cons.w) (h : take s t n got copies = (s', es)) :
    Move s (.proceed t copies) s' es := by
  rw [take] at h
  split at h
  · rename_i hc
    split at h
    · rename_i hgot
      obtain ⟨rfl, rfl⟩ := Prod.mk.inj h
      exact .putBack hlock hact hn hsome hc (List.ne_nil_of_length_pos hgot)
    · rename_i hgot
      obtain ⟨rfl, rfl⟩ := Prod.mk.inj h
      obtain rfl : got = [] := List.length_eq_zero_iff.mp (Nat.eq_zero_of_not_pos hgot)
      rw [hc]
      exact .eof hlock hact hn hsome hc
  · rename_i hc
    cases copies with
    | true =>
      rw [if_pos rfl] at h
      split at h
      · rename_i hc'
        obtain ⟨rfl, rfl⟩ := Prod.mk.inj h
        rw [hc']
        exact .line hlock hact hn hsome hc'
      · rename_i hc'
        obtain ⟨rfl, rfl⟩ := Prod.mk.inj h
        exact .copy hlock hact hn hsome hc hc'
    | false =>
      obtain ⟨rfl, rfl⟩ := Prod.mk.inj h
      exact .noCopy hlock hact hn hsome hc

theorem move_of_proceed {s s' : State ι} {t : ι} {copies : Bool} {es : List (Event ι)}
    (hlock : s.lock = some t) (h : proceed s t copies = some (s', es)) :
    Move s (.proceed t copies) s' es := by
  unfold proceed at h
  split at h
  · rename_i n got hact
    split at h
    · rename_i hn
      split at h
      · rename_i hnone
        obtain ⟨rfl, rfl⟩ := Prod.mk.inj (Option.some.inj h)
        exact .nothing hlock hact hn hnone
      · rename_i hsome
        exact move_of_take hlock hact hn hsome (Option.some.inj h)
    · rename_i hn
      obtain ⟨rfl, rfl⟩ := Prod.mk.inj (Option.some.inj h)
      exact .done hlock hact hn
  · rename_i n got hact
    split at h
    · rename_i hkilled
      obtain ⟨rfl, rfl⟩ := Prod.mk.inj (Option.some.inj h)
      exact .giveUp hlock hact hkilled
    · rename_i hkilled
      obtain ⟨rfl, rfl⟩ := Prod.mk.inj (Option.some.inj h)
      exact .drowse hlock hact (by simpa using hkilled)
  · rename_i n got hact
    obtain ⟨rfl, rfl⟩ := Prod.mk.inj (Option.some.inj h)
    exact .sleep hlock hact
  · cases h

theorem move_of_step {s s' : State ι} {a : Act ι} {es : List (Event ι)}
    (h : step s a = some (s', es)) : Move s a s' es := by
  cases a with
  | intr c =>
    rw [step] at h
    split at h
    · rename_i hlock
      obtain ⟨rfl, rfl⟩ := Prod.mk.inj (Option.some.inj h)
      exact .intr hlock
    · cases h
  | read t n =>
    rw [step] at h
    split at h
    · rename_i hcan
      obtain ⟨rfl, rfl⟩ := Prod.mk.inj (Option.some.inj h)
      exact .read hcan.1 hcan.2
    · cases h
  | proceed t copies =>
    rw [step] at h
    split at h
    · rename_i hlock
      exact move_of_proceed hlock h
    · cases h
  | relock t =>
    rw [step] at h
    split at h
    · rename_i hlock
      split at h
      · rename_i n got hact
        obtain ⟨rfl, rfl⟩ := Prod.mk.inj (Option.some.inj h)
        exact .reread hlock hact
      · cases h
    · cases h
  | kill t =>
    obtain ⟨rfl, rfl⟩ := Prod.mk.inj (Option.some.inj h)
    exact .kill

end Step

end Console

end Xv6

end SystemProgramming
