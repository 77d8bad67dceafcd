import SystemProgramming.Library.BlockCache
import SystemProgramming.Library.Machine
import Mathlib.Algebra.Order.Ring.Int
import Mathlib.Data.Fintype.Basic
import Mathlib.Data.List.FinRange

/-!
# The buffer cache

`lab3-lyjae/xv6-riscv/kernel/bio.c`. There are 30 buffers, in a list that has the one that was used
last in front. `bget` counts itself as a user of the buffer under `bcache.lock`, and waits for the
lock of the buffer afterwards; `bread` fills a buffer that is not valid; `brelse` gives up the lock
of the buffer first, and its place among the users afterwards. In between other processes run.

A process can hold several buffers while it looks for one more. There is one device, and its number
is not 0, which is that of the buffers that have not been used yet; and who calls `bpin` and
`bunpin` holds the buffer, and takes back only what has been pinned.

## What is assumed

`refcnt` is an integer here and a `uint` in the kernel. It cannot wrap: a buffer is counted once for
each process that waits for it, has it or is giving it up, and once for each pin, and there are
`NPROC` processes and at most `LOGSIZE` pins.

The order of the list is that of `bcache.head.next`, and `panic` ends the kernel. The disk returns
what was written last; its requests are not modelled.

## Main definitions

* `Buf`, `Place`, `State` — the buffers, and where a process is
* `step`, `machine` — the pieces of `bread`, `bwrite`, `brelse`, `bpin`, `bunpin`
* `Move` — the steps, branch by branch
-/

namespace SystemProgramming

namespace Xv6

namespace Bio

def nbuf : ℕ := 30

instance : NeZero nbuf := ⟨by decide⟩

/-- `b->dev` and `b->blockno` -/
abbrev Key := ℕ × ℕ

/-- `struct buf`, but for its place in the list; `lock` is the process that has the lock of the
buffer. -/
structure Buf (β ι : Type*) where
  key : Key
  valid : Bool
  refcnt : ℤ
  lock : Option ι
  data : β

/-- Where a process is. -/
inductive Place
  /-- Not in `bread` or `brelse`, whatever buffers it has. -/
  | idle
  /-- In `acquiresleep`, called from `bget`. -/
  | waiting (i : Fin nbuf)
  /-- Behind `bget`, in `bread`. -/
  | reading (i : Fin nbuf)
  /-- Behind `releasesleep`, in `brelse`. -/
  | releasing (i : Fin nbuf)
  deriving DecidableEq, Repr

/-- The buffers, their list, the disk and the processes. `pins` counts the calls of `bpin` without a
`bunpin`; no function reads it. -/
structure State (β ι : Type*) where
  buf : Fin nbuf → Buf β ι
  order : List (Fin nbuf)
  disk : Key → β
  place : ι → Place
  pins : Fin nbuf → ℕ
  panicked : Bool

/-- What can happen next. -/
inductive Act (β ι : Type*)
  /-- `bread` is called. -/
  | bread (t : ι) (key : Key)
  /-- `acquiresleep` returns to `bget`. -/
  | acquire (t : ι)
  /-- `bread` returns. -/
  | finish (t : ι)
  /-- A process changes the contents of a buffer that it has. -/
  | store (t : ι) (i : Fin nbuf) (v : β)
  | bwrite (t : ι) (i : Fin nbuf)
  /-- `brelse` is called. -/
  | brelse (t : ι) (i : Fin nbuf)
  /-- `brelse` returns. -/
  | release (t : ι)
  | bpin (t : ι) (i : Fin nbuf)
  | bunpin (t : ι) (i : Fin nbuf)

/-- What is recorded: what `bread` has found, what has been stored, and which buffer has no user any
more, or is recycled. -/
inductive Event (β ι : Type*)
  | got (t : ι) (key : Key) (v : β)
  | stored (t : ι) (key : Key) (v : β)
  | freed (i : Fin nbuf)
  | recycled (i : Fin nbuf)

section Step

variable {β ι : Type*} [DecidableEq ι]

/-- A buffer is changed. -/
def State.modify (s : State β ι) (i : Fin nbuf) (f : Buf β ι → Buf β ι) : State β ι :=
  { s with buf := Function.update s.buf i (f (s.buf i)) }

/-- A process goes on. -/
def State.goTo (s : State β ι) (t : ι) (p : Place) : State β ι :=
  { s with place := Function.update s.place t p }

omit [DecidableEq ι] in
@[simp] theorem State.modify_buf_self (s : State β ι) (i : Fin nbuf) (f : Buf β ι → Buf β ι) :
    (s.modify i f).buf i = f (s.buf i) := Function.update_self i _ s.buf

omit [DecidableEq ι] in
theorem State.modify_buf_of_ne {s : State β ι} {i j : Fin nbuf} (h : j ≠ i)
    (f : Buf β ι → Buf β ι) : (s.modify i f).buf j = s.buf j := Function.update_of_ne h _ s.buf

/-- The first loop of `bget`. -/
def cached (s : State β ι) (key : Key) : Option (Fin nbuf) :=
  s.order.find? fun i => (s.buf i).key = key

/-- The second loop of `bget`, from the other end of the list. -/
def unused (s : State β ι) : Option (Fin nbuf) :=
  s.order.reverse.find? fun i => (s.buf i).refcnt = 0

/-- `bget`, up to `acquiresleep`. -/
def bget (s : State β ι) (t : ι) (key : Key) : State β ι × List (Event β ι) :=
  match cached s key with
  | some i => ((s.modify i fun b => { b with refcnt := b.refcnt + 1 }).goTo t (.waiting i), [])
  | none =>
    match unused s with
    | some i =>
      ((s.modify i fun b => { b with key := key, valid := false, refcnt := 1 }).goTo t (.waiting i),
        [.recycled i])
    | none => ({ s with panicked := true }, [])

/-- `bread`, behind `bget`: the contents come from the disk if the buffer is not valid. -/
def fill (s : State β ι) (i : Fin nbuf) : State β ι :=
  if (s.buf i).valid then s
  else s.modify i fun b => { b with data := s.disk b.key, valid := true }

/-- `brelse`, behind `releasesleep`: a buffer without users goes to the front of the list. -/
def unref (s : State β ι) (i : Fin nbuf) : State β ι × List (Event β ι) :=
  let s := s.modify i fun b => { b with refcnt := b.refcnt - 1 }
  if (s.buf i).refcnt = 0 then ({ s with order := i :: s.order.erase i }, [.freed i]) else (s, [])

/-- One step of the system. A process that does not have the buffer makes `bwrite` and `brelse`
panic. -/
def step (s : State β ι) : Act β ι → Option (State β ι × List (Event β ι))
  | .bread t key =>
    if s.panicked = false ∧ s.place t = .idle ∧ key.1 ≠ 0 then some (bget s t key) else none
  | .acquire t =>
    match s.place t with
    | .waiting i =>
      if s.panicked = false ∧ (s.buf i).lock = none then
        some ((s.modify i fun b => { b with lock := some t }).goTo t (.reading i), [])
      else none
    | _ => none
  | .finish t =>
    match s.place t with
    | .reading i =>
      if s.panicked = false then
        let s := fill s i
        some (s.goTo t .idle, [.got t (s.buf i).key (s.buf i).data])
      else none
    | _ => none
  | .store t i v =>
    if s.panicked = false ∧ s.place t = .idle ∧ (s.buf i).lock = some t then
      some (s.modify i fun b => { b with data := v }, [.stored t (s.buf i).key v])
    else none
  | .bwrite t i =>
    if s.panicked = false ∧ s.place t = .idle then
      if (s.buf i).lock = some t then
        some ({ s with disk := Function.update s.disk (s.buf i).key (s.buf i).data }, [])
      else some ({ s with panicked := true }, [])
    else none
  | .brelse t i =>
    if s.panicked = false ∧ s.place t = .idle then
      if (s.buf i).lock = some t then
        some ((s.modify i fun b => { b with lock := none }).goTo t (.releasing i), [])
      else some ({ s with panicked := true }, [])
    else none
  | .release t =>
    match s.place t with
    | .releasing i =>
      if s.panicked = false then
        let q := unref s i
        some (q.1.goTo t .idle, q.2)
      else none
    | _ => none
  | .bpin t i =>
    if s.panicked = false ∧ s.place t = .idle ∧ (s.buf i).lock = some t then
      some ({ s.modify i fun b => { b with refcnt := b.refcnt + 1 } with
        pins := Function.update s.pins i (s.pins i + 1) }, [])
    else none
  | .bunpin t i =>
    if s.panicked = false ∧ s.place t = .idle ∧ (s.buf i).lock = some t ∧ 0 < s.pins i then
      some ({ s.modify i fun b => { b with refcnt := b.refcnt - 1 } with
        pins := Function.update s.pins i (s.pins i - 1) }, [])
    else none

/-- After `binit`: the last buffer of the array is in front. -/
def machine (ι : Type*) [DecidableEq ι] (disk : Key → β) (junk : β) :
    Machine (State β ι) (Act β ι) (Event β ι) where
  init :=
    { buf := fun _ => ⟨(0, 0), false, 0, none, junk⟩
      order := (List.finRange nbuf).reverse
      disk := disk
      place := fun _ => .idle
      pins := fun _ => 0
      panicked := false }
  step := step

/-- The steps of the system, branch by branch. -/
inductive Move (s : State β ι) : Act β ι → State β ι → List (Event β ι) → Prop
  | hit {t key i} (hplace : s.place t = .idle) (hkey : key.1 ≠ 0)
      (hcached : cached s key = some i) :
      Move s (.bread t key)
        ((s.modify i fun b => { b with refcnt := b.refcnt + 1 }).goTo t (.waiting i)) []
  | recycle {t key i} (hplace : s.place t = .idle) (hkey : key.1 ≠ 0)
      (hcached : cached s key = none) (hunused : unused s = some i) :
      Move s (.bread t key)
        ((s.modify i fun b => { b with key := key, valid := false, refcnt := 1 }).goTo t
          (.waiting i)) [.recycled i]
  | acquire {t i} (hplace : s.place t = .waiting i) (hlock : (s.buf i).lock = none) :
      Move s (.acquire t)
        ((s.modify i fun b => { b with lock := some t }).goTo t (.reading i)) []
  | fill {t i} (hplace : s.place t = .reading i) (hvalid : (s.buf i).valid = false) :
      Move s (.finish t)
        ((s.modify i fun b => { b with data := s.disk b.key, valid := true }).goTo t .idle)
        [.got t (s.buf i).key (s.disk (s.buf i).key)]
  | ready {t i} (hplace : s.place t = .reading i) (hvalid : (s.buf i).valid = true) :
      Move s (.finish t) (s.goTo t .idle) [.got t (s.buf i).key (s.buf i).data]
  | store {t i v} (hplace : s.place t = .idle) (hlock : (s.buf i).lock = some t) :
      Move s (.store t i v) (s.modify i fun b => { b with data := v })
        [.stored t (s.buf i).key v]
  | write {t i} (hplace : s.place t = .idle) (hlock : (s.buf i).lock = some t) :
      Move s (.bwrite t i)
        { s with disk := Function.update s.disk (s.buf i).key (s.buf i).data } []
  | brelse {t i} (hplace : s.place t = .idle) (hlock : (s.buf i).lock = some t) :
      Move s (.brelse t i)
        ((s.modify i fun b => { b with lock := none }).goTo t (.releasing i)) []
  | leave {t i} (hplace : s.place t = .releasing i) (href : (s.buf i).refcnt - 1 ≠ 0) :
      Move s (.release t)
        ((s.modify i fun b => { b with refcnt := b.refcnt - 1 }).goTo t .idle) []
  | free {t i} (hplace : s.place t = .releasing i) (href : (s.buf i).refcnt - 1 = 0) :
      Move s (.release t)
        (State.goTo { s.modify i fun b => { b with refcnt := b.refcnt - 1 } with
          order := i :: s.order.erase i } t .idle) [.freed i]
  | pin {t i} (hplace : s.place t = .idle) (hlock : (s.buf i).lock = some t) :
      Move s (.bpin t i)
        { s.modify i fun b => { b with refcnt := b.refcnt + 1 } with
          pins := Function.update s.pins i (s.pins i + 1) } []
  | unpin {t i} (hplace : s.place t = .idle) (hlock : (s.buf i).lock = some t)
      (hpins : 0 < s.pins i) :
      Move s (.bunpin t i)
        { s.modify i fun b => { b with refcnt := b.refcnt - 1 } with
          pins := Function.update s.pins i (s.pins i - 1) } []
  | full {t key} (hcached : cached s key = none) (hunused : unused s = none) :
      Move s (.bread t key) { s with panicked := true } []
  | writeUnheld {t i} (hlock : (s.buf i).lock ≠ some t) :
      Move s (.bwrite t i) { s with panicked := true } []
  | releaseUnheld {t i} (hlock : (s.buf i).lock ≠ some t) :
      Move s (.brelse t i) { s with panicked := true } []

theorem move_of_bget {s s' : State β ι} {t : ι} {key : Key} {es : List (Event β ι)}
    (hplace : s.place t = .idle) (hkey : key.1 ≠ 0) (h : bget s t key = (s', es)) :
    Move s (.bread t key) s' es := by
  rw [bget] at h
  split at h
  · rename_i i hcached
    obtain ⟨rfl, rfl⟩ := Prod.mk.inj h
    exact .hit hplace hkey hcached
  · rename_i hcached
    split at h
    · rename_i i hunused
      obtain ⟨rfl, rfl⟩ := Prod.mk.inj h
      exact .recycle hplace hkey hcached hunused
    · rename_i hunused
      obtain ⟨rfl, rfl⟩ := Prod.mk.inj h
      exact .full hcached hunused

theorem move_of_finish {s : State β ι} {t : ι} {i : Fin nbuf} (hplace : s.place t = .reading i) :
    Move s (.finish t) ((fill s i).goTo t .idle)
      [.got t ((fill s i).buf i).key ((fill s i).buf i).data] := by
  cases hvalid : (s.buf i).valid with
  | true =>
    rw [fill, if_pos hvalid]
    exact .ready hplace hvalid
  | false =>
    have hmove := Move.fill hplace hvalid
    have hfill : fill s i = s.modify i fun b => { b with data := s.disk b.key, valid := true } :=
      if_neg (by rw [hvalid]; exact Bool.false_ne_true)
    have hbuf : (fill s i).buf i =
        { s.buf i with data := s.disk (s.buf i).key, valid := true } := by
      rw [hfill, State.modify_buf_self]
    rw [hbuf, hfill]
    exact hmove

theorem move_of_release {s : State β ι} {t : ι} {i : Fin nbuf}
    (hplace : s.place t = .releasing i) :
    Move s (.release t) ((unref s i).1.goTo t .idle) (unref s i).2 := by
  have hbuf : ((s.modify i fun b => { b with refcnt := b.refcnt - 1 }).buf i).refcnt =
      (s.buf i).refcnt - 1 := by rw [State.modify_buf_self]
  rw [unref, hbuf]
  split
  · rename_i href
    exact .free hplace href
  · rename_i href
    exact .leave hplace href

theorem move_of_step {s s' : State β ι} {a : Act β ι} {es : List (Event β ι)}
    (h : step s a = some (s', es)) : Move s a s' es := by
  cases a with
  | bread t key =>
    rw [step] at h
    split at h
    · rename_i hcan
      exact move_of_bget hcan.2.1 hcan.2.2 (Option.some.inj h)
    · cases h
  | acquire t =>
    rw [step] at h
    split at h
    · rename_i i hplace
      split at h
      · rename_i hcan
        obtain ⟨rfl, rfl⟩ := Prod.mk.inj (Option.some.inj h)
        exact .acquire hplace hcan.2
      · cases h
    · cases h
  | finish t =>
    rw [step] at h
    split at h
    · rename_i i hplace
      split at h
      · obtain ⟨rfl, rfl⟩ := Prod.mk.inj (Option.some.inj h)
        exact move_of_finish hplace
      · cases h
    · cases h
  | store t i v =>
    rw [step] at h
    split at h
    · rename_i hcan
      obtain ⟨rfl, rfl⟩ := Prod.mk.inj (Option.some.inj h)
      exact .store hcan.2.1 hcan.2.2
    · cases h
  | bwrite t i =>
    rw [step] at h
    split at h
    · rename_i hcan
      split at h
      · rename_i hlock
        obtain ⟨rfl, rfl⟩ := Prod.mk.inj (Option.some.inj h)
        exact .write hcan.2 hlock
      · rename_i hlock
        obtain ⟨rfl, rfl⟩ := Prod.mk.inj (Option.some.inj h)
        exact .writeUnheld hlock
    · cases h
  | brelse t i =>
    rw [step] at h
    split at h
    · rename_i hcan
      split at h
      · rename_i hlock
        obtain ⟨rfl, rfl⟩ := Prod.mk.inj (Option.some.inj h)
        exact .brelse hcan.2 hlock
      · rename_i hlock
        obtain ⟨rfl, rfl⟩ := Prod.mk.inj (Option.some.inj h)
        exact .releaseUnheld hlock
    · cases h
  | release t =>
    rw [step] at h
    split at h
    · rename_i i hplace
      split at h
      · obtain ⟨rfl, rfl⟩ := Prod.mk.inj (Option.some.inj h)
        exact move_of_release hplace
      · cases h
    · cases h
  | bpin t i =>
    rw [step] at h
    split at h
    · rename_i hcan
      obtain ⟨rfl, rfl⟩ := Prod.mk.inj (Option.some.inj h)
      exact .pin hcan.2.1 hcan.2.2
    · cases h
  | bunpin t i =>
    rw [step] at h
    split at h
    · rename_i hcan
      obtain ⟨rfl, rfl⟩ := Prod.mk.inj (Option.some.inj h)
      exact .unpin hcan.2.1 hcan.2.2.1 hcan.2.2.2
    · cases h

end Step

end Bio

end Xv6

end SystemProgramming
