import SystemProgramming.Library.BlockCache
import SystemProgramming.Library.Machine
import SystemProgramming.Library.RedoLog
import Mathlib.Algebra.Order.Ring.Int
import Mathlib.Data.Fin.Basic

/-!
# The log of the file system

`lab3-lyjae/xv6-riscv/kernel/log.c`. The system calls of the file system run between `begin_op` and
`end_op`, and change blocks in the buffer cache only, with `log_write`. When the last one ends, the
changed blocks are written to the log, then the header of the log, then the blocks themselves, and
the header again. `initlog` does the second half when the machine has come up.

Every critical section under `log.lock` is one step, and so is every block that is written. Any
number of threads take steps in any order, buffers are recycled when nobody needs them, and the
machine may fail before any step. The buffer cache is that of `Library.BlockCache`.

Who calls `log_write` does so between `begin_op` and `end_op`, holds the buffer, and leaves the
blocks of the log alone.

## What is assumed

The disk has been made by `mkfs`: at the beginning the header of the log is that of an empty log
(`Valid`). A block is written as a whole or not at all when the machine fails. The handlers in the
file system are arbitrary, up to what the last paragraph says; in particular they may read and
change any block, in any order, and call `begin_op` again only after `end_op`.

## Main definitions

* `readHead`, `writeHead` — the header block
* `State`, `Act`, `step`, `machine` — runs of the file system
* `Move` — what a step can do
-/

namespace SystemProgramming

namespace Xv6

namespace Log

def maxOpBlocks : ℕ := 10

def logSize : ℕ := maxOpBlocks * 3

/-- A block, as `BSIZE / 4` words. -/
abbrev Block := Fin 256 → BitVec 32

/-- What the super block says of the log: `log.start` and `log.size`. -/
structure Layout where
  start : ℕ
  size : ℕ

/-- A block that does not belong to the log. -/
def Layout.Home (L : Layout) (b : ℕ) : Prop := b < 2 ^ 32 ∧ ¬ (L.start ≤ b ∧ b < L.start + L.size)

instance (L : Layout) (b : ℕ) : Decidable (L.Home b) := inferInstanceAs (Decidable (_ ∧ _))

/-! ### The header -/

/-- A word of a block. -/
def word (block : Block) (i : ℕ) : BitVec 32 := if h : i < 256 then block ⟨i, h⟩ else 0

/-- `read_head`: the first `lh->n` entries of `lh->block`. -/
def readHead (block : Block) : List ℕ :=
  (List.range (word block 0).toInt.toNat).map fun i => (word block (i + 1)).toNat

/-- `write_head`: what it makes of the block. -/
def writeHead (lh : List ℕ) (block : Block) : Block := fun i =>
  if i.val = 0 then BitVec.ofNat 32 lh.length
  else
    match lh[i.val - 1]? with
    | some blockno => BitVec.ofNat 32 blockno
    | none => block i

/-! ### States -/

/-- Where a thread is. -/
inductive Place
  /-- Outside of `begin_op` and `end_op`. -/
  | outside
  /-- Asleep in `begin_op`. -/
  | asleep
  /-- Woken in `begin_op`. -/
  | woken
  /-- Behind `begin_op`, before `end_op`. -/
  | inside
  /-- In `end_op`, with `do_commit` set. -/
  | committing
  deriving DecidableEq, Repr

/-- What is being done with the log besides. `who` is the thread that commits; there is none while
the machine comes up. -/
inductive Phase (ι : Type*)
  | idle
  | writeLog (who : ι) (tail : ℕ)
  | writeHead (who : ι)
  | installTrans (who : Option ι) (tail : ℕ)
  | eraseHead (who : Option ι)
  | endOp (who : ι)
  | readHead
  deriving DecidableEq, Repr

structure State (ι : Type*) where
  disk : ℕ → Block
  cache : BlockCache ℕ Block ι
  /-- `log.lh` -/
  lh : List ℕ
  /-- `log.outstanding` -/
  outstanding : ℤ
  /-- `log.committing` -/
  committing : Bool
  place : ι → Place
  phase : Phase ι
  panicked : Bool

/-- What a run is judged by. -/
inductive Event (ι : Type*)
  /-- `begin_op` returned. -/
  | begun (t : ι)
  /-- `log_write` returned, the block having these contents. -/
  | written (t : ι) (b : ℕ) (v : Block)
  /-- `end_op` has been called. -/
  | ended (t : ι)
  /-- The header has been written: "the real commit". -/
  | committed
  /-- The machine failed. -/
  | failed
  /-- `initlog` returned. -/
  | recovered
  | panic

/-- The choices of the threads, of the buffer cache and of the power supply. -/
inductive Act (ι : Type*)
  | beginOp (t : ι)
  /-- `bread`, from a thread. -/
  | bread (t : ι) (b : ℕ)
  /-- The buffer is given other contents, and `log_write` is called. -/
  | logWrite (t : ι) (b : ℕ) (v : Block)
  | brelse (t : ι) (b : ℕ)
  | endOp (t : ι)
  /-- `commit` or `initlog` goes on. -/
  | proceed
  /-- The buffer of a block is recycled. -/
  | recycle (b : ℕ)
  | fail

section Step

variable {ι : Type*} [DecidableEq ι]

/-- `wakeup(&log)` -/
def wakeup (place : ι → Place) : ι → Place := fun t =>
  if place t = .asleep then .woken else place t

/-- The round of the loop of `begin_op`. -/
def beginOp (s : State ι) (t : ι) : State ι × List (Event ι) :=
  if s.committing ∨ s.lh.length + (s.outstanding + 1) * maxOpBlocks > logSize then
    ({ s with place := Function.update s.place t .asleep }, [])
  else
    ({ s with
        outstanding := s.outstanding + 1
        place := Function.update s.place t .inside }, [.begun t])

def panic (s : State ι) : State ι × List (Event ι) := ({ s with panicked := true }, [.panic])

/-- `end_op`, up to the call of `commit`. -/
def endOp (s : State ι) (t : ι) : State ι × List (Event ι) :=
  let s := { s with outstanding := s.outstanding - 1 }
  if s.committing then panic s
  else if s.outstanding = 0 then
    ({ s with
        committing := true
        place := Function.update s.place t .committing
        phase := if s.lh.length > 0 then .writeLog t 0 else .endOp t }, [.ended t])
  else ({ s with place := Function.update (wakeup s.place) t .outside }, [.ended t])

/-- `log_write`, on a buffer that has just been given the contents `v`. -/
def logWrite (L : Layout) (s : State ι) (t : ι) (b : ℕ) (v : Block) : State ι × List (Event ι) :=
  let s := { s with cache := s.cache.store s.disk b v }
  if s.lh.length ≥ logSize ∨ (s.lh.length : ℤ) ≥ (L.size : ℤ) - 1 then panic s
  else if s.outstanding < 1 then panic s
  else if b ∈ s.lh then (s, [.written t b v])
  else ({ s with cache := s.cache.pin s.disk b, lh := s.lh ++ [b] }, [.written t b v])

/-- `bwrite`, on a buffer that has just been given the contents `v`. -/
def bwrite (s : State ι) (b : ℕ) (v : Block) : State ι :=
  { s with
    cache := s.cache.store s.disk b v
    disk := Function.update s.disk b v }

/-- `bread`, from the log. -/
def bread (s : State ι) (b : ℕ) : State ι := { s with cache := s.cache.load s.disk b }

/-- One round of the loop of `write_log`. -/
def writeLogBlock (L : Layout) (s : State ι) (tail b : ℕ) : State ι :=
  bwrite (bread s b) (L.start + tail + 1) (s.cache.read s.disk b)

/-- One round of the loop of `install_trans`. -/
def installBlock (L : Layout) (s : State ι) (who : Option ι) (tail b : ℕ) : State ι :=
  let lbuf := L.start + tail + 1
  let s := bwrite (bread s lbuf) b (s.cache.read s.disk lbuf)
  if who.isSome then { s with cache := s.cache.unpin s.disk b } else s

/-- `write_head`, with what it writes to the disk. -/
def writeHeadBlock (L : Layout) (s : State ι) : State ι :=
  bwrite s L.start (writeHead s.lh (s.cache.read s.disk L.start))

/-- `commit` or `initlog` goes on: the next block is written, or the loop is left. A buffer that a
thread holds has to be waited for. -/
def proceed (L : Layout) (s : State ι) : Option (State ι × List (Event ι)) :=
  match s.phase with
  | .idle => none
  | .writeLog t tail =>
    match s.lh[tail]? with
    | some b =>
      if s.cache.holder b = none then
        some ({ writeLogBlock L s tail b with phase := .writeLog t (tail + 1) }, [])
      else none
    | none => some ({ s with phase := .writeHead t }, [])
  | .writeHead t =>
    some ({ writeHeadBlock L s with phase := .installTrans (some t) 0 }, [.committed])
  | .installTrans who tail =>
    match s.lh[tail]? with
    | some b =>
      if s.cache.holder b = none then
        some ({ installBlock L s who tail b with phase := .installTrans who (tail + 1) }, [])
      else none
    | none => some ({ s with phase := .eraseHead who }, [])
  | .eraseHead who =>
    let s := writeHeadBlock L { s with lh := [] }
    match who with
    | some t => some ({ s with phase := .endOp t }, [])
    | none => some ({ s with phase := .idle }, [.recovered])
  | .endOp t =>
    some ({ s with
      committing := false
      place := Function.update (wakeup s.place) t .outside
      phase := .idle }, [])
  | .readHead =>
    some ({ bread s L.start with
      lh := Log.readHead (s.cache.read s.disk L.start)
      phase := .installTrans none 0 }, [])

/-- The machine has come up, and `initlog` has been called. -/
def boot (ι : Type*) (disk : ℕ → Block) : State ι where
  disk := disk
  cache := fun _ => none
  lh := []
  outstanding := 0
  committing := false
  place := fun _ => .outside
  phase := .readHead
  panicked := false

/-- `initlog` has returned. -/
def Phase.Up : Phase ι → Prop
  | .readHead | .installTrans none _ | .eraseHead none => False
  | _ => True

instance : ∀ phase : Phase ι, Decidable phase.Up
  | .readHead | .installTrans none _ | .eraseHead none => isFalse id
  | .idle | .writeLog .. | .writeHead _ | .installTrans (some _) _ | .eraseHead (some _)
  | .endOp _ => isTrue trivial

/-- One step of a machine that is up, or coming up. -/
def stepUp (L : Layout) (s : State ι) : Act ι → Option (State ι × List (Event ι))
  | .beginOp t =>
    if s.phase.Up ∧ (s.place t = .outside ∨ s.place t = .woken) then some (beginOp s t) else none
  | .bread t b =>
    if s.phase.Up ∧ L.Home b ∧ s.cache.holder b = none then
      some ({ s with cache := s.cache.hold s.disk t b }, [])
    else none
  | .logWrite t b v =>
    if s.place t = .inside ∧ L.Home b ∧ s.cache.holder b = some t then
      some (logWrite L s t b v)
    else none
  | .brelse t b =>
    if s.cache.holder b = some t then some ({ s with cache := s.cache.release s.disk b }, [])
    else none
  | .endOp t => if s.place t = .inside then some (endOp s t) else none
  | .proceed => proceed L s
  | .recycle b =>
    if s.cache.holder b = none ∧ s.cache.pins b = 0 then
      some ({ s with cache := s.cache.evict b }, [])
    else none
  | .fail => none

/-- One step. A kernel that has panicked does nothing any more until it is started again. -/
def step (L : Layout) (s : State ι) : Act ι → Option (State ι × List (Event ι))
  | .fail => some (boot ι s.disk, [.failed])
  | a => if s.panicked then none else stepUp L s a

/-- The machine, from the moment it comes up with a disk. -/
def machine (L : Layout) (disk : ℕ → Block) : Machine (State ι) (Act ι) (Event ι) where
  init := boot ι disk
  step := step L

/-! ### What a step can do -/

/-- There is room in the log for what `log_write` is about to add. -/
def Room (L : Layout) (s : State ι) : Prop :=
  s.lh.length < logSize ∧ (s.lh.length : ℤ) < (L.size : ℤ) - 1

/-- The steps, one by one. -/
inductive Move (L : Layout) (s : State ι) : Act ι → State ι → List (Event ι) → Prop
  | fail : Move L s .fail (boot ι s.disk) [.failed]
  | sleeps {t : ι} : s.phase.Up → s.place t = .outside ∨ s.place t = .woken →
      (s.committing = true ∨ s.lh.length + (s.outstanding + 1) * maxOpBlocks > logSize) →
      Move L s (.beginOp t) { s with place := Function.update s.place t .asleep } []
  | begins {t : ι} : s.phase.Up → s.place t = .outside ∨ s.place t = .woken →
      ¬ (s.committing = true ∨ s.lh.length + (s.outstanding + 1) * maxOpBlocks > logSize) →
      Move L s (.beginOp t) { s with
        outstanding := s.outstanding + 1
        place := Function.update s.place t .inside } [.begun t]
  | holds {t : ι} {b : ℕ} : s.cache.holder b = none →
      Move L s (.bread t b) { s with cache := s.cache.hold s.disk t b } []
  | releases {t : ι} {b : ℕ} : s.cache.holder b = some t →
      Move L s (.brelse t b) { s with cache := s.cache.release s.disk b } []
  | recycles {b : ℕ} : s.cache.holder b = none → s.cache.pins b = 0 →
      Move L s (.recycle b) { s with cache := s.cache.evict b } []
  | absorbs {t : ι} {b : ℕ} {v : Block} : s.place t = .inside → L.Home b → Room L s → b ∈ s.lh →
      Move L s (.logWrite t b v) { s with cache := s.cache.store s.disk b v } [.written t b v]
  | logs {t : ι} {b : ℕ} {v : Block} : s.place t = .inside → L.Home b → Room L s → b ∉ s.lh →
      Move L s (.logWrite t b v) { s with
        cache := (s.cache.store s.disk b v).pin s.disk b
        lh := s.lh ++ [b] } [.written t b v]
  /-- "too big a transaction", or "log_write outside of trans". -/
  | panics {t : ι} {b : ℕ} {v : Block} : s.place t = .inside → ¬ Room L s ∨ s.outstanding < 1 →
      Move L s (.logWrite t b v) { s with
        cache := s.cache.store s.disk b v
        panicked := true } [.panic]
  /-- "log.committing" -/
  | panicsInEndOp {t : ι} : s.place t = .inside → s.committing = true →
      Move L s (.endOp t) { s with outstanding := s.outstanding - 1, panicked := true } [.panic]
  | leaves {t : ι} : s.place t = .inside → s.committing = false → s.outstanding - 1 ≠ 0 →
      Move L s (.endOp t) { s with
        outstanding := s.outstanding - 1
        place := Function.update (wakeup s.place) t .outside } [.ended t]
  | commits {t : ι} : s.place t = .inside → s.committing = false → s.outstanding - 1 = 0 →
      Move L s (.endOp t) { s with
        outstanding := s.outstanding - 1
        committing := true
        place := Function.update s.place t .committing
        phase := if s.lh.length > 0 then .writeLog t 0 else .endOp t } [.ended t]
  | writesLog {t : ι} {tail b : ℕ} : s.phase = .writeLog t tail → s.lh[tail]? = some b →
      Move L s .proceed { writeLogBlock L s tail b with phase := .writeLog t (tail + 1) } []
  | writtenLog {t : ι} {tail : ℕ} : s.phase = .writeLog t tail → s.lh.length ≤ tail →
      Move L s .proceed { s with phase := .writeHead t } []
  | writesHead {t : ι} : s.phase = .writeHead t →
      Move L s .proceed { writeHeadBlock L s with phase := .installTrans (some t) 0 } [.committed]
  | installs {who : Option ι} {tail b : ℕ} : s.phase = .installTrans who tail →
      s.lh[tail]? = some b →
      Move L s .proceed { installBlock L s who tail b with
        phase := .installTrans who (tail + 1) } []
  | installed {who : Option ι} {tail : ℕ} : s.phase = .installTrans who tail →
      s.lh.length ≤ tail → Move L s .proceed { s with phase := .eraseHead who } []
  | erases {t : ι} : s.phase = .eraseHead (some t) →
      Move L s .proceed { writeHeadBlock L { s with lh := [] } with phase := .endOp t } []
  | recovers : s.phase = .eraseHead none →
      Move L s .proceed { writeHeadBlock L { s with lh := [] } with phase := .idle } [.recovered]
  | returns {t : ι} : s.phase = .endOp t →
      Move L s .proceed { s with
        committing := false
        place := Function.update (wakeup s.place) t .outside
        phase := .idle } []
  | readsHead : s.phase = .readHead →
      Move L s .proceed { bread s L.start with
        lh := readHead (s.cache.read s.disk L.start)
        phase := .installTrans none 0 } []

variable {L : Layout} {s s' : State ι} {es : List (Event ι)}

theorem move_of_beginOp {t : ι} (hup : s.phase.Up)
    (hplace : s.place t = .outside ∨ s.place t = .woken) (h : beginOp s t = (s', es)) :
    Move L s (.beginOp t) s' es := by
  rw [beginOp] at h
  split at h <;> rename_i hwait <;> obtain ⟨rfl, rfl⟩ := Prod.mk.inj h
  · exact .sleeps hup hplace hwait
  · exact .begins hup hplace hwait

theorem move_of_logWrite {t : ι} {b : ℕ} {v : Block} (ht : s.place t = .inside) (hb : L.Home b)
    (h : logWrite L s t b v = (s', es)) : Move L s (.logWrite t b v) s' es := by
  rw [logWrite] at h
  dsimp only at h
  split at h <;> rename_i hfull
  · obtain ⟨rfl, rfl⟩ := Prod.mk.inj h
    refine .panics ht (Or.inl ?_)
    rintro ⟨hlog, hsize⟩
    omega
  have hroom : Room L s := by
    rw [Room]
    omega
  split at h <;> rename_i hout
  · obtain ⟨rfl, rfl⟩ := Prod.mk.inj h
    exact .panics ht (Or.inr hout)
  split at h <;> rename_i hmem <;> obtain ⟨rfl, rfl⟩ := Prod.mk.inj h
  · exact .absorbs ht hb hroom hmem
  · exact .logs ht hb hroom hmem

theorem move_of_endOp {t : ι} (ht : s.place t = .inside) (h : endOp s t = (s', es)) :
    Move L s (.endOp t) s' es := by
  rw [endOp] at h
  dsimp only at h
  split at h <;> rename_i hcomm
  · obtain ⟨rfl, rfl⟩ := Prod.mk.inj h
    exact .panicsInEndOp ht hcomm
  split at h <;> rename_i hout <;> obtain ⟨rfl, rfl⟩ := Prod.mk.inj h
  · exact .commits ht (by simpa using hcomm) hout
  · exact .leaves ht (by simpa using hcomm) hout

theorem move_of_proceed (h : proceed L s = some (s', es)) : Move L s .proceed s' es := by
  rw [proceed] at h
  split at h <;> rename_i hphase
  · cases h
  · split at h <;> rename_i hb
    · obtain ⟨-, heq⟩ := Option.ite_none_right_eq_some.mp h
      cases heq
      exact .writesLog hphase hb
    · cases h
      exact .writtenLog hphase (List.getElem?_eq_none_iff.mp hb)
  · cases h
    exact .writesHead hphase
  · split at h <;> rename_i hb
    · obtain ⟨-, heq⟩ := Option.ite_none_right_eq_some.mp h
      cases heq
      exact .installs hphase hb
    · cases h
      exact .installed hphase (List.getElem?_eq_none_iff.mp hb)
  · rename_i who
    cases who <;> cases h
    · exact .recovers hphase
    · exact .erases hphase
  · cases h
    exact .returns hphase
  · cases h
    exact .readsHead hphase

/-- **What a step can do**, of a kernel that has not panicked if it does not fail. -/
theorem move_of_step {a : Act ι} (h : step L s a = some (s', es)) :
    Move L s a s' es ∧ (a ≠ .fail → s.panicked = false) := by
  by_cases hfail : a = .fail
  · subst hfail
    cases h
    exact ⟨.fail, fun hne => absurd rfl hne⟩
  have hup : (if s.panicked then none else stepUp L s a) = some (s', es) := by
    cases a <;> first | exact absurd rfl hfail | exact h
  obtain ⟨hpan, hstep⟩ := Option.ite_none_left_eq_some.mp hup
  refine ⟨?_, fun _ => by simpa using hpan⟩
  cases a with
  | beginOp t =>
    obtain ⟨⟨hup, hplace⟩, heq⟩ := Option.ite_none_right_eq_some.mp hstep
    exact move_of_beginOp hup hplace (Option.some.inj heq)
  | bread t b =>
    obtain ⟨⟨-, -, hfree⟩, heq⟩ := Option.ite_none_right_eq_some.mp hstep
    cases heq
    exact .holds hfree
  | logWrite t b v =>
    obtain ⟨⟨ht, hb, -⟩, heq⟩ := Option.ite_none_right_eq_some.mp hstep
    exact move_of_logWrite ht hb (Option.some.inj heq)
  | brelse t b =>
    obtain ⟨hheld, heq⟩ := Option.ite_none_right_eq_some.mp hstep
    cases heq
    exact .releases hheld
  | endOp t =>
    obtain ⟨ht, heq⟩ := Option.ite_none_right_eq_some.mp hstep
    exact move_of_endOp ht (Option.some.inj heq)
  | proceed => exact move_of_proceed hstep
  | recycle b =>
    obtain ⟨⟨hfree, hpins⟩, heq⟩ := Option.ite_none_right_eq_some.mp hstep
    cases heq
    exact .recycles hfree hpins
  | fail => exact absurd rfl hfail

end Step

end Log

end Xv6

end SystemProgramming
