import SystemProgramming.Library.BoundedBuffer
import SystemProgramming.Library.Machine
import SystemProgramming.WordCount.Counting

/-!
# `wc_mt_overlap`: reading and counting at the same time

`lab8-lyjae/wc_mt_overlap.c` runs one producer, which cuts the file into chunks, and
`num_consumers` consumers, which count the words of the chunks they take out of a ring buffer of
`BUFFER_CAPACITY` slots. The shared variables are touched only between `pthread_mutex_lock` and
`pthread_mutex_unlock` (or `pthread_cond_wait`), so a critical section is one step here, and what
a thread does between two critical sections belongs to the step before or after it.

A thread inside `pthread_cond_wait` stays at its critical section: while it sleeps the section
cannot be entered, and once it is woken, by a signal or by nobody, it enters again and evaluates
the `while` guard again.

The file is the list of bytes still unread. `fread` and `fgetc` return less than asked only at the
end of that list, which stays the end. A failing `fopen` or `malloc` calls `exit(1)`; such a run
has no further state, so there is no step for it.

## What is left out

The counts are natural numbers and a chunk has room for any word. `ChunkBuffer` says when the word
that is completed behind a chunk fits in `malloc(CHUNK_SIZE + 256)`, and `Baseline` puts the two
together with the `int` that is printed. The predicate `is_word_char` is arbitrary: nothing here
depends on which bytes belong to words.

Nothing is assumed of the scheduler or of `pthread_cond_signal`, but that it wakes somebody if
anybody sleeps: which of the sleepers it wakes is part of the action, and threads may wake up by
themselves.

## Main definitions

* `readChunk` — one round of the producer's reading
* `State`, `Act`, `step`, `machine` — the program
* `Transition` — what a step can do
* `Control` — the invariant of the threads' places and of the monitor

## Main results

* `transition_of_step` — inversion of a step, the only place `step` is unfolded
* `control_of_run` — `Control` holds in every state of every run
-/

namespace SystemProgramming

namespace WcMtOverlap

def chunkSize : ℕ := 64 * 1024

def bufferCapacity : ℕ := 64

structure Chunk where
  data : List UInt8
  size : ℕ
  startsInsideWord : Bool
  deriving DecidableEq, Repr

/-- A zero-initialised slot of `buffer`. -/
def Chunk.zero : Chunk := ⟨[], 0, false⟩

/-! ### Reading -/

section Reading

variable (isWordChar : UInt8 → Bool)

/-- `is_word_char(buf[size - 1])`, false for an empty buffer. -/
def endsInWord (buf : List UInt8) : Bool := (buf[buf.length - 1]?).any isWordChar

/-- `while (size > 0 && is_word_char(buf[size - 1]) && (c = fgetc(fp)) != EOF) buf[size++] = c;`
The bytes in `buf`, and what is left of the file. -/
def completeWord : List UInt8 → List UInt8 → List UInt8 × List UInt8
  | buf, [] => (buf, [])
  | buf, c :: fp =>
    if endsInWord isWordChar buf then completeWord (buf ++ [c]) fp else (buf, c :: fp)

/-- `fread` up to `CHUNK_SIZE` bytes and complete the last word; `none` when `fread` returns 0. -/
def readChunk (fp : List UInt8) : Option (List UInt8 × List UInt8) :=
  let buf := fp.take chunkSize
  if buf.length = 0 then none else some (completeWord isWordChar buf (fp.drop chunkSize))

end Reading

/-! ### The threads -/

inductive Producer
  /-- At the top of `while (1)`. -/
  | reading
  /-- At the critical section that stores `chunk`. -/
  | enqueuing (chunk : Chunk)
  /-- Past the loop, at the critical section that sets `is_done`. -/
  | closing
  | returned
  deriving DecidableEq, Repr

inductive Consumer
  /-- At the critical section that takes a chunk. -/
  | dequeuing
  /-- Counting `chunk`, up to the critical section that adds the result. -/
  | counting (chunk : Chunk)
  | returned
  deriving DecidableEq, Repr

/-- The variables of the program; `n` is `num_consumers`, of which the source allows 1 to 32. -/
structure State (n : ℕ) where
  /-- What is left of the file. -/
  fp : List UInt8
  prevEndsInWord : Bool
  producer : Producer
  /-- `buffer`, `in`, `out`, `count`, `not_empty` and `not_full`. -/
  shared : BoundedBuffer Chunk (Fin n)
  isDone : Bool
  totalWordCount : ℕ
  consumers : Fin n → Consumer

/-- The scheduler's choices. -/
inductive Act (n : ℕ)
  /-- The producer reads the next chunk, or finds the end of the file. -/
  | read
  /-- The producer enters its critical section; `wake` is the consumer its signal wakes. -/
  | enqueue (wake : Option (Fin n))
  /-- The producer sets `is_done` and broadcasts. -/
  | close
  /-- Consumer `t` enters its first critical section; `wake` is the thread its signal wakes. -/
  | dequeue (t : Fin n) (wake : Option Unit)
  /-- Consumer `t` has counted and enters its second critical section. -/
  | add (t : Fin n)
  /-- The producer wakes up spuriously. -/
  | spuriousProducer
  /-- Consumer `t` wakes up spuriously. -/
  | spuriousConsumer (t : Fin n)
  deriving DecidableEq, Repr

/-- A wakeup that nobody caused. -/
def Act.IsSpurious {n : ℕ} : Act n → Prop
  | .spuriousProducer => True
  | .spuriousConsumer _ => True
  | _ => False

/-- What a run is judged by. -/
inductive Event (n : ℕ)
  /-- The producer built a chunk. -/
  | built (chunk : Chunk)
  /-- Consumer `t` took a chunk out of the ring buffer. -/
  | took (t : Fin n) (chunk : Chunk)
  deriving DecidableEq, Repr

section Program

variable (isWordChar : UInt8 → Bool) {n : ℕ}

/-- The producer, from the top of its loop to its critical section. -/
def produce (s : State n) : State n × List (Event n) :=
  match readChunk isWordChar s.fp with
  | none => ({ s with producer := .closing }, [])
  | some (buf, fp) =>
    let chunk : Chunk := ⟨buf, buf.length, s.prevEndsInWord⟩
    ({ s with
        fp := fp
        prevEndsInWord := endsInWord isWordChar buf
        producer := .enqueuing chunk }, [.built chunk])

/-- The producer's critical section. -/
def enqueue (s : State n) (chunk : Chunk) (wake : Option (Fin n)) :
    Option (State n × List (Event n)) :=
  if s.shared.ring.count = bufferCapacity then
    some ({ s with shared := s.shared.producerWaits }, [])
  else
    (s.shared.store bufferCapacity chunk wake).map fun shared =>
      ({ s with shared := shared, producer := .reading }, [])

/-- The consumer's first critical section. -/
def dequeue (s : State n) (t : Fin n) (wake : Option Unit) :
    Option (State n × List (Event n)) :=
  if s.shared.ring.count = 0 ∧ s.isDone = false then
    some ({ s with shared := s.shared.consumerWaits t }, [])
  else if s.shared.ring.count = 0 ∧ s.isDone = true then
    some ({ s with
        shared := s.shared.consumerLeaves t
        consumers := Function.update s.consumers t .returned }, [])
  else
    (s.shared.fetch bufferCapacity t wake).map fun q =>
      ({ s with
          shared := q.2
          consumers := Function.update s.consumers t (.counting q.1) }, [.took t q.1])

/-- One step of the program. -/
def step (s : State n) : Act n → Option (State n × List (Event n))
  | .read =>
    match s.producer with
    | .reading => some (produce isWordChar s)
    | _ => none
  | .enqueue wake =>
    match s.producer with
    | .enqueuing chunk =>
      if s.shared.notFull () = .asleep then none else enqueue s chunk wake
    | _ => none
  | .close =>
    match s.producer with
    | .closing =>
      some ({ s with
          isDone := true
          shared := s.shared.wakeAllConsumers
          producer := .returned }, [])
    | _ => none
  | .dequeue t wake =>
    match s.consumers t with
    | .dequeuing => if s.shared.notEmpty t = .asleep then none else dequeue s t wake
    | _ => none
  | .add t =>
    match s.consumers t with
    | .counting chunk =>
      some ({ s with
          totalWordCount := s.totalWordCount +
            countWordsInChunk isWordChar chunk.data chunk.size chunk.startsInsideWord
          consumers := Function.update s.consumers t .dequeuing }, [])
    | _ => none
  | .spuriousProducer =>
    if s.shared.notFull () = .asleep then
      some ({ s with shared := s.shared.wakeProducer }, [])
    else none
  | .spuriousConsumer t =>
    if s.shared.notEmpty t = .asleep then
      some ({ s with shared := s.shared.wakeConsumer t }, [])
    else none

/-- The program on a file, with `n` consumers. -/
def machine (file : List UInt8) (n : ℕ) : Machine (State n) (Act n) (Event n) where
  init :=
    { fp := file
      prevEndsInWord := false
      producer := .reading
      shared := .empty (Fin n) .zero
      isDone := false
      totalWordCount := 0
      consumers := fun _ => .dequeuing }
  step := step isWordChar

/-- The producer and all consumers have returned. -/
def State.AllReturned (s : State n) : Prop :=
  s.producer = .returned ∧ ∀ t, s.consumers t = .returned

instance (s : State n) : Decidable s.AllReturned :=
  inferInstanceAs (Decidable (_ ∧ _))

/-- The chunks the producer built, in order. -/
def builtChunks (es : List (Event n)) : List Chunk :=
  es.filterMap fun
    | .built chunk => some chunk
    | .took _ _ => none

/-- The chunks taken out of the ring buffer, in order, each with the consumer that took it. -/
def takenChunks (es : List (Event n)) : List (Fin n × Chunk) :=
  es.filterMap fun
    | .built _ => none
    | .took t chunk => some (t, chunk)

/-- The chunk the producer has built and not yet stored. -/
def Producer.inHand : Producer → List Chunk
  | .enqueuing chunk => [chunk]
  | _ => []

/-! ### What a step can do -/

/-- The possible steps, one constructor for each way through the code, with what the code has
tested on the way. -/
inductive Transition (s : State n) : State n → List (Event n) → Prop
  /-- `fread` returned 0. -/
  | eof (hp : s.producer = .reading) (hr : readChunk isWordChar s.fp = none) :
    Transition s { s with producer := .closing } []
  | built {buf fp : List UInt8} (hp : s.producer = .reading)
    (hr : readChunk isWordChar s.fp = some (buf, fp)) :
    Transition s
      { s with
        fp := fp
        prevEndsInWord := endsInWord isWordChar buf
        producer := .enqueuing ⟨buf, buf.length, s.prevEndsInWord⟩ }
      [.built ⟨buf, buf.length, s.prevEndsInWord⟩]
  /-- The producer found the buffer full. -/
  | full {chunk : Chunk} (hp : s.producer = .enqueuing chunk)
    (hfull : s.shared.ring.count = bufferCapacity) :
    Transition s { s with shared := s.shared.producerWaits } []
  | stored {chunk : Chunk} {wake : Option (Fin n)} {shared : BoundedBuffer Chunk (Fin n)}
    (hp : s.producer = .enqueuing chunk) (hroom : s.shared.ring.count ≠ bufferCapacity)
    (hs : s.shared.store bufferCapacity chunk wake = some shared) :
    Transition s { s with shared := shared, producer := .reading } []
  | closed (hp : s.producer = .closing) :
    Transition s
      { s with isDone := true, shared := s.shared.wakeAllConsumers, producer := .returned } []
  /-- Consumer `t` found the buffer empty. -/
  | empty {t : Fin n} (ht : s.consumers t = .dequeuing) (hempty : s.shared.ring.count = 0)
    (hopen : s.isDone = false) :
    Transition s { s with shared := s.shared.consumerWaits t } []
  /-- Consumer `t` found the buffer empty for good. -/
  | left {t : Fin n} (ht : s.consumers t = .dequeuing) (hempty : s.shared.ring.count = 0)
    (hdone : s.isDone = true) :
    Transition s
      { s with
        shared := s.shared.consumerLeaves t
        consumers := Function.update s.consumers t .returned } []
  | fetched {t : Fin n} {wake : Option Unit} {q : Chunk × BoundedBuffer Chunk (Fin n)}
    (ht : s.consumers t = .dequeuing) (hpos : s.shared.ring.count ≠ 0)
    (hf : s.shared.fetch bufferCapacity t wake = some q) :
    Transition s
      { s with
        shared := q.2
        consumers := Function.update s.consumers t (.counting q.1) } [.took t q.1]
  | added {t : Fin n} {chunk : Chunk} (ht : s.consumers t = .counting chunk) :
    Transition s
      { s with
        totalWordCount := s.totalWordCount +
          countWordsInChunk isWordChar chunk.data chunk.size chunk.startsInsideWord
        consumers := Function.update s.consumers t .dequeuing } []
  | producerWoken (hs : s.shared.notFull () = .asleep) :
    Transition s { s with shared := s.shared.wakeProducer } []
  | consumerWoken {t : Fin n} (hs : s.shared.notEmpty t = .asleep) :
    Transition s { s with shared := s.shared.wakeConsumer t } []

variable {isWordChar}

theorem transition_of_produce {s s' : State n} {es : List (Event n)}
    (hp : s.producer = .reading) (h : produce isWordChar s = (s', es)) :
    Transition isWordChar s s' es := by
  rw [produce] at h
  split at h
  · rename_i hr
    cases h
    exact .eof hp hr
  · rename_i buf fp hr
    cases h
    exact .built hp hr

theorem transition_of_enqueue {s s' : State n} {es : List (Event n)} {chunk : Chunk}
    {wake : Option (Fin n)} (hp : s.producer = .enqueuing chunk)
    (h : enqueue s chunk wake = some (s', es)) : Transition isWordChar s s' es := by
  rw [enqueue] at h
  split at h
  · rename_i hfull
    cases h
    exact .full hp hfull
  · rename_i hroom
    obtain ⟨shared, hs, heq⟩ := Option.map_eq_some_iff.mp h
    cases heq
    exact .stored hp hroom hs

theorem transition_of_dequeue {s s' : State n} {es : List (Event n)} {t : Fin n}
    {wake : Option Unit} (ht : s.consumers t = .dequeuing)
    (h : dequeue s t wake = some (s', es)) : Transition isWordChar s s' es := by
  rw [dequeue] at h
  split at h
  · rename_i hwait
    cases h
    exact .empty ht hwait.1 hwait.2
  · split at h
    · rename_i hleave
      cases h
      exact .left ht hleave.1 hleave.2
    · rename_i hopen hdone
      have hpos : s.shared.ring.count ≠ 0 := by
        intro hzero
        cases hd : s.isDone with
        | false => exact hopen ⟨hzero, hd⟩
        | true => exact hdone ⟨hzero, hd⟩
      obtain ⟨q, hf, heq⟩ := Option.map_eq_some_iff.mp h
      cases heq
      exact .fetched ht hpos hf

/-- **Inversion of a step.** -/
theorem transition_of_step {s s' : State n} {a : Act n} {es : List (Event n)}
    (h : step isWordChar s a = some (s', es)) : Transition isWordChar s s' es := by
  cases a with
  | read =>
    cases hp : s.producer with
    | reading =>
      simp only [step, hp, Option.some.injEq] at h
      exact transition_of_produce hp h
    | _ => simp [step, hp] at h
  | enqueue wake =>
    cases hp : s.producer with
    | enqueuing chunk =>
      simp only [step, hp] at h
      split at h
      · cases h
      · exact transition_of_enqueue hp h
    | _ => simp [step, hp] at h
  | close =>
    cases hp : s.producer with
    | closing =>
      simp only [step, hp, Option.some.injEq] at h
      cases h
      exact .closed hp
    | _ => simp [step, hp] at h
  | dequeue t wake =>
    cases ht : s.consumers t with
    | dequeuing =>
      simp only [step, ht] at h
      split at h
      · cases h
      · exact transition_of_dequeue ht h
    | _ => simp [step, ht] at h
  | add t =>
    cases ht : s.consumers t with
    | counting chunk =>
      simp only [step, ht, Option.some.injEq] at h
      cases h
      exact .added ht
    | _ => simp [step, ht] at h
  | spuriousProducer =>
    by_cases hs : s.shared.notFull () = .asleep
    · simp only [step, hs, if_true, Option.some.injEq] at h
      cases h
      exact .producerWoken hs
    · simp [step, hs] at h
  | spuriousConsumer t =>
    by_cases hs : s.shared.notEmpty t = .asleep
    · simp only [step, hs, if_true, Option.some.injEq] at h
      cases h
      exact .consumerWoken hs
    · simp [step, hs] at h

end Program

/-! ### Control

The part of the invariant that speaks about where the threads are. -/

/-- What is true of the threads and the monitor between any two critical sections. -/
structure Control {n : ℕ} (s : State n) : Prop where
  shared : s.shared.Ok bufferCapacity
  /-- `is_done` is set by the producer's last step. -/
  done_iff : s.isDone = true ↔ s.producer = .returned
  /-- A consumer leaves only after the last chunk was taken. -/
  left : ∀ t, s.consumers t = .returned → s.isDone = true ∧ s.shared.ring.count = 0
  /-- Only a consumer at its first critical section waits. -/
  waiting : ∀ t, s.shared.notEmpty t ≠ .awake → s.consumers t = .dequeuing
  /-- After the broadcast nobody goes to sleep again. -/
  done_awake : s.isDone = true → ∀ t, s.shared.notEmpty t ≠ .asleep

section Control

variable {isWordChar : UInt8 → Bool} {n : ℕ}

theorem control_init (file : List UInt8) : Control (machine isWordChar file n).init where
  shared := BoundedBuffer.ok_empty (by decide) Chunk.zero
  done_iff := by simp [machine]
  left t ht := by simp [machine] at ht
  waiting t ht := absurd rfl ht
  done_awake hd := by simp [machine] at hd

/-- A change of the producer's place that leaves the rest alone. -/
theorem Control.setProducer {s : State n} (h : Control s) {fp : List UInt8} {b : Bool}
    {p : Producer} (hold : s.producer ≠ .returned) (hnew : p ≠ .returned) :
    Control { s with fp := fp, prevEndsInWord := b, producer := p } where
  shared := h.shared
  done_iff := by simp [h.done_iff, hold, hnew]
  left := h.left
  waiting := h.waiting
  done_awake := h.done_awake

theorem Control.isDone_eq_false {s : State n} (h : Control s) (hp : s.producer ≠ .returned) :
    s.isDone = false := by
  cases hd : s.isDone with
  | false => rfl
  | true => exact absurd (h.done_iff.mp hd) hp

/-- A change of the monitor that puts nobody who waits elsewhere, and the consumers' places. -/
theorem Control.setShared {s : State n} (h : Control s) {b : BoundedBuffer Chunk (Fin n)}
    {total : ℕ} {consumers : Fin n → Consumer} (hok : b.Ok bufferCapacity)
    (hleft : ∀ t, consumers t = .returned → s.isDone = true ∧ b.ring.count = 0)
    (hwait : ∀ t, b.notEmpty t ≠ .awake → consumers t = .dequeuing)
    (hawake : s.isDone = true → ∀ t, b.notEmpty t ≠ .asleep) :
    Control { s with shared := b, totalWordCount := total, consumers := consumers } where
  shared := hok
  done_iff := h.done_iff
  left := hleft
  waiting := hwait
  done_awake := hawake

theorem Control.transition {s s' : State n} {es : List (Event n)} (h : Control s)
    (ht : Transition isWordChar s s' es) : Control s' := by
  cases ht with
  | eof hp => exact h.setProducer (by simp [hp]) (by simp)
  | built hp => exact h.setProducer (by simp [hp]) (by simp)
  | full hp hfull =>
    exact h.setShared (h.shared.producerWaits hfull) h.left h.waiting h.done_awake
  | @stored chunk wake shared hp hroom hs =>
    have hopen : s.isDone = false := h.isDone_eq_false (by simp [hp])
    have hs' : Control { s with shared := shared } :=
      h.setShared (h.shared.store hroom hs)
        (fun t ht => absurd (h.left t ht).1 (by simp [hopen]))
        (fun t ht => h.waiting t
          (CondVar.ne_awake_of_signal (BoundedBuffer.store_eq_some hs).1 ht))
        (fun hd => absurd hd (by simp [hopen]))
    exact hs'.setProducer (by simp [hp]) (by simp)
  | closed hp =>
    constructor
    · exact h.shared.wakeAllConsumers
    · simp
    · exact fun t ht => ⟨rfl, (h.left t ht).2⟩
    · exact fun t ht => h.waiting t (CondVar.ne_awake_of_broadcast ht)
    · exact fun _ => s.shared.notEmpty.broadcast_ne_asleep
  | @empty t ht hempty hopen =>
    refine h.setShared (h.shared.consumerWaits hempty t) h.left (fun u hu => ?_)
      (fun hd => absurd hd (by simp [hopen]))
    rcases CondVar.ne_awake_of_sleep hu with rfl | hu'
    · exact ht
    · exact h.waiting u hu'
  | @left t ht hempty hdone =>
    refine h.setShared (h.shared.consumerLeaves hempty t) (fun _ _ => ⟨hdone, hempty⟩)
      (fun u hu => ?_) (fun hd u hu => h.done_awake hd u (CondVar.asleep_of_resume hu))
    obtain ⟨hne, hu'⟩ := CondVar.ne_awake_of_resume hu
    rw [Function.update_of_ne hne]
    exact h.waiting u hu'
  | @fetched t wake q ht hpos hf =>
    have hempty : q.2.notEmpty = s.shared.notEmpty.resume t :=
      (BoundedBuffer.fetch_eq_some hf).2.2
    refine h.setShared (h.shared.fetch hpos hf) (fun u hu => ?_) (fun u hu => ?_)
      (fun hd u hu => h.done_awake hd u (CondVar.asleep_of_resume (hempty ▸ hu)))
    · -- somebody has left, so the buffer was empty: nothing could be fetched
      rcases eq_or_ne u t with rfl | hne
      · simp at hu
      · rw [Function.update_of_ne hne] at hu
        exact absurd (h.left u hu).2 hpos
    · rw [hempty] at hu
      obtain ⟨hne, hu'⟩ := CondVar.ne_awake_of_resume hu
      rw [Function.update_of_ne hne]
      exact h.waiting u hu'
  | @added t chunk ht =>
    refine h.setShared h.shared (fun u hu => ?_) (fun u hu => ?_) h.done_awake
    · rcases eq_or_ne u t with rfl | hne
      · simp at hu
      · rw [Function.update_of_ne hne] at hu
        exact h.left u hu
    · rcases eq_or_ne u t with rfl | hne
      · simp
      · rw [Function.update_of_ne hne]
        exact h.waiting u hu
  | producerWoken =>
    exact h.setShared h.shared.wakeProducer h.left h.waiting h.done_awake
  | @consumerWoken t hs =>
    exact h.setShared (h.shared.wakeConsumer hs) h.left
      (fun u hu => h.waiting u (CondVar.ne_awake_of_wake hs hu))
      (fun hd u hu => h.done_awake hd u (CondVar.asleep_of_wake hu))

/-- The control invariant holds in every state of every run. -/
theorem control_of_run {file : List UInt8} {as : List (Act n)} {s : State n}
    {es : List (Event n)} (h : (machine isWordChar file n).run as = some (s, es)) : Control s :=
  Machine.run_invariant_state (control_init file)
    (fun _ _ _ _ hc hs => hc.transition (transition_of_step hs)) h

end Control

end WcMtOverlap

end SystemProgramming
