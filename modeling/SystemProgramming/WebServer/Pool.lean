import SystemProgramming.Library.BoundedBuffer
import SystemProgramming.Library.Machine

/-!
# The thread pool of `webserver-mt`

`lab9-lyjae/webserver-mt.c` accepts connections in `main` and hands the descriptors to
`THREAD_POOL_SIZE` workers through a circular queue of `MAX_QUEUE` slots. `queue`, `front`,
`rear` and `count` are touched only inside `enqueue` and `dequeue`, between `pthread_mutex_lock`
and `pthread_mutex_unlock` (or `pthread_cond_wait`), so each of these critical sections is one
step. What `handle_request` does with a descriptor touches none of the shared variables: here it
is a worker's place, and the step that ends it may come at any later time, or never.

A thread inside `pthread_cond_wait` stays at its critical section, as in
`SystemProgramming.WordCount.Overlap`.

## What is assumed

`accept` returns some descriptor; when it fails, `main` calls it again, and nothing has changed. As
in `SystemProgramming.WordCount.Overlap`, a signal wakes any of the sleepers, and sleepers may wake
up by themselves. The number of connections is not limited, and neither is the number of
descriptors. The workers are the `THREAD_POOL_SIZE` threads that `main` starts before it accepts;
starting them succeeds.

## How it goes

A descriptor is in one place at a time: in the hand of `main`, in the queue, or in the hand of a
worker. `Ledger` says this by the record of the run. What `accept` has returned is what has been
stored and what `main` has in hand; what has been stored is what has been removed and what is in the
queue, in order; what a worker has removed is what it has finished and what it is working at. Each
step moves one descriptor from one of these places to the next. The wakeups are those of
`Library.BoundedBuffer`, whose invariant is a field of the ledger.

## Main definitions

* `State`, `Act`, `step`, `machine` — the program
* `Transition` — what a step can do
* `Ledger` — the invariant: the queue's monitor, and the account of every descriptor

## Main results

* `queue_hands_each_connection_to_one_worker` — the queue is a queue
* `pool_strands_no_request` — no wakeup is lost
-/

namespace SystemProgramming

namespace ThreadPool

def maxQueue : ℕ := 16

def threadPoolSize : ℕ := 4

instance : NeZero threadPoolSize := ⟨by decide⟩

/-- One of the threads that `main` creates. -/
abbrev Worker := Fin threadPoolSize

/-- Where `main` is, in its loop. -/
inductive Acceptor
  /-- At `accept`. -/
  | accepting
  /-- In `enqueue(client_fd)`. -/
  | enqueuing (clientFd : ℤ)
  deriving DecidableEq, Repr

/-- Where a worker is, in the loop of `worker_thread`. -/
inductive WorkerThread
  /-- In `dequeue()`. -/
  | dequeuing
  /-- In `handle_request(client_fd)`. -/
  | handling (clientFd : ℤ)
  deriving DecidableEq, Repr

structure State where
  acceptor : Acceptor
  /-- `queue`, `front`, `rear`, `count`, `cond_nonempty` and `cond_nonfull`. -/
  shared : BoundedBuffer ℤ Worker
  workers : Worker → WorkerThread

/-- The choices of the scheduler and of the network. -/
inductive Act
  /-- `accept` returns `clientFd`. -/
  | accept (clientFd : ℤ)
  /-- The critical section of `enqueue`; `wake` is the worker its signal wakes. -/
  | enqueue (wake : Option Worker)
  /-- The critical section of `dequeue` in worker `t`; `wake` is the thread its signal wakes. -/
  | dequeue (t : Worker) (wake : Option Unit)
  /-- `handle_request` returns in worker `t`. -/
  | handled (t : Worker)
  /-- `main` wakes up spuriously. -/
  | spuriousAcceptor
  /-- Worker `t` wakes up spuriously. -/
  | spuriousWorker (t : Worker)
  deriving DecidableEq, Repr

/-- What a run is judged by. -/
inductive Event
  /-- `accept` returned the descriptor of a connection. -/
  | accepted (clientFd : ℤ)
  /-- The descriptor was stored in the queue. -/
  | enqueued (clientFd : ℤ)
  /-- `dequeue` in worker `t` removed the descriptor. -/
  | dequeued (t : Worker) (clientFd : ℤ)
  /-- `handle_request(client_fd)` returned in worker `t`. -/
  | handled (t : Worker) (clientFd : ℤ)
  deriving DecidableEq, Repr

/-- The body of `main`'s loop up to `enqueue`. -/
def accept (s : State) (clientFd : ℤ) : State × List Event :=
  if clientFd < 0 then (s, [])
  else ({ s with acceptor := .enqueuing clientFd }, [.accepted clientFd])

def enqueue (s : State) (clientFd : ℤ) (wake : Option Worker) : Option (State × List Event) :=
  if s.shared.ring.count = maxQueue then
    some ({ s with shared := s.shared.producerWaits }, [])
  else
    (s.shared.store maxQueue clientFd wake).map fun shared =>
      ({ s with shared := shared, acceptor := .accepting }, [.enqueued clientFd])

def dequeue (s : State) (t : Worker) (wake : Option Unit) : Option (State × List Event) :=
  if s.shared.ring.count = 0 then
    some ({ s with shared := s.shared.consumerWaits t }, [])
  else
    (s.shared.fetch maxQueue t wake).map fun q =>
      ({ s with
          shared := q.2
          workers := Function.update s.workers t (.handling q.1) }, [.dequeued t q.1])

/-- One step of the program. -/
def step (s : State) : Act → Option (State × List Event)
  | .accept clientFd =>
    match s.acceptor with
    | .accepting => some (accept s clientFd)
    | _ => none
  | .enqueue wake =>
    match s.acceptor with
    | .enqueuing clientFd =>
      if s.shared.notFull () = .asleep then none else enqueue s clientFd wake
    | _ => none
  | .dequeue t wake =>
    match s.workers t with
    | .dequeuing => if s.shared.notEmpty t = .asleep then none else dequeue s t wake
    | _ => none
  | .handled t =>
    match s.workers t with
    | .handling clientFd =>
      some ({ s with workers := Function.update s.workers t .dequeuing }, [.handled t clientFd])
    | _ => none
  | .spuriousAcceptor =>
    if s.shared.notFull () = .asleep then
      some ({ s with shared := s.shared.wakeProducer }, [])
    else none
  | .spuriousWorker t =>
    if s.shared.notEmpty t = .asleep then
      some ({ s with shared := s.shared.wakeConsumer t }, [])
    else none

/-- The program, from the moment `main` enters its loop. -/
def machine : Machine State Act Event where
  init := ⟨.accepting, .empty Worker 0, fun _ => .dequeuing⟩
  step := step

/-! ### The record of a run -/

/-- The descriptors `accept` returned, in order. -/
def acceptedFds (es : List Event) : List ℤ :=
  es.filterMap fun
    | .accepted clientFd => some clientFd
    | _ => none

/-- The descriptors stored in the queue, in order. -/
def enqueuedFds (es : List Event) : List ℤ :=
  es.filterMap fun
    | .enqueued clientFd => some clientFd
    | _ => none

/-- The descriptors removed from the queue, in order, each with the worker it was handed to. -/
def dequeuedFds (es : List Event) : List (Worker × ℤ) :=
  es.filterMap fun
    | .dequeued t clientFd => some (t, clientFd)
    | _ => none

/-- The descriptors `handle_request` has returned for, in order, each with the worker. -/
def handledFds (es : List Event) : List (Worker × ℤ) :=
  es.filterMap fun
    | .handled t clientFd => some (t, clientFd)
    | _ => none

/-- The share of worker `t`. -/
def fdsOf (t : Worker) (fds : List (Worker × ℤ)) : List ℤ :=
  fds.filterMap fun x => if x.1 = t then some x.2 else none

/-- The descriptor `main` has accepted and not yet stored. -/
def Acceptor.inHand : Acceptor → List ℤ
  | .accepting => []
  | .enqueuing clientFd => [clientFd]

/-- The descriptor a worker has removed and not yet finished. -/
def WorkerThread.inHand : WorkerThread → List ℤ
  | .dequeuing => []
  | .handling clientFd => [clientFd]

section Append

variable (es es' : List Event)

@[simp] theorem acceptedFds_append : acceptedFds (es ++ es') = acceptedFds es ++ acceptedFds es' :=
  List.filterMap_append ..

@[simp] theorem enqueuedFds_append : enqueuedFds (es ++ es') = enqueuedFds es ++ enqueuedFds es' :=
  List.filterMap_append ..

@[simp] theorem dequeuedFds_append : dequeuedFds (es ++ es') = dequeuedFds es ++ dequeuedFds es' :=
  List.filterMap_append ..

@[simp] theorem handledFds_append : handledFds (es ++ es') = handledFds es ++ handledFds es' :=
  List.filterMap_append ..

end Append

theorem fdsOf_append (t : Worker) (fds fds' : List (Worker × ℤ)) :
    fdsOf t (fds ++ fds') = fdsOf t fds ++ fdsOf t fds' :=
  List.filterMap_append ..

theorem fdsOf_singleton (t u : Worker) (clientFd : ℤ) :
    fdsOf t [(u, clientFd)] = if u = t then [clientFd] else [] := by
  by_cases h : u = t <;> simp [fdsOf, h]

/-! ### What a step can do -/

/-- The possible steps, one constructor for each way through the code. -/
inductive Transition (s : State) : State → List Event → Prop
  /-- `accept` failed. -/
  | refused (ha : s.acceptor = .accepting) : Transition s s []
  | accepted {clientFd : ℤ} (ha : s.acceptor = .accepting) :
    Transition s { s with acceptor := .enqueuing clientFd } [.accepted clientFd]
  /-- `main` found the queue full. -/
  | full {clientFd : ℤ} (ha : s.acceptor = .enqueuing clientFd)
    (hfull : s.shared.ring.count = maxQueue) :
    Transition s { s with shared := s.shared.producerWaits } []
  | enqueued {clientFd : ℤ} {wake : Option Worker} {shared : BoundedBuffer ℤ Worker}
    (ha : s.acceptor = .enqueuing clientFd) (hroom : s.shared.ring.count ≠ maxQueue)
    (hs : s.shared.store maxQueue clientFd wake = some shared) :
    Transition s { s with shared := shared, acceptor := .accepting } [.enqueued clientFd]
  /-- Worker `t` found the queue empty. -/
  | empty {t : Worker} (ht : s.workers t = .dequeuing) (hempty : s.shared.ring.count = 0) :
    Transition s { s with shared := s.shared.consumerWaits t } []
  | dequeued {t : Worker} {wake : Option Unit} {q : ℤ × BoundedBuffer ℤ Worker}
    (ht : s.workers t = .dequeuing) (hpos : s.shared.ring.count ≠ 0)
    (hf : s.shared.fetch maxQueue t wake = some q) :
    Transition s
      { s with
        shared := q.2
        workers := Function.update s.workers t (.handling q.1) } [.dequeued t q.1]
  | handled {t : Worker} {clientFd : ℤ} (ht : s.workers t = .handling clientFd) :
    Transition s { s with workers := Function.update s.workers t .dequeuing }
      [.handled t clientFd]
  | acceptorWoken (hs : s.shared.notFull () = .asleep) :
    Transition s { s with shared := s.shared.wakeProducer } []
  | workerWoken {t : Worker} (hs : s.shared.notEmpty t = .asleep) :
    Transition s { s with shared := s.shared.wakeConsumer t } []

theorem transition_of_accept {s s' : State} {es : List Event} {clientFd : ℤ}
    (ha : s.acceptor = .accepting) (h : accept s clientFd = (s', es)) : Transition s s' es := by
  rw [accept] at h
  split at h
  · cases h
    exact .refused ha
  · cases h
    exact .accepted ha

theorem transition_of_enqueue {s s' : State} {es : List Event} {clientFd : ℤ}
    {wake : Option Worker} (ha : s.acceptor = .enqueuing clientFd)
    (h : enqueue s clientFd wake = some (s', es)) : Transition s s' es := by
  rw [enqueue] at h
  split at h
  · rename_i hfull
    cases h
    exact .full ha hfull
  · rename_i hroom
    obtain ⟨shared, hs, heq⟩ := Option.map_eq_some_iff.mp h
    cases heq
    exact .enqueued ha hroom hs

theorem transition_of_dequeue {s s' : State} {es : List Event} {t : Worker} {wake : Option Unit}
    (ht : s.workers t = .dequeuing) (h : dequeue s t wake = some (s', es)) :
    Transition s s' es := by
  rw [dequeue] at h
  split at h
  · rename_i hempty
    cases h
    exact .empty ht hempty
  · rename_i hpos
    obtain ⟨q, hf, heq⟩ := Option.map_eq_some_iff.mp h
    cases heq
    exact .dequeued ht hpos hf

/-- **Inversion of a step.** -/
theorem transition_of_step {s s' : State} {a : Act} {es : List Event}
    (h : step s a = some (s', es)) : Transition s s' es := by
  cases a with
  | accept clientFd =>
    cases ha : s.acceptor with
    | accepting =>
      simp only [step, ha, Option.some.injEq] at h
      exact transition_of_accept ha h
    | enqueuing => simp [step, ha] at h
  | enqueue wake =>
    cases ha : s.acceptor with
    | enqueuing clientFd =>
      simp only [step, ha] at h
      split at h
      · cases h
      · exact transition_of_enqueue ha h
    | accepting => simp [step, ha] at h
  | dequeue t wake =>
    cases ht : s.workers t with
    | dequeuing =>
      simp only [step, ht] at h
      split at h
      · cases h
      · exact transition_of_dequeue ht h
    | handling => simp [step, ht] at h
  | handled t =>
    cases ht : s.workers t with
    | handling clientFd =>
      simp only [step, ht, Option.some.injEq] at h
      cases h
      exact .handled ht
    | dequeuing => simp [step, ht] at h
  | spuriousAcceptor =>
    by_cases hs : s.shared.notFull () = .asleep
    · simp only [step, hs, if_true, Option.some.injEq] at h
      cases h
      exact .acceptorWoken hs
    · simp [step, hs] at h
  | spuriousWorker t =>
    by_cases hs : s.shared.notEmpty t = .asleep
    · simp only [step, hs, if_true, Option.some.injEq] at h
      cases h
      exact .workerWoken hs
    · simp [step, hs] at h

/-! ### The ledger -/

/-- What holds between any two steps, of the state and the events so far. -/
structure Ledger (es : List Event) (s : State) : Prop where
  /-- The monitor of the queue. -/
  shared : s.shared.Ok maxQueue
  /-- Only a worker in `dequeue` waits. -/
  waiting : ∀ t, s.shared.notEmpty t ≠ .awake → s.workers t = .dequeuing
  /-- What was accepted is stored, or is about to be. -/
  accepted : acceptedFds es = enqueuedFds es ++ s.acceptor.inHand
  /-- What was stored is removed, in order, or still in the queue. -/
  enqueued : enqueuedFds es = (dequeuedFds es).map Prod.snd ++ s.shared.ring.toList maxQueue
  /-- What a worker removed it has handled, or is handling. -/
  handled : ∀ t, fdsOf t (dequeuedFds es) = fdsOf t (handledFds es) ++ (s.workers t).inHand

theorem ledger_init : Ledger [] machine.init where
  shared := BoundedBuffer.ok_empty (by decide) 0
  waiting _ ht := absurd rfl ht
  accepted := rfl
  enqueued := rfl
  handled _ := rfl

/-- A change of the monitor alone that leaves the queue as it is. -/
theorem Ledger.setShared {es : List Event} {s : State} (h : Ledger es s)
    {b : BoundedBuffer ℤ Worker} (hok : b.Ok maxQueue) (hring : b.ring = s.shared.ring)
    (hwait : ∀ t, b.notEmpty t ≠ .awake → s.workers t = .dequeuing) :
    Ledger es { s with shared := b } where
  shared := hok
  waiting := hwait
  accepted := h.accepted
  enqueued := by rw [h.enqueued, hring]
  handled := h.handled

/-- Storing the descriptor in `main`'s hand. -/
theorem Ledger.enqueue {es : List Event} {s : State} (h : Ledger es s) {clientFd : ℤ}
    {wake : Option Worker} {shared : BoundedBuffer ℤ Worker}
    (ha : s.acceptor = .enqueuing clientFd) (hroom : s.shared.ring.count ≠ maxQueue)
    (hs : s.shared.store maxQueue clientFd wake = some shared) :
    Ledger (es ++ [.enqueued clientFd]) { s with shared := shared, acceptor := .accepting } where
  shared := h.shared.store hroom hs
  waiting t ht := h.waiting t
    (CondVar.ne_awake_of_signal (BoundedBuffer.store_eq_some hs).1 ht)
  accepted := by
    have hacc := h.accepted
    rw [ha] at hacc
    simpa [acceptedFds, enqueuedFds, Acceptor.inHand] using hacc
  enqueued := by
    rw [enqueuedFds_append, h.enqueued, BoundedBuffer.toList_store h.shared hroom hs]
    simp [enqueuedFds, dequeuedFds]
  handled t := by simpa [dequeuedFds, handledFds] using h.handled t

theorem Ledger.dequeue {es : List Event} {s : State} (h : Ledger es s) {t : Worker}
    {wake : Option Unit} {q : ℤ × BoundedBuffer ℤ Worker} (ht : s.workers t = .dequeuing)
    (hpos : s.shared.ring.count ≠ 0) (hf : s.shared.fetch maxQueue t wake = some q) :
    Ledger (es ++ [.dequeued t q.1])
      { s with
        shared := q.2
        workers := Function.update s.workers t (.handling q.1) } where
  shared := h.shared.fetch hpos hf
  waiting u hu := by
    have hempty : q.2.notEmpty = s.shared.notEmpty.resume t :=
      (BoundedBuffer.fetch_eq_some hf).2.2
    rw [hempty] at hu
    obtain ⟨hne, hu'⟩ := CondVar.ne_awake_of_resume hu
    exact (Function.update_of_ne hne ..).trans (h.waiting u hu')
  accepted := by simpa [acceptedFds, enqueuedFds] using h.accepted
  enqueued := by
    rw [enqueuedFds_append, h.enqueued, BoundedBuffer.toList_fetch h.shared hpos hf]
    simp [enqueuedFds, dequeuedFds]
  handled u := by
    have hu := h.handled u
    rw [dequeuedFds_append, handledFds_append, fdsOf_append, fdsOf_append, hu]
    show _ ++ fdsOf u [(t, q.1)] = _ ++ [] ++ _
    rw [fdsOf_singleton]
    by_cases hut : t = u
    · subst hut
      simp [ht, WorkerThread.inHand]
    · simp [hut, Function.update_of_ne (Ne.symm hut)]

theorem Ledger.finish {es : List Event} {s : State} (h : Ledger es s) {t : Worker} {clientFd : ℤ}
    (ht : s.workers t = .handling clientFd) :
    Ledger (es ++ [.handled t clientFd])
      { s with workers := Function.update s.workers t .dequeuing } where
  shared := h.shared
  waiting u hu := by
    rcases eq_or_ne u t with rfl | hne
    · exact Function.update_self ..
    · exact (Function.update_of_ne hne ..).trans (h.waiting u hu)
  accepted := by simpa [acceptedFds, enqueuedFds] using h.accepted
  enqueued := by simpa [enqueuedFds, dequeuedFds] using h.enqueued
  handled u := by
    have hu := h.handled u
    rw [dequeuedFds_append, handledFds_append, fdsOf_append, fdsOf_append, hu]
    show _ ++ _ ++ [] = _ ++ fdsOf u [(t, clientFd)] ++ _
    rw [fdsOf_singleton]
    by_cases hut : t = u
    · subst hut
      simp [ht, WorkerThread.inHand]
    · simp [hut, Function.update_of_ne (Ne.symm hut)]

/-- **The step lemma.** -/
theorem Ledger.transition {es es' : List Event} {s s' : State} (h : Ledger es s)
    (ht : Transition s s' es') : Ledger (es ++ es') s' := by
  cases ht with
  | refused =>
    rw [List.append_nil]
    exact h
  | @accepted clientFd ha =>
    refine ⟨h.shared, h.waiting, ?_, ?_, ?_⟩
    · have hacc := h.accepted
      rw [ha] at hacc
      rw [acceptedFds_append, enqueuedFds_append, hacc]
      simp [acceptedFds, enqueuedFds, Acceptor.inHand]
    · simpa [enqueuedFds, dequeuedFds] using h.enqueued
    · intro t
      simpa [dequeuedFds, handledFds] using h.handled t
  | full ha hfull =>
    rw [List.append_nil]
    exact h.setShared (h.shared.producerWaits hfull) rfl h.waiting
  | enqueued ha hroom hs => exact h.enqueue ha hroom hs
  | @empty t ht hempty =>
    rw [List.append_nil]
    refine h.setShared (h.shared.consumerWaits hempty t) rfl ?_
    intro u hu
    rcases CondVar.ne_awake_of_sleep hu with rfl | hu'
    · exact ht
    · exact h.waiting u hu'
  | dequeued ht hpos hf => exact h.dequeue ht hpos hf
  | handled ht => exact h.finish ht
  | acceptorWoken =>
    rw [List.append_nil]
    exact h.setShared h.shared.wakeProducer rfl h.waiting
  | workerWoken hs =>
    rw [List.append_nil]
    exact h.setShared (h.shared.wakeConsumer hs) rfl
      fun u hu => h.waiting u (CondVar.ne_awake_of_wake hs hu)

/-- The ledger is balanced in every state of every run. -/
theorem ledger_of_run {as : List Act} {s : State} {es : List Event}
    (h : machine.run as = some (s, es)) : Ledger es s :=
  Machine.run_invariant ledger_init (fun _ _ _ _ _ hI hs => hI.transition (transition_of_step hs)) h

/-! ### The queue -/

/-- Dropping what was removed from what was stored leaves what is in the queue. -/
theorem Ledger.toList_eq_drop {es : List Event} {s : State} (h : Ledger es s) :
    s.shared.ring.toList maxQueue = (enqueuedFds es).drop (dequeuedFds es).length := by
  rw [h.enqueued, List.drop_left' (List.length_map _)]

/-- **The request queue hands each connection to one worker, in order.** In every state of every
run: `count` is between 0 and `MAX_QUEUE`, `front` is inside the array and `rear` is
`(front + count) % MAX_QUEUE`; slot `(front + i) % MAX_QUEUE`, for `i < count`, holds the `i`-th of
the descriptors stored and not yet removed, and there are `count` of these; the `i`-th descriptor
removed is the `i`-th stored, and what was stored is what was accepted, but for the one `main` is
storing; and what a worker removes is what it handles, in the same order, once each. -/
theorem queue_hands_each_connection_to_one_worker {as : List Act} {s : State} {es : List Event}
    (h : machine.run as = some (s, es)) :
    (0 ≤ s.shared.ring.count ∧ s.shared.ring.count ≤ maxQueue) ∧
      s.shared.ring.front < maxQueue ∧
      (s.shared.ring.rear : ℤ) = (s.shared.ring.front + s.shared.ring.count) % maxQueue ∧
      (∀ i : ℕ, (i : ℤ) < s.shared.ring.count →
        (enqueuedFds es)[(dequeuedFds es).length + i]? =
          some (s.shared.ring.slots ((s.shared.ring.front + i) % maxQueue))) ∧
      ((enqueuedFds es).length : ℤ) = (dequeuedFds es).length + s.shared.ring.count ∧
      (∀ (i : ℕ) (t : Worker) (clientFd : ℤ), (dequeuedFds es)[i]? = some (t, clientFd) →
        (enqueuedFds es)[i]? = some clientFd) ∧
      acceptedFds es = enqueuedFds es ++ s.acceptor.inHand ∧
      ∀ t, fdsOf t (dequeuedFds es) = fdsOf t (handledFds es) ++ (s.workers t).inHand := by
  have hl := ledger_of_run h
  have hring := hl.shared.ring
  refine ⟨⟨hring.count_nonneg, hring.count_le⟩, hring.front_lt, hring.rear_eq, ?_, ?_, ?_,
    hl.accepted, hl.handled⟩
  · intro i hi
    rw [← List.getElem?_drop, ← hl.toList_eq_drop, RingBuffer.getElem?_toList _ hi]
  · have hnonneg := hring.count_nonneg
    rw [hl.enqueued, List.length_append, List.length_map, RingBuffer.length_toList]
    omega
  · intro i t clientFd hi
    have hlt : i < ((dequeuedFds es).map Prod.snd).length := by
      rw [List.length_map]
      exact (List.getElem?_eq_some_iff.mp hi).1
    rw [hl.enqueued, List.getElem?_append_left hlt, List.getElem?_map, hi]
    rfl

/-- Two connections, and a worker that takes the first. -/
theorem queue_hands_each_connection_to_one_worker_two :
    ∃ q, machine.run [.accept 5, .enqueue none, .accept (-1), .accept 6, .enqueue none,
        .dequeue 2 none] = some q ∧
      dequeuedFds q.2 = [(2, 5)] ∧ (enqueuedFds q.2)[0]? = some 5 := by
  have hend : (machine.run [.accept 5, .enqueue none, .accept (-1), .accept 6, .enqueue none,
      .dequeue 2 none]).any (fun q => decide (dequeuedFds q.2 = [(2, 5)])) := by decide
  obtain ⟨q, hrun, hq⟩ := (Option.any_eq_true _ _).mp hend
  have hq := of_decide_eq_true hq
  refine ⟨q, hrun, hq, ?_⟩
  have hfifo := (queue_hands_each_connection_to_one_worker hrun).2.2.2.2.2.1
  exact hfifo 0 2 5 (by rw [hq]; rfl)

/-! ### The wakeups -/

/-- A worker in `dequeue` that does not sleep can take a step. -/
theorem exists_dequeue {s : State} {t : Worker} (ht : s.workers t = .dequeuing)
    (hawake : s.shared.notEmpty t ≠ .asleep) : ∃ wake, (step s (.dequeue t wake)).isSome := by
  by_cases hempty : s.shared.ring.count = 0
  · exact ⟨none, by simp [step, ht, hawake, dequeue, hempty]⟩
  · obtain ⟨wake, hwake⟩ : ∃ wake, (s.shared.fetch maxQueue t wake).isSome :=
      s.shared.exists_fetch t
    refine ⟨wake, ?_⟩
    simpa [step, ht, hawake, dequeue, hempty] using hwake

/-- **The thread pool strands no request.** In every state of every run: if a worker sleeps
un-signalled on `cond_nonempty` then at least `count` workers are woken and not yet rescheduled;
if `main` sleeps un-signalled on `cond_nonfull` then the queue is full; so while a connection is
queued and some worker sleeps, another worker has a wakeup pending, and can enter `dequeue`. -/
theorem pool_strands_no_request {as : List Act} {s : State} {es : List Event}
    (h : machine.run as = some (s, es)) :
    (s.shared.notEmpty.sleepers.Nonempty →
        s.shared.ring.count ≤ s.shared.notEmpty.wokenSet.card) ∧
      (s.shared.notFull () = .asleep → s.shared.ring.count = maxQueue) ∧
      (0 < s.shared.ring.count → s.shared.notEmpty.sleepers.Nonempty →
        ∃ t wake, s.shared.notEmpty t = .woken ∧ (step s (.dequeue t wake)).isSome) := by
  have hl := ledger_of_run h
  refine ⟨hl.shared.consumers_covered, hl.shared.producer_full, ?_⟩
  intro hpos hs
  obtain ⟨t, ht⟩ := hl.shared.exists_woken hpos hs
  obtain ⟨wake, hwake⟩ := exists_dequeue (hl.waiting t (by simp [ht])) (by simp [ht])
  exact ⟨t, wake, ht, hwake⟩

/-- Two sleeping workers and one connection: one of them has been woken. -/
theorem pool_strands_no_request_one :
    ∃ q, machine.run [.dequeue 0 none, .dequeue 1 none, .accept 5, .enqueue (some 1)] = some q ∧
      q.1.shared.ring.count = 1 ∧ q.1.shared.notEmpty 0 = .asleep ∧
      ∃ t wake, q.1.shared.notEmpty t = .woken ∧ (step q.1 (.dequeue t wake)).isSome := by
  have hend : (machine.run [.dequeue 0 none, .dequeue 1 none, .accept 5, .enqueue (some 1)]).any
      (fun q => decide (q.1.shared.ring.count = 1 ∧ q.1.shared.notEmpty 0 = .asleep)) := by
    decide
  obtain ⟨q, hrun, hq⟩ := (Option.any_eq_true _ _).mp hend
  obtain ⟨hcount, hsleep⟩ := of_decide_eq_true hq
  refine ⟨q, hrun, hcount, hsleep, ?_⟩
  exact (pool_strands_no_request hrun).2.2 (by omega)
    (CondVar.sleepers_nonempty.mpr ⟨0, hsleep⟩)

end ThreadPool

end SystemProgramming
