import SystemProgramming.Library.CondVar
import SystemProgramming.Library.RingBuffer

/-!
# The bounded buffer monitor

One producer and any number of consumers share a circular buffer, under one mutex, with a
condition variable for each of the two reasons to wait. The operations are the bodies of the
critical sections once their `while` guard has been decided: `store` and `fetch` when it is false,
`producerWaits` and `consumerWaits` when it is true. A program built on the monitor adds its own
control state and guards.

`Ok` is the invariant, and there is one lemma per operation. It combines the agreement of the ring
buffer's indices with the two statements that make signalling *one* waiter per operation enough:
`consumers_covered` for the consumers, which counts, and `producer_full` for the single producer,
which need not.

## Why no wakeup is lost

It is not true that every stored item has been announced to a consumer of its own: a consumer that
comes in while a woken one has not yet run takes the item, and the woken one finds nothing. What is
true is weaker and kept by all operations. While a consumer sleeps, at least as many others have
been woken as there are items; each of these will look again before it sleeps, so no item stays
behind with only sleepers around. For the single producer nothing has to be counted: it sleeps on a
full buffer only.

The guards are not part of the operations. A program whose guard is an `if`, or one that tests
another variable besides the counter, uses the same operations and has other things to prove of
them.
-/

namespace SystemProgramming

/-- The shared state of a bounded buffer with items in `α` and consumers `ι`. -/
structure BoundedBuffer (α ι : Type*) where
  /-- The array, its two indices and its counter. -/
  ring : RingBuffer α
  /-- Where consumers wait for an item. -/
  notEmpty : CondVar ι
  /-- Where the producer waits for a free slot. -/
  notFull : CondVar Unit

namespace BoundedBuffer

variable {α ι : Type*} {cap : ℕ}

/-- Nothing stored and nobody waiting; every slot holds `x`. -/
def empty (ι : Type*) (x : α) : BoundedBuffer α ι := ⟨.empty x, .idle ι, .idle Unit⟩

/-- The producer found the buffer full. -/
def producerWaits (b : BoundedBuffer α ι) : BoundedBuffer α ι :=
  { b with notFull := b.notFull.sleep () }

/-- The producer is woken by nobody. -/
def wakeProducer (b : BoundedBuffer α ι) : BoundedBuffer α ι :=
  { b with notFull := b.notFull.wake () }

/-- All consumers are woken. -/
def wakeAllConsumers (b : BoundedBuffer α ι) : BoundedBuffer α ι :=
  { b with notEmpty := b.notEmpty.broadcast }

section

variable [DecidableEq ι]

/-- Consumer `t` found the buffer empty. -/
def consumerWaits (b : BoundedBuffer α ι) (t : ι) : BoundedBuffer α ι :=
  { b with notEmpty := b.notEmpty.sleep t }

/-- Consumer `t` is woken by nobody. -/
def wakeConsumer (b : BoundedBuffer α ι) (t : ι) : BoundedBuffer α ι :=
  { b with notEmpty := b.notEmpty.wake t }

/-- Consumer `t` leaves the guard without taking an item. -/
def consumerLeaves (b : BoundedBuffer α ι) (t : ι) : BoundedBuffer α ι :=
  { b with notEmpty := b.notEmpty.resume t }

/-- Consumer `t` takes the oldest item and signals `notFull`. -/
def fetch (cap : ℕ) (b : BoundedBuffer α ι) (t : ι) (wake : Option Unit) :
    Option (α × BoundedBuffer α ι) :=
  (b.notFull.signal wake).map fun notFull =>
    ((b.ring.take cap).1, ⟨(b.ring.take cap).2, b.notEmpty.resume t, notFull⟩)

variable [Fintype ι]

/-- The producer stores `x` and signals `notEmpty`. -/
def store (cap : ℕ) (b : BoundedBuffer α ι) (x : α) (wake : Option ι) :
    Option (BoundedBuffer α ι) :=
  (b.notEmpty.signal wake).map fun notEmpty =>
    ⟨b.ring.put cap x, notEmpty, b.notFull.resume ()⟩

end

variable [Fintype ι]

/-- The invariant of the monitor. -/
structure Ok (cap : ℕ) (b : BoundedBuffer α ι) : Prop where
  /-- The indices agree with the counter. -/
  ring : b.ring.Valid cap
  /-- While a consumer sleeps, every stored item has a woken consumer of its own. -/
  consumers_covered : b.notEmpty.Covers b.ring.count
  /-- The producer sleeps only on a full buffer. -/
  producer_full : b.notFull () = .asleep → b.ring.count = cap

theorem ok_empty (hcap : 0 < cap) (x : α) : (empty ι x).Ok cap where
  ring := RingBuffer.valid_empty hcap x
  consumers_covered := CondVar.covers_of_nonpos le_rfl
  producer_full h := by simp [empty, CondVar.idle] at h

theorem Ok.producerWaits {b : BoundedBuffer α ι} (h : b.Ok cap) (hfull : b.ring.count = cap) :
    b.producerWaits.Ok cap where
  ring := h.ring
  consumers_covered := h.consumers_covered
  producer_full _ := hfull

theorem Ok.wakeProducer {b : BoundedBuffer α ι} (h : b.Ok cap) : b.wakeProducer.Ok cap where
  ring := h.ring
  consumers_covered := h.consumers_covered
  producer_full hs := by simp [BoundedBuffer.wakeProducer, CondVar.wake] at hs

theorem Ok.wakeAllConsumers {b : BoundedBuffer α ι} (h : b.Ok cap) :
    b.wakeAllConsumers.Ok cap where
  ring := h.ring
  consumers_covered := CondVar.covers_of_no_sleeper b.notEmpty.broadcast_ne_asleep
  producer_full := h.producer_full

/-- While items are stored and a consumer sleeps, another one is woken. -/
theorem Ok.exists_woken {b : BoundedBuffer α ι} (h : b.Ok cap) (hpos : 0 < b.ring.count)
    (hs : b.notEmpty.sleepers.Nonempty) : ∃ t, b.notEmpty t = .woken := by
  have hcard := h.consumers_covered hs
  obtain ⟨t, ht⟩ : b.notEmpty.wokenSet.Nonempty := by
    rw [← Finset.card_pos]
    omega
  exact ⟨t, CondVar.mem_wokenSet.mp ht⟩

variable [DecidableEq ι]

theorem Ok.consumerWaits {b : BoundedBuffer α ι} (h : b.Ok cap) (hempty : b.ring.count = 0)
    (t : ι) : (b.consumerWaits t).Ok cap where
  ring := h.ring
  consumers_covered := CondVar.covers_of_nonpos hempty.le
  producer_full := h.producer_full

theorem Ok.wakeConsumer {b : BoundedBuffer α ι} (h : b.Ok cap) {t : ι}
    (ht : b.notEmpty t = .asleep) : (b.wakeConsumer t).Ok cap where
  ring := h.ring
  consumers_covered := (h.consumers_covered.wake ht).mono (by
    show b.ring.count ≤ b.ring.count + 1
    omega)
  producer_full := h.producer_full

theorem Ok.consumerLeaves {b : BoundedBuffer α ι} (h : b.Ok cap) (hempty : b.ring.count = 0)
    (t : ι) : (b.consumerLeaves t).Ok cap where
  ring := h.ring
  consumers_covered := CondVar.covers_of_nonpos hempty.le
  producer_full := h.producer_full

/-- What `store` does. -/
theorem store_eq_some {b b' : BoundedBuffer α ι} {x : α} {wake : Option ι}
    (h : b.store cap x wake = some b') :
    b.notEmpty.signal wake = some b'.notEmpty ∧ b'.ring = b.ring.put cap x ∧
      b'.notFull = b.notFull.resume () := by
  obtain ⟨c, hc, rfl⟩ := Option.map_eq_some_iff.mp h
  exact ⟨hc, rfl, rfl⟩

theorem Ok.store {b b' : BoundedBuffer α ι} (h : b.Ok cap) (hroom : b.ring.count ≠ cap) {x : α}
    {wake : Option ι} (hs : b.store cap x wake = some b') : b'.Ok cap := by
  obtain ⟨hsig, hring, hfull⟩ := store_eq_some hs
  have hlt : b.ring.count < cap := lt_of_le_of_ne h.ring.count_le hroom
  constructor
  · rw [hring]
    exact h.ring.put hlt x
  · rw [hring]
    exact h.consumers_covered.signal hsig
  · intro hsleep
    simp [hfull, CondVar.resume] at hsleep

omit [Fintype ι] in
/-- What `fetch` does. -/
theorem fetch_eq_some {b : BoundedBuffer α ι} {t : ι} {wake : Option Unit}
    {q : α × BoundedBuffer α ι} (h : b.fetch cap t wake = some q) :
    b.notFull.signal wake = some q.2.notFull ∧ (q.1, q.2.ring) = b.ring.take cap ∧
      q.2.notEmpty = b.notEmpty.resume t := by
  obtain ⟨c, hc, rfl⟩ := Option.map_eq_some_iff.mp h
  exact ⟨hc, rfl, rfl⟩

theorem Ok.fetch {b : BoundedBuffer α ι} (h : b.Ok cap) (hpos : b.ring.count ≠ 0) {t : ι}
    {wake : Option Unit} {q : α × BoundedBuffer α ι} (hf : b.fetch cap t wake = some q) :
    q.2.Ok cap := by
  obtain ⟨hsig, hring, hempty⟩ := fetch_eq_some hf
  have hring' : q.2.ring = (b.ring.take cap).2 := congrArg Prod.snd hring
  have hlt : 0 < b.ring.count := lt_of_le_of_ne h.ring.count_nonneg hpos.symm
  constructor
  · rw [hring']
    exact h.ring.take hlt
  · rw [hring', hempty]
    exact h.consumers_covered.resume t
  · intro hsleep
    -- the only possible waiter was signalled, so it cannot sleep any more
    obtain ⟨u, -, -, hc⟩ | ⟨hn, hc⟩ := CondVar.signal_cases hsig
    · simp [hc, CondVar.wake] at hsleep
    · exact absurd (hc ▸ hsleep) (hn ())

/-- A stored item comes last, and a fetched one was first. -/
theorem toList_store {b b' : BoundedBuffer α ι} (h : b.Ok cap) (hroom : b.ring.count ≠ cap)
    {x : α} {wake : Option ι} (hs : b.store cap x wake = some b') :
    b'.ring.toList cap = b.ring.toList cap ++ [x] := by
  obtain ⟨-, hring, -⟩ := store_eq_some hs
  rw [hring, RingBuffer.toList_put h.ring (lt_of_le_of_ne h.ring.count_le hroom)]

theorem toList_fetch {b : BoundedBuffer α ι} (h : b.Ok cap) (hpos : b.ring.count ≠ 0) {t : ι}
    {wake : Option Unit} {q : α × BoundedBuffer α ι} (hf : b.fetch cap t wake = some q) :
    b.ring.toList cap = q.1 :: q.2.ring.toList cap := by
  obtain ⟨-, hring, -⟩ := fetch_eq_some hf
  have hlt : 0 < b.ring.count := lt_of_le_of_ne h.ring.count_nonneg hpos.symm
  rw [RingBuffer.toList_eq_take_cons h.ring hlt, ← hring]

/-- Some choice of the waiter to wake makes the operation possible. -/
theorem exists_store (b : BoundedBuffer α ι) (x : α) : ∃ wake, (b.store cap x wake).isSome := by
  obtain ⟨wake, c, hc⟩ := b.notEmpty.exists_signal
  exact ⟨wake, by simp [BoundedBuffer.store, hc]⟩

omit [Fintype ι] in
theorem exists_fetch (b : BoundedBuffer α ι) (t : ι) : ∃ wake, (b.fetch cap t wake).isSome := by
  obtain ⟨wake, c, hc⟩ := b.notFull.exists_signal
  exact ⟨wake, by simp [BoundedBuffer.fetch, hc]⟩

end BoundedBuffer

end SystemProgramming
