import SystemProgramming.WordCount.Overlap

/-!
# `wc_mt_overlap` never deadlocks

`Control` already says what the wakeups are good for: while a consumer sleeps, every stored chunk
has a woken consumer of its own, and the producer sleeps only on a full buffer. Here it is turned
into progress. The only way for all threads to be stuck is to sleep, and they cannot all sleep:
a sleeping producer means a full buffer, a full buffer means stored chunks, and stored chunks mean
that some consumer is woken if one sleeps. A spurious wakeup is never needed.

## How it goes

The invariant is that of `Overlap`, and nothing has to be added to it. The proof looks at the
producer first. If it can go on, it does. If it has returned, `is_done` is set, no consumer sleeps,
and each that has not returned can take its step. If it sleeps, the buffer is full, so there is a
stored chunk, and a consumer that is awake or has been woken for it. Only the case of no consumer at
all has to be kept out, for which there is the hypothesis.

## Main results

* `enabled_of_control` — if some thread has not returned, some thread can take a step
* `overlap_no_lost_wakeup` — the statement about all reachable states
-/

namespace SystemProgramming

namespace WcMtOverlap

variable {isWordChar : UInt8 → Bool} {n : ℕ}

/-- A step that no spurious wakeup is needed for. -/
abbrev CanMove (isWordChar : UInt8 → Bool) (file : List UInt8) (s : State n) : Prop :=
  (machine isWordChar file n).Enabled (fun a => ¬ a.IsSpurious) s

section Moves

variable {file : List UInt8} {s : State n}

theorem canMove_of_reading (hp : s.producer = .reading) : CanMove isWordChar file s :=
  ⟨.read, id, by simp [machine, step, hp]⟩

theorem canMove_of_closing (hp : s.producer = .closing) : CanMove isWordChar file s :=
  ⟨.close, id, by simp [machine, step, hp]⟩

/-- The producer at its critical section can enter it unless it sleeps. -/
theorem canMove_of_enqueuing {chunk : Chunk} (hp : s.producer = .enqueuing chunk)
    (hawake : s.shared.notFull () ≠ .asleep) : CanMove isWordChar file s := by
  by_cases hfull : s.shared.ring.count = bufferCapacity
  · exact ⟨.enqueue none, id, by simp [machine, step, hp, hawake, enqueue, hfull]⟩
  · obtain ⟨wake, hwake⟩ : ∃ wake, (s.shared.store bufferCapacity chunk wake).isSome :=
      s.shared.exists_store chunk
    refine ⟨.enqueue wake, id, ?_⟩
    simpa [machine, step, hp, hawake, enqueue, hfull] using hwake

/-- A consumer at its first critical section can enter it unless it sleeps. -/
theorem canMove_of_dequeuing {t : Fin n} (ht : s.consumers t = .dequeuing)
    (hawake : s.shared.notEmpty t ≠ .asleep) : CanMove isWordChar file s := by
  by_cases hempty : s.shared.ring.count = 0
  · refine ⟨.dequeue t none, id, ?_⟩
    cases hd : s.isDone <;> simp [machine, step, ht, hawake, dequeue, hempty, hd]
  · obtain ⟨wake, hwake⟩ : ∃ wake, (s.shared.fetch bufferCapacity t wake).isSome :=
      s.shared.exists_fetch t
    refine ⟨.dequeue t wake, id, ?_⟩
    simpa [machine, step, ht, hawake, dequeue, hempty] using hwake

theorem canMove_of_counting {t : Fin n} {chunk : Chunk} (ht : s.consumers t = .counting chunk) :
    CanMove isWordChar file s :=
  ⟨.add t, id, by simp [machine, step, ht]⟩

/-- A consumer that has neither returned nor gone to sleep can move. -/
theorem canMove_of_consumer {t : Fin n} (ht : s.consumers t ≠ .returned)
    (hawake : s.shared.notEmpty t ≠ .asleep) : CanMove isWordChar file s := by
  cases hc : s.consumers t with
  | dequeuing => exact canMove_of_dequeuing hc hawake
  | counting chunk => exact canMove_of_counting hc
  | returned => exact absurd hc ht

/-- While the producer sleeps, some consumer can move: the buffer is full, so either nobody sleeps
at `not_empty` or somebody there has been woken. -/
theorem canMove_of_producer_asleep (h : Control s) (hn : 1 ≤ n)
    (hp : s.producer ≠ .returned) (hsleep : s.shared.notFull () = .asleep) :
    CanMove isWordChar file s := by
  have hstay : ∀ t, s.consumers t ≠ .returned := fun t ht =>
    hp (h.done_iff.mp (h.left t ht).1)
  have hpos : 0 < s.shared.ring.count := by
    rw [h.shared.producer_full hsleep]
    decide
  by_cases hs : s.shared.notEmpty.sleepers.Nonempty
  · obtain ⟨t, ht⟩ := h.shared.exists_woken hpos hs
    exact canMove_of_consumer (hstay t) (by simp [ht])
  · refine canMove_of_consumer (t := ⟨0, hn⟩) (hstay _) fun hc => hs ?_
    exact CondVar.sleepers_nonempty.mpr ⟨_, hc⟩

/-- **Progress.** -/
theorem enabled_of_control (h : Control s) (hn : 1 ≤ n) (hall : ¬ s.AllReturned) :
    CanMove isWordChar file s := by
  cases hp : s.producer with
  | reading => exact canMove_of_reading hp
  | closing => exact canMove_of_closing hp
  | enqueuing chunk =>
    by_cases hsleep : s.shared.notFull () = .asleep
    · exact canMove_of_producer_asleep h hn (by simp [hp]) hsleep
    · exact canMove_of_enqueuing hp hsleep
  | returned =>
    obtain ⟨t, ht⟩ : ∃ t, s.consumers t ≠ .returned := by
      by_contra hcon
      push Not at hcon
      exact hall ⟨hp, hcon⟩
    exact canMove_of_consumer ht (h.done_awake (h.done_iff.mpr hp) t)

end Moves

/-- **`wc_mt_overlap` never deadlocks and loses no wakeup.** In every state of every run: if a
consumer sleeps un-signalled then at least `count` consumers are woken and not yet rescheduled; if
the producer sleeps un-signalled then the buffer is full; once `is_done` is set no consumer sleeps
un-signalled; and unless all threads have returned, some thread can take a step, and needs no
spurious wakeup for it. -/
theorem overlap_no_lost_wakeup (isWordChar : UInt8 → Bool) (file : List UInt8) (n : ℕ)
    (hn : 1 ≤ n) {as : List (Act n)} {s : State n} {es : List (Event n)}
    (h : (machine isWordChar file n).run as = some (s, es)) :
    (s.shared.notEmpty.sleepers.Nonempty →
        s.shared.ring.count ≤ s.shared.notEmpty.wokenSet.card) ∧
      (s.shared.notFull () = .asleep → s.shared.ring.count = bufferCapacity) ∧
      (s.isDone = true → s.shared.notEmpty.sleepers = ∅) ∧
      (¬ s.AllReturned →
        (machine isWordChar file n).Enabled (fun a => ¬ a.IsSpurious) s) := by
  have hc := control_of_run h
  refine ⟨hc.shared.consumers_covered, hc.shared.producer_full, fun hd => ?_,
    enabled_of_control hc hn⟩
  rw [Finset.eq_empty_iff_forall_notMem]
  exact fun t ht => hc.done_awake hd t (CondVar.mem_sleepers.mp ht)

/-- Two consumers, one asleep and one woken, with one chunk stored: somebody can move. -/
theorem overlap_no_lost_wakeup_two :
    ∃ q, (machine (· != 0) [1, 0, 1] 2).run
        [.dequeue 0 none, .dequeue 1 none, .read, .enqueue (some 1)] = some q ∧
      q.1.shared.ring.count = 1 ∧ q.1.shared.notEmpty 0 = .asleep ∧
      1 ≤ q.1.shared.notEmpty.wokenSet.card ∧
      (machine (· != 0) [1, 0, 1] 2).Enabled (fun a => ¬ a.IsSpurious) q.1 := by
  have hend : ((machine (· != 0) [1, 0, 1] 2).run
      [.dequeue 0 none, .dequeue 1 none, .read, .enqueue (some 1)]).any
      (fun q => decide (q.1.shared.ring.count = 1 ∧ q.1.shared.notEmpty 0 = .asleep ∧
        ¬ q.1.AllReturned)) := by decide
  obtain ⟨q, hrun, hq⟩ := (Option.any_eq_true _ _).mp hend
  obtain ⟨hcount, hsleep, hopen⟩ := of_decide_eq_true hq
  have hprog := overlap_no_lost_wakeup (· != 0) [1, 0, 1] 2 (by decide) hrun
  have hcover := hprog.1 (CondVar.sleepers_nonempty.mpr ⟨0, hsleep⟩)
  rw [hcount] at hcover
  exact ⟨q, hrun, hcount, hsleep, by exact_mod_cast hcover, hprog.2.2.2 hopen⟩

end WcMtOverlap

end SystemProgramming
