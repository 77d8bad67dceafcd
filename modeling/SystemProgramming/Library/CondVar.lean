import Mathlib.Data.Fintype.Card
import Mathlib.Data.Finset.Card
import Mathlib.Logic.Function.Basic
import Mathlib.Algebra.Order.Ring.Int

/-!
# Condition variables

A condition variable is modelled by what it knows of every thread that may wait on it: the thread
does not wait, it sleeps, or it has been woken and has not yet been given the processor again.
`signal` wakes one sleeper if there is one, and which one is the scheduler's choice; `broadcast`
wakes all. A spurious wakeup is a sleeper woken by nobody.

## The counting invariant

The naive argument that every signal serves one item fails, because a thread that never slept may
take the item before the woken thread runs. What survives is `Covers c k`: *if* somebody still
sleeps, then at least `k` threads have been woken and will look again. Each operation has one
lemma saying what it does to the number `k`, and a monitor's proof is assembled from those.
-/

namespace SystemProgramming

/-- What a condition variable knows of one thread. -/
inductive WaitState
  | awake
  | asleep
  | woken
  deriving DecidableEq, Repr

/-- A condition variable, as the state of each of its possible waiters. -/
abbrev CondVar (ι : Type*) := ι → WaitState

namespace CondVar

variable {ι : Type*}

/-- Nobody waits. -/
def idle (ι : Type*) : CondVar ι := fun _ => .awake

/-- `pthread_cond_broadcast`. -/
def broadcast (c : CondVar ι) : CondVar ι := fun t => if c t = .asleep then .woken else c t

theorem broadcast_ne_asleep (c : CondVar ι) (t : ι) : c.broadcast t ≠ .asleep := by
  rw [broadcast]
  split <;> simp_all

theorem ne_awake_of_broadcast {c : CondVar ι} {t : ι} (h : c.broadcast t ≠ .awake) :
    c t ≠ .awake := by
  intro hc
  simp [broadcast, hc] at h

/-! ### One thread at a time -/

section Update

variable [DecidableEq ι]

/-- `pthread_cond_wait`: thread `t` goes to sleep. -/
def sleep (c : CondVar ι) (t : ι) : CondVar ι := Function.update c t .asleep

/-- Thread `t` is woken. -/
def wake (c : CondVar ι) (t : ι) : CondVar ι := Function.update c t .woken

/-- Thread `t` has the processor again. -/
def resume (c : CondVar ι) (t : ι) : CondVar ι := Function.update c t .awake

theorem sleep_apply (c : CondVar ι) (t u : ι) :
    c.sleep t u = if u = t then .asleep else c u := by
  simp [sleep, Function.update_apply]

theorem wake_apply (c : CondVar ι) (t u : ι) : c.wake t u = if u = t then .woken else c u := by
  simp [wake, Function.update_apply]

theorem resume_apply (c : CondVar ι) (t u : ι) :
    c.resume t u = if u = t then .awake else c u := by
  simp [resume, Function.update_apply]

theorem asleep_of_wake {c : CondVar ι} {t u : ι} (h : c.wake t u = .asleep) : c u = .asleep := by
  rw [wake_apply] at h
  split at h <;> simp_all

theorem asleep_of_resume {c : CondVar ι} {t u : ι} (h : c.resume t u = .asleep) :
    c u = .asleep := by
  rw [resume_apply] at h
  split at h <;> simp_all

theorem ne_awake_of_sleep {c : CondVar ι} {t u : ι} (h : c.sleep t u ≠ .awake) :
    u = t ∨ c u ≠ .awake := by
  rw [sleep_apply] at h
  split at h <;> simp_all

theorem ne_awake_of_wake {c : CondVar ι} {t u : ι} (ht : c t = .asleep)
    (h : c.wake t u ≠ .awake) : c u ≠ .awake := by
  rw [wake_apply] at h
  split at h <;> simp_all

theorem ne_awake_of_resume {c : CondVar ι} {t u : ι} (h : c.resume t u ≠ .awake) :
    u ≠ t ∧ c u ≠ .awake := by
  rw [resume_apply] at h
  split at h <;> simp_all

end Update

/-! ### The sets of waiters -/

section Sets

variable [Fintype ι]

/-- The threads sleeping un-signalled. -/
def sleepers (c : CondVar ι) : Finset ι := Finset.univ.filter fun t => c t = .asleep

/-- The threads woken and not yet rescheduled. -/
def wokenSet (c : CondVar ι) : Finset ι := Finset.univ.filter fun t => c t = .woken

@[simp] theorem mem_sleepers {c : CondVar ι} {t : ι} : t ∈ c.sleepers ↔ c t = .asleep := by
  simp [sleepers]

@[simp] theorem mem_wokenSet {c : CondVar ι} {t : ι} : t ∈ c.wokenSet ↔ c t = .woken := by
  simp [wokenSet]

theorem sleepers_nonempty {c : CondVar ι} : c.sleepers.Nonempty ↔ ∃ t, c t = .asleep := by
  simp [Finset.Nonempty]

/-- If anybody still sleeps, at least `k` threads have been woken and will look again. -/
def Covers (c : CondVar ι) (k : ℤ) : Prop := c.sleepers.Nonempty → k ≤ c.wokenSet.card

theorem Covers.mono {c : CondVar ι} {k l : ℤ} (h : c.Covers k) (hl : l ≤ k) : c.Covers l :=
  fun hs => hl.trans (h hs)

theorem covers_of_nonpos {c : CondVar ι} {k : ℤ} (hk : k ≤ 0) : c.Covers k :=
  fun _ => hk.trans (Int.natCast_nonneg _)

theorem covers_of_no_sleeper {c : CondVar ι} {k : ℤ} (h : ∀ t, c t ≠ .asleep) : c.Covers k := by
  intro hs
  obtain ⟨t, ht⟩ := sleepers_nonempty.mp hs
  exact absurd ht (h t)

end Sets

/-! ### Signals -/

section Signal

variable [DecidableEq ι] [Fintype ι]

/-- `pthread_cond_signal`, with the scheduler's choice of whom to wake: a sleeper, or nobody when
nobody sleeps. Any other choice is not possible. -/
def signal (c : CondVar ι) : Option ι → Option (CondVar ι)
  | some t => if c t = .asleep then some (c.wake t) else none
  | none => if ∀ t, c t ≠ .asleep then some c else none

/-- What a signal can do. -/
theorem signal_cases {c c' : CondVar ι} {w : Option ι} (h : c.signal w = some c') :
    (∃ t, w = some t ∧ c t = .asleep ∧ c' = c.wake t) ∨ (∀ t, c t ≠ .asleep) ∧ c' = c := by
  cases w with
  | some t =>
    by_cases ht : c t = .asleep
    · exact Or.inl ⟨t, rfl, ht, by simpa [signal, ht] using h.symm⟩
    · simp [signal, ht] at h
  | none =>
    by_cases hn : ∀ t, c t ≠ .asleep
    · exact Or.inr ⟨hn, by simpa [signal, hn] using h.symm⟩
    · simp [signal, hn] at h

/-- A signal is always possible: the scheduler has a choice to make, or none is needed. -/
theorem exists_signal (c : CondVar ι) : ∃ w c', c.signal w = some c' := by
  by_cases h : ∃ t, c t = .asleep
  · obtain ⟨t, ht⟩ := h
    exact ⟨some t, c.wake t, by simp [signal, ht]⟩
  · exact ⟨none, c, by simpa [signal] using h⟩

/-- Who waits after a signal, asleep or woken, waited before it. -/
theorem ne_awake_of_signal {c c' : CondVar ι} {w : Option ι} (h : c.signal w = some c') {t : ι}
    (ht : c' t ≠ .awake) : c t ≠ .awake := by
  obtain ⟨u, -, hu, rfl⟩ | ⟨-, rfl⟩ := signal_cases h
  · exact ne_awake_of_wake hu ht
  · exact ht

theorem wokenSet_wake (c : CondVar ι) (t : ι) : (c.wake t).wokenSet = insert t c.wokenSet := by
  ext u
  simp only [mem_wokenSet, wake_apply, Finset.mem_insert]
  split <;> simp_all

theorem wokenSet_resume (c : CondVar ι) (t : ι) : (c.resume t).wokenSet = c.wokenSet.erase t := by
  ext u
  simp only [mem_wokenSet, resume_apply, Finset.mem_erase]
  split <;> simp_all

theorem card_wokenSet_wake {c : CondVar ι} {t : ι} (ht : c t = .asleep) :
    (c.wake t).wokenSet.card = c.wokenSet.card + 1 := by
  rw [wokenSet_wake, Finset.card_insert_of_notMem (by simp [ht])]

theorem card_wokenSet_le_resume (c : CondVar ι) (t : ι) :
    c.wokenSet.card ≤ (c.resume t).wokenSet.card + 1 := by
  have := Finset.pred_card_le_card_erase (s := c.wokenSet) (a := t)
  rw [wokenSet_resume]
  omega

/-- A wakeup, spurious or not, adds a thread that will look again. -/
theorem Covers.wake {c : CondVar ι} {k : ℤ} (h : c.Covers k) {t : ι} (ht : c t = .asleep) :
    (c.wake t).Covers (k + 1) := by
  intro _
  have hk := h (sleepers_nonempty.mpr ⟨t, ht⟩)
  rw [card_wokenSet_wake ht]
  push_cast
  omega

/-- One signal covers one more item: it wakes a sleeper, or nobody sleeps. -/
theorem Covers.signal {c c' : CondVar ι} {k : ℤ} (h : c.Covers k) {w : Option ι}
    (hs : c.signal w = some c') : c'.Covers (k + 1) := by
  obtain ⟨t, -, ht, rfl⟩ | ⟨hn, rfl⟩ := signal_cases hs
  · exact h.wake ht
  · exact covers_of_no_sleeper hn

/-- A rescheduled thread stops covering, and takes at most one item with it. -/
theorem Covers.resume {c : CondVar ι} {k : ℤ} (h : c.Covers k) (t : ι) :
    (c.resume t).Covers (k - 1) := by
  intro hs
  obtain ⟨u, hu⟩ := sleepers_nonempty.mp hs
  have hk := h (sleepers_nonempty.mpr ⟨u, asleep_of_resume hu⟩)
  have hcard := card_wokenSet_le_resume c t
  omega

end Signal

end CondVar

end SystemProgramming
