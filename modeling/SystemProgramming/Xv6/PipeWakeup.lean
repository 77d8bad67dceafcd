import SystemProgramming.Xv6.PipeStream

/-!
# Who sleeps at a pipe

A writer tells the readers of its bytes when it has stored all of them or finds the pipe full, and
not when it gives up because it has been killed. So a reader can sleep although there are bytes, if
a writer is killed between two bytes of a call; otherwise whoever sleeps has a reason to.

A process that holds the lock may be about to wake the sleepers; a pipe with a free lock has no
such excuse.

## How it goes

A sleeper went to sleep for a reason, and the reason can be taken away only by a process that holds
the lock: a writer that stores a byte, a reader that takes one, or a process that closes an end. The
last one wakes at once. The other two wake later in the same call, and until then the sleeper is
excused by the activity of the holder (`WakesReaders`, `WakesWriters`). So the invariant says of
every sleeper that its reason is still there or that the holder of the lock is at such an activity.
A writer that is killed between two bytes leaves without waking anybody, and this is the one step
that does not keep it; `Lossless` keeps it out.

## Main definitions

* `Lossless` — no call of `pipewrite` has returned -1 after it had stored a byte
* `Tested` — who is about to sleep has a reason to
* `ReadersAlert`, `WritersAlert` — who sleeps has a reason to, or will be told

## Main results

* `asleep_of_run` — when the lock is free, readers sleep at an empty pipe only, and writers at a
  full one
-/

namespace SystemProgramming

namespace Xv6

namespace Pipe

open FreeRunning

variable {ι : Type*} [DecidableEq ι] {s s' : State ι} {a : Act ι} {es es' : List (Event ι)}
  {data : ℕ → UInt8}

/-- A writer at work that will wake the readers, whether it is killed or not. -/
def Activity.WakesReaders : Activity → Bool
  | .writing _ (_ + 1) | .storing _ _ => true
  | _ => false

/-- A reader at work that will wake the writers. -/
def Activity.WakesWriters : Activity → Bool
  | .copying _ _ => true
  | _ => false

/-- The process that holds the lock is at something of this kind. -/
def State.Holder (s : State ι) (p : Activity → Bool) : Prop :=
  ∃ t, s.lock = some t ∧ p (s.act t) = true

/-- No call of `pipewrite` has returned -1 after it had stored a byte. -/
def Lossless (es : List (Event ι)) : Prop := ∀ t bytes i, .wrote t bytes i false ∈ es → i = 0

/-- The readers that sleep. -/
def ReadersAlert (s : State ι) : Prop :=
  ∀ t n, s.act t = .readAsleep n →
    s.Empty ∧ s.writeopen = true ∨ s.Holder Activity.WakesReaders

/-- The writers that sleep. -/
def WritersAlert (s : State ι) : Prop :=
  ∀ t bytes i, s.act t = .writeAsleep bytes i →
    s.Full ∧ s.readopen = true ∨ s.Holder Activity.WakesWriters

/-- A process that is about to sleep has a reason to. -/
structure Tested (s : State ι) : Prop where
  storing : ∀ t bytes i, s.lock = some t → s.act t = .storing bytes i → s.readopen = true
  waiting : ∀ t n, s.lock = some t → s.act t = .waiting n ∨ s.act t = .drowsy n →
    s.Empty ∧ s.writeopen = true

omit [DecidableEq ι] in
theorem Lossless.of_append (h : Lossless (es ++ es')) : Lossless es :=
  fun t bytes i hmem => h t bytes i (List.mem_append_left _ hmem)

section Holder

variable {p : Activity → Bool} {t : ι}

omit [DecidableEq ι] in
theorem not_holder_of_lock_none (h : s.lock = none) : ¬ s.Holder p := by
  rintro ⟨t, ht, -⟩
  rw [h] at ht
  cases ht

omit [DecidableEq ι] in
theorem not_holder (hlock : s.lock = some t) (hp : p (s.act t) = false) : ¬ s.Holder p := by
  rintro ⟨u, hu, hpu⟩
  obtain rfl : t = u := Option.some.inj (hlock.symm.trans hu)
  rw [hp] at hpu
  cases hpu

end Holder

section Asleep

variable {u : ι} {n i : ℕ} {bytes : List UInt8}

omit [DecidableEq ι] in
theorem wakeReaders_ne_readAsleep : (wakeReaders s).act u ≠ .readAsleep n := by
  rw [wakeReaders]
  cases hu : s.act u <;> simp [hu]

omit [DecidableEq ι] in
theorem wakeWriters_ne_writeAsleep : (wakeWriters s).act u ≠ .writeAsleep bytes i := by
  rw [wakeWriters]
  cases hu : s.act u <;> simp [hu]

theorem Activity.awake_ne_readAsleep (c : Activity) (n : ℕ) : c.awake ≠ .readAsleep n := by
  cases c <;> nofun

theorem Activity.awake_ne_writeAsleep (c : Activity) (bytes : List UInt8) (i : ℕ) :
    c.awake ≠ .writeAsleep bytes i := by
  cases c <;> nofun

end Asleep

/-- A process that is killed still does what it was about to do. -/
theorem Holder.kill {p : Activity → Bool} {t : ι} {k : ι → Bool}
    (hp : ∀ c : Activity, p c.awake = p c) (h : s.Holder p) :
    State.Holder { s.set t (s.act t).awake with killed := k } p := by
  obtain ⟨u, hu, hpu⟩ := h
  refine ⟨u, hu, ?_⟩
  show p (Function.update s.act t (s.act t).awake u) = true
  by_cases hut : u = t
  · rw [hut, Function.update_self, hp, ← hut]
    exact hpu
  · rw [Function.update_of_ne hut]
    exact hpu

/-! ### The readers -/

theorem readersAlert_step (hT : Tested s) (hI : ReadersAlert s) (hlossless : Lossless es')
    (h : Move s a s' es') : ReadersAlert s' := by
  intro u n hu
  -- a reader that slept before the step, when no writer that would wake it held the lock
  have hasleep : ¬ s.Holder Activity.WakesReaders → s.act u = .readAsleep n →
      s.Empty ∧ s.writeopen = true :=
    fun hholder hu => (hI u n hu).resolve_right hholder
  cases h with
  | write _ hlock _ | read _ hlock _ | rewrite hlock _ | reread hlock _ =>
    rcases act_of_update hu with ⟨-, hb⟩ | ⟨-, hu⟩
    · cases hb
    · exact Or.inl (hasleep (not_holder_of_lock_none hlock) hu)
  | @refuse t copies bytes i hlock hact hi hstop =>
    rcases act_of_update hu with ⟨-, hb⟩ | ⟨-, hu⟩
    · cases hb
    · obtain rfl : i = 0 := hlossless t bytes i List.mem_cons_self
      exact Or.inl (hasleep (not_holder hlock (congrArg _ hact)) hu)
  | wrote _ _ _ | full _ _ _ | noCopyin _ _ _ =>
    rcases act_of_update hu with ⟨-, hb⟩ | ⟨-, hu⟩
    · cases hb
    · exact absurd hu wakeReaders_ne_readAsleep
  | goOn hlock _ _ _ _ | put hlock _ _ =>
    exact Or.inr ⟨_, hlock, congrArg _ (Function.update_self ..)⟩
  | sleep hlock hact =>
    rcases act_of_update hu with ⟨-, hb⟩ | ⟨-, hu⟩
    · exact Or.inl (hT.waiting _ _ hlock (Or.inr hact))
    · exact Or.inl (hasleep (not_holder hlock (congrArg _ hact)) hu)
  | take hlock hact hmore hempty =>
    rcases act_of_update hu with ⟨-, hb⟩ | ⟨-, hu⟩
    · cases hb
    · exact absurd (hasleep (not_holder hlock (congrArg _ hact)) hu).1 hempty
  | noCopyout hlock hact hmore hempty =>
    rcases act_of_update hu with ⟨-, hb⟩ | ⟨-, hu⟩
    · cases hb
    · have hbefore := hasleep (not_holder hlock (congrArg _ hact)) (act_of_wakeWriters hu nofun)
      exact absurd hbefore.1 hempty
  | got hlock hact hdone =>
    rcases act_of_update hu with ⟨-, hb⟩ | ⟨-, hu⟩
    · cases hb
    · exact Or.inl (hasleep (not_holder hlock (congrArg _ hact)) (act_of_wakeWriters hu nofun))
  | closeWrite hlock hopen hnone => exact absurd hu wakeReaders_ne_readAsleep
  | closeRead hlock hopen hnone =>
    exact Or.inl (hasleep (not_holder_of_lock_none hlock) (act_of_wakeWriters hu nofun))
  | kill =>
    rcases act_of_update hu with ⟨-, hb⟩ | ⟨-, hu⟩
    · exact absurd hb (Activity.awake_ne_readAsleep _ n)
    · exact (hI u n hu).imp_right (Holder.kill fun c => by cases c <;> rfl)
  | empty hlock hact _ _ | copy hlock hact _ | giveUp hlock hact _ | drowse hlock hact _ =>
    rcases act_of_update hu with ⟨-, hb⟩ | ⟨-, hu⟩
    · cases hb
    · exact Or.inl (hasleep (not_holder hlock (congrArg _ hact)) hu)

/-! ### The writers -/

theorem writersAlert_step (hT : Tested s) (hI : WritersAlert s) (h : Move s a s' es') :
    WritersAlert s' := by
  intro u bytes i hu
  -- a writer that slept before the step, when no reader that would wake it held the lock
  have hasleep : ¬ s.Holder Activity.WakesWriters → s.act u = .writeAsleep bytes i →
      s.Full ∧ s.readopen = true :=
    fun hholder hu => (hI u bytes i hu).resolve_right hholder
  cases h with
  | write _ hlock _ | read _ hlock _ | rewrite hlock _ | reread hlock _ =>
    rcases act_of_update hu with ⟨-, hb⟩ | ⟨-, hu⟩
    · cases hb
    · exact Or.inl (hasleep (not_holder_of_lock_none hlock) hu)
  | wrote hlock hact hi =>
    rcases act_of_update hu with ⟨-, hb⟩ | ⟨-, hu⟩
    · cases hb
    · exact Or.inl (hasleep (not_holder hlock (congrArg _ hact)) (act_of_wakeReaders hu nofun))
  | full hlock hact hfull => exact Or.inl ⟨hfull, hT.storing _ _ _ hlock hact⟩
  | put hlock hact hfull =>
    rcases act_of_update hu with ⟨-, hb⟩ | ⟨-, hu⟩
    · cases hb
    · exact absurd (hasleep (not_holder hlock (congrArg _ hact)) hu).1 hfull
  | noCopyin hlock hact hfull =>
    rcases act_of_update hu with ⟨-, hb⟩ | ⟨-, hu⟩
    · cases hb
    · have hbefore := hasleep (not_holder hlock (congrArg _ hact)) (act_of_wakeReaders hu nofun)
      exact absurd hbefore.1 hfull
  | copy hlock _ _ | take hlock _ _ _ =>
    exact Or.inr ⟨_, hlock, congrArg _ (Function.update_self ..)⟩
  | noCopyout _ _ _ _ | got _ _ _ =>
    rcases act_of_update hu with ⟨-, hb⟩ | ⟨-, hu⟩
    · cases hb
    · exact absurd hu wakeWriters_ne_writeAsleep
  | closeWrite hlock hopen hnone =>
    exact Or.inl (hasleep (not_holder_of_lock_none hlock) (act_of_wakeReaders hu nofun))
  | closeRead hlock hopen hnone => exact absurd hu wakeWriters_ne_writeAsleep
  | kill =>
    rcases act_of_update hu with ⟨-, hb⟩ | ⟨-, hu⟩
    · exact absurd hb (Activity.awake_ne_writeAsleep _ bytes i)
    · exact (hI u bytes i hu).imp_right (Holder.kill fun c => by cases c <;> rfl)
  | refuse hlock hact _ _ | goOn hlock hact _ _ _ | empty hlock hact _ _ | giveUp hlock hact _
  | drowse hlock hact _ | sleep hlock hact =>
    rcases act_of_update hu with ⟨-, hb⟩ | ⟨-, hu⟩
    · cases hb
    · exact Or.inl (hasleep (not_holder hlock (congrArg _ hact)) hu)

/-! ### The tests before sleeping -/

/-- The process that holds the lock is not another one. -/
theorem act_of_update_of_lock {t u : ι} {act : ι → Activity} {b c : Activity}
    (hlock : s.lock = some t) (hu : s.lock = some u) (h : Function.update act t b u = c) :
    b = c := by
  obtain rfl : t = u := Option.some.inj (hlock.symm.trans hu)
  rwa [Function.update_self] at h

theorem tested_step (hI : Tested s) (h : Move s a s' es') : Tested s' := by
  cases h with
  | write _ _ _ | read _ _ _ | rewrite _ _ | reread _ _ =>
    refine ⟨fun u bytes i hlocked hu => ?_, fun u n hlocked hu => ?_⟩
    · obtain rfl := Option.some.inj hlocked
      cases (Function.update_self ..).symm.trans hu
    · obtain rfl := Option.some.inj hlocked
      rcases hu with hu | hu <;> cases (Function.update_self ..).symm.trans hu
  | refuse _ _ _ _ | wrote _ _ _ | full _ _ _ | noCopyin _ _ _ | giveUp _ _ _ | sleep _ _
  | noCopyout _ _ _ _ | got _ _ _ => exact ⟨nofun, nofun⟩
  | goOn hlock _ _ hopen _ =>
    refine ⟨fun _ _ _ _ _ => hopen, fun u n hlocked hu => ?_⟩
    rcases hu with hu | hu <;> cases act_of_update_of_lock hlock hlocked hu
  | empty hlock _ hempty hopen =>
    refine ⟨fun u bytes i hlocked hu => ?_, fun _ _ _ _ => ⟨hempty, hopen⟩⟩
    cases act_of_update_of_lock hlock hlocked hu
  | drowse hlock hact _ =>
    refine ⟨fun u bytes i hlocked hu => ?_, fun _ _ _ _ => hI.waiting _ _ hlock (Or.inl hact)⟩
    cases act_of_update_of_lock hlock hlocked hu
  | put hlock _ _ | copy hlock _ _ | take hlock _ _ _ =>
    refine ⟨fun u bytes i hlocked hu => ?_, fun u n hlocked hu => ?_⟩
    · cases act_of_update_of_lock hlock hlocked hu
    · rcases hu with hu | hu <;> cases act_of_update_of_lock hlock hlocked hu
  | closeWrite hlock _ _ | closeRead hlock _ _ =>
    exact ⟨fun _ _ _ hlocked => absurd (hlock.symm.trans hlocked) nofun,
      fun _ _ hlocked => absurd (hlock.symm.trans hlocked) nofun⟩
  | @kill t =>
    refine ⟨fun u bytes i hlocked hu => ?_, fun u n hlocked hu => ?_⟩
    · refine hI.storing u bytes i hlocked ?_
      rcases act_of_update hu with ⟨rfl, hb⟩ | ⟨-, hu⟩
      · exact Activity.eq_of_awake hb nofun nofun
      · exact hu
    · refine hI.waiting u n hlocked (hu.imp (fun hu => ?_) fun hu => ?_)
      · rcases act_of_update hu with ⟨rfl, hb⟩ | ⟨-, hu⟩
        · exact Activity.eq_of_awake hb nofun nofun
        · exact hu
      · rcases act_of_update hu with ⟨rfl, hb⟩ | ⟨-, hu⟩
        · exact Activity.eq_of_awake hb nofun nofun
        · exact hu

section Run

variable [Fintype ι]

theorem alert_of_run {as : List (Act ι)} (h : (machine ι data).run as = some (s, es)) :
    (Tested s ∧ (Lossless es → ReadersAlert s)) ∧ WritersAlert s := by
  refine Machine.run_invariant (M := machine ι data)
    (I := fun es s => (Tested s ∧ (Lossless es → ReadersAlert s)) ∧ WritersAlert s)
    ⟨⟨⟨nofun, nofun⟩, fun _ => nofun⟩, nofun⟩ ?_ h
  rintro es s a s' es' ⟨⟨hT, hR⟩, hW⟩ hstep
  have hmove := move_of_step hstep
  refine ⟨⟨tested_step hT hmove, fun hlossless => ?_⟩, writersAlert_step hT hW hmove⟩
  refine readersAlert_step hT (hR hlossless.of_append) (fun t bytes i hmem => ?_) hmove
  exact hlossless t bytes i (List.mem_append_right _ hmem)

/-- **Nobody sleeps without a reason.** Whenever the lock of the pipe is free, a writer sleeps only
if the pipe is full and can be read; and if no call of `pipewrite` has returned -1 after it had
stored a byte, a reader sleeps only if the pipe is empty and can be written. -/
theorem asleep_of_run {as : List (Act ι)} (h : (machine ι data).run as = some (s, es))
    (hlock : s.lock = none) :
    (∀ t bytes i, s.act t = .writeAsleep bytes i →
        s.contents.length = pipeSize ∧ s.readopen = true) ∧
      (Lossless es → ∀ t n, s.act t = .readAsleep n → s.contents = [] ∧ s.writeopen = true) := by
  obtain ⟨⟨-, hR⟩, hW⟩ := alert_of_run h
  have hring := ring_of_run h
  rw [hring.contents_eq]
  refine ⟨fun t bytes i ht => ?_, fun hlossless t n ht => ?_⟩
  · obtain ⟨hfull, hopen⟩ := (hW t bytes i ht).resolve_right (not_holder_of_lock_none hlock)
    refine ⟨?_, hopen⟩
    rw [length_window, hring.full_iff.mp hfull, Nat.add_sub_cancel_left]
  · obtain ⟨hempty, hopen⟩ :=
      (hR hlossless t n ht).resolve_right (not_holder_of_lock_none hlock)
    refine ⟨?_, hopen⟩
    rw [hring.empty_iff.mp hempty, window_self]

/-- A process sleeps at an empty pipe. -/
def sleepAtEmpty : List (Act Bool) :=
  [.read false 1, .proceed false true, .proceed false true, .proceed false true]

theorem asleep_of_run_empty : ∃ s : State Bool, ∃ es,
    (machine Bool fun _ => 0).run sleepAtEmpty = some (s, es) ∧ s.act false = .readAsleep 1 ∧
      s.contents = [] ∧ s.writeopen = true := by
  have hrun : (machine Bool fun _ => 0).run sleepAtEmpty = some (_, _) := rfl
  exact ⟨_, _, hrun, rfl, (asleep_of_run hrun rfl).2 nofun false 1 rfl⟩

/-- A writer that is killed behind its first byte leaves a reader asleep. -/
example : ((machine Bool fun _ => 0).run (sleepAtEmpty ++
      [.write true [7, 8], .proceed true true, .proceed true true, .kill true,
        .proceed true true])).map (fun q => (q.1.act false, q.1.contents)) =
    some (.readAsleep 1, [7]) := by decide

end Run

end Pipe

end Xv6

end SystemProgramming
