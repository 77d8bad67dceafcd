import SystemProgramming.Xv6.LogPhases
import Mathlib.Data.Fintype.Card

/-!
# What lasts

The log makes the changes of whole system calls last, or none of them.

## How it goes

`contents` computes from the events of a run what the blocks hold for the calls, and what they held
when there was last no call in progress. The invariant says that recovery makes the contents of such
a moment of the disk, and the phases of `LogPhases` say which one. A failure is a step like any
other: it forgets the caches and starts recovery, which may fail in turn.

## The two halves of the invariant

`Threads` is about the counter and the flags: `outstanding` is the number of threads inside, and
nobody is inside while there is a commit. `Agrees` is about the blocks. They meet in `end_op`. The
last thread that leaves starts the commit, so the contents that are committed are those of a moment
at which no call is in progress, and `durable_between_ops` names that moment: it is that of the last
commit, or the beginning.

That recovery ends is not a matter of invariants. `recovers_after_failure` gives the number of steps
after which it has returned, and another failure on the way only starts it again.

## Main definitions

* `inOp` — whether a thread has begun a system call of the file system
* `Threads`, `Inv` — the invariant of a run

## Main results

* `recovered_eq_durable` — the log keeps its promise, whenever the machine fails
* `durable_between_ops` — and never tears the changes of a system call apart
* `recovers_after_failure` — the machine comes up again
-/

namespace SystemProgramming

namespace Xv6

namespace Log

variable {ι : Type*} {L : Layout}

section Tracked

variable [DecidableEq ι]

/-- Whether thread `t` is between `begin_op` and `end_op`. -/
def Event.track (t : ι) (inOp : Bool) : Event ι → Bool
  | .begun u => if u = t then true else inOp
  | .ended u => if u = t then false else inOp
  | .failed => false
  | _ => inOp

/-- Thread `t` has begun a system call of the file system, and not ended it. -/
def inOp (es : List (Event ι)) (t : ι) : Bool := es.foldl (Event.track t) false

theorem inOp_append (es es' : List (Event ι)) (t : ι) :
    inOp (es ++ es') t = es'.foldl (Event.track t) (inOp es t) := List.foldl_append

theorem inOp_append_nil {es : List (Event ι)} (t : ι) : inOp (es ++ []) t = inOp es t := by
  rw [List.append_nil]

theorem inOp_failed (es : List (Event ι)) (t : ι) : inOp (es ++ [.failed]) t = false := by
  rw [inOp_append]
  rfl

end Tracked

/-! ### The threads -/

/-- A thread is in `end_op` and commits. -/
def Phase.Commits : Phase ι → Prop
  | .writeLog .. | .writeHead _ | .installTrans (some _) _ | .eraseHead (some _) | .endOp _ => True
  | _ => False

theorem Phase.Up.eq_idle {phase : Phase ι} (hup : phase.Up) (hcomm : ¬ phase.Commits) :
    phase = .idle := by
  cases phase with
  | idle => rfl
  | writeLog who tail => exact absurd trivial hcomm
  | writeHead who => exact absurd trivial hcomm
  | installTrans who tail =>
    cases who with
    | none => exact hup.elim
    | some t => exact absurd trivial hcomm
  | eraseHead who =>
    cases who with
    | none => exact hup.elim
    | some t => exact absurd trivial hcomm
  | endOp who => exact absurd trivial hcomm
  | readHead => exact hup.elim

theorem wakeup_eq_inside {place : ι → Place} {t : ι} :
    wakeup place t = .inside ↔ place t = .inside := by
  rw [wakeup]
  split <;> simp_all

theorem ne_inside {s : State ι} {t : ι}
    (h : s.place t = .outside ∨ s.place t = .woken) :
    s.place t ≠ .inside := by
  intro ht
  rcases h with hout | hwoken
  · exact absurd (ht.symm.trans hout) nofun
  · exact absurd (ht.symm.trans hwoken) nofun

section Threads

variable [Fintype ι]

/-- The threads between `begin_op` and `end_op`. -/
def State.insiders (s : State ι) : Finset ι := Finset.univ.filter fun t => s.place t = .inside

theorem mem_insiders {s : State ι} {t : ι} : t ∈ s.insiders ↔ s.place t = .inside := by
  simp [State.insiders]

variable [DecidableEq ι]

/-- The counters and the flags agree with what the threads do. -/
structure Threads (es : List (Event ι)) (s : State ι) : Prop where
  inOp_iff : ∀ t, inOp es t = true ↔ s.place t = .inside
  outstanding_eq : s.outstanding = s.insiders.card
  idle_of_inside : ∀ t, s.place t = .inside → s.phase = .idle
  committing_iff : s.committing = true ↔ s.phase.Commits

variable {es : List (Event ι)} {s s' : State ι}

/-- Nobody is between `begin_op` and `end_op`. -/
theorem Threads.quiet (h : Threads es s) (hphase : s.phase ≠ .idle) (t : ι) :
    inOp es t = false := by
  rw [← Bool.not_eq_true, h.inOp_iff]
  exact fun ht => hphase (h.idle_of_inside t ht)

theorem Threads.congr (h : Threads es s) {es' : List (Event ι)}
    (hin : ∀ t, inOp (es ++ es') t = inOp es t) (hplace : s'.place = s.place)
    (hout : s'.outstanding = s.outstanding) (hcomm : s'.committing = s.committing)
    (hidle : s.phase = .idle → s'.phase = .idle) (hphase : s.phase.Commits ↔ s'.phase.Commits) :
    Threads (es ++ es') s' where
  inOp_iff t := by
    rw [hin, hplace]
    exact h.inOp_iff t
  outstanding_eq := by
    rw [hout, h.outstanding_eq, State.insiders, State.insiders, hplace]
  idle_of_inside t ht := by
    rw [hplace] at ht
    exact hidle (h.idle_of_inside t ht)
  committing_iff := by
    rw [hcomm, h.committing_iff, hphase]

theorem threads_boot (es : List (Event ι)) (hin : ∀ t, inOp es t = false) (disk : ℕ → Block) :
    Threads es (boot ι disk) where
  inOp_iff t := by
    rw [hin]
    exact iff_of_false (by decide) (by simp [boot])
  outstanding_eq := by
    have hnone : (boot ι disk).insiders = ∅ :=
      Finset.filter_eq_empty_iff.mpr fun t _ => by simp [boot]
    rw [hnone]
    rfl
  idle_of_inside t ht := by simp [boot] at ht
  committing_iff := iff_of_false (by simp [boot]) id

/-- A thread that is not between `begin_op` and `end_op` moves outside. -/
theorem Threads.relocate (h : Threads es s) {place : ι → Place}
    (hplace : ∀ t, place t = .inside ↔ s.place t = .inside) {phase : Phase ι} {committing : Bool}
    (hidle : s.phase = .idle → phase = .idle) (hphase : committing = true ↔ phase.Commits) :
    Threads es { s with place := place, phase := phase, committing := committing } where
  inOp_iff t := (h.inOp_iff t).trans (hplace t).symm
  outstanding_eq := by
    rw [h.outstanding_eq, State.insiders, State.insiders]
    simp only [hplace]
  idle_of_inside t ht := hidle (h.idle_of_inside t ((hplace t).mp ht))
  committing_iff := hphase

theorem Threads.leave (h : Threads es s) {t : ι} (ht : s.place t = .inside) {place : ι → Place}
    (hself : place t ≠ .inside) (hne : ∀ u, u ≠ t → (place u = .inside ↔ s.place u = .inside))
    {phase : Phase ι} {committing : Bool} (hidle : s.outstanding - 1 ≠ 0 → phase = .idle)
    (hphase : committing = true ↔ phase.Commits) :
    Threads (es ++ [.ended t]) { s with
      outstanding := s.outstanding - 1, place := place, phase := phase,
      committing := committing } := by
  have hset : ({ s with
      outstanding := s.outstanding - 1, place := place, phase := phase,
      committing := committing } : State ι).insiders = s.insiders.erase t := by
    ext u
    rw [mem_insiders, Finset.mem_erase, mem_insiders]
    by_cases hu : u = t
    · subst hu
      simp [hself]
    · simp [hu, hne u hu]
  have hcard : (s.insiders.erase t).card + 1 = s.insiders.card :=
    Finset.card_erase_add_one (mem_insiders.mpr ht)
  have hout := h.outstanding_eq
  refine ⟨fun u => ?_, ?_, fun u hu => hidle ?_, hphase⟩
  · rw [inOp_append]
    by_cases hu : u = t
    · subst hu
      simp [Event.track, hself]
    · simp [Event.track, Ne.symm hu, hne u hu, h.inOp_iff]
  · rw [hset]
    show s.outstanding - 1 = _
    omega
  · have hpos : 0 < (s.insiders.erase t).card := by
      rw [← hset]
      exact Finset.card_pos.mpr ⟨u, mem_insiders.mpr hu⟩
    omega

theorem Threads.enter (h : Threads es s) {t : ι} (ht : s.place t ≠ .inside)
    (hidle : s.phase = .idle) :
    Threads (es ++ [.begun t]) { s with
      outstanding := s.outstanding + 1, place := Function.update s.place t .inside } := by
  have hset : ({ s with
      outstanding := s.outstanding + 1, place := Function.update s.place t .inside } :
        State ι).insiders = insert t s.insiders := by
    ext u
    rw [mem_insiders, Finset.mem_insert, mem_insiders]
    by_cases hu : u = t
    · subst hu
      simp
    · simp [hu]
  refine ⟨fun u => ?_, ?_, fun _ _ => hidle, h.committing_iff⟩
  · rw [inOp_append]
    by_cases hu : u = t
    · subst hu
      simp [Event.track]
    · simp [Event.track, Ne.symm hu, hu, h.inOp_iff]
  · rw [hset, Finset.card_insert_of_notMem fun hmem => ht (mem_insiders.mp hmem)]
    show s.outstanding + 1 = _
    rw [h.outstanding_eq]
    rfl

theorem Threads.not_commits (h : Threads es s) {t : ι} (ht : s.place t = .inside) :
    ¬ s.phase.Commits := by
  rw [h.idle_of_inside t ht]
  exact id

/-- **The threads, step by step.** -/
theorem Threads.move (h : Threads es s) {a : Act ι} {es' : List (Event ι)}
    (hmove : Move L s a s' es') : Threads (es ++ es') s' := by
  cases hmove with
  | fail => exact threads_boot _ (inOp_failed es) s.disk
  | @sleeps t _ hplace _ =>
    rw [List.append_nil]
    refine h.relocate (fun u => ?_) id h.committing_iff
    by_cases hu : u = t
    · subst hu
      simp [ne_inside hplace]
    · simp [hu]
  | begins hup hplace hgo =>
    have hidle := hup.eq_idle fun hc => hgo (Or.inl (h.committing_iff.mpr hc))
    exact h.enter (ne_inside hplace) hidle
  | holds => exact h.congr inOp_append_nil rfl rfl rfl id Iff.rfl
  | releases => exact h.congr inOp_append_nil rfl rfl rfl id Iff.rfl
  | recycles => exact h.congr inOp_append_nil rfl rfl rfl id Iff.rfl
  | absorbs => exact h.congr (fun t => inOp_append ..) rfl rfl rfl id Iff.rfl
  | logs => exact h.congr (fun t => inOp_append ..) rfl rfl rfl id Iff.rfl
  | panics => exact h.congr (fun t => inOp_append ..) rfl rfl rfl id Iff.rfl
  | panicsInEndOp ht hcomm => exact absurd (h.committing_iff.mp hcomm) (h.not_commits ht)
  | @leaves t ht hcomm hout =>
    refine h.leave ht (by simp) (fun u hu => ?_) (fun _ => h.idle_of_inside t ht)
      h.committing_iff
    rw [Function.update_of_ne hu]
    exact wakeup_eq_inside
  | commits ht hcomm hout =>
    refine h.leave ht (by simp) (fun u hu => by simp [hu]) (fun hne => absurd hout hne) ?_
    split <;> exact iff_of_true rfl trivial
  | writesLog hphase =>
    exact h.congr inOp_append_nil rfl rfl rfl (by simp [hphase]) (by rw [hphase]; exact Iff.rfl)
  | writtenLog hphase =>
    exact h.congr inOp_append_nil rfl rfl rfl (by simp [hphase]) (by rw [hphase]; exact Iff.rfl)
  | writesHead hphase =>
    exact h.congr (fun t => inOp_append ..) rfl rfl rfl (by simp [hphase])
      (by rw [hphase]; exact Iff.rfl)
  | @installs who tail b hphase hb =>
    refine h.congr inOp_append_nil ?_ ?_ ?_ (by simp [hphase]) ?_
    · cases who <;> rfl
    · cases who <;> rfl
    · cases who <;> rfl
    · rw [hphase]
      cases who <;> exact Iff.rfl
  | @installed who tail hphase =>
    refine h.congr inOp_append_nil rfl rfl rfl (by simp [hphase]) ?_
    rw [hphase]
    cases who <;> exact Iff.rfl
  | erases hphase =>
    exact h.congr inOp_append_nil rfl rfl rfl (by simp [hphase]) (by rw [hphase]; exact Iff.rfl)
  | recovers hphase =>
    exact h.congr (fun t => inOp_append ..) rfl rfl rfl (by simp [hphase])
      (by rw [hphase]; exact Iff.rfl)
  | @returns t hphase =>
    have hne : s.place t ≠ .inside := by
      intro ht
      have hidle := h.idle_of_inside t ht
      rw [hphase] at hidle
      cases hidle
    rw [List.append_nil]
    refine h.relocate (fun u => ?_) (fun _ => rfl) (by simp [Phase.Commits])
    by_cases hu : u = t
    · subst hu
      simp [hne]
    · rw [Function.update_of_ne hu]
      exact wakeup_eq_inside
  | readsHead hphase =>
    exact h.congr inOp_append_nil rfl rfl rfl (by simp [hphase]) (by rw [hphase]; exact Iff.rfl)

/-! ### Runs -/

/-- The invariant of a run: whatever has happened, `initlog` can make of the disk what lasts; and
unless the kernel has panicked, everything agrees. -/
structure Inv (L : Layout) (disk : ℕ → Block) (es : List (Event ι)) (s : State ι) : Prop where
  threads : Threads es s
  recoverable : Recoverable L s.disk (contents L disk es).durable
  agrees : s.panicked = false → Agrees L (contents L disk es) s

variable {disk : ℕ → Block}

theorem inv_of_agrees {es' : List (Event ι)} (hthreads : Threads es' s)
    (hagrees : Agrees L (contents L disk es') s) : Inv L disk es' s :=
  ⟨hthreads, hagrees.stage.recoverable hagrees.fits, fun _ => hagrees⟩

/-- The machine comes up. -/
theorem inv_boot {es : List (Event ι)} (hin : ∀ t, inOp es t = false) {disk' : ℕ → Block}
    (hrec : Recoverable L disk' (contents L disk es).durable)
    (hpending : (contents L disk es).pending = (contents L disk es).durable) :
    Inv L disk es (boot ι disk') :=
  inv_of_agrees (threads_boot es hin disk')
    ⟨hrec.valid.nil, fun _ _ => rfl, hrec, rfl, hpending, rfl⟩

/-- **The blocks, step by step.** -/
theorem Agrees.move (h : Agrees L (contents L disk es) s) (hthreads : Threads es s) {a : Act ι}
    {es' : List (Event ι)} (hmove : Move L s a s' es') (hpan : s'.panicked = false)
    (hfail : a ≠ .fail) : Agrees L (contents L disk (es ++ es')) s' := by
  have hstage := h.stage
  have hlogging : ∀ {t}, s.place t = .inside → Logging L (contents L disk es) s.disk
      (s.cache.read s.disk) s.cache.pins s.lh := by
    intro t ht
    rwa [hthreads.idle_of_inside t ht] at hstage
  rw [contents_append]
  cases hmove with
  | fail => exact absurd rfl hfail
  | sleeps => exact h.congr rfl rfl rfl rfl rfl
  | begins => exact h.congr rfl rfl rfl rfl rfl
  | @holds t => exact h.congr rfl (BlockCache.read_hold t) (BlockCache.pins_hold t) rfl rfl
  | releases => exact h.congr rfl BlockCache.read_release BlockCache.pins_release rfl rfl
  | recycles hfree hpins => exact h.recycle hpins
  | absorbs ht hb hroom hmem =>
    exact h.absorb (hthreads.idle_of_inside _ ht) (hlogging ht) hb hmem
  | logs ht hb hroom hmem =>
    exact h.log (hthreads.idle_of_inside _ ht) (hlogging ht) hb hroom hmem
  | panics => cases hpan
  | panicsInEndOp => cases hpan
  | leaves => exact h.congr rfl rfl rfl rfl rfl
  | commits ht hcomm hout =>
    refine ⟨h.fits, h.log_read, ?_⟩
    dsimp only
    split
    · exact ⟨hlogging ht, fun i b hi => absurd hi (Nat.not_lt_zero i)⟩
    · rename_i hlen
      exact ⟨hlogging ht, List.eq_nil_of_length_eq_zero (by omega)⟩
  | writesLog hphase hb => exact agrees_writeLogBlock h hphase hb
  | writtenLog hphase hlen =>
    rw [hphase] at hstage
    exact ⟨h.fits, h.log_read, hstage.1, fun i b hi => hstage.2 i b (hi.trans_le hlen)⟩
  | writesHead hphase => exact agrees_writeHeadBlock h hphase
  | installs hphase hb => exact agrees_installBlock h hphase hb
  | installed hphase hlen =>
    rw [hphase] at hstage
    exact ⟨h.fits, h.log_read, Installing.done hstage hlen⟩
  | erases hphase => exact agrees_eraseHead h hphase fun _ _ _ hlog => ⟨hlog, rfl⟩
  | recovers hphase => exact agrees_eraseHead h hphase fun _ _ _ hlog => hlog
  | returns hphase =>
    rw [hphase] at hstage
    exact ⟨h.fits, h.log_read, hstage.1⟩
  | readsHead hphase => exact agrees_readHead h hphase

omit [Fintype ι] in
/-- A panic writes nothing to the disk. -/
theorem disk_of_panicked {a : Act ι} {es' : List (Event ι)} (hmove : Move L s a s' es')
    (hpan : s.panicked = false) (hpan' : s'.panicked = true) :
    s'.disk = s.disk ∧ es' = [.panic] := by
  cases hmove with
  | panics => exact ⟨rfl, rfl⟩
  | panicsInEndOp => exact ⟨rfl, rfl⟩
  | @installs who tail b =>
    cases who <;> exact absurd (hpan.symm.trans hpan') nofun
  | fail => cases hpan'
  | _ => exact absurd (hpan.symm.trans hpan') nofun

theorem Inv.step (h : Inv L disk es s) {a : Act ι} {es' : List (Event ι)}
    (hstep : step L s a = some (s', es')) : Inv L disk (es ++ es') s' := by
  obtain ⟨hmove, hup⟩ := move_of_step hstep
  have hthreads := h.threads.move hmove
  by_cases hfail : a = .fail
  · subst hfail
    cases hmove
    refine inv_boot (inOp_failed es) ?_ ?_
    · rw [contents_append]
      exact h.recoverable
    · rw [contents_append]
      rfl
  cases hpan : s'.panicked with
  | false => exact inv_of_agrees hthreads ((h.agrees (hup hfail)).move h.threads hmove hpan hfail)
  | true =>
    obtain ⟨hdisk, rfl⟩ := disk_of_panicked hmove (hup hfail) hpan
    refine ⟨hthreads, ?_, fun hno => absurd (hpan.symm.trans hno) nofun⟩
    rw [contents_append, hdisk]
    exact h.recoverable

theorem inv_of_run (hdisk : Valid L disk) {as : List (Act ι)}
    (h : (machine L disk).run as = some (s, es)) : Inv L disk es s := by
  refine Machine.run_invariant (M := machine L disk) (I := Inv L disk) ?_ ?_ h
  · exact inv_boot (fun _ => rfl) ⟨hdisk, fun _ _ => rfl⟩ rfl
  · intro es s a s' es' hI hstep
    exact hI.step hstep

/-- When nobody is between `begin_op` and `end_op`, and nobody commits, the log is empty. -/
def Drained (s : State ι) : Prop := s.phase = .idle → s.insiders = ∅ → s.lh = []

omit [DecidableEq ι] in
theorem drained_of_inside {t : ι} (ht : s.place t = .inside) : Drained s :=
  fun _ hnone => absurd (mem_insiders.mpr ht) (by simp [hnone])

omit [DecidableEq ι] in
/-- The log is as it was, and nobody has left. -/
theorem Drained.congr (hd : Drained s) (hlh : s'.lh = s.lh)
    (hphase : s'.phase = .idle → s.phase = .idle)
    (hplace : ∀ t, s.place t = .inside → s'.place t = .inside) : Drained s' := by
  intro hidle hnone
  rw [hlh]
  refine hd (hphase hidle) (Finset.eq_empty_of_forall_notMem fun t ht => ?_)
  have ht' := mem_insiders.mpr (hplace t (mem_insiders.mp ht))
  rw [hnone] at ht'
  exact Finset.notMem_empty t ht'

theorem Drained.move (hd : Drained s) (hthreads : Threads es s)
    (hagrees : Agrees L (contents L disk es) s) {a : Act ι} {es' : List (Event ι)}
    (hmove : Move L s a s' es') : Drained s' := by
  have hstage := hagrees.stage
  have hthreads' := hthreads.move hmove
  cases hmove with
  | fail => exact nofun
  | @sleeps t hup hplace hwait =>
    refine hd.congr rfl id fun u hu => ?_
    have hne : u ≠ t := by
      rintro rfl
      exact ne_inside hplace hu
    exact (Function.update_of_ne hne ..).trans hu
  | begins => exact drained_of_inside (Function.update_self ..)
  | holds => exact hd.congr rfl id fun _ => id
  | releases => exact hd.congr rfl id fun _ => id
  | recycles => exact hd.congr rfl id fun _ => id
  | absorbs ht => exact drained_of_inside ht
  | logs ht => exact drained_of_inside ht
  | panics ht => exact drained_of_inside ht
  | panicsInEndOp ht => exact drained_of_inside ht
  | leaves ht hcomm hout =>
    intro _ hnone
    have hcount := hthreads'.outstanding_eq
    rw [hnone] at hcount
    exact absurd hcount hout
  | commits =>
    intro hidle
    exfalso
    revert hidle
    dsimp only
    split <;> exact nofun
  | recovers => exact fun _ _ => rfl
  | returns hphase =>
    rw [hphase] at hstage
    exact fun _ _ => hstage.2
  | _ => exact nofun

theorem drained_of_run (hdisk : Valid L disk) {as : List (Act ι)}
    (h : (machine L disk).run as = some (s, es)) : Drained s := by
  refine (Machine.run_invariant (M := machine L disk)
    (I := fun es s => Inv L disk es s ∧ Drained s) ?_ ?_ h).2
  · exact ⟨inv_boot (fun _ => rfl) ⟨hdisk, fun _ _ => rfl⟩ rfl, nofun⟩
  · rintro es s a s' es' ⟨hI, hd⟩ hstep
    refine ⟨hI.step hstep, ?_⟩
    obtain ⟨hmove, hup⟩ := move_of_step hstep
    by_cases hfail : a = .fail
    · subst hfail
      cases hmove
      exact nofun
    · exact hd.move hI.threads (hI.agrees (hup hfail)) hmove

omit [Fintype ι] in
/-- What lasts changes when the header is written, and at no other time. -/
theorem durable_of_move {a : Act ι} {es' : List (Event ι)} (hmove : Move L s a s' es') :
    (es' = [.committed] ∧ s.phase ≠ .idle) ∨
      ∀ c : Versions ℕ Block, (es'.foldl Event.change c).durable = c.durable := by
  cases hmove with
  | writesHead hphase => exact Or.inl ⟨rfl, by rw [hphase]; exact nofun⟩
  | _ => exact Or.inr fun _ => rfl

/-- **The log keeps its promise.** Whenever the machine fails, `initlog` makes of the disk what had
been committed. While it is up, the cache shows what has been written; and when no system call of
the file system is in progress, all of it has been committed. -/
theorem recovered_eq_durable (hdisk : Valid L disk) {as : List (Act ι)}
    (h : (machine L disk).run as = some (s, es)) {b : ℕ} (hb : L.Home b) :
    recovered L s.disk b = (contents L disk es).durable b ∧
      (s.panicked = false → s.phase.Up →
        s.cache.read s.disk b = (contents L disk es).pending b) ∧
      (s.panicked = false → s.phase = .idle → (∀ t, inOp es t = false) →
        (contents L disk es).durable b = (contents L disk es).pending b) := by
  have hI := inv_of_run hdisk h
  refine ⟨hI.recoverable.recovered_eq b hb, fun hpan hup => ?_, fun hpan hidle hquiet => ?_⟩
  · exact (hI.agrees hpan).stage.read_eq hup hb
  · have hstage := (hI.agrees hpan).stage
    rw [hidle] at hstage
    have hnone : s.insiders = ∅ := Finset.eq_empty_of_forall_notMem fun t ht => by
      have hin := (hI.threads.inOp_iff t).mpr (mem_insiders.mp ht)
      rw [hquiet t] at hin
      cases hin
    have hlh : s.lh = [] := drained_of_run hdisk h hidle hnone
    exact (Logging.clean hstage b hb (hlh ▸ List.not_mem_nil)).symm

/-- The log behind the super block, with room for `LOGSIZE` blocks. -/
def smallLayout : Layout := ⟨2, 31⟩

/-- A block all of whose words are the same. -/
def fill (word : BitVec 32) : Block := fun _ => word

theorem valid_blank : Valid smallLayout fun _ => fill 0 where
  nodup := List.nodup_nil
  home _ h := absurd h List.not_mem_nil
  length_le := Nat.zero_le _
  length_lt := by decide

/-- `initlog`, and a system call that changes block 100; its thread is the last one to leave. -/
def changeBlock : List (Act Unit) :=
  [.proceed, .proceed, .proceed, .beginOp (), .bread () 100, .logWrite () 100 (fill 7),
    .brelse () 100, .endOp ()]

/-- A failure behind `write_head` is too late: the change lasts. -/
theorem changed_after_commit : ∃ s : State Unit, ∃ es,
    (machine smallLayout fun _ => fill 0).run
        (changeBlock ++ [.proceed, .proceed, .proceed, .fail]) = some (s, es) ∧
      recovered smallLayout s.disk 100 = fill 7 := by
  have hrun : (machine smallLayout fun _ => fill 0).run
      (changeBlock ++ [.proceed, .proceed, .proceed, .fail]) = some (_, _) := rfl
  exact ⟨_, _, hrun, (recovered_eq_durable valid_blank hrun (by decide)).1.trans rfl⟩

/-- **System calls are not torn apart.** What would be made of the disk after a failure are the
contents of the blocks at a moment at which no system call of the file system was in progress. -/
theorem durable_between_ops (hdisk : Valid L disk) {as : List (Act ι)}
    (h : (machine L disk).run as = some (s, es)) :
    ∃ es₁ es₂, es = es₁ ++ es₂ ∧ (∀ t, inOp es₁ t = false) ∧
      ∀ b, L.Home b → recovered L s.disk b = (contents L disk es₁).pending b := by
  have hsplit : ∃ es₁ es₂, es = es₁ ++ es₂ ∧ (∀ t, inOp es₁ t = false) ∧
      (contents L disk es).durable = (contents L disk es₁).pending := by
    refine (Machine.run_invariant (M := machine L disk) (I := fun es s => Inv L disk es s ∧
      ∃ es₁ es₂, es = es₁ ++ es₂ ∧ (∀ t, inOp es₁ t = false) ∧
        (contents L disk es).durable = (contents L disk es₁).pending) ?_ ?_ h).2
    · exact ⟨inv_boot (fun _ => rfl) ⟨hdisk, fun _ _ => rfl⟩ rfl, [], [], rfl, fun _ => rfl, rfl⟩
    · rintro es s a s' es' ⟨hI, es₁, es₂, rfl, hquiet, hdurable⟩ hstep
      refine ⟨hI.step hstep, ?_⟩
      rcases durable_of_move (move_of_step hstep).1 with ⟨rfl, hphase⟩ | hsame
      · refine ⟨es₁ ++ es₂ ++ [.committed], [], by rw [List.append_nil], fun t => ?_, ?_⟩
        · rw [inOp_append]
          exact hI.threads.quiet hphase t
        · rw [contents_append]
          rfl
      · refine ⟨es₁, es₂ ++ es', List.append_assoc .., hquiet, ?_⟩
        rw [contents_append, hsame, hdurable]
  obtain ⟨es₁, es₂, heq, hquiet, hdurable⟩ := hsplit
  refine ⟨es₁, es₂, heq, hquiet, fun b hb => ?_⟩
  rw [(inv_of_run hdisk h).recoverable.recovered_eq b hb, hdurable]

/-- A failure in front of `write_head`: nothing has changed. -/
theorem unchanged_before_commit : ∃ s : State Unit, ∃ es,
    (machine smallLayout fun _ => fill 0).run (changeBlock ++ [.proceed, .fail]) = some (s, es) ∧
      ∃ es₁ es₂, es = es₁ ++ es₂ ∧ (∀ t, inOp es₁ t = false) ∧ ∀ b, smallLayout.Home b →
        recovered smallLayout s.disk b =
          (contents smallLayout (fun _ => fill 0) es₁).pending b := by
  have hrun : (machine smallLayout fun _ => fill 0).run (changeBlock ++ [.proceed, .fail]) =
      some (_, _) := rfl
  exact ⟨_, _, hrun, durable_between_ops valid_blank hrun⟩

/-! ### Coming up -/

omit [Fintype ι] in
theorem step_proceed {s : State ι} (hpan : s.panicked = false) :
    (machine L disk).step s .proceed = proceed L s :=
  if_neg (by simp [hpan])

omit [Fintype ι] in
/-- `install_trans`, `log.lh.n = 0` and `write_head`, as nobody holds a buffer. -/
theorem recovers_of_installTrans (L : Layout) (disk : ℕ → Block) {s : State ι} {tail : ℕ}
    (hpan : s.panicked = false) (hphase : s.phase = .installTrans none tail)
    (hfree : ∀ b, s.cache.holder b = none) :
    ∃ n s', (machine L disk).runFrom s (List.replicate n .proceed) = some (s', [.recovered]) ∧
      s'.phase = .idle ∧ s'.panicked = false := by
  induction hrest : s.lh.length - tail generalizing s tail with
  | zero =>
    have hnone : s.lh[tail]? = none := List.getElem?_eq_none_iff.mpr (by omega)
    let s₁ : State ι := { s with phase := .eraseHead none }
    let s₂ : State ι := { writeHeadBlock L { s₁ with lh := [] } with phase := .idle }
    have hstep₁ : (machine L disk).step s .proceed = some (s₁, []) := by
      rw [step_proceed hpan, proceed, hphase]
      simp only [hnone, s₁]
    have hstep₂ : (machine L disk).step s₁ .proceed = some (s₂, [.recovered]) := by
      rw [step_proceed (s := s₁) hpan]
      rfl
    exact ⟨2, s₂, Machine.runFrom_cons_eq_some.mpr ⟨_, hstep₁, _,
      Machine.runFrom_cons_eq_some.mpr ⟨_, hstep₂, _, rfl, rfl⟩, rfl⟩, rfl, hpan⟩
  | succ rest ih =>
    have hlt : tail < s.lh.length := by omega
    let s₁ : State ι := { installBlock L s none tail s.lh[tail] with
      phase := .installTrans none (tail + 1) }
    have hstep : (machine L disk).step s .proceed = some (s₁, []) := by
      rw [step_proceed hpan, proceed, hphase]
      simp only [List.getElem?_eq_getElem hlt, hfree, if_true, s₁]
    have hfree₁ : ∀ b, s₁.cache.holder b = none := by
      intro b
      show ((s.cache.load s.disk (L.start + tail + 1)).store s.disk s.lh[tail] _).holder b = none
      rw [BlockCache.holder_store, BlockCache.holder_load, hfree]
    have hrest₁ : s₁.lh.length - (tail + 1) = rest := by
      show s.lh.length - (tail + 1) = rest
      omega
    obtain ⟨n, s', hrun, hidle, hpan'⟩ := ih (s := s₁) hpan rfl hfree₁ hrest₁
    exact ⟨n + 1, s', Machine.runFrom_cons_eq_some.mpr ⟨_, hstep, _, hrun, rfl⟩, hidle, hpan'⟩

omit [Fintype ι] in
theorem recovers_of_boot (L : Layout) (disk disk' : ℕ → Block) :
    ∃ n s', (machine L disk).runFrom (boot ι disk') (List.replicate n .proceed) =
      some (s', [.recovered]) ∧ s'.phase = .idle ∧ s'.panicked = false := by
  obtain ⟨n, s', hrun, hidle, hpan⟩ := recovers_of_installTrans L disk
    (s := { bread (boot ι disk') L.start with
      lh := readHead (disk' L.start)
      phase := .installTrans none 0 }) rfl rfl fun b => by
        show ((boot ι disk').cache.load disk' L.start).holder b = none
        rw [BlockCache.holder_load]
        rfl
  exact ⟨n + 1, s', Machine.runFrom_cons_eq_some.mpr ⟨_, rfl, _, hrun, rfl⟩, hidle, hpan⟩

/-- **The machine comes up again.** After a failure at any time `initlog` returns, and then every
block has on the disk what had been committed. -/
theorem recovers_after_failure (hdisk : Valid L disk) {as : List (Act ι)}
    (h : (machine L disk).run as = some (s, es)) :
    ∃ n s', (machine L disk).runFrom s (.fail :: List.replicate n .proceed) =
        some (s', [.failed, .recovered]) ∧ s'.phase = .idle ∧
      ∀ b, L.Home b → s'.disk b = (contents L disk es).durable b := by
  have hboot : ∃ n s', (machine L disk).runFrom (boot ι s.disk) (List.replicate n .proceed) =
      some (s', [.recovered]) ∧ s'.phase = .idle ∧ s'.panicked = false :=
    recovers_of_boot L disk s.disk
  obtain ⟨n, s', hrun, hidle, hpan⟩ := hboot
  have hrun' : (machine L disk).runFrom s (.fail :: List.replicate n .proceed) =
      some (s', [.failed, .recovered]) :=
    Machine.runFrom_cons_eq_some.mpr ⟨_, rfl, _, hrun, rfl⟩
  refine ⟨n, s', hrun', hidle, fun b hb => ?_⟩
  have hwhole : (machine L disk).run (as ++ .fail :: List.replicate n .proceed) =
      some (s', es ++ [.failed, .recovered]) :=
    Machine.runFrom_append_eq_some.mpr ⟨_, h, _, hrun', rfl⟩
  have hstage := ((inv_of_run hdisk hwhole).agrees hpan).stage
  rw [hidle, contents_append] at hstage
  exact Logging.disk_eq hstage b hb

/-- A failure in the middle of a commit. -/
theorem recovers_from_commit : ∃ s : State Unit, ∃ es,
    (machine smallLayout fun _ => fill 0).run (changeBlock ++ [.proceed, .proceed, .proceed]) =
        some (s, es) ∧
      ∃ n s', (machine smallLayout fun _ => fill 0).runFrom s (.fail :: List.replicate n .proceed) =
          some (s', [.failed, .recovered]) ∧ s'.phase = .idle ∧ s'.disk 100 = fill 7 := by
  have hrun : (machine smallLayout fun _ => fill 0).run
      (changeBlock ++ [.proceed, .proceed, .proceed]) = some (_, _) := rfl
  obtain ⟨n, s', hrec, hidle, hdisk⟩ := recovers_after_failure valid_blank hrun
  exact ⟨_, _, hrun, n, s', hrec, hidle, (hdisk 100 (by decide)).trans rfl⟩

end Threads

end Log

end Xv6

end SystemProgramming
