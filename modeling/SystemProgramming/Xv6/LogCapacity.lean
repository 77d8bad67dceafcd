import SystemProgramming.Xv6.LogDurable
import Mathlib.Algebra.BigOperators.Group.Finset.Basic
import Mathlib.Algebra.Order.BigOperators.Group.Finset

/-!
# The room in the log

`begin_op` lets a system call in only if the log has room for `MAXOPBLOCKS` blocks of each one that
has been let in. The others sleep.

## How it goes

The argument is one of counting: the blocks in the log, and `MAXOPBLOCKS` for every call that has
been let in less those it has logged, are at most `LOGSIZE`. A call may log the same block twice,
which counts once. The sleepers are looked at in the same invariant: who sleeps in `begin_op` has
found no room or a commit, and somebody is in progress who will wake it.

## Why the reservation works

`begin_op` counts with what is in the log and with `MAXOPBLOCKS` for every call, also for those that
have used up a part of theirs. So it is more careful than it would have to be, and the sum of the
invariant is never larger than the number that it has tested. A call that logs a block gives up one
of its reserved places for it, or none if the block is in the log already; when a call ends, what it
has not used is free again. The condition `Modest` is needed: a call that logs more than it has been
promised takes the room of others.

## Main definitions

* `loggedBy` — the blocks that a system call has logged
* `Modest` — a system call that has logged `MAXOPBLOCKS` blocks logs no more
* `Reserved` — the invariant

## Main results

* `never_panics` — the log is large enough
* `sleeper_awaits` — who sleeps in `begin_op` will be woken
-/

namespace SystemProgramming

namespace Xv6

namespace Log

variable {ι : Type*} [DecidableEq ι] {L : Layout}

/-- How an event changes the blocks that thread `t` has logged. -/
def Event.addLogged (t : ι) (bs : Finset ℕ) : Event ι → Finset ℕ
  | .begun u => if u = t then ∅ else bs
  | .written u b _ => if u = t then insert b bs else bs
  | _ => bs

/-- The blocks that thread `t` has logged since it called `begin_op`. -/
def loggedBy (es : List (Event ι)) (t : ι) : Finset ℕ := es.foldl (Event.addLogged t) ∅

theorem loggedBy_append (es es' : List (Event ι)) (t : ι) :
    loggedBy (es ++ es') t = es'.foldl (Event.addLogged t) (loggedBy es t) := List.foldl_append

/-- What a step has to meet: who has logged `MAXOPBLOCKS` blocks does not call `log_write` any
more, not even with one of them. -/
def Modest (es : List (Event ι)) (_ : State ι) : Act ι → Prop
  | .logWrite t _ _ => (loggedBy es t).card < maxOpBlocks
  | _ => True

variable [Fintype ι]

/-- The log has room for what the system calls in progress may still log. -/
structure Reserved (es : List (Event ι)) (s : State ι) : Prop where
  room : s.lh.length + ∑ t ∈ s.insiders, (maxOpBlocks - (loggedBy es t).card) ≤ logSize
  logged : ∀ t ∈ s.insiders, ∀ b ∈ loggedBy es t, b ∈ s.lh

variable {es : List (Event ι)} {s s' : State ι} {disk : ℕ → Block}

/-- Nobody is between `begin_op` and `end_op`. -/
theorem reserved_of_empty (hnone : s.insiders = ∅) (hlen : s.lh.length ≤ logSize) :
    Reserved es s where
  room := by simpa [hnone] using hlen
  logged t ht := absurd ht (by simp [hnone])

/-- The same threads have logged the same blocks. -/
theorem Reserved.congr (h : Reserved es s) {es' : List (Event ι)} (hin : s'.insiders = s.insiders)
    (hlh : s'.lh = s.lh) (hlogged : ∀ t ∈ s.insiders, loggedBy (es ++ es') t = loggedBy es t) :
    Reserved (es ++ es') s' where
  room := by
    rw [hin, hlh, Finset.sum_congr rfl fun t ht => by rw [hlogged t ht]]
    exact h.room
  logged t ht b hb := by
    rw [hin] at ht
    rw [hlogged t ht] at hb
    rw [hlh]
    exact h.logged t ht b hb

/-- A thread that may log one more block: there is room for it. -/
theorem Reserved.lt (h : Reserved es s) {t : ι} (ht : s.place t = .inside)
    (hmodest : (loggedBy es t).card < maxOpBlocks) : s.lh.length < logSize := by
  have hle : maxOpBlocks - (loggedBy es t).card ≤
      ∑ u ∈ s.insiders, (maxOpBlocks - (loggedBy es u).card) :=
    Finset.single_le_sum (f := fun u => maxOpBlocks - (loggedBy es u).card)
      (fun _ _ => Nat.zero_le _) (mem_insiders.mpr ht)
  have hroom := h.room
  omega

theorem Reserved.enter (h : Reserved es s) (hthreads : Threads es s) {t : ι}
    (ht : s.place t ≠ .inside)
    (hgo : s.lh.length + (s.outstanding + 1) * maxOpBlocks ≤ (logSize : ℤ)) :
    Reserved (es ++ [.begun t]) { s with
      outstanding := s.outstanding + 1, place := Function.update s.place t .inside } := by
  have hset : ({ s with
      outstanding := s.outstanding + 1, place := Function.update s.place t .inside } :
        State ι).insiders = insert t s.insiders := by
    ext u
    rw [mem_insiders, Finset.mem_insert, mem_insiders]
    by_cases hu : u = t
    · subst hu
      simp
    · simp [hu]
  have hnot : t ∉ s.insiders := fun hmem => ht (mem_insiders.mp hmem)
  have hself : loggedBy (es ++ [.begun t]) t = ∅ := by
    rw [loggedBy_append]
    simp [Event.addLogged]
  have hother : ∀ u ∈ s.insiders, loggedBy (es ++ [.begun t]) u = loggedBy es u := by
    intro u hu
    have hne : t ≠ u := by
      rintro rfl
      exact hnot hu
    rw [loggedBy_append]
    simp [Event.addLogged, hne]
  constructor
  · rw [hset, Finset.sum_insert hnot, hself, Finset.card_empty,
      Finset.sum_congr rfl fun u hu => by rw [hother u hu]]
    have hle : ∑ u ∈ s.insiders, (maxOpBlocks - (loggedBy es u).card) ≤
        s.insiders.card * maxOpBlocks :=
      Finset.sum_le_card_nsmul _ _ _ fun u _ => Nat.sub_le _ _
    have hout := hthreads.outstanding_eq
    rw [hout] at hgo
    have hgo' : s.lh.length + (s.insiders.card + 1) * maxOpBlocks ≤ logSize := by exact_mod_cast hgo
    show s.lh.length + _ ≤ _
    rw [Nat.add_mul] at hgo'
    omega
  · intro u hu b hb
    rw [hset, Finset.mem_insert] at hu
    rcases hu with rfl | hu
    · rw [hself] at hb
      exact absurd hb (Finset.notMem_empty b)
    · rw [hother u hu] at hb
      exact h.logged u hu b hb

theorem Reserved.leave (h : Reserved es s) {t : ι} (hin : s'.insiders = s.insiders.erase t)
    (hlh : s'.lh = s.lh) : Reserved (es ++ [.ended t]) s' where
  room := by
    have hle : ∑ u ∈ s.insiders.erase t, (maxOpBlocks - (loggedBy es u).card) ≤
        ∑ u ∈ s.insiders, (maxOpBlocks - (loggedBy es u).card) :=
      Finset.sum_le_sum_of_subset (Finset.erase_subset t s.insiders)
    have hroom := h.room
    have hsame : ∀ u, loggedBy (es ++ [.ended t]) u = loggedBy es u := fun u => loggedBy_append ..
    rw [hin, hlh, Finset.sum_congr rfl fun u _ => by rw [hsame u]]
    omega
  logged u hu b hb := by
    rw [hin] at hu
    rw [loggedBy_append] at hb
    rw [hlh]
    exact h.logged u (Finset.mem_of_mem_erase hu) b hb

/-- **A thread logs a block.** -/
theorem Reserved.write (h : Reserved es s) {t : ι} {b : ℕ} {v : Block} (ht : s.place t = .inside)
    (hmodest : (loggedBy es t).card < maxOpBlocks) (hin : s'.insiders = s.insiders)
    (hsub : ∀ b' ∈ s.lh, b' ∈ s'.lh) (hmem : b ∈ s'.lh)
    (hlen : s'.lh.length ≤ s.lh.length + if b ∈ s.lh then 0 else 1) :
    Reserved (es ++ [.written t b v]) s' := by
  have hself : loggedBy (es ++ [.written t b v]) t = insert b (loggedBy es t) := by
    rw [loggedBy_append]
    simp [Event.addLogged]
  have hother : ∀ u, u ≠ t → loggedBy (es ++ [.written t b v]) u = loggedBy es u := by
    intro u hu
    rw [loggedBy_append]
    simp [Event.addLogged, hu.symm]
  have hmemt := mem_insiders.mpr ht
  constructor
  · have hroom := h.room
    rw [hin, ← Finset.add_sum_erase _ _ hmemt, hself, Finset.sum_congr rfl fun u hu => by
      rw [hother u (Finset.ne_of_mem_erase hu)]]
    rw [← Finset.add_sum_erase _ _ hmemt] at hroom
    by_cases hb : b ∈ s.lh
    · have hle : (loggedBy es t).card ≤ (insert b (loggedBy es t)).card :=
        Finset.card_le_card (Finset.subset_insert ..)
      rw [if_pos hb] at hlen
      omega
    · have hnew : b ∉ loggedBy es t := fun hlog => hb (h.logged t hmemt b hlog)
      rw [if_neg hb] at hlen
      rw [Finset.card_insert_of_notMem hnew]
      omega
  · intro u hu b' hb'
    rw [hin] at hu
    by_cases hut : u = t
    · subst hut
      rw [hself, Finset.mem_insert] at hb'
      rcases hb' with rfl | hb'
      · exact hmem
      · exact hsub b' (h.logged u hu b' hb')
    · rw [hother u hut] at hb'
      exact hsub b' (h.logged u hu b' hb')

/-- Nobody is between `begin_op` and `end_op` while the machine is busy with the log. -/
theorem Threads.insiders_eq_empty (h : Threads es s) (hphase : s.phase ≠ .idle) :
    s.insiders = ∅ :=
  Finset.eq_empty_of_forall_notMem fun t ht =>
    hphase (h.idle_of_inside t (mem_insiders.mp ht))

/-- **The room in the log, step by step.** -/
theorem Reserved.move (h : Reserved es s) (hthreads : Threads es s) {a : Act ι}
    {es' : List (Event ι)} (hmove : Move L s a s' es') (hmodest : Modest es s a)
    (hdisk : Valid L s.disk) (hread : s.phase = .readHead → s.cache.read s.disk = s.disk) :
    Reserved (es ++ es') s' := by
  have hnil : ∀ t ∈ s.insiders, loggedBy (es ++ []) t = loggedBy es t :=
    fun t _ => by rw [List.append_nil]
  have hbusy : ∀ {phase}, s.phase = phase → phase ≠ .idle → s.insiders = ∅ := by
    rintro _ rfl hne
    exact hthreads.insiders_eq_empty hne
  cases hmove with
  | fail =>
    exact reserved_of_empty (Finset.filter_eq_empty_iff.mpr fun t _ => nofun) (Nat.zero_le _)
  | @sleeps t _ hplace =>
    refine h.congr ?_ rfl hnil
    ext u
    rw [mem_insiders, mem_insiders]
    by_cases hu : u = t
    · subst hu
      simp [ne_inside hplace]
    · simp [hu]
  | begins _ hplace hgo =>
    rw [not_or, gt_iff_lt, not_lt] at hgo
    exact h.enter hthreads (ne_inside hplace) hgo.2
  | holds => exact h.congr rfl rfl hnil
  | releases => exact h.congr rfl rfl hnil
  | recycles => exact h.congr rfl rfl hnil
  | absorbs ht _ _ hmem => exact h.write ht hmodest rfl (fun _ => id) hmem (Nat.le_add_right _ _)
  | logs ht _ _ hmem =>
    refine h.write ht hmodest rfl (fun _ hb => List.mem_append_left _ hb)
      (List.mem_append_right _ (List.mem_singleton_self _)) ?_
    rw [if_neg hmem]
    exact (List.length_append ..).le
  | panics => exact h.congr rfl rfl fun t _ => loggedBy_append ..
  | panicsInEndOp => exact h.congr rfl rfl fun t _ => loggedBy_append ..
  | @leaves t ht =>
    refine h.leave ?_ rfl
    ext u
    rw [mem_insiders, Finset.mem_erase, mem_insiders]
    by_cases hu : u = t
    · subst hu
      simp
    · simp [hu, wakeup_eq_inside]
  | @commits t ht =>
    refine h.leave ?_ rfl
    ext u
    rw [mem_insiders, Finset.mem_erase, mem_insiders]
    by_cases hu : u = t
    · subst hu
      simp
    · simp [hu]
  | writesLog => exact h.congr rfl rfl hnil
  | writtenLog => exact h.congr rfl rfl hnil
  | writesHead => exact h.congr rfl rfl fun t _ => loggedBy_append ..
  | @installs who => cases who <;> exact h.congr rfl rfl hnil
  | installed => exact h.congr rfl rfl hnil
  | erases hphase => exact reserved_of_empty (hbusy hphase nofun) (Nat.zero_le _)
  | recovers hphase => exact reserved_of_empty (hbusy hphase nofun) (Nat.zero_le _)
  | @returns t hphase =>
    refine h.congr ?_ rfl hnil
    ext u
    have hu : s.place u ≠ .inside := by
      intro hin
      have hmem := mem_insiders.mpr hin
      rw [hbusy hphase nofun] at hmem
      exact Finset.notMem_empty u hmem
    rw [mem_insiders, mem_insiders]
    by_cases hut : u = t
    · subst hut
      simp [hu]
    · simp [hut, wakeup_eq_inside]
  | readsHead hphase =>
    refine reserved_of_empty (hbusy hphase nofun) ?_
    show (readHead (s.cache.read s.disk L.start)).length ≤ logSize
    rw [hread hphase]
    exact hdisk.length_le

/-- **The log is large enough.** If no system call logs anything after it has logged `MAXOPBLOCKS`
blocks, and `LOGSIZE` blocks and the header fit into what the super block gives to the log, then the
kernel does not panic in `log_write` nor in `end_op`. -/
theorem never_panics (hsize : logSize < L.size) (hdisk : Valid L disk) {as : List (Act ι)}
    (hmodest : (machine L disk).Meets Modest as) (h : (machine L disk).run as = some (s, es)) :
    .panic ∉ es := by
  refine (Machine.run_invariant_of_meets (M := machine L disk) (P := Modest)
    (I := fun es s => Inv L disk es s ∧ Reserved es s ∧ s.panicked = false ∧ .panic ∉ es)
    ?_ ?_ hmodest h).2.2.2
  · refine ⟨inv_boot (fun _ => rfl) ⟨hdisk, fun _ _ => rfl⟩ rfl, ?_, rfl, List.not_mem_nil⟩
    exact reserved_of_empty (Finset.filter_eq_empty_iff.mpr fun t _ => nofun) (Nat.zero_le _)
  · rintro es s a s' es' ⟨hI, hreserved, hpan, hno⟩ hmodest hstep
    obtain ⟨hmove, -⟩ := move_of_step hstep
    have hread : s.phase = .readHead → s.cache.read s.disk = s.disk := by
      intro hphase
      have hstage := (hI.agrees hpan).stage
      rw [hphase] at hstage
      exact Booting.read_eq hstage
    refine ⟨hI.step hstep, hreserved.move hI.threads hmove hmodest hI.recoverable.valid hread, ?_⟩
    have hroom : ∀ {t b v}, a = .logWrite t b v → s.place t = .inside →
        Room L s ∧ ¬ s.outstanding < 1 := by
      rintro t b v rfl ht
      have hlt := hreserved.lt ht hmodest
      have hpos : 0 < s.insiders.card := Finset.card_pos.mpr ⟨t, mem_insiders.mpr ht⟩
      have hout := hI.threads.outstanding_eq
      exact ⟨⟨hlt, by omega⟩, by omega⟩
    have hkept : ∀ {es'}, .panic ∉ es' → .panic ∉ es ++ es' := fun hno' hmem =>
      (List.mem_append.mp hmem).elim hno hno'
    cases hmove with
    | panics ht hpanic =>
      obtain ⟨hroom, hout⟩ := hroom rfl ht
      exact absurd hpanic (not_or.mpr ⟨not_not.mpr hroom, hout⟩)
    | panicsInEndOp ht hcomm =>
      exact absurd (hI.threads.committing_iff.mp hcomm) (hI.threads.not_commits ht)
    | fail => exact ⟨rfl, hkept (by simp)⟩
    | @installs who => cases who <;> exact ⟨hpan, hkept (by simp)⟩
    | _ => exact ⟨hpan, hkept (by simp)⟩

/-- One system call that changes one block. -/
theorem never_panics_changeBlock : ∃ s : State Unit, ∃ es,
    (machine smallLayout fun _ => fill 0).run changeBlock = some (s, es) ∧ .panic ∉ es := by
  have hrun : (machine smallLayout fun _ => fill 0).run changeBlock = some (_, _) := rfl
  refine ⟨_, _, hrun, never_panics (by decide) valid_blank ?_ hrun⟩
  exact Machine.meetsFrom_cons trivial rfl <| Machine.meetsFrom_cons trivial rfl <|
    Machine.meetsFrom_cons trivial rfl <| Machine.meetsFrom_cons trivial rfl <|
    Machine.meetsFrom_cons trivial rfl <| Machine.meetsFrom_cons (Nat.succ_pos 9) rfl <|
    Machine.meetsFrom_cons trivial rfl <| Machine.meetsFrom_cons trivial rfl trivial

/-! ### Who sleeps -/

/-- The condition under which `begin_op` goes to sleep. -/
def State.Crowded (s : State ι) : Prop :=
  s.committing = true ∨ s.lh.length + (s.outstanding + 1) * maxOpBlocks > (logSize : ℤ)

omit [DecidableEq ι] [Fintype ι] in
theorem wakeup_ne_asleep (place : ι → Place) (t : ι) : wakeup place t ≠ .asleep := by
  rw [wakeup]
  split <;> simp_all

omit [Fintype ι] in
/-- Who leaves wakes the others. -/
theorem update_wakeup_ne_asleep (place : ι → Place) (t u : ι) :
    Function.update (wakeup place) t .outside u ≠ .asleep := by
  by_cases hu : u = t
  · subst hu
    simp
  · rw [Function.update_of_ne hu]
    exact wakeup_ne_asleep place u

/-- The sleepers have a reason to sleep, and none of them sleeps while the machine comes up. -/
def Crowds (s : State ι) : Prop := ∀ t, s.place t = .asleep → s.phase.Up ∧ s.Crowded

theorem Crowds.move (h : Crowds s) (hthreads : Threads es s) {a : Act ι} {es' : List (Event ι)}
    (hmove : Move L s a s' es') : Crowds s' := by
  intro u hu
  cases hmove with
  | fail => cases hu
  | sleeps hup _ hwait => exact ⟨hup, hwait⟩
  | @begins t hup =>
    have hne : u ≠ t := by
      rintro rfl
      simp at hu
    have hu' : s.place u = .asleep := by simpa [hne] using hu
    refine ⟨hup, (h u hu').2.imp_right fun hgt => ?_⟩
    show (s.lh.length : ℤ) + (s.outstanding + 1 + 1) * maxOpBlocks > logSize
    rw [maxOpBlocks] at hgt ⊢
    omega
  | holds => exact h u hu
  | releases => exact h u hu
  | recycles => exact h u hu
  | absorbs => exact h u hu
  | logs =>
    refine (h u hu).imp_right (Or.imp_right fun hgt => ?_)
    show ((s.lh ++ [_]).length : ℤ) + (s.outstanding + 1) * maxOpBlocks > logSize
    rw [List.length_append, List.length_singleton]
    push_cast
    omega
  | panics => exact h u hu
  | panicsInEndOp ht hcomm =>
    exact absurd (hthreads.committing_iff.mp hcomm) (hthreads.not_commits ht)
  | leaves => exact absurd hu (update_wakeup_ne_asleep _ _ u)
  | commits =>
    refine ⟨?_, Or.inl rfl⟩
    dsimp only
    split <;> trivial
  | writesLog => exact ⟨trivial, (h u hu).2⟩
  | writtenLog => exact ⟨trivial, (h u hu).2⟩
  | writesHead => exact ⟨trivial, (h u hu).2⟩
  | @installs who tail b hphase =>
    cases who with
    | none =>
      have hup := (h u hu).1
      rw [hphase] at hup
      exact hup.elim
    | some t => exact ⟨trivial, (h u hu).2⟩
  | @installed who tail hphase =>
    have hup := (h u hu).1
    rw [hphase] at hup
    cases who with
    | none => exact hup.elim
    | some t => exact ⟨trivial, (h u hu).2⟩
  | erases hphase =>
    refine ⟨trivial, Or.inl (hthreads.committing_iff.mpr ?_)⟩
    rw [hphase]
    trivial
  | recovers hphase =>
    have hup := (h u hu).1
    rw [hphase] at hup
    exact hup.elim
  | returns => exact absurd hu (update_wakeup_ne_asleep _ _ u)
  | readsHead hphase =>
    have hup := (h u hu).1
    rw [hphase] at hup
    exact hup.elim

/-- **Who sleeps will be woken.** A thread that sleeps in `begin_op` has a reason to; and either a
commit is under way, which wakes all that sleep when it is done, or another system call is in
progress, and `end_op` of that one wakes them or commits. -/
theorem sleeper_awaits (hdisk : Valid L disk) {as : List (Act ι)}
    (h : (machine L disk).run as = some (s, es)) {t : ι} (ht : s.place t = .asleep) :
    s.Crowded ∧ (s.phase.Commits ∨ ∃ u, s.place u = .inside) := by
  have hI := inv_of_run hdisk h
  have hcrowds : Crowds s := by
    refine (Machine.run_invariant (M := machine L disk)
      (I := fun es s => Inv L disk es s ∧ Crowds s) ?_ ?_ h).2
    · exact ⟨inv_boot (fun _ => rfl) ⟨hdisk, fun _ _ => rfl⟩ rfl, fun t ht => by cases ht⟩
    · rintro es s a s' es' ⟨hI, hcrowds⟩ hstep
      exact ⟨hI.step hstep, hcrowds.move hI.threads (move_of_step hstep).1⟩
  obtain ⟨hup, hcrowded⟩ := hcrowds t ht
  refine ⟨hcrowded, ?_⟩
  by_contra hno
  rw [not_or, not_exists] at hno
  have hidle := hup.eq_idle hno.1
  have hnone : s.insiders = ∅ :=
    Finset.eq_empty_of_forall_notMem fun u hu => hno.2 u (mem_insiders.mp hu)
  have hlh : s.lh = [] := drained_of_run hdisk h hidle hnone
  have hout := hI.threads.outstanding_eq
  rcases hcrowded with hcomm | hgt
  · exact hno.1 (hI.threads.committing_iff.mp hcomm)
  · rw [hlh, hout, hnone] at hgt
    simp [logSize, maxOpBlocks] at hgt

/-- Three system calls are in progress, and a fourth one has to wait. -/
theorem fourth_awaits : ∃ s : State (Fin 4), ∃ es,
    (machine smallLayout fun _ => fill 0).run
        [.proceed, .proceed, .proceed, .beginOp 0, .beginOp 1, .beginOp 2, .beginOp 3] =
        some (s, es) ∧
      s.Crowded ∧ (s.phase.Commits ∨ ∃ u, s.place u = .inside) := by
  have hrun : (machine smallLayout fun _ => fill 0).run
      [.proceed, .proceed, .proceed, .beginOp 0, .beginOp 1, .beginOp 2, .beginOp (3 : Fin 4)] =
      some (_, _) := rfl
  exact ⟨_, _, hrun, sleeper_awaits valid_blank hrun (t := 3) rfl⟩

end Log

end Xv6

end SystemProgramming
