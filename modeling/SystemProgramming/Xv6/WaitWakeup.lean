import SystemProgramming.Xv6.Tree

/-!
# Waiting for a child

`wait` looks for a zombie and goes to sleep, and `exit` wakes the parent and becomes a zombie, on
any processors. `wait_lock` keeps the two apart; the children of a process that exits go to the
first process, which is woken too. So no zombie is ever left to a parent that sleeps.

## What is not said

A round of `wait` is one step here, from the loop over the table to `sleep`. Its parts are held
together by `wait_lock`, which `exit` and `fork` need too. `kill` does not take that lock: it may
come between the test of `killed` and `sleep`, and then the process sleeps though it has been
killed. Nothing is said of that; the results are about children that have become zombies.

## How it goes

A process that sleeps in `wait` loses nothing as long as it keeps its children and none of them
becomes a zombie. `Tame` says this of a piece of a step, and it is closed under composition, so the
functions are gone through piece by piece. Two of them are not tame. In a round of `wait` the
process has just looked at all its children (`alert_sleep`). In `exit` a child becomes a zombie, but
its parent has been woken before, and nobody else is its parent (`alert_exit`). `reparent` gives
children to the first process, and wakes it, so it is not among those that sleep.

## Main definitions

* `Kernel.Dozes` — a process sleeps in `wait`
* `Kernel.Alert` — what it has found there

## Main results

* `waits_of_run` — who sleeps in `wait` has a child, and no zombie among its children
-/

namespace SystemProgramming

namespace Xv6

/-- Process `p` sleeps on the address of a process. -/
def Kernel.Dozes (s : Kernel) (p c : Slot) : Prop :=
  (s.proc p).state = .sleeping ∧ (s.proc p).chan = some (.proc c)

/-- Who sleeps in `wait` has a child, and none that has exited. -/
structure Kernel.Alert (s : Kernel) : Prop where
  own : ∀ p c, s.Dozes p c → c = p
  child : ∀ p c, s.Dozes p c → ∃ pp, (s.proc pp).parent = some p
  noZombie : ∀ p c pp, s.Dozes p c → (s.proc pp).parent = some p → (s.proc pp).state ≠ .zombie

/-- Nobody goes to sleep in `wait`, and who sleeps there on keeps its children, none of which
exits. -/
structure Tame (s s' : Kernel) : Prop where
  dozes : ∀ p c, s'.Dozes p c → s.Dozes p c
  parent : ∀ p c pp, s'.Dozes p c → ((s'.proc pp).parent = some p ↔ (s.proc pp).parent = some p)
  zombie : ∀ p c pp, s'.Dozes p c → (s'.proc pp).parent = some p → (s'.proc pp).state = .zombie →
    (s.proc pp).state = .zombie

section Tame

variable {s s' s'' : Kernel} {p : Slot}

theorem Tame.refl (s : Kernel) : Tame s s :=
  ⟨fun _ _ => id, fun _ _ _ _ => Iff.rfl, fun _ _ _ _ _ => id⟩

theorem Tame.trans (h : Tame s s') (h' : Tame s' s'') : Tame s s'' where
  dozes q c hq := h.dozes q c (h'.dozes q c hq)
  parent q c pp hq := (h'.parent q c pp hq).trans (h.parent q c pp (h'.dozes q c hq))
  zombie q c pp hq hpp hzombie :=
    h.zombie q c pp (h'.dozes q c hq) ((h'.parent q c pp hq).mp hpp)
      (h'.zombie q c pp hq hpp hzombie)

theorem Tame.alert (h : Tame s s') (hI : s.Alert) : s'.Alert where
  own q c hq := hI.own q c (h.dozes q c hq)
  child q c hq := by
    obtain ⟨pp, hpp⟩ := hI.child q c (h.dozes q c hq)
    exact ⟨pp, (h.parent q c pp hq).mpr hpp⟩
  noZombie q c pp hq hpp hzombie :=
    hI.noZombie q c pp (h.dozes q c hq) ((h.parent q c pp hq).mp hpp)
      (h.zombie q c pp hq hpp hzombie)

theorem tame_modify {f : Proc → Proc}
    (hawake : ∀ c, (f (s.proc p)).state = .sleeping → (f (s.proc p)).chan ≠ some (.proc c))
    (hparent : ∀ q c, s.Dozes q c →
      ((f (s.proc p)).parent = some q ↔ (s.proc p).parent = some q))
    (hzombie : ∀ q c, s.Dozes q c → (f (s.proc p)).parent = some q →
      (f (s.proc p)).state = .zombie → (s.proc p).state = .zombie) :
    Tame s (s.modify p f) := by
  have hself := proc_modify_self s p f
  have hdozes : ∀ q c, (s.modify p f).Dozes q c → s.Dozes q c := by
    rintro q c ⟨hstate, hchan⟩
    have hne : q ≠ p := by
      rintro rfl
      exact hawake c (hself ▸ hstate) (hself ▸ hchan)
    rw [proc_modify_of_ne s hne] at hstate hchan
    exact ⟨hstate, hchan⟩
  refine ⟨hdozes, fun q c pp hq => ?_, fun q c pp hq hpp hstate => ?_⟩
  · by_cases hpp : pp = p
    · rw [hpp, hself]
      exact hparent q c (hdozes q c hq)
    · rw [proc_modify_of_ne s hpp]
  · by_cases hppp : pp = p
    · rw [hppp, hself] at hpp hstate
      rw [hppp]
      exact hzombie q c (hdozes q c hq) hpp hstate
    · rwa [proc_modify_of_ne s hppp] at hstate

theorem tame_goOn {f : Proc → Proc} (hp : ∀ c, ¬ s.Dozes p c)
    (hstate : (f (s.proc p)).state = (s.proc p).state)
    (hchan : (f (s.proc p)).chan = (s.proc p).chan)
    (hparent : (f (s.proc p)).parent = (s.proc p).parent) : Tame s (s.modify p f) :=
  tame_modify (fun c hs hc => hp c ⟨hstate ▸ hs, hchan ▸ hc⟩) (fun _ _ _ => by rw [hparent])
    fun _ _ _ _ hzombie => hstate ▸ hzombie

/-- A process becomes runnable, or runs. -/
theorem tame_awake {f : Proc → Proc} (hawake : (f (s.proc p)).state ≠ .sleeping)
    (hzombie : (f (s.proc p)).state = .zombie → (s.proc p).state = .zombie)
    (hparent : (f (s.proc p)).parent = (s.proc p).parent) : Tame s (s.modify p f) :=
  tame_modify (fun _ hs => absurd hs hawake) (fun _ _ _ => by rw [hparent])
    fun _ _ _ _ => hzombie

/-- A process gets a state in which it neither sleeps nor is a zombie. -/
theorem tame_put {f : Proc → Proc} (state : ProcState) (hstate : (f (s.proc p)).state = state)
    (hsleeping : state ≠ .sleeping) (hzombie : state ≠ .zombie)
    (hparent : (f (s.proc p)).parent = (s.proc p).parent) : Tame s (s.modify p f) :=
  tame_awake (hstate ▸ hsleeping) (fun heq => absurd (hstate.symm.trans heq) hzombie) hparent

theorem tame_wakeup (s : Kernel) (me : Option Slot) (chan : Option Chan) :
    Tame s (wakeup s me chan) := by
  have hproc : ∀ q, (wakeup s me chan).proc q = s.proc q ∨
      (wakeup s me chan).proc q = { s.proc q with state := .runnable } := fun q => by
    show (if _ then _ else _) = _ ∨ (if _ then _ else _) = _
    split
    · exact Or.inr rfl
    · exact Or.inl rfl
  refine ⟨fun q c hq => ?_, fun q c pp _ => ?_, fun q c pp _ _ hstate => ?_⟩
  · rw [Kernel.Dozes] at hq
    rcases hproc q with h | h <;> rw [h] at hq
    · exact hq
    · cases hq.1
  · rcases hproc pp with h | h <;> rw [h]
  · rcases hproc pp with h | h <;> rw [h] at hstate
    · exact hstate
    · cases hstate

/-- Nobody sleeps on an address that has been woken, but for the caller. -/
theorem not_dozes_wakeup {me : Option Slot} {q c : Slot} (hme : some q ≠ me) :
    ¬ (wakeup s me (some (.proc c))).Dozes q c := by
  rintro ⟨hstate, hchan⟩
  simp only [wakeup] at hstate hchan
  split at hstate
  · cases hstate
  · rename_i hnot
    rw [if_neg hnot] at hchan
    exact hnot ⟨hme, hstate, hchan⟩

end Tame

/-! ### The functions -/

section Functions

variable {s s' : Kernel} {p np : Slot}

theorem tame_kill (s : Kernel) (pid : ℤ) : Tame s (kill s pid).1 := by
  rw [kill]
  split
  · rename_i q hq
    dsimp only
    by_cases hsleeping : (s.proc q).state = .sleeping
    · refine tame_awake ?_ ?_ rfl <;> simp only [if_pos hsleeping, reduceCtorEq, ne_eq,
        not_false_eq_true, false_implies]
    · refine tame_awake ?_ ?_ rfl <;> simp only [if_neg hsleeping]
      · exact hsleeping
      · exact id
  · exact .refl s

theorem tame_found (s : Kernel) (np : Slot) : Tame s (found s np) := by
  have hnext : Tame s { s with nextpid := s.nextpid + 1 } :=
    ⟨fun _ _ => id, fun _ _ _ _ => Iff.rfl, fun _ _ _ _ _ => id⟩
  rw [found]
  exact hnext.trans (tame_put .used rfl (by decide) (by decide) rfl)

theorem tame_sysReturn (call : Syscall) (ret : BitVec 64) (hp : ∀ c, ¬ s.Dozes p c) :
    Tame s (sysReturn s p call ret).1 := by
  dsimp only [sysReturn]
  exact tame_goOn hp rfl rfl rfl

/-- A slot is freed whose parent does not sleep. -/
theorem tame_freeproc (hnp : ∀ q c, s.Dozes q c → (s.proc np).parent ≠ some q) :
    Tame s (freeproc s np) := by
  refine tame_modify nofun (fun q c hq => ?_) nofun
  exact iff_of_false nofun (hnp q c hq)

/-- The first process is woken when it gets children. -/
theorem tame_reparent (hinit : s.initproc = some 0) (hown : ∀ q c, s.Dozes q c → c = q)
    (hp : ∀ c, ¬ s.Dozes p c) : Tame s (reparent s p) := by
  have hproc : ∀ pp, (if (s.proc pp).parent = some p then { s.proc pp with parent := s.initproc }
      else s.proc pp) =
      { s.proc pp with
        parent := if (s.proc pp).parent = some p then some 0 else (s.proc pp).parent } := by
    intro pp
    split
    · rw [hinit]
    · rfl
  rw [reparent]
  simp only [hproc]
  split
  · rename_i hchildren
    have hwakeup := tame_wakeup { s with
      proc := fun pp =>
        { s.proc pp with
          parent := if (s.proc pp).parent = some p then some 0 else (s.proc pp).parent } }
      (some p) (s.initproc.map .proc)
    refine ⟨hwakeup.dozes, fun q c pp hq => ?_, hwakeup.zombie⟩
    have hdozes : s.Dozes q c := hwakeup.dozes q c hq
    have hne : q ≠ p := by
      rintro rfl
      exact hp c hdozes
    obtain rfl := hown q c hdozes
    have hroot : c ≠ 0 := by
      rintro rfl
      rw [hinit] at hq
      exact not_dozes_wakeup (fun heq => hne (Option.some.inj heq)) hq
    refine (hwakeup.parent c c pp hq).trans ?_
    show (if (s.proc pp).parent = some p then some 0 else (s.proc pp).parent) = some c ↔ _
    split
    · rename_i hpp
      rw [hpp]
      exact iff_of_false (fun heq => hroot (Option.some.inj heq).symm)
        fun heq => hne (Option.some.inj heq).symm
    · rfl
  · rename_i hnone
    rw [not_exists] at hnone
    refine ⟨fun _ _ => id, fun q c pp _ => ?_, fun _ _ _ _ _ => id⟩
    show (if (s.proc pp).parent = some p then some 0 else (s.proc pp).parent) = some q ↔ _
    rw [if_neg (hnone pp)]

/-- The parent of a process that exits does not sleep on. -/
theorem alert_exit {status : ℤ} (hinit : s.initproc = some 0) (hI : s.Alert)
    (hp : ∀ c, ¬ s.Dozes p c) (h : exit s p status = some s') : s'.Alert := by
  rw [exit] at h
  split at h
  · cases h
  · obtain rfl := Option.some.inj h
    have hreparent := tame_reparent hinit hI.own hp
    have hwakeup := tame_wakeup (reparent s p) (some p)
      (((reparent s p).proc p).parent.map .proc)
    have htame := hreparent.trans hwakeup
    refine Tame.alert (htame.trans (tame_modify (fun _ hs => ?_) (fun _ _ _ => Iff.rfl) ?_)) hI
    · cases hs
    intro q c hq hparent
    have hne : q ≠ p := by
      rintro rfl
      exact hp c (htame.dozes q c hq)
    obtain rfl := hI.own q c (htame.dozes q c hq)
    have hself : (wakeup (reparent s p) (some p)
        (((reparent s p).proc p).parent.map .proc)).proc p = (reparent s p).proc p :=
      if_neg fun h => h.1 rfl
    rw [hself] at hparent
    rw [hparent] at hq
    exact absurd hq (not_dozes_wakeup fun heq => hne (Option.some.inj heq))

/-- A process goes to sleep that has a child, and no zombie. -/
theorem alert_sleep (hI : s.Alert) {child : Slot} (hchild : (s.proc child).parent = some p)
    (hnone : zombieChild s p = none) : (sleep s p (.proc p)).Alert := by
  have hself : (sleep s p (.proc p)).proc p =
      { s.proc p with chan := some (.proc p), state := .sleeping } := proc_modify_self s p _
  have hparent : ∀ pp, ((sleep s p (.proc p)).proc pp).parent = (s.proc pp).parent := fun pp => by
    by_cases hpp : pp = p
    · rw [hpp, hself]
    · rw [sleep, proc_modify_of_ne s hpp]
  have hzombie : ∀ pp, ((sleep s p (.proc p)).proc pp).state = .zombie →
      (s.proc pp).state = .zombie := fun pp hstate => by
    by_cases hpp : pp = p
    · rw [hpp, hself] at hstate
      cases hstate
    · rwa [sleep, proc_modify_of_ne s hpp] at hstate
  have hdozes : ∀ q c, (sleep s p (.proc p)).Dozes q c → q = p ∧ c = p ∨ s.Dozes q c := by
    rintro q c ⟨hstate, hchan⟩
    by_cases hq : q = p
    · rw [hq, hself] at hchan
      exact Or.inl ⟨hq, (Chan.proc.inj (Option.some.inj hchan)).symm⟩
    · rw [sleep, proc_modify_of_ne s hq] at hstate hchan
      exact Or.inr ⟨hstate, hchan⟩
  constructor
  · intro q c hq
    rcases hdozes q c hq with ⟨rfl, rfl⟩ | hq
    · rfl
    · exact hI.own q c hq
  · intro q c hq
    rcases hdozes q c hq with ⟨rfl, rfl⟩ | hq
    · exact ⟨child, (hparent child).trans hchild⟩
    · obtain ⟨pp, hpp⟩ := hI.child q c hq
      exact ⟨pp, (hparent pp).trans hpp⟩
  · intro q c pp hq hpp hstate
    rw [hparent] at hpp
    rcases hdozes q c hq with ⟨rfl, rfl⟩ | hq
    · have hnot := List.find?_eq_none.mp hnone pp (List.mem_finRange pp)
      exact hnot (by simp [hpp, hzombie pp hstate])
    · exact hI.noZombie q c pp hq hpp (hzombie pp hstate)

/-- A round of `wait`: the process finds a zombie, or has no child, or goes to sleep. -/
theorem alert_wait (hI : s.Alert) (hp : ∀ c, ¬ s.Dozes p c) (addr : BitVec 64) (copied : Bool) :
    (wait s p addr copied).1.Alert ∧
      ∀ r, (wait s p addr copied).2 = some r → ∀ c, ¬ (wait s p addr copied).1.Dozes p c := by
  rw [wait]
  split
  · rename_i pp hpp
    obtain ⟨hparent, -⟩ := zombieChild_eq_some hpp
    split
    · exact ⟨hI, fun _ _ => hp⟩
    · have htame : Tame s (freeproc s pp) := tame_freeproc fun q c hq heq => by
        obtain rfl : p = q := Option.some.inj (hparent.symm.trans heq)
        exact hp c hq
      exact ⟨htame.alert hI, fun _ _ c hc => hp c (htame.dozes p c hc)⟩
  · rename_i hnone
    split
    · exact ⟨hI, fun _ _ => hp⟩
    · rename_i hsome
      refine ⟨?_, fun _ hr => by cases hr⟩
      rw [not_or, not_forall] at hsome
      obtain ⟨⟨child, hchild⟩, -⟩ := hsome
      exact alert_sleep hI (not_not.mp hchild) hnone

end Functions

/-! ### The steps -/

section Steps

variable {s s₀ s' : Kernel} {p np : Slot} {es' : List Event}

theorem alert_exits {status : ℤ} (hinit : s.initproc = some 0) (hI : s.Alert)
    (hp : ∀ c, ¬ s.Dozes p c) (h : exits s p status = some (s', es')) : s'.Alert := by
  obtain ⟨s₁, h₁, heq⟩ := Option.map_eq_some_iff.mp h
  obtain ⟨rfl, -⟩ := Prod.mk.inj heq
  exact alert_exit hinit hI hp h₁

theorem alert_syscall {regs : Trapframe} (hI : s.Alert) (hp : ∀ c, ¬ s.Dozes p c)
    (h : some (syscall (s.modify p fun q => { q with trapframe := regs }) p) = some (s', es')) :
    s'.Alert := by
  have hregs : Tame s (s.modify p fun q => { q with trapframe := regs }) :=
    tame_goOn hp rfl rfl rfl
  have hp' : ∀ c, ¬ (s.modify p fun q => { q with trapframe := regs }).Dozes p c :=
    fun c hc => hp c (hregs.dozes p c hc)
  rw [Option.some.injEq, syscall] at h
  dsimp only at h
  split at h <;> obtain ⟨rfl, -⟩ := Prod.mk.inj h
  · exact (hregs.trans (tame_goOn hp' rfl rfl rfl)).alert hI
  · exact (hregs.trans (tame_goOn hp' rfl rfl rfl)).alert hI

theorem alert_trap {unexpected : Bool} (hinit : s.initproc = some 0) (hI : s.Alert)
    (hp : ∀ c, ¬ s.Dozes p c)
    (h : (if ((if unexpected then setkilled s p else s).proc p).killed = true then
        exits (if unexpected then setkilled s p else s) p (-1)
      else some (if unexpected then setkilled s p else s, [])) = some (s', es')) : s'.Alert := by
  have htame : Tame s (if unexpected then setkilled s p else s) := by
    split
    · exact tame_goOn hp rfl rfl rfl
    · exact .refl s
  have hinit₀ : (if unexpected then setkilled s p else s).initproc = s.initproc := by
    split <;> rfl
  by_cases hkilled : ((if unexpected then setkilled s p else s).proc p).killed = true
  · rw [if_pos hkilled] at h
    exact alert_exits (hinit₀.trans hinit) (htame.alert hI)
      (fun c hc => hp c (htame.dozes p c hc)) h
  · rw [if_neg hkilled] at h
    obtain ⟨rfl, -⟩ := Prod.mk.inj (Option.some.inj h)
    exact htame.alert hI

theorem alert_fork (hI : s.Alert) (hp : ∀ c, ¬ s.Dozes p c)
    (h : (allocproc s np).map (fun s' =>
      (s'.modify p fun q => { q with context := .forkCopies np }, [Event.created np])) =
      some (s', es')) : s'.Alert := by
  obtain ⟨s₁, halloc, heq⟩ := Option.map_eq_some_iff.mp h
  obtain ⟨rfl, -⟩ := Prod.mk.inj heq
  rw [allocproc] at halloc
  split at halloc
  · obtain rfl := Option.some.inj halloc
    have hfound : Tame s (found s np) := tame_found s np
    have hgoOn := tame_goOn (f := fun q => { q with context := .forkCopies np })
      (fun c hc => hp c (hfound.dozes p c hc)) rfl rfl rfl
    exact (hfound.trans hgoOn).alert hI
  · cases halloc

/-- `fork` sets the parent, which is awake; there was none before. -/
theorem alert_forkAdopts (hwf : s.tree.WellFormed 0) (hI : s.Alert) (hp : ∀ c, ¬ s.Dozes p c)
    (hc : s.contexts p = .forkCopies np) (regs : Trapframe) :
    ((s.modify np fun q => { q with trapframe := regs, parent := some p }).modify p
      fun q => { q with context := .forkAdopted np }).Alert := by
  have hchild : s.tree.child p = some (np, false) := congrArg Context.child hc
  have hused : (s.proc np).state.kind = .building := (hwf.builder p np false hchild).2
  have hnone : (s.proc np).parent = none := hwf.child_parent p np false hchild
  have hadopt : Tame s (s.modify np fun q => { q with trapframe := regs, parent := some p }) := by
    refine tame_modify (fun c hs => ?_) (fun q c hq => ?_) fun _ _ _ _ => id
    · change (s.proc np).state = .sleeping at hs
      rw [hs] at hused
      cases hused
    · rw [hnone]
      refine iff_of_false (fun heq => ?_) nofun
      obtain rfl : p = q := Option.some.inj heq
      exact hp c hq
  exact (hadopt.trans (tame_goOn (fun c hc => hp c (hadopt.dozes p c hc)) rfl rfl rfl)).alert hI

/-- `fork` gives the slot back; nobody is its parent. -/
theorem alert_forkFails (hwf : s.tree.WellFormed 0) (hI : s.Alert) (hp : ∀ c, ¬ s.Dozes p c)
    (hc : s.contexts p = .forkCopies np) (ret : BitVec 64) :
    (sysReturn (freeproc s np) p .fork ret).1.Alert := by
  have hchild : s.tree.child p = some (np, false) := congrArg Context.child hc
  have hnone : (s.proc np).parent = none := hwf.child_parent p np false hchild
  have hfree : Tame s (freeproc s np) :=
    tame_freeproc fun q c _ heq => by cases hnone.symm.trans heq
  exact (hfree.trans (tame_sysReturn .fork ret fun c hc => hp c (hfree.dozes p c hc))).alert hI

theorem alert_forkReturns (hI : s.Alert) (hp : ∀ c, ¬ s.Dozes p c) (ret : BitVec 64) :
    (sysReturn (s.modify np fun q => { q with state := .runnable }) p .fork ret).1.Alert := by
  have hstart : Tame s (s.modify np fun q => { q with state := .runnable }) :=
    tame_put .runnable rfl (by decide) (by decide) rfl
  exact (hstart.trans (tame_sysReturn .fork ret fun c hc => hp c (hstart.dozes p c hc))).alert hI

theorem tame_handle {call : Syscall} {ret r : BitVec 64}
    (h : handle s p ret call = some (s', r)) : Tame s s' := by
  cases call <;> simp only [handle, Option.some.injEq, Prod.mk.injEq, reduceCtorEq] at h <;>
    obtain ⟨rfl, -⟩ := h <;>
    first | exact .refl s | exact tame_kill s _

theorem alert_of_stepOf {c : Context} {a : Act} (hwf : s.tree.WellFormed 0)
    (hinit : s.initproc = some 0) (hI : s.Alert) (hp : ∀ c, ¬ s.Dozes p c)
    (hc : s.contexts p = c) (ha : a.actor = some p) (h : stepOf s p c a = some (s', es')) :
    s'.Alert := by
  rw [stepOf.eq_def] at h
  split at h
  · -- `ecall`
    obtain rfl := Option.some.inj ha
    split at h
    · exact alert_exits hinit hI hp h
    · exact alert_syscall hI hp h
  · exact alert_trap hinit hI hp h
  · cases h
    exact (tame_sysReturn .fork (-1) hp).alert hI
  · exact alert_fork hI hp h
  · cases h
    exact alert_forkFails hwf hI hp hc _
  · cases h
    exact alert_forkAdopts hwf hI hp hc _
  · cases h
    exact alert_forkReturns hI hp _
  · exact alert_exits hinit hI hp h
  · -- `wait`
    rename_i copied
    have hwait := alert_wait hI hp (s.proc p).trapframe.a0 copied
    split at h <;> rename_i heq <;> rw [heq] at hwait <;> cases h
    · exact hwait.1
    · exact (tame_sysReturn .wait _ (hwait.2 _ rfl)).alert hwait.1
  · -- a handler ends
    rename_i call _ _
    obtain ⟨⟨s₁, r⟩, hhandle, heq⟩ := Option.map_eq_some_iff.mp h
    obtain ⟨rfl, rfl⟩ := Prod.mk.inj heq
    have htame := tame_handle hhandle
    have hreturn := tame_sysReturn call r fun c hc => hp c (htame.dozes p c hc)
    exact (htame.trans hreturn).alert hI
  · -- a handler sleeps
    split at h
    · cases h
    · cases h
      refine Tame.alert (tame_modify (fun c _ heq => ?_) (fun _ _ _ => Iff.rfl)
        fun _ _ _ _ hs => ?_) hI
      · cases heq
      · cases hs
  · cases h

theorem alert_of_step {a : Act} (hwf : s.tree.WellFormed 0) (hinit : s.initproc = some 0)
    (hI : s.Alert) (h : step s a = some (s', es')) : s'.Alert := by
  rw [step.eq_def] at h
  split at h
  · split at h
    · cases h
      exact Tame.alert (tame_put .running rfl (by decide) (by decide) rfl) hI
    · cases h
  · split at h
    · cases h
      exact Tame.alert (tame_put .runnable rfl (by decide) (by decide) rfl) hI
    · cases h
  · cases h
    exact (tame_wakeup s _ _).alert hI
  · obtain ⟨p, hp, hstep⟩ := Option.bind_eq_some_iff.mp h
    split at hstep
    · rename_i hstate
      have hawake : ∀ c, ¬ s.Dozes p c := fun c hc => by
        rw [Kernel.Dozes, hstate] at hc
        cases hc.1
      exact alert_of_stepOf hwf hinit hI hawake rfl hp hstep
    · cases hstep

end Steps

theorem not_sleeping_init (p : Slot) : (machine.init.proc p).state ≠ .sleeping := by
  by_cases hp : p = 0
  · subst hp
    exact nofun
  · have hproc : machine.init.proc p = procinit.proc p :=
      (Function.update_of_ne hp ..).trans (Function.update_of_ne hp ..)
    rw [hproc]
    exact nofun

theorem alert_of_run {as : List Act} {s : Kernel} {es : List Event}
    (h : machine.run as = some (s, es)) : s.Alert := by
  refine (Machine.run_invariant_state (M := machine)
    (I := fun s => (s.tree.WellFormed 0 ∧ s.initproc = some 0) ∧ s.Alert)
    ⟨⟨tree_init ▸ ProcessTree.wellFormed_first 0, rfl⟩, ?_⟩ ?_ h).2
  · exact ⟨fun p _ hp => absurd hp.1 (not_sleeping_init p),
      fun p _ hp => absurd hp.1 (not_sleeping_init p),
      fun p _ _ hp => absurd hp.1 (not_sleeping_init p)⟩
  · rintro s a s' es' ⟨⟨hwf, hinit⟩, hI⟩ hstep
    obtain ⟨hmove, hinit'⟩ := moves_of_step hinit hstep
    exact ⟨⟨hwf.move hmove, hinit'.trans hinit⟩, alert_of_step hwf hinit hI hstep⟩

/-- **Nobody waits for nothing.** Whenever a process sleeps in `wait`, it sleeps on its own channel,
it has a child, and none of its children is a zombie. -/
theorem waits_of_run {as : List Act} {s : Kernel} {es : List Event} {p c : Slot}
    (h : machine.run as = some (s, es)) (hsleeping : (s.proc p).state = .sleeping)
    (hchan : (s.proc p).chan = some (.proc c)) :
    c = p ∧ (∃ pp, (s.proc pp).parent = some p) ∧
      ∀ pp, (s.proc pp).parent = some p → (s.proc pp).state ≠ .zombie := by
  have hI := alert_of_run h
  have hdozes : s.Dozes p c := ⟨hsleeping, hchan⟩
  exact ⟨hI.own p c hdozes, hI.child p c hdozes, fun pp => hI.noZombie p c pp hdozes⟩

/-- The first process forks, and waits for the child. -/
def forkAndWait : List Act :=
  [.schedule 0, .ecall 0 ⟨0, 1⟩, .fork 0 (some 1), .forkAdopts 0, .forkReturns 0, .ecall 0 ⟨0, 3⟩,
    .wait 0 true]

theorem waits_of_run_forkAndWait : ∃ s es, machine.run forkAndWait = some (s, es) ∧
    (s.proc 0).state = .sleeping ∧
      ∀ pp, (s.proc pp).parent = some 0 → (s.proc pp).state ≠ .zombie := by
  have hrun : machine.run forkAndWait = some (_, _) := rfl
  exact ⟨_, _, hrun, rfl, (waits_of_run (p := 0) (c := 0) hrun rfl rfl).2.2⟩

end Xv6

end SystemProgramming
