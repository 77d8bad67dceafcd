import SystemProgramming.Xv6.Tree

/-!
# Whom `kill` kills

`kill` looks for a slot with the number it is given, without a look at the state of the slot. The
slots that are not in use have the number 0, and `killed` is cleared when a slot is given back and
not when it is taken. So 0 is the number of the next process, which is killed before it is born;
for every other number `kill` does what it should.

## What is assumed

That numbers of processes identify them rests on `nextpid` growing, which is an integer here: the
results are about runs in which it has not overflowed. No slot that is not in use is marked as
killed (`Clean`), and every step keeps this but `kill` with the number 0.

## How it goes

`nextpid` is greater than all numbers that have been given out, and grows with each of them. So the
numbers of the slots in use differ, which is a part of the invariant of the process tree; together
with the number 0 of the others this settles what the loop over the slots finds. For `Clean` it is
enough to look at the steps that set `killed`, or make a slot unused: `freeproc` clears it, and
`kill` sets it in a slot that it has found by a number other than 0.

## Main definitions

* `Clean` — no slot that is not in use is marked
* `NotZero` — the step is no `kill(0)`

## Main results

* `kill_of_run` — a number other than 0 is that of one process, or of none
* `created_of_run` — no process is killed from the start, unless somebody has killed 0
-/

namespace SystemProgramming

namespace Xv6

/-- **One process.** In every run, `kill` of a number other than 0 marks the only process with this
number, which does not sleep on, and nothing else; or there is none, and nothing happens. -/
theorem kill_of_run {as : List Act} {s : Kernel} {es : List Event} {pid : ℤ}
    (h : machine.run as = some (s, es)) (hpid : pid ≠ 0) :
    (∃ q, (s.proc q).state ≠ .unused ∧ (s.proc q).pid = pid ∧ (kill s pid).2 = 0 ∧
        ((kill s pid).1.proc q).killed = true ∧ ((kill s pid).1.proc q).state ≠ .sleeping ∧
        ∀ r, r ≠ q → (s.proc r).pid ≠ pid ∧ (kill s pid).1.proc r = s.proc r) ∨
      (∀ q, (s.proc q).pid ≠ pid) ∧ kill s pid = (s, -1) := by
  obtain ⟨hwf, -⟩ := wellFormed_of_run h
  have hused : ∀ q, (s.proc q).pid = pid → s.tree.kind q ≠ .free := fun q hq hfree => by
    have hzero : (s.proc q).pid = 0 := (hwf.free q hfree).2
    exact hpid (hq.symm.trans hzero)
  rw [kill]
  split
  · rename_i q hfind
    have hq : (s.proc q).pid = pid := by simpa using List.find?_some hfind
    refine Or.inl ⟨q, fun hunused => hused q hq (congrArg ProcState.kind hunused), hq, rfl, ?_, ?_,
      fun r hr => ⟨fun hrpid => ?_, Function.update_of_ne hr _ s.proc⟩⟩
    · dsimp only
      rw [proc_modify_self]
    · dsimp only
      rw [proc_modify_self]
      dsimp only
      split
      · decide
      · assumption
    · exact hr (hwf.pid_inj r q (hused r hrpid) (hused q hq) (hrpid.trans hq.symm))
  · rename_i hfind
    refine Or.inr ⟨fun q hq => ?_, rfl⟩
    exact List.find?_eq_none.mp hfind q (List.mem_finRange q) (by simpa using hq)

/-- The number 1 is that of the first process. -/
theorem kill_of_run_first : ∃ s es, machine.run [.schedule 0] = some (s, es) ∧
    ∃ q, (s.proc q).state ≠ .unused ∧ (s.proc q).pid = 1 ∧ (kill s 1).2 = 0 ∧
      ((kill s 1).1.proc q).killed = true ∧ ((kill s 1).1.proc q).state ≠ .sleeping ∧
      ∀ r, r ≠ q → (s.proc r).pid ≠ 1 ∧ (kill s 1).1.proc r = s.proc r := by
  have hrun : machine.run [.schedule 0] = some (_, _) := rfl
  exact ⟨_, _, hrun, (kill_of_run hrun (by decide)).resolve_right fun h => h.1 0 rfl⟩

/-- The slots that are not in use are not marked. -/
def Clean (s : Kernel) : Prop := ∀ q, (s.proc q).state = .unused → (s.proc q).killed = false

/-- No process that the events speak of is killed from the start. -/
def Born (s : Kernel) (es : List Event) : Prop :=
  ∀ np, .created np ∈ es → (s.proc np).killed = false

/-- The step is no `kill` of 0. -/
def NotZero (_ : List Event) (s : Kernel) (a : Act) : Prop :=
  ∀ p ret, a = .finish p ret → (s.proc p).context = .handler .kill →
    toInt32 (s.proc p).trapframe.a0 ≠ 0

section Clean

variable {s s₀ s' : Kernel} {p np : Slot} {es' : List Event}

theorem Clean.modify {f : Proc → Proc} (h : Clean s)
    (hf : (f (s.proc p)).state = .unused → (f (s.proc p)).killed = false) :
    Clean (s.modify p f) := by
  intro q hq
  by_cases hqp : q = p
  · rw [hqp, proc_modify_self] at hq ⊢
    exact hf hq
  · rw [proc_modify_of_ne s hqp] at hq ⊢
    exact h q hq

theorem Clean.put {f : Proc → Proc} (h : Clean s) (state : ProcState)
    (hstate : (f (s.proc p)).state = state) (hused : state ≠ .unused) : Clean (s.modify p f) :=
  h.modify fun hunused => absurd (hstate.symm.trans hunused) hused

/-- What keeps the state and the mark of a slot. -/
theorem Clean.goOn {f : Proc → Proc} (h : Clean s)
    (hstate : (f (s.proc p)).state = (s.proc p).state)
    (hkilled : (f (s.proc p)).killed = (s.proc p).killed) : Clean (s.modify p f) :=
  h.modify fun hunused => hkilled.trans (h p (hstate.symm.trans hunused))

theorem born_nil (s : Kernel) : Born s [] := fun _ hmem => absurd hmem List.not_mem_nil

theorem born_singleton {e : Event} (s : Kernel) (he : ∀ np, e ≠ .created np) : Born s [e] :=
  fun np hmem => absurd (List.mem_singleton.mp hmem).symm (he np)

theorem Clean.wakeup (h : Clean s) (me : Option Slot) (chan : Option Chan) :
    Clean (wakeup s me chan) := by
  intro q hq
  simp only [Xv6.wakeup] at hq ⊢
  split at hq
  · cases hq
  · rename_i hnot
    rw [if_neg hnot]
    exact h q hq

theorem Clean.reparent (h : Clean s) (p : Slot) : Clean (reparent s p) := by
  have hmap : Clean { s with
      proc := fun pp =>
        if (s.proc pp).parent = some p then { s.proc pp with parent := s.initproc }
        else s.proc pp } := by
    intro q hq
    dsimp only at hq ⊢
    split at hq
    · rename_i hparent
      rw [if_pos hparent]
      exact h q hq
    · rename_i hparent
      rw [if_neg hparent]
      exact h q hq
  rw [Xv6.reparent]
  split
  · exact hmap.wakeup _ _
  · exact hmap

theorem Clean.exits {status : ℤ} (h : Clean s) (hexit : exits s p status = some (s', es')) :
    Clean s' ∧ Born s' es' := by
  obtain ⟨s₁, h₁, heq⟩ := Option.map_eq_some_iff.mp hexit
  obtain ⟨rfl, rfl⟩ := Prod.mk.inj heq
  rw [exit] at h₁
  split at h₁
  · cases h₁
  · obtain rfl := Option.some.inj h₁
    exact ⟨((h.reparent p).wakeup _ _).put .zombie rfl (by decide),
      born_singleton _ fun _ heq => by cases heq⟩

theorem Clean.sysReturn (h : Clean s) (call : Syscall) (ret : BitVec 64) :
    Clean (sysReturn s p call ret).1 ∧ Born (sysReturn s p call ret).1 [.returned p call ret] := by
  dsimp only [Xv6.sysReturn]
  exact ⟨h.goOn rfl rfl, born_singleton _ fun _ heq => by cases heq⟩

theorem Clean.freeproc (h : Clean s) : Clean (freeproc s p) := h.modify fun _ => rfl

/-- A number that is not 0 is that of a process. -/
theorem Clean.kill (h : Clean s) (hwf : s.tree.WellFormed 0) {pid : ℤ} (hpid : pid ≠ 0) :
    Clean (kill s pid).1 := by
  rw [Xv6.kill]
  split
  · rename_i q hfind
    have hq : (s.proc q).pid = pid := by simpa using List.find?_some hfind
    dsimp only
    refine h.modify fun hunused => ?_
    dsimp only at hunused
    split at hunused
    · cases hunused
    · have hzero : (s.proc q).pid = 0 := (hwf.free q (congrArg ProcState.kind hunused)).2
      exact absurd (hq.symm.trans hzero) hpid
  · exact h

theorem Clean.wait (h : Clean s) (addr : BitVec 64) (copied : Bool) :
    Clean (wait s p addr copied).1 := by
  rw [Xv6.wait]
  split
  · split
    · exact h
    · exact h.freeproc
  · split
    · exact h
    · dsimp only [sleep]
      exact h.put .sleeping rfl (by decide)

theorem Clean.handle {call : Syscall} {ret r : BitVec 64} (h : Clean s)
    (hwf : s.tree.WellFormed 0) (hzero : call = .kill → toInt32 (s.proc p).trapframe.a0 ≠ 0)
    (hhandle : handle s p ret call = some (s', r)) : Clean s' := by
  cases call <;>
    simp only [Xv6.handle, Option.some.injEq, Prod.mk.injEq, reduceCtorEq] at hhandle <;>
    obtain ⟨rfl, -⟩ := hhandle <;>
    first | exact h | exact h.kill hwf (hzero rfl)

theorem Clean.fork (h : Clean s)
    (hfork : (allocproc s np).map (fun s' =>
      (s'.modify p fun q => { q with context := .forkCopies np }, [Event.created np])) =
      some (s', es')) : Clean s' ∧ Born s' es' := by
  obtain ⟨s₁, halloc, heq⟩ := Option.map_eq_some_iff.mp hfork
  obtain ⟨rfl, rfl⟩ := Prod.mk.inj heq
  rw [allocproc] at halloc
  split at halloc
  · rename_i hnp
    obtain rfl := Option.some.inj halloc
    have hnext : Clean { s with nextpid := s.nextpid + 1 } := h
    have hfound : Clean (found s np) := hnext.put .used rfl (by decide)
    refine ⟨hfound.goOn rfl rfl, fun np' hnew => ?_⟩
    obtain rfl : np' = np := by simpa using hnew
    by_cases hself : np' = p
    · rw [hself, proc_modify_self, ← hself, found, proc_modify_self]
      exact h np' hnp
    · rw [proc_modify_of_ne _ hself, found, proc_modify_self]
      exact h np' hnp
  · cases halloc

theorem Clean.syscall {regs : Trapframe} (h : Clean s)
    (hsyscall : some (syscall (s.modify p fun q => { q with trapframe := regs }) p) =
      some (s', es')) : Clean s' ∧ Born s' es' := by
  have hregs : Clean (s.modify p fun q => { q with trapframe := regs }) := h.goOn rfl rfl
  rw [Option.some.injEq, Xv6.syscall] at hsyscall
  dsimp only at hsyscall
  split at hsyscall <;> obtain ⟨rfl, rfl⟩ := Prod.mk.inj hsyscall
  · exact ⟨hregs.goOn rfl rfl, born_singleton _ fun _ heq => by cases heq⟩
  · exact ⟨hregs.goOn rfl rfl, born_singleton _ fun _ heq => by cases heq⟩

theorem clean_trap {unexpected : Bool} (h : Clean s) (hp : (s.proc p).state = .running)
    (htrap : (if ((if unexpected then setkilled s p else s).proc p).killed = true then
        exits (if unexpected then setkilled s p else s) p (-1)
      else some (if unexpected then setkilled s p else s, [])) = some (s', es')) :
    Clean s' ∧ Born s' es' := by
  have hset : Clean (if unexpected then setkilled s p else s) := by
    split
    · refine h.modify fun hunused => ?_
      change (s.proc p).state = .unused at hunused
      rw [hp] at hunused
      cases hunused
    · exact h
  by_cases hkilled : ((if unexpected then setkilled s p else s).proc p).killed = true
  · rw [if_pos hkilled] at htrap
    exact hset.exits htrap
  · rw [if_neg hkilled] at htrap
    obtain ⟨rfl, rfl⟩ := Prod.mk.inj (Option.some.inj htrap)
    exact ⟨hset, born_nil _⟩

theorem clean_of_stepOf {c : Context} {a : Act} (hwf : s.tree.WellFormed 0) (h : Clean s)
    (hp : (s.proc p).state = .running) (hzero : NotZero [] s a) (hc : (s.proc p).context = c)
    (ha : a.actor = some p) (hstep : stepOf s p c a = some (s', es')) :
    Clean s' ∧ Born s' es' := by
  rw [stepOf.eq_def] at hstep
  split at hstep
  · -- `ecall`
    obtain rfl := Option.some.inj ha
    split at hstep
    · exact h.exits hstep
    · exact h.syscall hstep
  · exact clean_trap h hp hstep
  · cases hstep
    exact h.sysReturn .fork (-1)
  · exact h.fork hstep
  · cases hstep
    exact h.freeproc.sysReturn .fork (-1)
  · cases hstep
    exact ⟨Clean.goOn (Clean.goOn h rfl rfl) rfl rfl, born_nil _⟩
  · cases hstep
    exact Clean.sysReturn (Clean.modify h fun hunused => by cases hunused) .fork _
  · exact h.exits hstep
  · -- `wait`
    rename_i copied
    have hwait := h.wait (p := p) (s.proc p).trapframe.a0 copied
    split at hstep <;> rename_i heq <;> rw [heq] at hwait <;> cases hstep
    · exact ⟨hwait, born_nil _⟩
    · exact hwait.sysReturn .wait _
  · -- a handler ends
    rename_i call p' ret
    obtain rfl : p' = p := Option.some.inj ha
    obtain ⟨⟨s₁, r⟩, hhandle, heq⟩ := Option.map_eq_some_iff.mp hstep
    obtain ⟨rfl, rfl⟩ := Prod.mk.inj heq
    have hclean := h.handle hwf (fun hcall => hzero p' ret rfl (by rw [hc, hcall])) hhandle
    exact hclean.sysReturn call r
  · -- a handler sleeps
    split at hstep
    · cases hstep
    · cases hstep
      dsimp only [sleep]
      exact ⟨h.put .sleeping rfl (by decide), born_nil _⟩
  · cases hstep

theorem clean_of_step {a : Act} (hwf : s.tree.WellFormed 0) (h : Clean s) (hzero : NotZero [] s a)
    (hstep : step s a = some (s', es')) : Clean s' ∧ Born s' es' := by
  rw [step.eq_def] at hstep
  split at hstep
  · split at hstep
    · cases hstep
      exact ⟨h.put .running rfl (by decide), born_nil _⟩
    · cases hstep
  · split at hstep
    · cases hstep
      exact ⟨h.put .runnable rfl (by decide), born_nil _⟩
    · cases hstep
  · cases hstep
    exact ⟨h.wakeup _ _, born_nil _⟩
  · obtain ⟨p, hp, hstep⟩ := Option.bind_eq_some_iff.mp hstep
    split at hstep
    · rename_i hstate
      exact clean_of_stepOf hwf h hstate hzero rfl hp hstep
    · cases hstep

end Clean

theorem not_created_of_finish {s s' : Kernel} {p np : Slot} {ret : BitVec 64} {es' : List Event}
    (h : step s (.finish p ret) = some (s', es')) : .created np ∉ es' := by
  simp only [step, Act.actor, Option.bind_some] at h
  split at h
  · cases hc : (s.proc p).context with
    | handler call =>
      have hreturn : (handle s p ret call).map (fun q => sysReturn q.1 p call q.2) =
          some (s', es') := by
        rw [hc] at h
        cases call <;> exact h
      obtain ⟨q, -, heq⟩ := Option.map_eq_some_iff.mp hreturn
      obtain ⟨-, rfl⟩ := Prod.mk.inj heq
      exact fun hmem => by cases List.mem_singleton.mp hmem
    | _ =>
      rw [hc] at h
      cases h
  · cases h

theorem clean_init : Clean machine.init := by
  intro p hp
  by_cases hzero : p = 0
  · subst hzero
    cases hp
  · have hproc : machine.init.proc p = procinit.proc p :=
      (Function.update_of_ne hzero ..).trans (Function.update_of_ne hzero ..)
    rw [hproc]
    rfl

theorem clean_of_run {as : List Act} {s : Kernel} {es : List Event}
    (hzero : machine.Meets NotZero as) (h : machine.run as = some (s, es)) :
    s.tree.WellFormed 0 ∧ Clean s := by
  have hI := Machine.run_invariant_of_meets (M := machine)
    (I := fun _ s => (s.tree.WellFormed 0 ∧ s.initproc = some 0) ∧ Clean s)
    ⟨⟨tree_init ▸ ProcessTree.wellFormed_first 0, rfl⟩, clean_init⟩ ?_ hzero h
  · exact ⟨hI.1.1, hI.2⟩
  · rintro es s a s' es' ⟨⟨hwf, hinit⟩, hclean⟩ hP hstep
    obtain ⟨hmove, hinit'⟩ := moves_of_step hinit hstep
    exact ⟨⟨hwf.move hmove, hinit'.trans hinit⟩, (clean_of_step hwf hclean hP hstep).1⟩

/-- **Born alive.** In every run without a `kill` of 0, no slot that is not in use is marked, and a
process that is created has not been killed yet. -/
theorem created_of_run {as : List Act} {s s' : Kernel} {es es' : List Event} {a : Act} {np : Slot}
    (hzero : machine.Meets NotZero as) (h : machine.run as = some (s, es))
    (hstep : step s a = some (s', es')) (hnew : .created np ∈ es') :
    Clean s ∧ (s'.proc np).killed = false := by
  obtain ⟨hwf, hclean⟩ := clean_of_run hzero h
  refine ⟨hclean, (clean_of_step hwf hclean (fun p ret ha _ => ?_) hstep).2 np hnew⟩
  rw [ha] at hstep
  exact absurd hnew (not_created_of_finish hstep)

/-- A process forks, and the child is there. -/
theorem created_of_run_fork : ∃ s s' es es',
    machine.run [.schedule 0, .ecall 0 ⟨0, 1⟩] = some (s, es) ∧
      step s (.fork 0 (some 1)) = some (s', es') ∧ Clean s ∧ (s'.proc 1).killed = false := by
  have hrun : machine.run [.schedule 0, .ecall 0 ⟨0, 1⟩] = some (_, _) := rfl
  have hzero : machine.Meets NotZero [.schedule 0, .ecall 0 ⟨0, 1⟩] :=
    Machine.meets_of_forall fun a ha es s p ret hfinish => by simp [hfinish] at ha
  exact ⟨_, _, _, _, hrun, rfl,
    created_of_run (a := .fork 0 (some 1)) hzero hrun rfl List.mem_cons_self⟩

/-- The first process kills 0; its next child is killed from the start, and never gets to make a
system call. -/
example : ((machine.run [.schedule 0, .ecall 0 ⟨0, 6⟩, .finish 0 0, .ecall 0 ⟨0, 1⟩,
      .fork 0 (some 1), .forkAdopts 0, .forkReturns 0, .schedule 1, .ecall 1 ⟨0, 11⟩]).map
    fun q => ((q.1.proc 1).state, (q.1.proc 1).xstate)) = some (.zombie, -1) := rfl

end Xv6

end SystemProgramming
