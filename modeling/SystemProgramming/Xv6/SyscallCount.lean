import SystemProgramming.Xv6.Proc

/-!
# What `getsyscallcount` counts

`syscall_count` is a field of a slot. Nothing resets it: `allocproc` and `freeproc` do not mention
it. A new process begins with what the processes that used its slot before have left there.

## How it goes

The counter of a slot is incremented before the handler is called, and by nothing else. So it is the
number of the dispatches in this slot, over all processes that have used it; the invariant says this
of every slot. The result for a process follows where its slot had not been used before, and the run
of the counterexample uses one again.

## Main definitions

* `validCalls` — the valid system calls of the process in a slot, since it was created
* `OwnCounts` — what `getsyscallcount` promises
* `Effect` — what a step does to the counters, and says about them

## Main results

* `count_eq_dispatches` — the counter of a slot counts the calls of all its processes
* `ownCounts_of_meets` — when a process is told the number of its own calls
* `reused_slot_inherits_count` — when it is not
-/

namespace SystemProgramming

namespace Xv6

/-! ### Specification -/

/-- How an event changes the number of calls of the process in slot `p`. -/
def tally (p : Slot) (n : ℕ) : Event → ℕ
  | .created q => if q = p then 0 else n
  | .dispatched q _ => if q = p then n + 1 else n
  | _ => n

/-- The valid system calls dispatched by the process in slot `p` since it was created, the one in
progress included. -/
def validCalls (es : List Event) (p : Slot) : ℕ := es.foldl (tally p) 0

/-- The valid system calls dispatched by all the processes that have used slot `p`. -/
def dispatches (es : List Event) (p : Slot) : ℕ :=
  es.countP fun
    | .dispatched q _ => q = p
    | _ => false

/-- What `sys_getsyscallcount` returns is the number of calls of the calling process, with the
call in progress or without it. -/
def Counted (es : List Event) : Event → Prop
  | .returned p .getsyscallcount ret =>
    ret.toNat = validCalls es p ∨ ret.toNat + 1 = validCalls es p
  | _ => True

/-- This holds of every result of a run. -/
def OwnCounts (es : List Event) : Prop := Recorded Counted es

/-- What a step has to meet: a slot that `allocproc` takes has a counter of 0, and a counter that
a valid call is going to increment has not reached its end. -/
def Fresh (_ : List Event) (s : Kernel) : Act → Prop
  | .fork _ (some np) => s.counts np = 0
  | .ecall p regs => (handlerOf (toInt32 regs.a7)).isSome → s.counts p ≠ BitVec.allOnes 64
  | _ => True

instance (es : List Event) (s : Kernel) : ∀ a : Act, Decidable (Fresh es s a)
  | .fork _ (some np) => inferInstanceAs (Decidable (s.counts np = 0))
  | .ecall p regs =>
    inferInstanceAs (Decidable ((handlerOf (toInt32 regs.a7)).isSome → s.counts p ≠ _))
  | .fork _ none | .schedule _ | .yield _ | .wakeup _ | .trap .. | .sleep .. | .finish ..
  | .forkFails _ | .forkAdopts _ | .forkReturns _ | .exit _ | .wait .. => isTrue trivial

/-! ### What a step does to the counters -/

/-- An event that neither begins a process nor a call; a result of `sys_getsyscallcount` is the
counter of the slot. -/
def Event.Quiet (s : Kernel) : Event → Prop
  | .created _ | .dispatched _ _ => False
  | .returned p .getsyscallcount ret => ret = s.counts p
  | _ => True

/-- The steps, as far as the counters are concerned. -/
inductive Effect (s : Kernel) : Act → Kernel → List Event → Prop
  /-- A valid call is dispatched. -/
  | dispatch {p : Slot} {regs : Trapframe} {call : Syscall} {s' : Kernel} :
    handlerOf (toInt32 regs.a7) = some call →
      s'.counts = Function.update s.counts p (s.counts p + 1) →
      Effect s (.ecall p regs) s' [.dispatched p call]
  /-- A slot is taken for a new process. -/
  | create {p np : Slot} {s' : Kernel} :
    s'.counts = s.counts → Effect s (.fork p (some np)) s' [.created np]
  /-- Anything else. -/
  | quiet {a : Act} {s' : Kernel} {es' : List Event} :
    s'.counts = s.counts → (∀ e ∈ es', e.Quiet s) → Effect s a s' es'

theorem Effect.silent {s s' : Kernel} {a : Act} (h : s'.counts = s.counts) : Effect s a s' [] :=
  .quiet h fun _ he => absurd he List.not_mem_nil

theorem effect_exits {s s₀ s' : Kernel} {a : Act} {p : Slot} {status : ℤ} {es' : List Event}
    (h : exits s₀ p status = some (s', es')) (hs : s₀.counts = s.counts) : Effect s a s' es' := by
  obtain ⟨s₁, h₁, heq⟩ := Option.map_eq_some_iff.mp h
  obtain ⟨rfl, rfl⟩ := Prod.mk.inj heq
  refine .quiet ((counts_exit h₁).trans hs) fun e he => ?_
  obtain rfl := List.mem_singleton.mp he
  trivial

/-- A handler other than that of `getsyscallcount` returns. -/
theorem effect_sysReturn {s s₀ : Kernel} {a : Act} {p : Slot} {call : Syscall} {ret : BitVec 64}
    (hs : s₀.counts = s.counts) (hret : call = .getsyscallcount → ret = s.counts p) :
    Effect s a (sysReturn s₀ p call ret).1 (sysReturn s₀ p call ret).2 := by
  refine .quiet ((counts_sysReturn s₀ p call ret).trans hs) fun e he => ?_
  obtain rfl := List.mem_singleton.mp he
  cases call <;> first | trivial | exact hret rfl

theorem effect_syscall {s s' : Kernel} {p : Slot} {regs : Trapframe} {es' : List Event}
    (h : some (syscall (s.modify p fun q => { q with trapframe := regs }) p) = some (s', es')) :
    Effect s (.ecall p regs) s' es' := by
  have hcounts : (s.modify p fun q => { q with trapframe := regs }).counts = s.counts :=
    counts_modify s p (by intro q; rfl)
  have hregs : ((s.modify p fun q => { q with trapframe := regs }).proc p).trapframe = regs := by
    simp [Kernel.modify]
  rw [Option.some.injEq, syscall, hregs] at h
  dsimp only at h
  split at h <;> rename_i hcall <;> obtain ⟨rfl, rfl⟩ := Prod.mk.inj h
  · refine .dispatch hcall ?_
    funext q
    rw [← hcounts]
    by_cases hq : q = p
    · subst hq
      simp [Kernel.counts, Kernel.modify]
    · simp [Kernel.counts, Kernel.modify, hq]
  · refine .quiet ((counts_modify _ p (by intro q; rfl)).trans hcounts) fun e he => ?_
    obtain rfl := List.mem_singleton.mp he
    trivial

theorem effect_finish {s s' : Kernel} {a : Act} {p : Slot} {call : Syscall} {ret : BitVec 64}
    {es' : List Event}
    (h : (handle s p ret call).map (fun q => sysReturn q.1 p call q.2) = some (s', es')) :
    Effect s a s' es' := by
  obtain ⟨⟨s₁, r⟩, hhandle, heq⟩ := Option.map_eq_some_iff.mp h
  obtain ⟨rfl, rfl⟩ := Prod.mk.inj heq
  refine effect_sysReturn (counts_handle hhandle) ?_
  rintro rfl
  exact (Prod.mk.inj (Option.some.inj hhandle)).2.symm

theorem effect_trap {s s' : Kernel} {a : Act} {p : Slot} {unexpected : Bool} {es' : List Event}
    (h : (if ((if unexpected then setkilled s p else s).proc p).killed = true then
        exits (if unexpected then setkilled s p else s) p (-1)
      else some (if unexpected then setkilled s p else s, [])) = some (s', es')) :
    Effect s a s' es' := by
  have hs : (if unexpected then setkilled s p else s).counts = s.counts := by
    cases unexpected
    · rfl
    · exact counts_setkilled s p
  by_cases hkilled : ((if unexpected then setkilled s p else s).proc p).killed = true
  · rw [if_pos hkilled] at h
    exact effect_exits h hs
  · rw [if_neg hkilled] at h
    obtain ⟨rfl, rfl⟩ := Prod.mk.inj (Option.some.inj h)
    exact .silent hs

theorem effect_of_stepOf {s s' : Kernel} {p : Slot} {c : Context} {a : Act} {es' : List Event}
    (ha : a.actor = some p) (h : stepOf s p c a = some (s', es')) : Effect s a s' es' := by
  rw [stepOf.eq_def] at h
  split at h
  · -- `ecall`
    obtain rfl := Option.some.inj ha
    split at h
    · exact effect_exits h rfl
    · exact effect_syscall h
  · -- another trap
    exact effect_trap h
  · -- `fork`, without a slot
    cases h
    exact effect_sysReturn rfl (nomatch ·)
  · -- `fork`, with a slot
    obtain ⟨s₁, halloc, heq⟩ := Option.map_eq_some_iff.mp h
    obtain ⟨rfl, rfl⟩ := Prod.mk.inj heq
    exact .create ((counts_modify s₁ p (by intro q; rfl)).trans (counts_allocproc halloc))
  · -- `fork`, without memory
    cases h
    exact effect_sysReturn (counts_freeproc s _) (nomatch ·)
  · cases h
    refine .silent ?_
    rw [counts_modify _ _ (by intro q; rfl), counts_modify _ _ (by intro q; rfl)]
  · cases h
    exact effect_sysReturn (counts_modify s _ (by intro q; rfl)) (nomatch ·)
  · exact effect_exits h rfl
  · -- `wait`
    rename_i copied
    have hs := counts_wait s p (s.proc p).trapframe.a0 copied
    split at h <;> rename_i hwait <;> rw [hwait] at hs <;> cases h
    · exact .silent hs
    · exact effect_sysReturn hs (nomatch ·)
  · exact effect_finish h
  · split at h
    · cases h
    · cases h
      exact .silent (counts_sleep s p _)
  · cases h

/-- **What a step does to the counters.** -/
theorem effect_of_step {s s' : Kernel} {a : Act} {es' : List Event}
    (h : step s a = some (s', es')) : Effect s a s' es' := by
  rw [step.eq_def] at h
  split at h
  · split at h
    · cases h
      exact .silent (counts_modify s _ (by intro q; rfl))
    · cases h
  · split at h
    · cases h
      exact .silent (counts_modify s _ (by intro q; rfl))
    · cases h
  · cases h
    exact .silent (counts_wakeup s none _)
  · obtain ⟨p, hp, hstep⟩ := Option.bind_eq_some_iff.mp h
    split at hstep
    · exact effect_of_stepOf hp hstep
    · cases hstep

/-! ### Runs -/

theorem validCalls_append (es es' : List Event) (p : Slot) :
    validCalls (es ++ es') p = es'.foldl (tally p) (validCalls es p) := List.foldl_append

theorem dispatches_append (es es' : List Event) (p : Slot) :
    dispatches (es ++ es') p = dispatches es p + dispatches es' p := List.countP_append

theorem tally_of_quiet {s : Kernel} (p : Slot) (n : ℕ) : ∀ {e : Event}, e.Quiet s →
    tally p n e = n
  | .returned .., _ | .unknown .., _ | .exited _, _ => rfl

theorem validCalls_append_of_quiet {s : Kernel} (es : List Event) (p : Slot) :
    ∀ {es' : List Event}, (∀ e ∈ es', e.Quiet s) → validCalls (es ++ es') p = validCalls es p
  | [], _ => by rw [List.append_nil]
  | e :: es', h => by
    have hrest := validCalls_append_of_quiet (es ++ [e]) p
      fun e' he' => h e' (List.mem_cons_of_mem _ he')
    rw [List.append_assoc, List.singleton_append] at hrest
    rw [hrest, validCalls_append]
    exact tally_of_quiet p _ (h e List.mem_cons_self)

theorem dispatches_of_quiet {s : Kernel} (p : Slot) {es : List Event}
    (h : ∀ e ∈ es, e.Quiet s) : dispatches es p = 0 := by
  refine List.countP_eq_zero.mpr fun e he => ?_
  have hquiet := h e he
  cases e <;> first | exact Bool.false_ne_true | exact hquiet.elim

theorem counts_init : machine.init.counts = fun _ => 0 := by
  show (userinit procinit).counts = _
  rw [userinit, counts_modify _ _ (by intro q; rfl)]
  exact counts_found procinit 0

theorem counts_step {es : List Event} {s : Kernel} {a : Act} {s' : Kernel} {es' : List Event}
    (hI : ∀ p, s.counts p = BitVec.ofNat 64 (dispatches es p)) (h : step s a = some (s', es'))
    (q : Slot) : s'.counts q = BitVec.ofNat 64 (dispatches (es ++ es') q) := by
  rw [dispatches_append]
  cases effect_of_step h with
  | @dispatch p _ call _ _ hcounts =>
    rw [hcounts]
    by_cases hq : q = p
    · subst hq
      simp [dispatches, hI, BitVec.ofNat_add]
    · simp [dispatches, hI, hq, Ne.symm hq]
  | create hcounts =>
    rw [hcounts, hI]
    rfl
  | quiet hcounts hquiet => rw [hcounts, hI, dispatches_of_quiet q hquiet, Nat.add_zero]

/-- **The counter of a slot** counts the valid calls of all the processes that have used it. -/
theorem count_eq_dispatches {as : List Act} {s : Kernel} {es : List Event}
    (h : machine.run as = some (s, es)) (p : Slot) :
    s.counts p = BitVec.ofNat 64 (dispatches es p) :=
  Machine.run_invariant (I := fun es s => ∀ p, s.counts p = BitVec.ofNat 64 (dispatches es p))
    (fun p => congrFun counts_init p) (fun _ _ _ _ _ hI hstep => counts_step hI hstep) h p

theorem toNat_succ {c : BitVec 64} (h : c ≠ BitVec.allOnes 64) : (c + 1).toNat = c.toNat + 1 := by
  have hne : c.toNat ≠ 2 ^ 64 - 1 := fun hc =>
    h (BitVec.eq_of_toNat_eq (by rw [hc, BitVec.toNat_allOnes]))
  have hlt := c.isLt
  have hone : BitVec.toNat (1 : BitVec 64) = 1 := rfl
  rw [BitVec.toNat_add, hone]
  exact Nat.mod_eq_of_lt (by omega)

/-- A result is right when the counters are. -/
theorem counted_of_quiet {s : Kernel} {es : List Event} {e : Event} (he : e.Quiet s)
    (hcounts : ∀ p, (s.counts p).toNat = validCalls es p) : Counted es e := by
  cases e with
  | returned p call ret =>
    cases call with
    | getsyscallcount =>
      obtain rfl : ret = s.counts p := he
      exact Or.inl (hcounts p)
    | _ => trivial
  | _ => trivial

/-- **The counter of a process.** In every run in which each slot taken for a new process has a
counter of 0 (and no counter comes to its end), `getsyscallcount` returns the number of valid
system calls of the calling process. -/
theorem ownCounts_of_meets {as : List Act} {s : Kernel} {es : List Event}
    (hfresh : machine.Meets Fresh as) (h : machine.run as = some (s, es)) : OwnCounts es := by
  refine (Machine.run_invariant_of_meets
    (I := fun es s => OwnCounts es ∧ ∀ p, (s.counts p).toNat = validCalls es p)
    ⟨recorded_nil, fun p => congrArg BitVec.toNat (congrFun counts_init p)⟩ ?_ hfresh h).1
  rintro es s a s' es' ⟨hown, hI⟩ hfresh hstep
  cases effect_of_step hstep with
  | @dispatch p regs call _ hcall hcounts =>
    refine ⟨hown.concat trivial, fun q => ?_⟩
    rw [hcounts, validCalls_append]
    by_cases hq : q = p
    · subst hq
      have hne := hfresh (by rw [hcall]; rfl)
      rw [Function.update_self, toNat_succ hne, hI]
      simp [tally]
    · rw [Function.update_of_ne hq, hI]
      simp [tally, Ne.symm hq]
  | @create p np _ hcounts =>
    refine ⟨hown.concat trivial, fun q => ?_⟩
    rw [hcounts, validCalls_append]
    by_cases hq : q = np
    · subst hq
      rw [show s.counts q = 0 from hfresh]
      simp [tally]
    · rw [hI]
      simp [tally, Ne.symm hq]
  | quiet hcounts hquiet =>
    refine ⟨recorded_append_iff.mpr ⟨hown, fun es₁ e es₂ heq => ?_⟩, fun q => ?_⟩
    · have hbefore : ∀ e ∈ es₁, e.Quiet s := fun e' he' =>
        hquiet e' (heq ▸ List.mem_append_left _ he')
      have he : e.Quiet s := hquiet e (heq ▸ by simp)
      exact counted_of_quiet he fun p => by rw [validCalls_append_of_quiet es p hbefore, hI]
    · rw [hcounts, validCalls_append_of_quiet es q hquiet, hI]

/-- The first process forks; the child makes a call and exits; the first process waits for it and
forks again. The second child gets the same slot, and makes its first call. -/
def reuse : List Act :=
  [.schedule 0, .ecall 0 ⟨0, 1⟩, .fork 0 (some 1), .forkAdopts 0, .forkReturns 0,
    .schedule 1, .ecall 1 ⟨0, 11⟩, .finish 1 0, .ecall 1 ⟨0, 2⟩, .exit 1,
    .ecall 0 ⟨0, 3⟩, .wait 0 true, .ecall 0 ⟨0, 1⟩, .fork 0 (some 1), .forkAdopts 0, .forkReturns 0,
    .schedule 1, .ecall 1 ⟨0, 23⟩, .finish 1 0]

/-- What happens before that call returns. -/
def reuseEvents : List Event :=
  [.dispatched 0 .fork, .created 1, .returned 0 .fork 2, .dispatched 1 .getpid,
    .returned 1 .getpid 2, .dispatched 1 .exit, .exited 1, .dispatched 0 .wait,
    .returned 0 .wait 2, .dispatched 0 .fork, .created 1, .returned 0 .fork 3,
    .dispatched 1 .getsyscallcount]

/-- The new process has made one call and is told 3. -/
theorem reused_slot_inherits_count :
    ¬ ∀ as s es, machine.run as = some (s, es) → OwnCounts es := by
  intro hall
  have hrun : (machine.run reuse).map Prod.snd =
      some (reuseEvents ++ [.returned 1 .getsyscallcount 3]) := by decide +kernel
  obtain ⟨⟨s, es⟩, hs, rfl⟩ := Option.map_eq_some_iff.mp hrun
  have hcounted := hall reuse s _ hs reuseEvents _ [] rfl
  have hcalls : validCalls reuseEvents 1 = 1 := by decide
  rw [Counted, hcalls] at hcounted
  exact absurd hcounted (by decide)

/-- The first process forks, and the child makes two calls. -/
theorem first_child_ownCounts :
    ∃ s es, machine.run (reuse.take 8 ++ reuse.drop 17) = some (s, es) ∧
      es = [.dispatched 0 .fork, .created 1, .returned 0 .fork 2, .dispatched 1 .getpid,
        .returned 1 .getpid 2, .dispatched 1 .getsyscallcount, .returned 1 .getsyscallcount 2] ∧
      OwnCounts es := by
  have hrun : (machine.run (reuse.take 8 ++ reuse.drop 17)).map Prod.snd =
      some [.dispatched 0 .fork, .created 1, .returned 0 .fork 2, .dispatched 1 .getpid,
        .returned 1 .getpid 2, .dispatched 1 .getsyscallcount,
        .returned 1 .getsyscallcount 2] := by decide +kernel
  obtain ⟨⟨s, es⟩, hs, rfl⟩ := Option.map_eq_some_iff.mp hrun
  exact ⟨s, _, hs, rfl, ownCounts_of_meets (by decide +kernel) hs⟩

end Xv6

end SystemProgramming
