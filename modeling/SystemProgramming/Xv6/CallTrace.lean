import SystemProgramming.Xv6.SyscallCount

/-!
# What the results of `getsyscallcount` say

A process makes one system call at a time: the kernel dispatches a call only when the process is in
user space, and what returns is the call that was dispatched last. So the calls of a process that
were dispatched are those that have returned and at most one more. With the counter of a slot being
the number of calls dispatched there, this gives every result of `getsyscallcount` in terms of the
calls made since the process was created, or since its last result.

## How it goes

The machine is split by slots: the events of a process are those of its slot since it was created. A
step of another process leaves them alone, and a step of this one adds one event or none. The
counter is a number of 64 bits, so the results are compared as such numbers.

## Two notions of a count

The counter is incremented when a call is dispatched. What is documented counts the calls that have
been executed. In between lies the call that asks, and no other one, as a process is in one call at
a time. So the two notions differ by one in every result, and this is said by events alone
(`dispatches`, `completed`): the events do not know of the counter, and the counter is connected to
them in `SyscallCount`.

`fork` takes two steps between its dispatch and its return, in which the child is created and
adopted. The events of the child begin with `created`, and a slot in which nothing has been created
has no call in progress (`Traced.idle`).

## Main definitions

* `inProgress` — the call that a process is in, by the events
* `Bracketed` — calls begin and return in turns, in slots that are in use
* `Differs` — two successive results
* `users`, `completed`, `ExactCount` — the rule that a call is counted when it is completed

## Main results

* `bracketed_of_run` — every run is bracketed
* `results_differ` — two successive results differ by the calls in between
* `result_counts_itself` — every result includes the call that asks
-/

namespace SystemProgramming

namespace Xv6

/-! ### Traces -/

/-- How an event changes the call that the process in slot `p` is in. -/
def progress (p : Slot) (c : Option Syscall) : Event → Option Syscall
  | .created q => if q = p then none else c
  | .dispatched q call => if q = p then some call else c
  | .returned q _ _ => if q = p then none else c
  | _ => c

/-- The call that the process in slot `p` is in, none while it is in user space. -/
def inProgress (es : List Event) (p : Slot) : Option Syscall := es.foldl (progress p) none

/-- The processes that have used slot `p`, the first process of the system among them. -/
def users (es : List Event) (p : Slot) : ℕ :=
  (if p = 0 then 1 else 0) + es.countP fun
    | .created q => q = p
    | _ => false

/-- A call begins when its process is in none, and the call that returns is the one the process
is in. -/
def InTurn (es : List Event) : Event → Prop
  | .dispatched p _ => users es p ≠ 0 ∧ inProgress es p = none
  | .returned p call _ => inProgress es p = some call
  | _ => True

/-- Every process makes its calls one after the other. -/
def Bracketed (es : List Event) : Prop := Recorded InTurn es

theorem inProgress_append (es es' : List Event) (p : Slot) :
    inProgress (es ++ es') p = es'.foldl (progress p) (inProgress es p) := List.foldl_append

theorem users_append (es es' : List Event) (p : Slot) :
    users (es ++ es') p = users es p + es'.countP fun
      | .created q => q = p
      | _ => false := by
  rw [users, users, List.countP_append, Nat.add_assoc]

/-! ### Where the processes are -/

/-- The call a process is in. -/
def Context.call : Context → Option Syscall
  | .user => none
  | .handler call => some call
  | .forkCopies _ | .forkAdopted _ => some .fork

/-- Where every process is. -/
def Kernel.contexts (s : Kernel) : Slot → Context := fun p => (s.proc p).context

/-- What leaves every process where it is, and every slot that is not in use; but `p` may do
anything to its own state. -/
structure Undisturbed (p : Option Slot) (s s' : Kernel) : Prop where
  contexts_eq : s'.contexts = s.contexts
  unused : ∀ q, some q ≠ p → (s.proc q).state = .unused → (s'.proc q).state = .unused

theorem Undisturbed.refl (p : Option Slot) (s : Kernel) : Undisturbed p s s := ⟨rfl, fun _ _ => id⟩

theorem Undisturbed.trans {p : Option Slot} {s s' s'' : Kernel} (h : Undisturbed p s s')
    (h' : Undisturbed p s' s'') : Undisturbed p s s'' :=
  ⟨h'.contexts_eq.trans h.contexts_eq, fun q hq hs => h'.unused q hq (h.unused q hq hs)⟩

theorem contexts_modify (s : Kernel) (p : Slot) (f : Proc → Proc) :
    (s.modify p f).contexts = Function.update s.contexts p (f (s.proc p)).context := by
  funext q
  by_cases hq : q = p
  · subst hq
    simp [Kernel.contexts, Kernel.modify]
  · simp [Kernel.contexts, Kernel.modify, hq]

theorem contexts_modify_of_eq {s : Kernel} {p : Slot} {f : Proc → Proc}
    (hf : (f (s.proc p)).context = (s.proc p).context) : (s.modify p f).contexts = s.contexts := by
  rw [contexts_modify, hf]
  exact Function.update_eq_self p s.contexts

theorem proc_modify_of_ne (s : Kernel) {p q : Slot} (h : q ≠ p) (f : Proc → Proc) :
    (s.modify p f).proc q = s.proc q := Function.update_of_ne h _ _

theorem undisturbed_modify {me : Option Slot} {s : Kernel} {p : Slot} {f : Proc → Proc}
    (hf : (f (s.proc p)).context = (s.proc p).context)
    (hunused : some p ≠ me → (s.proc p).state = .unused → (f (s.proc p)).state = .unused) :
    Undisturbed me s (s.modify p f) := by
  refine ⟨contexts_modify_of_eq hf, fun q hq hs => ?_⟩
  by_cases hqp : q = p
  · subst hqp
    simpa [Kernel.modify] using hunused hq hs
  · rwa [proc_modify_of_ne s hqp]

theorem undisturbed_freeproc (me : Option Slot) (s : Kernel) (p : Slot) :
    Undisturbed me s (freeproc s p) := undisturbed_modify rfl fun _ _ => rfl

theorem undisturbed_wakeup (me : Option Slot) (s : Kernel) (chan : Option Chan) :
    Undisturbed me s (wakeup s me chan) := by
  constructor
  · funext q
    simp only [Kernel.contexts, wakeup]
    split <;> rfl
  · intro q _ hs
    simp only [wakeup]
    rw [if_neg (by rw [hs]; simp)]
    exact hs

theorem undisturbed_reparent (s : Kernel) (p : Slot) : Undisturbed (some p) s (reparent s p) := by
  have hmap : Undisturbed (some p) s ({ s with
      proc := fun pp =>
        if (s.proc pp).parent = some p then { s.proc pp with parent := s.initproc }
        else s.proc pp } : Kernel) := by
    constructor
    · funext q
      simp only [Kernel.contexts]
      split <;> rfl
    · intro q _ hs
      dsimp only
      split <;> exact hs
  rw [reparent]
  split
  · exact hmap.trans (undisturbed_wakeup _ _ _)
  · exact hmap

theorem undisturbed_sleep (s : Kernel) (p : Slot) (chan : Chan) :
    Undisturbed (some p) s (sleep s p chan) := undisturbed_modify rfl fun h => absurd rfl h

theorem undisturbed_setkilled (me : Option Slot) (s : Kernel) (p : Slot) :
    Undisturbed me s (setkilled s p) := undisturbed_modify rfl fun _ => id

theorem undisturbed_kill (me : Option Slot) (s : Kernel) (pid : ℤ) :
    Undisturbed me s (kill s pid).1 := by
  rw [kill]
  split
  · dsimp only
    refine undisturbed_modify rfl fun _ hs => ?_
    dsimp only
    rw [if_neg (by rw [hs]; simp)]
    exact hs
  · exact .refl me s

theorem undisturbed_wait (s : Kernel) (p : Slot) (addr : BitVec 64) (copied : Bool) :
    Undisturbed (some p) s (wait s p addr copied).1 := by
  rw [wait]
  split
  · split
    · exact .refl _ s
    · exact undisturbed_freeproc _ s _
  · split
    · exact .refl _ s
    · exact undisturbed_sleep s p _

theorem undisturbed_exit {s s' : Kernel} {p : Slot} {status : ℤ} (h : exit s p status = some s') :
    Undisturbed (some p) s s' := by
  rw [exit] at h
  split at h
  · cases h
  · cases h
    exact ((undisturbed_reparent s p).trans (undisturbed_wakeup _ _ _)).trans
      (undisturbed_modify rfl fun h => absurd rfl h)

theorem undisturbed_handle {s s' : Kernel} {p : Slot} {ret r : BitVec 64} {call : Syscall}
    (h : handle s p ret call = some (s', r)) (me : Option Slot) : Undisturbed me s s' := by
  cases call <;> simp only [handle, Option.some.injEq, Prod.mk.injEq, reduceCtorEq] at h <;>
    obtain ⟨rfl, -⟩ := h <;>
    first | exact .refl me s | exact undisturbed_kill me s _

/-! ### What a step does to the calls -/

/-- An event that neither begins a process, nor begins or ends a call. -/
def Event.Outside : Event → Prop
  | .unknown _ _ | .exited _ => True
  | _ => False

/-- The steps, as far as the calls in progress are concerned: where the processes are afterwards,
and the events. -/
inductive Move (s : Kernel) : (Slot → Context) → List Event → Prop
  /-- A valid call is dispatched. -/
  | dispatch {p : Slot} {call : Syscall} : (s.proc p).state ≠ .unused → s.contexts p = .user →
      Move s (Function.update s.contexts p (.handler call)) [.dispatched p call]
  /-- A handler returns. -/
  | returns {p : Slot} {call : Syscall} {ret : BitVec 64} : (s.contexts p).call = some call →
      Move s (Function.update s.contexts p .user) [.returned p call ret]
  /-- `fork` takes a slot. -/
  | create {p np : Slot} : (s.proc p).state ≠ .unused → (s.proc np).state = .unused →
      s.contexts p = .handler .fork →
      Move s (Function.update (Function.update s.contexts np .user) p (.forkCopies np))
        [.created np]
  /-- `fork` gives the child its parent. -/
  | adopt {p np : Slot} : s.contexts p = .forkCopies np →
      Move s (Function.update s.contexts p (.forkAdopted np)) []
  /-- Anything else. -/
  | quiet {es' : List Event} : (∀ e ∈ es', e.Outside) → Move s s.contexts es'

/-- The slots that are not in use stay so, but for one that a process is created in. -/
def KeepsUnused (s s' : Kernel) (es' : List Event) : Prop :=
  ∀ q, (s.proc q).state = .unused →
    (s'.proc q).state = .unused ∨ .created q ∈ es' ∨ ∃ p, s.contexts p = .forkAdopted q

theorem Undisturbed.keepsUnused {s s' : Kernel} {p : Slot} (hp : (s.proc p).state ≠ .unused)
    (h : Undisturbed (some p) s s') (es' : List Event) : KeepsUnused s s' es' := fun q hq =>
  Or.inl (h.unused q (fun heq => hp (Option.some.inj heq ▸ hq)) hq)

theorem Undisturbed.move {s s' : Kernel} {p : Slot} {es' : List Event}
    (hp : (s.proc p).state ≠ .unused) (h : Undisturbed (some p) s s')
    (hes' : ∀ e ∈ es', e.Outside) : Move s s'.contexts es' ∧ KeepsUnused s s' es' :=
  ⟨h.contexts_eq ▸ .quiet hes', h.keepsUnused hp es'⟩

theorem not_mem_nil_outside : ∀ e ∈ ([] : List Event), e.Outside :=
  fun _ he => absurd he List.not_mem_nil

theorem singleton_outside {e : Event} (h : e.Outside) : ∀ e' ∈ [e], e'.Outside :=
  fun _ he => List.mem_singleton.mp he ▸ h

/-- The state of a slot is no matter of its own `modify`. -/
theorem KeepsUnused.modify {s s' : Kernel} {p : Slot} {es' : List Event}
    (hp : (s.proc p).state ≠ .unused) (h : KeepsUnused s s' es') (f : Proc → Proc) :
    KeepsUnused s (s'.modify p f) es' := fun q hq => by
  have hqp : q ≠ p := fun heq => hp (heq ▸ hq)
  rw [proc_modify_of_ne s' hqp]
  exact h q hq

section Moves

variable {s s₀ s' : Kernel} {p : Slot} {es' : List Event}

theorem move_exits {status : ℤ} (hp : (s.proc p).state ≠ .unused)
    (h₀ : Undisturbed (some p) s s₀) (h : exits s₀ p status = some (s', es')) :
    Move s s'.contexts es' ∧ KeepsUnused s s' es' := by
  obtain ⟨s₁, h₁, heq⟩ := Option.map_eq_some_iff.mp h
  obtain ⟨rfl, rfl⟩ := Prod.mk.inj heq
  exact (h₀.trans (undisturbed_exit h₁)).move hp (singleton_outside trivial)

theorem move_sysReturn {call : Syscall} {ret : BitVec 64} (hp : (s.proc p).state ≠ .unused)
    (hcall : (s.contexts p).call = some call) (hcontexts : s₀.contexts = s.contexts)
    (hunused : KeepsUnused s s₀ [.returned p call ret]) :
    Move s (sysReturn s₀ p call ret).1.contexts (sysReturn s₀ p call ret).2 ∧
      KeepsUnused s (sysReturn s₀ p call ret).1 (sysReturn s₀ p call ret).2 := by
  dsimp only [sysReturn]
  refine ⟨?_, hunused.modify hp _⟩
  rw [contexts_modify, hcontexts]
  exact .returns hcall

theorem move_syscall {regs : Trapframe} (hp : (s.proc p).state ≠ .unused)
    (huser : s.contexts p = .user)
    (h : some (syscall (s.modify p fun q => { q with trapframe := regs }) p) = some (s', es')) :
    Move s s'.contexts es' ∧ KeepsUnused s s' es' := by
  have hregs : Undisturbed (some p) s (s.modify p fun q => { q with trapframe := regs }) :=
    undisturbed_modify rfl fun _ => id
  rw [Option.some.injEq, syscall] at h
  dsimp only at h
  split at h <;> obtain ⟨rfl, rfl⟩ := Prod.mk.inj h
  · refine ⟨?_, (hregs.keepsUnused hp _).modify hp _⟩
    rw [contexts_modify, hregs.contexts_eq]
    exact .dispatch hp huser
  · exact (hregs.trans (undisturbed_modify rfl fun _ => id)).move hp (singleton_outside trivial)

theorem move_trap {unexpected : Bool} (hp : (s.proc p).state ≠ .unused)
    (h : (if ((if unexpected then setkilled s p else s).proc p).killed = true then
        exits (if unexpected then setkilled s p else s) p (-1)
      else some (if unexpected then setkilled s p else s, [])) = some (s', es')) :
    Move s s'.contexts es' ∧ KeepsUnused s s' es' := by
  have htrap : Undisturbed (some p) s (if unexpected then setkilled s p else s) := by
    cases unexpected
    · exact .refl _ s
    · exact undisturbed_setkilled _ s p
  by_cases hkilled : ((if unexpected then setkilled s p else s).proc p).killed = true
  · rw [if_pos hkilled] at h
    exact move_exits hp htrap h
  · rw [if_neg hkilled] at h
    obtain ⟨rfl, rfl⟩ := Prod.mk.inj (Option.some.inj h)
    exact htrap.move hp not_mem_nil_outside

theorem move_fork {np : Slot} (hp : (s.proc p).state ≠ .unused)
    (hfork : s.contexts p = .handler .fork)
    (h : (allocproc s np).map (fun s' =>
      (s'.modify p fun q => { q with context := .forkCopies np }, [Event.created np])) =
      some (s', es')) :
    Move s s'.contexts es' ∧ KeepsUnused s s' es' := by
  obtain ⟨s₁, halloc, heq⟩ := Option.map_eq_some_iff.mp h
  obtain ⟨rfl, rfl⟩ := Prod.mk.inj heq
  rw [allocproc] at halloc
  split at halloc
  · rename_i hnp
    obtain rfl := Option.some.inj halloc
    constructor
    · rw [contexts_modify, found, contexts_modify]
      exact .create hp hnp hfork
    · refine KeepsUnused.modify hp (fun q hq => ?_) _
      by_cases hqnp : q = np
      · exact Or.inr (Or.inl (hqnp ▸ List.mem_singleton_self _))
      · refine Or.inl ?_
        rw [found, proc_modify_of_ne _ hqnp]
        exact hq
  · cases halloc

end Moves

theorem move_of_stepOf {s s' : Kernel} {p : Slot} {c : Context} {a : Act} {es' : List Event}
    (hp : (s.proc p).state ≠ .unused) (hc : s.contexts p = c) (ha : a.actor = some p)
    (h : stepOf s p c a = some (s', es')) : Move s s'.contexts es' ∧ KeepsUnused s s' es' := by
  have hrefl := Undisturbed.refl (some p) s
  have hreturn : ∀ {call : Syscall} {ret : BitVec 64} {s₀ : Kernel}, c.call = some call →
      Undisturbed (some p) s s₀ →
      Move s (sysReturn s₀ p call ret).1.contexts (sysReturn s₀ p call ret).2 ∧
        KeepsUnused s (sysReturn s₀ p call ret).1 (sysReturn s₀ p call ret).2 :=
    fun hcall h₀ => move_sysReturn hp (hc ▸ hcall) h₀.contexts_eq (h₀.keepsUnused hp _)
  rw [stepOf.eq_def] at h
  split at h
  · -- `ecall`
    obtain rfl := Option.some.inj ha
    split at h
    · exact move_exits hp hrefl h
    · exact move_syscall hp hc h
  · -- another trap
    exact move_trap hp h
  · -- `fork`, without a slot
    cases h
    exact hreturn rfl hrefl
  · -- `fork`, with a slot
    exact move_fork hp hc h
  · -- `fork`, without memory
    cases h
    exact hreturn rfl (undisturbed_freeproc _ s _)
  · -- `fork`: the child gets its parent
    rename_i np _
    cases h
    have hchild : Undisturbed (some p) s (s.modify np fun q =>
        { q with trapframe := { (s.proc p).trapframe with a0 := 0 }, parent := some p }) :=
      undisturbed_modify rfl fun _ => id
    refine ⟨?_, (hchild.keepsUnused hp _).modify hp _⟩
    rw [contexts_modify, hchild.contexts_eq]
    exact .adopt hc
  · -- `fork`: the child becomes runnable
    rename_i np _
    cases h
    refine move_sysReturn hp (hc ▸ rfl) (contexts_modify_of_eq rfl) fun q hq => ?_
    by_cases hqnp : q = np
    · exact Or.inr (Or.inr ⟨p, hqnp ▸ hc⟩)
    · exact Or.inl (by rwa [proc_modify_of_ne s hqnp])
  · exact move_exits hp hrefl h
  · -- `wait`
    rename_i copied
    have hwait := undisturbed_wait s p (s.proc p).trapframe.a0 copied
    split at h <;> rename_i heq <;> rw [heq] at hwait <;> cases h
    · exact hwait.move hp not_mem_nil_outside
    · exact hreturn rfl hwait
  · -- a handler ends
    obtain ⟨⟨s₁, r⟩, hhandle, heq⟩ := Option.map_eq_some_iff.mp h
    obtain ⟨rfl, rfl⟩ := Prod.mk.inj heq
    exact hreturn rfl (undisturbed_handle hhandle _)
  · -- a handler sleeps
    split at h
    · cases h
    · cases h
      exact (undisturbed_sleep s p _).move hp not_mem_nil_outside
  · cases h

/-- **What a step does to the calls in progress.** -/
theorem move_of_step {s s' : Kernel} {a : Act} {es' : List Event}
    (h : step s a = some (s', es')) : Move s s'.contexts es' ∧ KeepsUnused s s' es' := by
  have hown : ∀ {p : Slot} {f : Proc → Proc}, (s.proc p).state ≠ .unused →
      (f (s.proc p)).context = (s.proc p).context → some (s.modify p f, []) = some (s', es') →
      Move s s'.contexts es' ∧ KeepsUnused s s' es' := by
    intro p f hp hf heq
    obtain ⟨rfl, rfl⟩ := Prod.mk.inj (Option.some.inj heq)
    exact (undisturbed_modify hf fun h => absurd rfl h).move hp not_mem_nil_outside
  rw [step.eq_def] at h
  split at h
  · split at h
    · rename_i hstate
      exact hown (by rw [hstate]; simp) rfl h
    · cases h
  · split at h
    · rename_i hstate
      exact hown (by rw [hstate]; simp) rfl h
    · cases h
  · rename_i addr
    cases h
    have hwakeup := undisturbed_wakeup none s (some (.addr addr))
    exact ⟨hwakeup.contexts_eq ▸ .quiet not_mem_nil_outside,
      fun q hq => Or.inl (hwakeup.unused q (Option.some_ne_none q) hq)⟩
  · obtain ⟨p, hp, hstep⟩ := Option.bind_eq_some_iff.mp h
    split at hstep
    · rename_i hstate
      exact move_of_stepOf (by rw [hstate]; simp) rfl hp hstep
    · cases hstep

/-! ### Runs are bracketed -/

/-- A `fork` has taken the slot for its child. -/
def Context.Names (c : Context) (q : Slot) : Prop := c = .forkCopies q ∨ c = .forkAdopted q

/-- A slot that is not in use, and that no `fork` has taken. -/
def Idle (s : Kernel) (q : Slot) : Prop :=
  (s.proc q).state = .unused ∧ ∀ p, ¬ (s.contexts p).Names q

theorem names_update {cs : Slot → Context} {p p' q : Slot} {c : Context}
    (h : (Function.update cs p c p').Names q) : c.Names q ∨ ∃ p, (cs p).Names q := by
  by_cases hp : p' = p
  · subst hp
    rw [Function.update_self] at h
    exact Or.inl h
  · rw [Function.update_of_ne hp] at h
    exact Or.inr ⟨p', h⟩

/-- Only `fork` takes a slot. -/
theorem Move.names {s : Kernel} {cs : Slot → Context} {es' : List Event} (h : Move s cs es')
    {p q : Slot} (hq : (cs p).Names q) : .created q ∈ es' ∨ ∃ p, (s.contexts p).Names q := by
  cases h with
  | dispatch => exact Or.inr ((names_update hq).resolve_left (by rintro (h | h) <;> cases h))
  | returns => exact Or.inr ((names_update hq).resolve_left (by rintro (h | h) <;> cases h))
  | create =>
    rcases names_update hq with (h | h) | ⟨p', h⟩
    · cases h
      exact Or.inl (List.mem_singleton_self _)
    · cases h
    · exact Or.inr ((names_update h).resolve_left (by rintro (h | h) <;> cases h))
  | @adopt p np hp =>
    rcases names_update hq with (h | h) | h
    · cases h
    · cases h
      exact Or.inr ⟨p, Or.inl hp⟩
    · exact Or.inr h
  | quiet => exact Or.inr ⟨p, hq⟩

theorem Idle.step {s s' : Kernel} {es' : List Event} {q : Slot} (h : Idle s q)
    (hmove : Move s s'.contexts es') (hkeeps : KeepsUnused s s' es') (hnew : .created q ∉ es') :
    Idle s' q := by
  obtain ⟨hstate, hnames⟩ := h
  refine ⟨?_, fun p hp => ?_⟩
  · rcases hkeeps q hstate with h | h | ⟨p, hp⟩
    · exact h
    · exact absurd h hnew
    · exact absurd (Or.inr hp) (hnames p)
  · rcases hmove.names hp with h | ⟨p', hp'⟩
    · exact hnew h
    · exact hnames p' hp'

theorem users_append_eq_zero {es es' : List Event} {q : Slot} (h : users (es ++ es') q = 0) :
    users es q = 0 ∧ .created q ∉ es' := by
  rw [users_append, Nat.add_eq_zero_iff, List.countP_eq_zero] at h
  exact ⟨h.1, fun hmem => h.2 _ hmem (decide_eq_true rfl)⟩

theorem inProgress_of_outside (es : List Event) (p : Slot) : ∀ {es' : List Event},
    (∀ e ∈ es', e.Outside) → inProgress (es ++ es') p = inProgress es p := by
  intro es' h
  rw [inProgress_append]
  induction es' with
  | nil => rfl
  | cons e es' ih =>
    have he := h e List.mem_cons_self
    cases e <;> first | exact he.elim | exact ih fun e' he' => h e' (List.mem_cons_of_mem _ he')

/-- What the events say of the processes. -/
structure Traced (es : List Event) (s : Kernel) : Prop where
  bracketed : Bracketed es
  call_eq : ∀ p, (s.contexts p).call = inProgress es p
  idle : ∀ q, users es q = 0 → Idle s q

/-- The call that a process is in, after one event about slot `p`. -/
theorem call_update {s : Kernel} {es : List Event} {e : Event} {p : Slot} {c : Context}
    (hcall : ∀ q, (s.contexts q).call = inProgress es q)
    (hp : progress p (inProgress es p) e = c.call)
    (hne : ∀ q, q ≠ p → progress q (inProgress es q) e = inProgress es q) (q : Slot) :
    (Function.update s.contexts p c q).call = inProgress (es ++ [e]) q := by
  rw [inProgress_append]
  by_cases hq : q = p
  · subst hq
    rw [Function.update_self]
    exact hp.symm
  · rw [Function.update_of_ne hq, hcall]
    exact (hne q hq).symm

theorem Traced.step {es : List Event} {s : Kernel} {a : Act} {s' : Kernel} {es' : List Event}
    (h : Traced es s) (hstep : step s a = some (s', es')) : Traced (es ++ es') s' := by
  obtain ⟨hbracketed, hcall, hidle⟩ := h
  obtain ⟨hmove, hkeeps⟩ := move_of_step hstep
  have hidle' : ∀ q, users (es ++ es') q = 0 → Idle s' q := fun q hq =>
    have hq' := users_append_eq_zero hq
    (hidle q hq'.1).step hmove hkeeps hq'.2
  have hused : ∀ {p : Slot}, (s.proc p).state ≠ .unused → users es p ≠ 0 :=
    fun hp hzero => hp (hidle _ hzero).1
  generalize hcs : s'.contexts = cs at hmove
  cases hmove with
  | @dispatch p call hp huser =>
    refine ⟨hbracketed.concat ⟨hused hp, by rw [← hcall, huser]; rfl⟩, ?_, hidle'⟩
    rw [hcs]
    exact call_update hcall (by simp [progress, Context.call])
      fun q hq => by simp [progress, Ne.symm hq]
  | @returns p call ret hp =>
    refine ⟨hbracketed.concat ((hcall p).symm.trans hp), ?_, hidle'⟩
    rw [hcs]
    exact call_update hcall (by simp [progress, Context.call])
      fun q hq => by simp [progress, Ne.symm hq]
  | @create p np hp hnp hfork =>
    have hne : p ≠ np := fun heq => hp (heq ▸ hnp)
    refine ⟨hbracketed.concat trivial, fun q => ?_, hidle'⟩
    rw [hcs]
    by_cases hq : q = p
    · subst hq
      rw [Function.update_self, inProgress_append]
      simp [progress, hne.symm, ← hcall, hfork, Context.call]
    · rw [Function.update_of_ne hq]
      exact call_update hcall (by simp [progress, Context.call])
        (fun q hq => by simp [progress, Ne.symm hq]) q
  | @adopt p np hp =>
    rw [List.append_nil] at hidle' ⊢
    refine ⟨hbracketed, fun q => ?_, hidle'⟩
    rw [hcs]
    by_cases hq : q = p
    · subst hq
      rw [Function.update_self, ← hcall, hp]
      rfl
    · rw [Function.update_of_ne hq, hcall]
  | quiet hout =>
    refine ⟨recorded_append_iff.mpr ⟨hbracketed, fun es₁ e es₂ heq => ?_⟩, fun q => ?_, hidle'⟩
    · have he := hout e (heq ▸ by simp)
      cases e <;> first | exact he.elim | trivial
    · rw [hcs, hcall, inProgress_of_outside es q hout]

theorem traced_init : Traced [] machine.init where
  bracketed := recorded_nil
  call_eq := fun p => by
    have hinit : ∀ p, (machine.init.contexts p).call = none := by decide
    exact hinit p
  idle := by
    have hinit : ∀ q, q ≠ 0 → (machine.init.proc q).state = .unused := by decide
    have hnames : ∀ p, machine.init.contexts p = .user := by decide
    refine fun q hq => ⟨hinit q fun h => ?_, fun p hp => ?_⟩
    · subst h
      exact absurd hq (by decide)
    · rw [hnames p] at hp
      rcases hp with h | h <;> cases h

/-- **Every run is bracketed.** -/
theorem bracketed_of_run {as : List Act} {s : Kernel} {es : List Event}
    (h : machine.run as = some (s, es)) : Bracketed es :=
  (Machine.run_invariant traced_init (fun _ _ _ _ _ hI hstep => hI.step hstep) h).bracketed

/-! ### Counting the calls of a trace -/

/-- The valid calls of slot `p` other than `getsyscallcount`. -/
def otherCalls (es : List Event) (p : Slot) : ℕ :=
  es.countP fun
    | .dispatched q call => q = p ∧ call ≠ .getsyscallcount
    | _ => false

/-- The calls of slot `p` that are completed. -/
def completed (es : List Event) (p : Slot) : ℕ :=
  es.countP fun
    | .returned q _ _ => q = p
    | _ => false

/-- A result of `getsyscallcount` and the one before it, of the same process. -/
def Differs (es : List Event) : Event → Prop
  | .returned p .getsyscallcount r₂ => ∀ es₁ r₁ es₂,
    es = es₁ ++ .returned p .getsyscallcount r₁ :: es₂ → .created p ∉ es₂ →
      (∀ r, .returned p .getsyscallcount r ∉ es₂) →
      r₂ = r₁ + BitVec.ofNat 64 (1 + otherCalls es₂ p)
  | _ => True

/-- A result of `getsyscallcount` in a slot that no other process has used is the number of calls
completed before. -/
def ExactCount (es : List Event) : Event → Prop
  | .returned p .getsyscallcount r => users es p = 1 → r = BitVec.ofNat 64 (completed es p)
  | _ => True

/-- A result of `getsyscallcount` is the number of calls that were dispatched in the slot. -/
def CountsDispatched (es : List Event) : Event → Prop
  | .returned p .getsyscallcount r => r = BitVec.ofNat 64 (dispatches es p)
  | _ => True

theorem bracketed_concat_iff {es : List Event} {e : Event} :
    Bracketed (es ++ [e]) ↔ Bracketed es ∧ InTurn es e := by
  rw [Bracketed, recorded_append_iff, recorded_singleton_iff, List.append_nil]
  rfl

theorem otherCalls_append (es es' : List Event) (p : Slot) :
    otherCalls (es ++ es') p = otherCalls es p + otherCalls es' p := List.countP_append

theorem completed_append (es es' : List Event) (p : Slot) :
    completed (es ++ es') p = completed es p + completed es' p := List.countP_append

/-- Since its last result, a process has made its other calls, and perhaps asks again. -/
theorem dispatches_since {es₁ : List Event} {p : Slot} {r₁ : BitVec 64} {es₂ : List Event}
    (h : Bracketed (es₁ ++ .returned p .getsyscallcount r₁ :: es₂)) (hnew : .created p ∉ es₂)
    (hlast : ∀ r, .returned p .getsyscallcount r ∉ es₂) :
    dispatches es₂ p = otherCalls es₂ p +
      if inProgress (es₁ ++ .returned p .getsyscallcount r₁ :: es₂) p = some .getsyscallcount
      then 1 else 0 := by
  induction es₂ using List.reverseRecOn with
  | nil =>
    rw [inProgress_append]
    simp [progress, dispatches, otherCalls, otherCalls]
  | append_singleton es₂ e ih =>
    rw [← List.cons_append, ← List.append_assoc, bracketed_concat_iff] at h
    rw [List.mem_append, not_or] at hnew
    have ih := ih h.1 hnew.1 fun r hr => hlast r (List.mem_append_left _ hr)
    have hturn := h.2
    rw [dispatches_append, ih, ← List.cons_append, ← List.append_assoc, inProgress_append _ [e],
      otherCalls_append]
    generalize hc : inProgress (es₁ ++ .returned p .getsyscallcount r₁ :: es₂) p = c
    cases e with
    | created q =>
      have hq : q ≠ p := fun heq => hnew.2 (heq ▸ List.mem_singleton_self _)
      simp [progress, dispatches, otherCalls, hq]
    | dispatched q call =>
      by_cases hq : q = p
      · subst hq
        rw [hturn.2] at hc
        subst hc
        by_cases hcall : call = .getsyscallcount
        · subst hcall
          simp [progress, dispatches, otherCalls]
        · simp [progress, dispatches, otherCalls, hcall]
      · simp [progress, dispatches, otherCalls, hq]
    | returned q call ret =>
      by_cases hq : q = p
      · subst hq
        have hcall : call ≠ .getsyscallcount := fun heq =>
          hlast ret (heq ▸ List.mem_append_right _ (List.mem_singleton_self _))
        rw [show inProgress _ _ = some call from hturn] at hc
        subst hc
        simp [progress, dispatches, otherCalls, hcall]
      · simp [progress, dispatches, otherCalls, hq]
    | unknown q num => rfl
    | exited q => rfl

/-- A slot that was not used has seen no call. In one that a single process has used, a call that
was dispatched is completed or in progress. -/
theorem dispatches_eq_completed {es : List Event} (h : Bracketed es) (p : Slot) :
    (users es p = 0 → dispatches es p = 0 ∧ completed es p = 0 ∧ inProgress es p = none) ∧
      (users es p ≤ 1 → dispatches es p = completed es p +
        if inProgress es p = none then 0 else 1) := by
  induction es using List.reverseRecOn with
  | nil => exact ⟨fun _ => ⟨rfl, rfl, rfl⟩, fun _ => rfl⟩
  | append_singleton es e ih =>
    rw [bracketed_concat_iff] at h
    obtain ⟨hzero, hone⟩ := ih h.1
    have hturn := h.2
    rw [users_append, dispatches_append, completed_append, inProgress_append]
    generalize dispatches es p = d, completed es p = c at hzero hone
    cases e with
    | created q =>
      by_cases hq : q = p
      · subst hq
        refine ⟨fun hu => ?_, fun hu => ?_⟩
        · simp at hu
        · obtain ⟨hd, hc, hp⟩ := hzero (by simpa using hu)
          rw [hd, hc]
          simp [progress, dispatches, completed]
      · simpa [progress, dispatches, completed, hq] using ⟨hzero, hone⟩
    | dispatched q call =>
      by_cases hq : q = p
      · subst hq
        refine ⟨fun hu => absurd (by simpa using hu) hturn.1, fun hu => ?_⟩
        rw [hone (by simpa using hu), hturn.2]
        simp [progress, dispatches, completed]
      · simpa [progress, dispatches, completed, hq] using ⟨hzero, hone⟩
    | returned q call ret =>
      by_cases hq : q = p
      · subst hq
        have hprogress : inProgress es q = some call := hturn
        refine ⟨fun hu => ?_, fun hu => ?_⟩
        · exact absurd ((hzero (by simpa using hu)).2.2.symm.trans hprogress) (by simp)
        · rw [hone (by simpa using hu), hprogress]
          simp [progress, dispatches, completed]
      · simpa [progress, dispatches, completed, hq] using ⟨hzero, hone⟩
    | unknown q num => simpa [progress, dispatches, completed] using ⟨hzero, hone⟩
    | exited q => simpa [progress, dispatches, completed] using ⟨hzero, hone⟩

/-! ### Results -/

/-- **What `getsyscallcount` returns**: the number of calls dispatched in the slot. -/
theorem countsDispatched_of_run {as : List Act} {s : Kernel} {es : List Event}
    (h : machine.run as = some (s, es)) : Recorded CountsDispatched es := by
  refine (Machine.run_invariant
    (I := fun es s => Recorded CountsDispatched es ∧
      ∀ p, s.counts p = BitVec.ofNat 64 (dispatches es p))
    ⟨recorded_nil, fun p => congrFun counts_init p⟩ ?_ h).1
  rintro es s a s' es' ⟨hrec, hI⟩ hstep
  refine ⟨?_, counts_step hI hstep⟩
  cases effect_of_step hstep with
  | dispatch => exact hrec.concat trivial
  | create => exact hrec.concat trivial
  | quiet _ hquiet =>
    refine recorded_append_iff.mpr ⟨hrec, fun es₁ e es₂ heq => ?_⟩
    have hbefore : ∀ e ∈ es₁, e.Quiet s := fun e' he' =>
      hquiet e' (heq ▸ List.mem_append_left _ he')
    have he : e.Quiet s := hquiet e (heq ▸ by simp)
    cases e with
    | returned p call ret =>
      cases call with
      | getsyscallcount =>
        show ret = BitVec.ofNat 64 (dispatches (es ++ es₁) p)
        rw [dispatches_append, dispatches_of_quiet p hbefore, Nat.add_zero]
        exact he.trans (hI p)
      | _ => trivial
    | _ => trivial

/-- The result of a call that is in progress. -/
theorem differs_of_bracketed {es : List Event} {p : Slot} {r₁ r₂ : BitVec 64} {es₁ es₂ : List Event}
    (hbracketed : Bracketed es) (hcounts : Recorded CountsDispatched es)
    (hes : es = es₁ ++ .returned p .getsyscallcount r₁ :: es₂)
    (hprogress : inProgress es p = some .getsyscallcount)
    (hr₂ : r₂ = BitVec.ofNat 64 (dispatches es p)) (hnew : .created p ∉ es₂)
    (hlast : ∀ r, .returned p .getsyscallcount r ∉ es₂) :
    r₂ = r₁ + BitVec.ofNat 64 (1 + otherCalls es₂ p) := by
  subst hes
  have hr₁ : r₁ = BitVec.ofNat 64 (dispatches es₁ p) := hcounts es₁ _ es₂ rfl
  have hsince := dispatches_since hbracketed hnew hlast
  rw [if_pos hprogress] at hsince
  have hret : dispatches (.returned p .getsyscallcount r₁ :: es₂) p = dispatches es₂ p := rfl
  rw [hr₂, dispatches_append, hret, hsince, hr₁, BitVec.ofNat_add, Nat.add_comm 1]

theorem handlerOf_isSome_iff {num : ℤ} : (handlerOf num).isSome ↔ 1 ≤ num ∧ num ≤ 23 := by
  have hlen : (syscalls.length : ℤ) = 24 := rfl
  have hall : ∀ i : Fin 24, i ≠ 0 → ((syscalls[i.val]?).join).isSome := by decide
  rw [handlerOf, hlen]
  by_cases hnum : 0 < num ∧ num < 24
  · rw [if_pos hnum]
    refine iff_of_true ?_ (by omega)
    exact hall ⟨num.toNat, by omega⟩ fun h => by
      have hzero := congrArg Fin.val h
      simp only [Fin.val_zero] at hzero
      omega
  · rw [if_neg hnum]
    exact iff_of_false Bool.false_ne_true (by omega)

/-- A process that is not killed makes a system call. -/
theorem step_ecall {s : Kernel} {p : Slot} (hrunning : (s.proc p).state = .running)
    (huser : s.contexts p = .user) (hkilled : (s.proc p).killed = false) (regs : Trapframe) :
    step s (.ecall p regs) =
      some (syscall (s.modify p fun q => { q with trapframe := regs }) p) := by
  have hcontext : (s.proc p).context = .user := huser
  simp [step, Act.actor, stepOf, hrunning, hcontext, hkilled]

/-- **Counting by differences.** In every run, two successive results of `getsyscallcount` of one
process differ by one and the other valid calls that it made in between. The valid calls are those
with a number from 1 to 23 in `a7`, as an `int`; they increment the counter, and a call with any
other number changes nothing but `a0`. -/
theorem results_differ {as : List Act} {s : Kernel} {es : List Event}
    (h : machine.run as = some (s, es)) :
    Recorded Differs es ∧
      ∀ (t : Kernel) (p : Slot) (regs : Trapframe), (t.proc p).state = .running →
        t.contexts p = .user → (t.proc p).killed = false →
        if 1 ≤ toInt32 regs.a7 ∧ toInt32 regs.a7 ≤ 23 then
          ∃ t' call, step t (.ecall p regs) = some (t', [.dispatched p call]) ∧
            t'.counts = Function.update t.counts p (t.counts p + 1)
        else
          step t (.ecall p regs) =
            some (t.modify p fun q => { q with trapframe := { regs with a0 := -1 } },
              [.unknown p (toInt32 regs.a7)]) := by
  constructor
  · have hcounts := countsDispatched_of_run h
    have hbracketed := bracketed_of_run h
    intro es₀ e es₃ hes
    rw [hes] at hcounts hbracketed
    have hdispatched := hcounts es₀ e es₃ rfl
    have hturn := hbracketed es₀ e es₃ rfl
    have hbefore := (recorded_append_iff.mp hbracketed).1
    cases e with
    | returned p call r₂ =>
      cases call with
      | getsyscallcount =>
        intro es₁ r₁ es₂ hes₀ hnew hlast
        exact differs_of_bracketed hbefore (recorded_append_iff.mp hcounts).1 hes₀ hturn
          hdispatched hnew hlast
      | _ => trivial
    | _ => trivial
  · intro t p regs hrunning huser hkilled
    have hstep := step_ecall hrunning huser hkilled regs
    have hregs : ((t.modify p fun q => { q with trapframe := regs }).proc p).trapframe = regs := by
      simp [Kernel.modify]
    rw [syscall, hregs] at hstep
    dsimp only at hstep
    by_cases hnum : 1 ≤ toInt32 regs.a7 ∧ toInt32 regs.a7 ≤ 23
    · rw [if_pos hnum]
      obtain ⟨call, hcall⟩ := Option.isSome_iff_exists.mp (handlerOf_isSome_iff.mpr hnum)
      rw [hcall] at hstep
      refine ⟨_, call, hstep, ?_⟩
      cases effect_of_step hstep with
      | dispatch _ hcounts => exact hcounts
      | quiet _ hquiet => exact (hquiet _ (List.mem_singleton_self _)).elim
    · rw [if_neg hnum]
      have hcall : handlerOf (toInt32 regs.a7) = none :=
        Option.not_isSome_iff_eq_none.mp fun h => hnum (handlerOf_isSome_iff.mp h)
      rw [hcall] at hstep
      rw [hstep]
      simp [Kernel.modify, Function.update_idem]

/-- The first process asks, makes a call, forks, makes an invalid call, and asks again. -/
def twoResults : List Act :=
  [.schedule 0, .ecall 0 ⟨0, 23⟩, .finish 0 0, .ecall 0 ⟨0, 11⟩, .finish 0 0, .ecall 0 ⟨0, 1⟩,
    .fork 0 (some 1), .forkAdopts 0, .forkReturns 0, .ecall 0 ⟨0, 99⟩,
    .ecall 0 ⟨0, 4294967319⟩, .finish 0 0]

/-- The results are 1 and 4. -/
theorem twoResults_differ : ∃ s es, machine.run twoResults = some (s, es) ∧
    es = [.dispatched 0 .getsyscallcount, .returned 0 .getsyscallcount 1,
      .dispatched 0 .getpid, .returned 0 .getpid 1, .dispatched 0 .fork, .created 1,
      .returned 0 .fork 2, .unknown 0 99, .dispatched 0 .getsyscallcount,
      .returned 0 .getsyscallcount 4] ∧ Recorded Differs es := by
  have hrun : (machine.run twoResults).map Prod.snd =
      some [.dispatched 0 .getsyscallcount, .returned 0 .getsyscallcount 1,
        .dispatched 0 .getpid, .returned 0 .getpid 1, .dispatched 0 .fork, .created 1,
        .returned 0 .fork 2, .unknown 0 99, .dispatched 0 .getsyscallcount,
        .returned 0 .getsyscallcount 4] := by decide +kernel
  obtain ⟨⟨s, es⟩, hs, rfl⟩ := Option.map_eq_some_iff.mp hrun
  exact ⟨s, _, hs, rfl, (results_differ hs).1⟩

/-- **Every result includes the call that asks.** In every run, each result of `getsyscallcount`
in a slot that a single process has used is one more than the number of its completed calls, and
so is never that number. -/
theorem result_counts_itself {as : List Act} {s : Kernel} {es : List Event}
    (h : machine.run as = some (s, es)) {es₁ es₂ : List Event} {p : Slot} {r : BitVec 64}
    (hes : es = es₁ ++ .returned p .getsyscallcount r :: es₂) (hp : users es₁ p = 1) :
    r = BitVec.ofNat 64 (completed es₁ p + 1) ∧
      ¬ ExactCount es₁ (.returned p .getsyscallcount r) := by
  subst hes
  have hr : r = BitVec.ofNat 64 (dispatches es₁ p) := countsDispatched_of_run h es₁ _ es₂ rfl
  have hbracketed := bracketed_of_run h
  have hturn : inProgress es₁ p = some .getsyscallcount := hbracketed es₁ _ es₂ rfl
  have hcount := (dispatches_eq_completed (recorded_append_iff.mp hbracketed).1 p).2 hp.le
  rw [hturn, if_neg (Option.some_ne_none _)] at hcount
  rw [hcount] at hr
  refine ⟨hr, fun hexact => ?_⟩
  have heq := hr.symm.trans (hexact hp)
  rw [BitVec.ofNat_add] at heq
  generalize BitVec.ofNat 64 (completed es₁ p) = c at heq
  bv_omega

/-- The first call of the first process is `getsyscallcount`. -/
def firstCall : List Act := [.schedule 0, .ecall 0 ⟨0, 23⟩, .finish 0 0]

theorem firstCall_events : (machine.run firstCall).map Prod.snd =
    some [.dispatched 0 .getsyscallcount, .returned 0 .getsyscallcount 1] := by decide +kernel

/-- It returns 1, although no call is completed. -/
theorem firstCall_counts_itself :
    (1 : BitVec 64) = BitVec.ofNat 64 (completed [.dispatched 0 .getsyscallcount] 0 + 1) ∧
      ¬ ExactCount [.dispatched 0 .getsyscallcount] (.returned 0 .getsyscallcount 1) := by
  obtain ⟨⟨s, es⟩, hs, hes⟩ := Option.map_eq_some_iff.mp firstCall_events
  exact @result_counts_itself _ s _ hs _ [] _ _ hes rfl

/-- So `getsyscallcount` does not count completed calls. -/
theorem first_result_not_exact :
    ¬ ∀ as s es, machine.run as = some (s, es) → Recorded ExactCount es := by
  intro hall
  obtain ⟨⟨s, es⟩, hs, rfl⟩ := Option.map_eq_some_iff.mp firstCall_events
  have hexact := hall _ _ _ hs [.dispatched 0 .getsyscallcount] _ [] rfl rfl
  exact absurd hexact (by decide)

end Xv6

end SystemProgramming
