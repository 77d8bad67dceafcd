import SystemProgramming.Library.ProcessTree
import SystemProgramming.Xv6.CallTrace

/-!
# The process tree of the kernel

`fork`, `exit` and `wait` take `wait_lock` and the locks of the slots one after the other, and in
between the other processors run. For the tree of processes each of these pieces is one move or
none.

## How it goes

`Kernel.tree` forgets what the tree does not need: the program counters, the locks, the channels.
Each piece of `fork`, `exit` and `wait` is shown to be a move of `Library.ProcessTree`, or to leave
the tree alone, and the results are those of the library. That process numbers are given out in
order carries the argument; they are integers here, so what is proved is about runs in which
`nextpid` has not overflowed.

## What is a move

A slot changes its place in the tree when `fork` takes it, when it gets its parent, when `fork`
returns and it becomes runnable, when its process exits and hands its children on, and when `wait`
gives it back. The rest of the kernel sleeps, wakes up, runs or kills, and does not change what the
tree is made of. A slot that has just been taken has no parent at first; to which `fork` it belongs
is said by the program counter of the process that forks (`Context.child`).

## Main definitions

* `Kernel.tree` — what the process table says of the tree

## Main results

* `moves_of_step` — a step of the kernel is a move of the tree, or none
* `wellFormed_of_run` — the table is a tree in every run
* `descends_of_run` — every process comes from the first one, through processes that have not exited
-/

namespace SystemProgramming

namespace Xv6

/-- What the tree needs of a state. -/
def ProcState.kind : ProcState → ProcessTree.Kind
  | .unused => .free
  | .used => .building
  | .sleeping | .runnable | .running => .alive
  | .zombie => .zombie

/-- The slot that `fork` is setting up, and whether its parent is set. -/
def Context.child : Context → Option (Slot × Bool)
  | .forkCopies np => some (np, false)
  | .forkAdopted np => some (np, true)
  | _ => none

theorem ProcState.kind_eq_zombie_iff {st : ProcState} : st.kind = .zombie ↔ st = .zombie := by
  cases st <;> simp [ProcState.kind]

theorem Context.names_iff {c : Context} {np : Slot} :
    c.Names np ↔ ∃ b, c.child = some (np, b) := by
  cases c <;> simp [Context.Names, Context.child]

/-- The tree of the process table. -/
def Kernel.tree (s : Kernel) : ProcessTree Slot where
  kind q := (s.proc q).state.kind
  parent q := (s.proc q).parent
  pid q := (s.proc q).pid
  child q := (s.proc q).context.child
  nextpid := s.nextpid

section Modify

variable {s : Kernel} {p : Slot} {f : Proc → Proc}

theorem proc_modify_self (s : Kernel) (p : Slot) (f : Proc → Proc) :
    (s.modify p f).proc p = f (s.proc p) := Function.update_self ..

theorem tree_modify (s : Kernel) (p : Slot) (f : Proc → Proc) :
    (s.modify p f).tree =
      { kind := Function.update s.tree.kind p (f (s.proc p)).state.kind
        parent := Function.update s.tree.parent p (f (s.proc p)).parent
        pid := Function.update s.tree.pid p (f (s.proc p)).pid
        child := Function.update s.tree.child p (f (s.proc p)).context.child
        nextpid := s.nextpid } := by
  have hfield : ∀ {α : Type} (g : Proc → α),
      (fun q => g ((s.modify p f).proc q)) =
        Function.update (fun q => g (s.proc q)) p (g (f (s.proc p))) := fun g => by
    funext q
    rw [Function.update_apply]
    split
    · rename_i hq
      rw [hq]
      exact congrArg g (Function.update_self ..)
    · rename_i hq
      exact congrArg g (Function.update_of_ne hq ..)
  exact ProcessTree.ext (hfield fun q => q.state.kind) (hfield Proc.parent) (hfield Proc.pid)
    (hfield fun q => q.context.child) rfl

theorem tree_modify_state (hparent : (f (s.proc p)).parent = (s.proc p).parent)
    (hpid : (f (s.proc p)).pid = (s.proc p).pid)
    (hchild : (f (s.proc p)).context.child = (s.proc p).context.child) :
    (s.modify p f).tree =
      { s.tree with kind := Function.update s.tree.kind p (f (s.proc p)).state.kind } := by
  rw [tree_modify, hparent, hpid, hchild]
  exact ProcessTree.ext rfl (Function.update_eq_self ..) (Function.update_eq_self ..)
    (Function.update_eq_self ..) rfl

theorem tree_modify_parent (hkind : (f (s.proc p)).state.kind = (s.proc p).state.kind)
    (hpid : (f (s.proc p)).pid = (s.proc p).pid)
    (hchild : (f (s.proc p)).context.child = (s.proc p).context.child) :
    (s.modify p f).tree =
      { s.tree with parent := Function.update s.tree.parent p (f (s.proc p)).parent } := by
  rw [tree_modify, hkind, hpid, hchild]
  exact ProcessTree.ext (Function.update_eq_self ..) rfl (Function.update_eq_self ..)
    (Function.update_eq_self ..) rfl

/-- A process goes on with something else. -/
theorem tree_modify_context (hkind : (f (s.proc p)).state.kind = (s.proc p).state.kind)
    (hparent : (f (s.proc p)).parent = (s.proc p).parent)
    (hpid : (f (s.proc p)).pid = (s.proc p).pid) :
    (s.modify p f).tree =
      { s.tree with child := Function.update s.tree.child p (f (s.proc p)).context.child } := by
  rw [tree_modify, hkind, hparent, hpid]
  exact ProcessTree.ext (Function.update_eq_self ..) (Function.update_eq_self ..)
    (Function.update_eq_self ..) rfl rfl

/-- A change that the tree does not see. -/
theorem tree_modify_of_eq (hkind : (f (s.proc p)).state.kind = (s.proc p).state.kind)
    (hparent : (f (s.proc p)).parent = (s.proc p).parent)
    (hpid : (f (s.proc p)).pid = (s.proc p).pid)
    (hchild : (f (s.proc p)).context.child = (s.proc p).context.child) :
    (s.modify p f).tree = s.tree := by
  rw [tree_modify_state hparent hpid hchild, hkind]
  exact ProcessTree.ext (Function.update_eq_self ..) rfl rfl rfl rfl

end Modify

section Functions

variable (s : Kernel) (p : Slot)

theorem tree_found : (found s p).tree =
    { s.tree with
      kind := Function.update s.tree.kind p .building
      pid := Function.update s.tree.pid p s.nextpid
      child := Function.update s.tree.child p none
      nextpid := s.nextpid + 1 } := by
  rw [found, tree_modify]
  exact ProcessTree.ext rfl (Function.update_eq_self ..) rfl rfl rfl

theorem tree_freeproc : (freeproc s p).tree =
    { s.tree with
      kind := Function.update s.tree.kind p .free
      parent := Function.update s.tree.parent p none
      pid := Function.update s.tree.pid p 0 } := by
  rw [freeproc, tree_modify]
  exact ProcessTree.ext rfl rfl rfl (Function.update_eq_self ..) rfl

theorem tree_wakeup (me : Option Slot) (chan : Option Chan) : (wakeup s me chan).tree = s.tree := by
  have hproc : ∀ q, (wakeup s me chan).proc q = s.proc q ∨
      (s.proc q).state = .sleeping ∧
        (wakeup s me chan).proc q = { s.proc q with state := .runnable } := fun q => by
    show (if _ then _ else _) = _ ∨ _ ∧ (if _ then _ else _) = _
    split
    · rename_i hq
      exact Or.inr ⟨hq.2.1, rfl⟩
    · exact Or.inl rfl
  refine ProcessTree.ext (funext fun q => ?_) (funext fun q => ?_) (funext fun q => ?_)
    (funext fun q => ?_) rfl
  all_goals
    rcases hproc q with hq | ⟨hstate, hq⟩
    · simp only [Kernel.tree, hq]
    · simp only [Kernel.tree, hq, hstate, ProcState.kind]

theorem tree_sleep (chan : Chan) (hp : (s.proc p).state.kind = .alive) :
    (sleep s p chan).tree = s.tree := tree_modify_of_eq hp.symm rfl rfl rfl

theorem tree_setkilled : (setkilled s p).tree = s.tree := tree_modify_of_eq rfl rfl rfl rfl

theorem tree_kill (pid : ℤ) : (kill s pid).1.tree = s.tree := by
  rw [kill]
  split
  · rename_i q hq
    dsimp only
    refine tree_modify_of_eq ?_ rfl rfl rfl
    show (if (s.proc q).state = .sleeping then ProcState.runnable else (s.proc q).state).kind = _
    split
    · rename_i hstate
      rw [hstate]
      rfl
    · rfl
  · rfl

theorem tree_reparent (hinit : s.initproc = some 0) : (reparent s p).tree =
    { s.tree with
      parent := fun q => if s.tree.parent q = some p then some 0 else s.tree.parent q } := by
  have hmap : ({ s with
      proc := fun pp =>
        if (s.proc pp).parent = some p then { s.proc pp with parent := s.initproc }
        else s.proc pp } : Kernel).tree =
      { s.tree with
        parent := fun q => if s.tree.parent q = some p then some 0 else s.tree.parent q } := by
    have hproc : ∀ {α : Type} (g : Proc → α) (q : Slot),
        g (if (s.proc q).parent = some p then { s.proc q with parent := s.initproc }
          else s.proc q) =
          if (s.proc q).parent = some p then g { s.proc q with parent := some 0 }
          else g (s.proc q) := fun g q => by rw [hinit, apply_ite g]
    refine ProcessTree.ext (funext fun q => ?_) (funext fun q => ?_) (funext fun q => ?_)
      (funext fun q => ?_) rfl
    · exact (hproc (fun q => q.state.kind) q).trans (ite_self _)
    · exact hproc Proc.parent q
    · exact (hproc Proc.pid q).trans (ite_self _)
    · exact (hproc (fun q => q.context.child) q).trans (ite_self _)
  rw [reparent]
  split
  · rw [tree_wakeup, hmap]
  · exact hmap

theorem tree_sysReturn (call : Syscall) (ret : BitVec 64) : (sysReturn s p call ret).1.tree =
    { s.tree with child := Function.update s.tree.child p none } := by
  rw [sysReturn, tree_modify]
  exact ProcessTree.ext (Function.update_eq_self ..) (Function.update_eq_self ..)
    (Function.update_eq_self ..) rfl rfl

theorem initproc_reparent : (reparent s p).initproc = s.initproc := by
  rw [reparent]
  split <;> rfl

theorem initproc_kill (pid : ℤ) : (kill s pid).1.initproc = s.initproc := by
  rw [kill]
  split <;> rfl

end Functions

theorem tree_exit {s s' : Kernel} {p : Slot} {status : ℤ} (hinit : s.initproc = some 0)
    (h : exit s p status = some s') :
    p ≠ 0 ∧ s'.tree = s.tree.exit 0 p ∧ s'.initproc = s.initproc := by
  rw [exit] at h
  split at h
  · cases h
  · rename_i hroot
    obtain rfl := Option.some.inj h
    refine ⟨?_, ?_, initproc_reparent s p⟩
    · rintro rfl
      exact hroot hinit
    · rw [tree_modify_state rfl rfl rfl, tree_wakeup, tree_reparent s p hinit]
      rfl

/-! ### The steps -/

/-- A step is a move of the tree, and the first process stays the first one. -/
def Moves (s s' : Kernel) : Prop := ProcessTree.Move 0 s.tree s'.tree ∧ s'.initproc = s.initproc

theorem Moves.stay {s s' : Kernel} (h : s'.tree = s.tree) (hinit : s'.initproc = s.initproc) :
    Moves s s' :=
  ⟨h ▸ .stay, hinit⟩

section Steps

variable {s s₀ s' : Kernel} {p np : Slot} {es' : List Event}

theorem moves_exits {status : ℤ} (hinit : s.initproc = some 0) (htree : s₀.tree = s.tree)
    (hinit₀ : s₀.initproc = s.initproc) (hp : s.tree.kind p = .alive)
    (hchild : s.tree.child p = none) (h : exits s₀ p status = some (s', es')) : Moves s s' := by
  obtain ⟨s₁, h₁, heq⟩ := Option.map_eq_some_iff.mp h
  obtain ⟨rfl, rfl⟩ := Prod.mk.inj heq
  obtain ⟨hne, htree₁, hinit₁⟩ := tree_exit (hinit₀.trans hinit) h₁
  rw [Moves, htree₁, htree]
  exact ⟨.exit hp hchild hne, hinit₁.trans hinit₀⟩

/-- A handler returns, after a move of its own. -/
theorem moves_sysReturn (call : Syscall) (ret : BitVec 64) (h : Moves s s₀)
    (hchild : s₀.tree.child p = none) : Moves s (sysReturn s₀ p call ret).1 := by
  have htree : (sysReturn s₀ p call ret).1.tree = s₀.tree := by
    rw [tree_sysReturn, ← hchild]
    exact ProcessTree.ext rfl rfl rfl (Function.update_eq_self ..) rfl
  rw [Moves, htree]
  exact h

theorem moves_syscall {regs : Trapframe} (huser : s.contexts p = .user)
    (h : some (syscall (s.modify p fun q => { q with trapframe := regs }) p) = some (s', es')) :
    Moves s s' := by
  have hregs : (s.modify p fun q => { q with trapframe := regs }).tree = s.tree :=
    tree_modify_of_eq rfl rfl rfl rfl
  have huser' : ((s.modify p fun q => { q with trapframe := regs }).proc p).context = .user :=
    (congrArg Proc.context (Function.update_self p _ s.proc)).trans huser
  rw [Option.some.injEq, syscall] at h
  dsimp only at h
  split at h <;> obtain ⟨rfl, rfl⟩ := Prod.mk.inj h
  · exact .stay ((tree_modify_of_eq rfl rfl rfl (huser' ▸ rfl)).trans hregs) rfl
  · exact .stay ((tree_modify_of_eq rfl rfl rfl rfl).trans hregs) rfl

theorem moves_fork (hp : s.tree.kind p = .alive) (hchild : s.tree.child p = none)
    (h : (allocproc s np).map (fun s' =>
      (s'.modify p fun q => { q with context := .forkCopies np }, [Event.created np])) =
      some (s', es')) : Moves s s' := by
  obtain ⟨s₁, halloc, heq⟩ := Option.map_eq_some_iff.mp h
  obtain ⟨rfl, rfl⟩ := Prod.mk.inj heq
  rw [allocproc] at halloc
  split at halloc
  · rename_i hnp
    obtain rfl := Option.some.inj halloc
    have hmove : ProcessTree.Move 0 s.tree (s.tree.allocate p np) :=
      .allocate hp hchild (congrArg ProcState.kind hnp)
    refine ⟨?_, rfl⟩
    rw [tree_modify_context rfl rfl rfl, tree_found]
    exact hmove
  · cases halloc

theorem moves_forkFails (hchild : s.tree.child p = some (np, false)) (ret : BitVec 64) :
    Moves s (sysReturn (freeproc s np) p .fork ret).1 := by
  have hmove : ProcessTree.Move 0 s.tree (s.tree.abandon p np) := .abandon hchild
  refine ⟨?_, rfl⟩
  rw [tree_sysReturn, tree_freeproc]
  exact hmove

theorem moves_forkAdopts (hchild : s.tree.child p = some (np, false)) (regs : Trapframe) :
    Moves s ((s.modify np fun q => { q with trapframe := regs, parent := some p }).modify p
      fun q => { q with context := .forkAdopted np }) := by
  have hmove : ProcessTree.Move 0 s.tree (s.tree.adopt p np) := .adopt hchild
  refine ⟨?_, rfl⟩
  rw [tree_modify_context rfl rfl rfl, tree_modify_parent rfl rfl rfl]
  exact hmove

theorem moves_forkReturns (hchild : s.tree.child p = some (np, true)) (ret : BitVec 64) :
    Moves s (sysReturn (s.modify np fun q => { q with state := .runnable }) p .fork ret).1 := by
  have hmove : ProcessTree.Move 0 s.tree (s.tree.start p np) := .start hchild
  refine ⟨?_, rfl⟩
  rw [tree_sysReturn, tree_modify_state rfl rfl rfl]
  exact hmove

theorem zombieChild_eq_some {pp : Slot} (h : zombieChild s p = some pp) :
    (s.proc pp).parent = some p ∧ (s.proc pp).state = .zombie := by
  have hzombie := List.find?_some h
  simpa using hzombie

theorem moves_wait (hp : s.tree.kind p = .alive) (addr : BitVec 64) (copied : Bool) :
    Moves s (wait s p addr copied).1 := by
  rw [wait]
  split
  · rename_i pp hpp
    obtain ⟨hparent, hstate⟩ := zombieChild_eq_some hpp
    split
    · exact .stay rfl rfl
    · have hmove : ProcessTree.Move 0 s.tree (s.tree.reap pp) :=
        .reap hparent (congrArg ProcState.kind hstate)
      refine ⟨?_, rfl⟩
      rw [tree_freeproc]
      exact hmove
  · split
    · exact .stay rfl rfl
    · exact .stay (tree_sleep s p _ hp) rfl

theorem moves_trap {unexpected : Bool} (hinit : s.initproc = some 0)
    (hp : s.tree.kind p = .alive) (hchild : s.tree.child p = none)
    (h : (if ((if unexpected then setkilled s p else s).proc p).killed = true then
        exits (if unexpected then setkilled s p else s) p (-1)
      else some (if unexpected then setkilled s p else s, [])) = some (s', es')) : Moves s s' := by
  have htree : (if unexpected then setkilled s p else s).tree = s.tree := by
    split
    · exact tree_setkilled s p
    · rfl
  have hinit₀ : (if unexpected then setkilled s p else s).initproc = s.initproc := by
    split <;> rfl
  by_cases hkilled : ((if unexpected then setkilled s p else s).proc p).killed = true
  · rw [if_pos hkilled] at h
    exact moves_exits hinit htree hinit₀ hp hchild h
  · rw [if_neg hkilled] at h
    obtain ⟨rfl, rfl⟩ := Prod.mk.inj (Option.some.inj h)
    exact .stay htree hinit₀

theorem tree_handle {call : Syscall} {ret r : BitVec 64}
    (h : handle s p ret call = some (s', r)) : s'.tree = s.tree ∧ s'.initproc = s.initproc := by
  cases call <;> simp only [handle, Option.some.injEq, Prod.mk.injEq, reduceCtorEq] at h <;>
    obtain ⟨rfl, -⟩ := h <;>
    first | exact ⟨rfl, rfl⟩ | exact ⟨tree_kill s _, initproc_kill s _⟩

theorem moves_of_stepOf {c : Context} {a : Act} (hinit : s.initproc = some 0)
    (hp : s.tree.kind p = .alive) (hc : s.contexts p = c) (ha : a.actor = some p)
    (h : stepOf s p c a = some (s', es')) : Moves s s' := by
  have hchild : s.tree.child p = c.child := congrArg Context.child hc
  rw [stepOf.eq_def] at h
  split at h
  · -- `ecall`
    obtain rfl := Option.some.inj ha
    split at h
    · exact moves_exits hinit rfl rfl hp hchild h
    · exact moves_syscall hc h
  · exact moves_trap hinit hp hchild h
  · cases h
    exact moves_sysReturn .fork (-1) (.stay rfl rfl) hchild
  · exact moves_fork hp hchild h
  · cases h
    exact moves_forkFails hchild _
  · cases h
    exact moves_forkAdopts hchild _
  · cases h
    exact moves_forkReturns hchild _
  · exact moves_exits hinit rfl rfl hp hchild h
  · -- `wait`
    rename_i copied
    have hwait := moves_wait hp (s.proc p).trapframe.a0 copied
    have hcontexts := (undisturbed_wait s p (s.proc p).trapframe.a0 copied).contexts_eq
    split at h <;> rename_i heq <;> rw [heq] at hwait hcontexts <;> cases h
    · exact hwait
    · exact moves_sysReturn .wait _ hwait
        (congrArg Context.child ((congrFun hcontexts p).trans hc))
  · -- a handler ends
    rename_i call _ _
    obtain ⟨⟨s₁, r⟩, hhandle, heq⟩ := Option.map_eq_some_iff.mp h
    obtain ⟨rfl, rfl⟩ := Prod.mk.inj heq
    obtain ⟨htree, hinit'⟩ := tree_handle hhandle
    exact moves_sysReturn call _ (.stay htree hinit') (htree ▸ hchild)
  · -- a handler sleeps
    split at h
    · cases h
    · cases h
      exact .stay (tree_sleep s p _ hp) rfl
  · cases h

/-- **A step of the kernel** is a move of the tree, or none. -/
theorem moves_of_step {a : Act} (hinit : s.initproc = some 0)
    (h : step s a = some (s', es')) : Moves s s' := by
  rw [step.eq_def] at h
  split at h
  · split at h
    · rename_i hstate
      cases h
      exact .stay (tree_modify_of_eq (by rw [hstate]; rfl) rfl rfl rfl) rfl
    · cases h
  · split at h
    · rename_i hstate
      cases h
      exact .stay (tree_modify_of_eq (by rw [hstate]; rfl) rfl rfl rfl) rfl
    · cases h
  · cases h
    exact .stay (tree_wakeup s _ _) rfl
  · obtain ⟨p, hp, hstep⟩ := Option.bind_eq_some_iff.mp h
    split at hstep
    · rename_i hstate
      exact moves_of_stepOf hinit (congrArg ProcState.kind hstate) rfl hp hstep
    · cases hstep

end Steps

/-! ### Runs -/

theorem tree_init : machine.init.tree = ProcessTree.first 0 := by
  have hfirst : ({ found procinit 0 with initproc := some 0 } : Kernel).tree =
    (found procinit 0).tree := rfl
  show (userinit procinit).tree = _
  rw [userinit, tree_modify_state rfl rfl rfl, hfirst, tree_found]
  exact ProcessTree.ext (Function.update_idem ..) rfl rfl (Function.update_eq_self ..) rfl

theorem wellFormed_of_run {as : List Act} {s : Kernel} {es : List Event}
    (h : machine.run as = some (s, es)) : s.tree.WellFormed 0 ∧ s.initproc = some 0 := by
  refine Machine.run_invariant_state (M := machine)
    (I := fun s => s.tree.WellFormed 0 ∧ s.initproc = some 0)
    ⟨tree_init ▸ ProcessTree.wellFormed_first 0, rfl⟩ ?_ h
  rintro s a s' es' ⟨hwf, hinit⟩ hstep
  obtain ⟨hmove, hinit'⟩ := moves_of_step hinit hstep
  exact ⟨hwf.move hmove, hinit'.trans hinit⟩

/-- A parent that has not exited. -/
def Kernel.Parent (s : Kernel) (q r : Slot) : Prop :=
  (s.proc q).parent = some r ∧ (s.proc r).state.kind = .alive

/-- **The process tree.** In every run, whatever the processors do between the pieces of `fork`,
`exit` and `wait`: from every process and every zombie a chain of parents leads to the first
process, and nobody on the way has exited; and every slot that has been taken for a child belongs to
exactly one `fork`. -/
theorem descends_of_run {as : List Act} {s : Kernel} {es : List Event}
    (h : machine.run as = some (s, es)) :
    (∀ q, (s.proc q).state.kind = .alive ∨ (s.proc q).state = .zombie →
        Relation.ReflTransGen s.Parent q 0) ∧
      ∀ np, (s.proc np).state = .used →
        ∃! p, (s.proc p).state.kind = .alive ∧ ((s.proc p).context).Names np := by
  obtain ⟨hwf, -⟩ := wellFormed_of_run h
  refine ⟨fun q hq => ?_, fun np hnp => ?_⟩
  · have hkind : s.tree.kind q = .alive ∨ s.tree.kind q = .zombie :=
      hq.imp_right fun hzombie => ProcState.kind_eq_zombie_iff.mpr hzombie
    exact hwf.descends hkind
  · obtain ⟨p, b, hp⟩ := hwf.exists_builder np (congrArg ProcState.kind hnp)
    refine ⟨p, ⟨(hwf.builder p np b hp).1, Context.names_iff.mpr ⟨b, hp⟩⟩, ?_⟩
    rintro p' ⟨-, hp'⟩
    obtain ⟨b', hchild⟩ := Context.names_iff.mp hp'
    exact hwf.builder_inj p' p np b' b hchild hp

/-- The first process forks, and the child exits. -/
def forkAndExit : List Act :=
  [.schedule 0, .ecall 0 ⟨0, 1⟩, .fork 0 (some 1), .forkAdopts 0, .forkReturns 0, .schedule 1,
    .ecall 1 ⟨0, 2⟩, .exit 1]

theorem descends_of_run_forkAndExit : ∃ s es, machine.run forkAndExit = some (s, es) ∧
    (s.proc 1).state = .zombie ∧ Relation.ReflTransGen s.Parent 1 0 := by
  have hrun : machine.run forkAndExit = some (_, _) := rfl
  exact ⟨_, _, hrun, rfl, (descends_of_run hrun).1 1 (Or.inr rfl)⟩

end Xv6

end SystemProgramming
