import Mathlib.Algebra.Order.Ring.Int
import Mathlib.Logic.Function.Basic
import Mathlib.Logic.Relation

/-!
# The tree of processes

Processes live in slots that are used again. A process makes a child in three moves: it takes a
slot, becomes the parent of what is in it, and lets it go. A process that exits gives its children
to the root, and stays a zombie until its parent removes it.

Numbers that are given out in order make the tree a tree: a child has a larger number than its
parent, whoever that is.

## How it goes

Each move changes one slot, or two. The proof that it keeps `WellFormed` begins with what the move
leaves alone, in every other slot, and with what it says of the slot it changes; then each clause is
a case distinction between that slot and the others. A slot that is set up is nobody's parent, so it
can be taken and given back without a look at the rest.

## The clauses of the invariant

`WellFormed` has one group of clauses for each question. Who may be somebody's parent: only who is
alive, with a smaller number, and everybody but the root has one (`parent_alive`, `parent_pid`,
`exists_parent`). What the numbers are: those in use are positive, below `nextpid` and different
from each other (`pid_pos`, `pid_inj`). What is being set up: exactly the slots that somebody has
taken and not let go, each by one process (`builder`, `builder_inj`, `exists_builder`), whose parent
is known as soon as it has been adopted (`child_parent`).

No clause says that there are no cycles. A cycle of parents would have numbers that get smaller all
the way around, so that `parent_pid` is enough, and the way to the root is found by induction on the
number (`descends`). That `exit` gives the children to the root keeps it, as the number of the root
is the smallest (`root_pid`).

## Main definitions

* `ProcessTree`, `ProcessTree.Move` — the slots, and what can happen to them
* `ProcessTree.WellFormed` — what holds between the moves

## Main results

* `WellFormed.move` — the moves keep it
* `WellFormed.descends` — every process comes from the root, through processes that are alive
-/

namespace SystemProgramming

/-- What there is in a slot. -/
inductive ProcessTree.Kind
  | free | building | alive | zombie
  deriving DecidableEq, Repr

/-- The slots. `child p` is the slot that `p` is setting up, and whether `p` is its parent
already. -/
@[ext] structure ProcessTree (ι : Type*) where
  kind : ι → ProcessTree.Kind
  parent : ι → Option ι
  pid : ι → ℤ
  child : ι → Option (ι × Bool)
  nextpid : ℤ

namespace ProcessTree

variable {ι : Type*} [DecidableEq ι]

/-- The first process, with the number 1. -/
def first (root : ι) : ProcessTree ι where
  kind := Function.update (fun _ => .free) root .alive
  parent := fun _ => none
  pid := Function.update (fun _ => 0) root 1
  child := fun _ => none
  nextpid := 2

/-- `p` takes the slot `np`. -/
def allocate (t : ProcessTree ι) (p np : ι) : ProcessTree ι :=
  { t with
    kind := Function.update t.kind np .building
    pid := Function.update t.pid np t.nextpid
    child := Function.update (Function.update t.child np none) p (some (np, false))
    nextpid := t.nextpid + 1 }

/-- `p` gives the slot back. -/
def abandon (t : ProcessTree ι) (p np : ι) : ProcessTree ι :=
  { t with
    kind := Function.update t.kind np .free
    parent := Function.update t.parent np none
    pid := Function.update t.pid np 0
    child := Function.update t.child p none }

/-- `p` becomes the parent of `np`. -/
def adopt (t : ProcessTree ι) (p np : ι) : ProcessTree ι :=
  { t with
    parent := Function.update t.parent np (some p)
    child := Function.update t.child p (some (np, true)) }

/-- `p` lets `np` go. -/
def start (t : ProcessTree ι) (p np : ι) : ProcessTree ι :=
  { t with
    kind := Function.update t.kind np .alive
    child := Function.update t.child p none }

/-- `p` exits. -/
def exit (t : ProcessTree ι) (root p : ι) : ProcessTree ι :=
  { t with
    kind := Function.update t.kind p .zombie
    parent := fun q => if t.parent q = some p then some root else t.parent q }

/-- A zombie is removed. -/
def reap (t : ProcessTree ι) (q : ι) : ProcessTree ι :=
  { t with
    kind := Function.update t.kind q .free
    parent := Function.update t.parent q none
    pid := Function.update t.pid q 0 }

/-- What can happen. -/
inductive Move (root : ι) (t : ProcessTree ι) : ProcessTree ι → Prop
  | stay : Move root t t
  | allocate {p np} (hp : t.kind p = .alive) (hchild : t.child p = none) (hnp : t.kind np = .free) :
      Move root t (t.allocate p np)
  | abandon {p np} (hchild : t.child p = some (np, false)) : Move root t (t.abandon p np)
  | adopt {p np} (hchild : t.child p = some (np, false)) : Move root t (t.adopt p np)
  | start {p np} (hchild : t.child p = some (np, true)) : Move root t (t.start p np)
  | exit {p} (hp : t.kind p = .alive) (hchild : t.child p = none) (hroot : p ≠ root) :
      Move root t (t.exit root p)
  | reap {p q} (hparent : t.parent q = some p) (hq : t.kind q = .zombie) : Move root t (t.reap q)

/-- What holds between the moves. -/
structure WellFormed (root : ι) (t : ProcessTree ι) : Prop where
  root_alive : t.kind root = .alive
  root_parent : t.parent root = none
  parent_alive : ∀ q r, t.parent q = some r → t.kind r = .alive
  parent_pid : ∀ q r, t.parent q = some r → t.pid r < t.pid q
  exists_parent : ∀ q, t.kind q = .alive ∨ t.kind q = .zombie → q ≠ root → ∃ r, t.parent q = some r
  free : ∀ q, t.kind q = .free → t.parent q = none ∧ t.pid q = 0
  root_pid : ∀ q, t.kind q ≠ .free → q ≠ root → t.pid root < t.pid q
  pid_pos : ∀ q, t.kind q ≠ .free → 0 < t.pid q ∧ t.pid q < t.nextpid
  pid_inj : ∀ q r, t.kind q ≠ .free → t.kind r ≠ .free → t.pid q = t.pid r → q = r
  builder : ∀ p np b, t.child p = some (np, b) → t.kind p = .alive ∧ t.kind np = .building
  builder_pid : ∀ p np b, t.child p = some (np, b) → t.pid p < t.pid np
  builder_inj : ∀ p p' np b b', t.child p = some (np, b) → t.child p' = some (np, b') → p = p'
  exists_builder : ∀ np, t.kind np = .building → ∃ p b, t.child p = some (np, b)
  child_parent : ∀ p np b, t.child p = some (np, b) → t.parent np = if b then some p else none

section Moves

variable {root : ι} {t t' : ProcessTree ι} {p q np : ι}

theorem wellFormed_first (root : ι) : (first root).WellFormed root := by
  -- there is one process, and nobody has a parent or sets up a child
  have hroot : (first root).kind root = .alive := by simp [first]
  have hone : (first root).pid root = 1 := by simp [first]
  have honly : ∀ {q}, (first root).kind q ≠ .free → q = root := by
    intro q hq
    by_contra hne
    exact hq (by simp [first, hne])
  constructor
  case root_alive => exact hroot
  case root_parent => rfl
  case parent_alive => intro q r hr; cases hr
  case parent_pid => intro q r hr; cases hr
  case exists_parent =>
    intro q hq hne
    refine absurd (honly ?_) hne
    rcases hq with hq | hq <;> simp [hq]
  case free =>
    intro q hq
    have hne : q ≠ root := by
      rintro rfl
      simp [hroot] at hq
    exact ⟨rfl, by simp [first, hne]⟩
  case root_pid =>
    intro q hq hne
    exact absurd (honly hq) hne
  case pid_pos =>
    intro q hq
    rw [honly hq, hone]
    exact ⟨by simp, by simp [first]⟩
  case pid_inj =>
    intro q r hq hr _
    rw [honly hq, honly hr]
  case builder => intro p np b hb; cases hb
  case builder_pid => intro p np b hb; cases hb
  case builder_inj => intro p p' np b b' hb; cases hb
  case exists_builder =>
    intro np hnp
    have hne : np = root := honly (by simp [hnp])
    rw [hne, hroot] at hnp
    cases hnp
  case child_parent => intro p np b hb; cases hb

omit [DecidableEq ι] in
theorem WellFormed.root_ne_free (h : t.WellFormed root) : t.kind root ≠ .free := by
  simp [h.root_alive]

omit [DecidableEq ι] in
/-- Who has a parent is in a slot. -/
theorem WellFormed.ne_free_of_parent (h : t.WellFormed root) (hparent : t.parent q = some p) :
    t.kind q ≠ .free := by
  intro hfree
  rw [(h.free q hfree).1] at hparent
  cases hparent

/-- A slot that is taken gets a number that is larger than all others. -/
theorem WellFormed.allocate (h : t.WellFormed root) (hp : t.kind p = .alive)
    (hchild : t.child p = none) (hnp : t.kind np = .free) : (t.allocate p np).WellFormed root := by
  -- `np` is nobody's parent or child, and nobody sets it up
  have hnew : ∀ {q}, t.kind q ≠ .free → q ≠ np := by
    rintro q hq rfl
    exact hq hnp
  have hroot : root ≠ np := hnew h.root_ne_free
  have hpnp : p ≠ np := hnew (by simp [hp])
  have hends : ∀ {q r}, t.parent q = some r → q ≠ np ∧ r ≠ np := fun hr =>
    ⟨hnew (h.ne_free_of_parent hr), hnew (by simp [h.parent_alive _ _ hr])⟩
  -- what is in the other slots stays
  have hkind : ∀ {q}, q ≠ np → (t.allocate p np).kind q = t.kind q := fun hq =>
    Function.update_of_ne hq _ _
  have hpid : ∀ {q}, q ≠ np → (t.allocate p np).pid q = t.pid q := fun hq =>
    Function.update_of_ne hq _ _
  have hbuilding : (t.allocate p np).kind np = .building := Function.update_self ..
  have hnumber : (t.allocate p np).pid np = t.nextpid := Function.update_self ..
  have hold : ∀ {q}, (t.allocate p np).kind q ≠ .free → q ≠ np → t.kind q ≠ .free := by
    intro q hq hne
    rwa [hkind hne] at hq
  -- the only new child is `np`, of `p`
  have hother : ∀ {p'}, p' ≠ p →
      (t.allocate p np).child p' = Function.update t.child np none p' := fun hp' =>
    Function.update_of_ne hp' _ _
  have hbuilds : ∀ {p' n b}, (t.allocate p np).child p' = some (n, b) →
      p' = p ∧ n = np ∧ b = false ∨ p' ≠ np ∧ n ≠ np ∧ t.child p' = some (n, b) := by
    intro p' n b hb
    by_cases hpp : p' = p
    · have hself : (t.allocate p np).child p' = some (np, false) := by
        rw [hpp]
        exact Function.update_self ..
      cases hself.symm.trans hb
      exact Or.inl ⟨hpp, rfl, rfl⟩
    · have hne : p' ≠ np := by
        rintro rfl
        rw [hother hpp, Function.update_self] at hb
        cases hb
      rw [hother hpp, Function.update_of_ne hne] at hb
      exact Or.inr ⟨hne, hnew (by simp [(h.builder _ _ _ hb).2]), hb⟩
  constructor
  case root_alive => exact (hkind hroot).trans h.root_alive
  case root_parent => exact h.root_parent
  case parent_alive =>
    intro q r hr
    exact (hkind (hends hr).2).trans (h.parent_alive q r hr)
  case parent_pid =>
    intro q r hr
    rw [hpid (hends hr).1, hpid (hends hr).2]
    exact h.parent_pid q r hr
  case exists_parent =>
    intro q hq hne
    have hqnp : q ≠ np := by
      rintro rfl
      simp [hbuilding] at hq
    rw [hkind hqnp] at hq
    exact h.exists_parent q hq hne
  case free =>
    intro q hq
    have hqnp : q ≠ np := by
      rintro rfl
      simp [hbuilding] at hq
    rw [hkind hqnp] at hq
    rw [hpid hqnp]
    exact h.free q hq
  case root_pid =>
    intro q hq hne
    rw [hpid hroot]
    by_cases hqnp : q = np
    · rw [hqnp, hnumber]
      exact (h.pid_pos root h.root_ne_free).2
    · rw [hpid hqnp]
      exact h.root_pid q (hold hq hqnp) hne
  case pid_pos =>
    intro q hq
    show 0 < (t.allocate p np).pid q ∧ (t.allocate p np).pid q < t.nextpid + 1
    by_cases hqnp : q = np
    · have hpos := h.pid_pos root h.root_ne_free
      rw [hqnp, hnumber]
      omega
    · have hpos := h.pid_pos q (hold hq hqnp)
      rw [hpid hqnp]
      omega
  case pid_inj =>
    -- the new number is larger than those in use
    have hlarger : ∀ {q}, (t.allocate p np).kind q ≠ .free → q ≠ np →
        (t.allocate p np).pid q < t.nextpid := by
      intro q hq hne
      rw [hpid hne]
      exact (h.pid_pos q (hold hq hne)).2
    intro q r hq hr heq
    by_cases hqnp : q = np
    · by_contra hne
      have hlt := hlarger hr (fun hrnp => hne (hqnp.trans hrnp.symm))
      rw [← heq, hqnp, hnumber] at hlt
      exact lt_irrefl _ hlt
    · by_cases hrnp : r = np
      · have hlt := hlarger hq hqnp
        rw [heq, hrnp, hnumber] at hlt
        exact absurd hlt (lt_irrefl _)
      · rw [hpid hqnp, hpid hrnp] at heq
        exact h.pid_inj q r (hold hq hqnp) (hold hr hrnp) heq
  case builder =>
    intro p' n b hb
    rcases hbuilds hb with ⟨rfl, rfl, -⟩ | ⟨hpnp', hnnp, hb⟩
    · exact ⟨(hkind hpnp).trans hp, hbuilding⟩
    · rw [hkind hpnp', hkind hnnp]
      exact h.builder p' n b hb
  case builder_pid =>
    intro p' n b hb
    rcases hbuilds hb with ⟨rfl, rfl, -⟩ | ⟨hpnp', hnnp, hb⟩
    · rw [hpid hpnp, hnumber]
      exact (h.pid_pos p' (by simp [hp])).2
    · rw [hpid hpnp', hpid hnnp]
      exact h.builder_pid p' n b hb
  case builder_inj =>
    intro p₁ p₂ n b₁ b₂ hb₁ hb₂
    rcases hbuilds hb₁ with ⟨rfl, rfl, -⟩ | ⟨-, hnnp, hb₁⟩
    · rcases hbuilds hb₂ with ⟨rfl, -, -⟩ | ⟨-, hnnp, -⟩
      · rfl
      · exact absurd rfl hnnp
    · rcases hbuilds hb₂ with ⟨-, rfl, -⟩ | ⟨-, -, hb₂⟩
      · exact absurd rfl hnnp
      · exact h.builder_inj p₁ p₂ n b₁ b₂ hb₁ hb₂
  case exists_builder =>
    intro n hn
    by_cases hnnp : n = np
    · rw [hnnp]
      exact ⟨p, false, Function.update_self ..⟩
    · rw [hkind hnnp] at hn
      obtain ⟨p', b, hb⟩ := h.exists_builder n hn
      have hpp : p' ≠ p := by
        rintro rfl
        rw [hchild] at hb
        cases hb
      have hpnp' : p' ≠ np := hnew (by simp [(h.builder _ _ _ hb).1])
      refine ⟨p', b, ?_⟩
      rw [hother hpp, Function.update_of_ne hpnp', hb]
  case child_parent =>
    intro p' n b hb
    rcases hbuilds hb with ⟨rfl, rfl, rfl⟩ | ⟨-, -, hb⟩
    · exact (h.free n hnp).1
    · exact h.child_parent p' n b hb

/-- A slot that is given back had no parent yet. -/
theorem WellFormed.abandon (h : t.WellFormed root) (hchild : t.child p = some (np, false)) :
    (t.abandon p np).WellFormed root := by
  have hbuilding : t.kind np = .building := (h.builder p np false hchild).2
  have hnone : t.parent np = none := h.child_parent p np false hchild
  have hparent : (t.abandon p np).parent = t.parent := by
    show Function.update t.parent np none = t.parent
    rw [← hnone, Function.update_eq_self]
  -- so `np` is nobody's parent or child
  have hroot : root ≠ np := by
    rintro rfl
    simp [h.root_alive] at hbuilding
  have hends : ∀ {q r}, t.parent q = some r → q ≠ np ∧ r ≠ np := by
    refine fun hr => ⟨?_, ?_⟩
    · rintro rfl
      simp [hnone] at hr
    · rintro rfl
      simp [h.parent_alive _ _ hr] at hbuilding
  have hkind : ∀ {q}, q ≠ np → (t.abandon p np).kind q = t.kind q := fun hq =>
    Function.update_of_ne hq _ _
  have hpid : ∀ {q}, q ≠ np → (t.abandon p np).pid q = t.pid q := fun hq =>
    Function.update_of_ne hq _ _
  have hfree : (t.abandon p np).kind np = .free := Function.update_self ..
  have hold : ∀ {q}, (t.abandon p np).kind q ≠ .free → q ≠ np ∧ t.kind q ≠ .free := by
    intro q hq
    have hne : q ≠ np := by
      rintro rfl
      exact hq hfree
    exact ⟨hne, by rwa [hkind hne] at hq⟩
  -- and nobody else sets it up
  have hother : ∀ {p'}, p' ≠ p → (t.abandon p np).child p' = t.child p' := fun hp' =>
    Function.update_of_ne hp' _ _
  have hbuilds : ∀ {p' n b}, (t.abandon p np).child p' = some (n, b) →
      p' ≠ np ∧ n ≠ np ∧ t.child p' = some (n, b) := by
    intro p' n b hb
    have hpp : p' ≠ p := by
      rintro rfl
      have hself : (t.abandon p' np).child p' = none := Function.update_self ..
      cases hself.symm.trans hb
    rw [hother hpp] at hb
    refine ⟨?_, ?_, hb⟩
    · rintro rfl
      simp [(h.builder _ _ _ hb).1] at hbuilding
    · rintro rfl
      exact hpp (h.builder_inj _ _ _ _ _ hb hchild)
  constructor
  case root_alive => exact (hkind hroot).trans h.root_alive
  case root_parent => exact hparent ▸ h.root_parent
  case parent_alive =>
    intro q r hr
    rw [hparent] at hr
    exact (hkind (hends hr).2).trans (h.parent_alive q r hr)
  case parent_pid =>
    intro q r hr
    rw [hparent] at hr
    rw [hpid (hends hr).1, hpid (hends hr).2]
    exact h.parent_pid q r hr
  case exists_parent =>
    intro q hq hne
    have hqnp : q ≠ np := by
      rintro rfl
      simp [hfree] at hq
    rw [hkind hqnp] at hq
    rw [hparent]
    exact h.exists_parent q hq hne
  case free =>
    intro q hq
    rw [hparent]
    by_cases hqnp : q = np
    · rw [hqnp]
      exact ⟨hnone, Function.update_self ..⟩
    · rw [hkind hqnp] at hq
      rw [hpid hqnp]
      exact h.free q hq
  case root_pid =>
    intro q hq hne
    obtain ⟨hqnp, hq⟩ := hold hq
    rw [hpid hroot, hpid hqnp]
    exact h.root_pid q hq hne
  case pid_pos =>
    intro q hq
    obtain ⟨hqnp, hq⟩ := hold hq
    rw [hpid hqnp]
    exact h.pid_pos q hq
  case pid_inj =>
    intro q r hq hr heq
    obtain ⟨hqnp, hq⟩ := hold hq
    obtain ⟨hrnp, hr⟩ := hold hr
    rw [hpid hqnp, hpid hrnp] at heq
    exact h.pid_inj q r hq hr heq
  case builder =>
    intro p' n b hb
    obtain ⟨hpnp, hnnp, hb⟩ := hbuilds hb
    rw [hkind hpnp, hkind hnnp]
    exact h.builder p' n b hb
  case builder_pid =>
    intro p' n b hb
    obtain ⟨hpnp, hnnp, hb⟩ := hbuilds hb
    rw [hpid hpnp, hpid hnnp]
    exact h.builder_pid p' n b hb
  case builder_inj =>
    intro p₁ p₂ n b₁ b₂ hb₁ hb₂
    exact h.builder_inj p₁ p₂ n b₁ b₂ (hbuilds hb₁).2.2 (hbuilds hb₂).2.2
  case exists_builder =>
    intro n hn
    have hnnp : n ≠ np := by
      rintro rfl
      simp [hfree] at hn
    rw [hkind hnnp] at hn
    obtain ⟨p', b, hb⟩ := h.exists_builder n hn
    have hpp : p' ≠ p := by
      rintro rfl
      rw [hchild] at hb
      cases hb
      exact hnnp rfl
    exact ⟨p', b, by rw [hother hpp, hb]⟩
  case child_parent =>
    intro p' n b hb
    rw [hparent]
    exact h.child_parent p' n b (hbuilds hb).2.2

/-- Who sets up a slot is alive and has a smaller number, and becomes its parent. -/
theorem WellFormed.adopt (h : t.WellFormed root) (hchild : t.child p = some (np, false)) :
    (t.adopt p np).WellFormed root := by
  obtain ⟨hp, hbuilding⟩ := h.builder p np false hchild
  have hroot : root ≠ np := by
    rintro rfl
    simp [h.root_alive] at hbuilding
  -- the only new parent is `p`, of `np`
  have hparent : ∀ {q}, q ≠ np → (t.adopt p np).parent q = t.parent q := fun hq =>
    Function.update_of_ne hq _ _
  have hnew : (t.adopt p np).parent np = some p := Function.update_self ..
  have hparents : ∀ {q r}, (t.adopt p np).parent q = some r →
      q = np ∧ r = p ∨ t.parent q = some r := by
    intro q r hr
    by_cases hqnp : q = np
    · rw [hqnp, hnew] at hr
      exact Or.inl ⟨hqnp, (Option.some.inj hr).symm⟩
    · rw [hparent hqnp] at hr
      exact Or.inr hr
  have hother : ∀ {p'}, p' ≠ p → (t.adopt p np).child p' = t.child p' := fun hp' =>
    Function.update_of_ne hp' _ _
  have hbuilds : ∀ {p' n b}, (t.adopt p np).child p' = some (n, b) →
      p' = p ∧ n = np ∧ b = true ∨ n ≠ np ∧ t.child p' = some (n, b) := by
    intro p' n b hb
    by_cases hpp : p' = p
    · have hself : (t.adopt p np).child p' = some (np, true) := by
        rw [hpp]
        exact Function.update_self ..
      cases hself.symm.trans hb
      exact Or.inl ⟨hpp, rfl, rfl⟩
    · rw [hother hpp] at hb
      refine Or.inr ⟨?_, hb⟩
      rintro rfl
      exact hpp (h.builder_inj _ _ _ _ _ hb hchild)
  -- who sets up which slot stays
  have hsame : ∀ {p' n b}, (t.adopt p np).child p' = some (n, b) →
      ∃ b', t.child p' = some (n, b') := by
    intro p' n b hb
    rcases hbuilds hb with ⟨rfl, rfl, -⟩ | ⟨-, hb⟩
    · exact ⟨false, hchild⟩
    · exact ⟨b, hb⟩
  constructor
  case root_alive => exact h.root_alive
  case root_parent => exact (hparent hroot).trans h.root_parent
  case parent_alive =>
    intro q r hr
    rcases hparents hr with ⟨-, rfl⟩ | hr
    · exact hp
    · exact h.parent_alive q r hr
  case parent_pid =>
    intro q r hr
    rcases hparents hr with ⟨rfl, rfl⟩ | hr
    · exact h.builder_pid r q false hchild
    · exact h.parent_pid q r hr
  case exists_parent =>
    intro q hq hne
    by_cases hqnp : q = np
    · rw [hqnp]
      exact ⟨p, hnew⟩
    · rw [hparent hqnp]
      exact h.exists_parent q hq hne
  case free =>
    intro q hq
    have hq' : t.kind q = .free := hq
    have hqnp : q ≠ np := by
      rintro rfl
      simp [hq'] at hbuilding
    rw [hparent hqnp]
    exact h.free q hq
  case root_pid => exact h.root_pid
  case pid_pos => exact h.pid_pos
  case pid_inj => exact h.pid_inj
  case builder =>
    intro p' n b hb
    obtain ⟨b', hb'⟩ := hsame hb
    exact h.builder p' n b' hb'
  case builder_pid =>
    intro p' n b hb
    obtain ⟨b', hb'⟩ := hsame hb
    exact h.builder_pid p' n b' hb'
  case builder_inj =>
    intro p₁ p₂ n b₁ b₂ hb₁ hb₂
    obtain ⟨b₁', hb₁'⟩ := hsame hb₁
    obtain ⟨b₂', hb₂'⟩ := hsame hb₂
    exact h.builder_inj p₁ p₂ n b₁' b₂' hb₁' hb₂'
  case exists_builder =>
    intro n hn
    obtain ⟨p', b, hb⟩ := h.exists_builder n hn
    by_cases hpp : p' = p
    · rw [hpp, hchild] at hb
      cases hb
      exact ⟨p, true, Function.update_self ..⟩
    · exact ⟨p', b, by rw [hother hpp, hb]⟩
  case child_parent =>
    intro p' n b hb
    rcases hbuilds hb with ⟨rfl, rfl, rfl⟩ | ⟨hnnp, hb⟩
    · exact hnew
    · rw [hparent hnnp]
      exact h.child_parent p' n b hb

/-- A child that is let go has its parent already. -/
theorem WellFormed.start (h : t.WellFormed root) (hchild : t.child p = some (np, true)) :
    (t.start p np).WellFormed root := by
  obtain ⟨-, hbuilding⟩ := h.builder p np true hchild
  have hparent : t.parent np = some p := h.child_parent p np true hchild
  have hkind : ∀ {q}, q ≠ np → (t.start p np).kind q = t.kind q := fun hq =>
    Function.update_of_ne hq _ _
  have halive : (t.start p np).kind np = .alive := Function.update_self ..
  have hkept : ∀ {q}, t.kind q = .alive → (t.start p np).kind q = .alive := by
    intro q hq
    by_cases hqnp : q = np
    · rw [hqnp, halive]
    · rw [hkind hqnp, hq]
  have hold : ∀ {q}, (t.start p np).kind q ≠ .free → t.kind q ≠ .free := by
    intro q hq
    by_cases hqnp : q = np
    · simp [hqnp, hbuilding]
    · rwa [hkind hqnp] at hq
  -- nobody but `p` set up the slot
  have hother : ∀ {p'}, p' ≠ p → (t.start p np).child p' = t.child p' := fun hp' =>
    Function.update_of_ne hp' _ _
  have hbuilds : ∀ {p' n b}, (t.start p np).child p' = some (n, b) →
      n ≠ np ∧ t.child p' = some (n, b) := by
    intro p' n b hb
    have hpp : p' ≠ p := by
      rintro rfl
      have hself : (t.start p' np).child p' = none := Function.update_self ..
      cases hself.symm.trans hb
    rw [hother hpp] at hb
    refine ⟨?_, hb⟩
    rintro rfl
    exact hpp (h.builder_inj _ _ _ _ _ hb hchild)
  constructor
  case root_alive => exact hkept h.root_alive
  case root_parent => exact h.root_parent
  case parent_alive =>
    intro q r hr
    exact hkept (h.parent_alive q r hr)
  case parent_pid => exact h.parent_pid
  case exists_parent =>
    intro q hq hne
    by_cases hqnp : q = np
    · rw [hqnp]
      exact ⟨p, hparent⟩
    · rw [hkind hqnp] at hq
      exact h.exists_parent q hq hne
  case free =>
    intro q hq
    have hqnp : q ≠ np := by
      rintro rfl
      simp [halive] at hq
    rw [hkind hqnp] at hq
    exact h.free q hq
  case root_pid =>
    intro q hq hne
    exact h.root_pid q (hold hq) hne
  case pid_pos =>
    intro q hq
    exact h.pid_pos q (hold hq)
  case pid_inj =>
    intro q r hq hr heq
    exact h.pid_inj q r (hold hq) (hold hr) heq
  case builder =>
    intro p' n b hb
    obtain ⟨hnnp, hb⟩ := hbuilds hb
    obtain ⟨hp', hn⟩ := h.builder p' n b hb
    exact ⟨hkept hp', (hkind hnnp).trans hn⟩
  case builder_pid =>
    intro p' n b hb
    exact h.builder_pid p' n b (hbuilds hb).2
  case builder_inj =>
    intro p₁ p₂ n b₁ b₂ hb₁ hb₂
    exact h.builder_inj p₁ p₂ n b₁ b₂ (hbuilds hb₁).2 (hbuilds hb₂).2
  case exists_builder =>
    intro n hn
    have hnnp : n ≠ np := by
      rintro rfl
      simp [halive] at hn
    rw [hkind hnnp] at hn
    obtain ⟨p', b, hb⟩ := h.exists_builder n hn
    have hpp : p' ≠ p := by
      rintro rfl
      rw [hchild] at hb
      cases hb
      exact hnnp rfl
    exact ⟨p', b, by rw [hother hpp, hb]⟩
  case child_parent =>
    intro p' n b hb
    exact h.child_parent p' n b (hbuilds hb).2

/-- The root, to which the children are given, has the smallest number. -/
theorem WellFormed.exit (h : t.WellFormed root) (hp : t.kind p = .alive)
    (hchild : t.child p = none) (hroot : p ≠ root) : (t.exit root p).WellFormed root := by
  have hkind : ∀ {q}, q ≠ p → (t.exit root p).kind q = t.kind q := fun hq =>
    Function.update_of_ne hq _ _
  have hzombie : (t.exit root p).kind p = .zombie := Function.update_self ..
  have hold : ∀ {q}, (t.exit root p).kind q ≠ .free → t.kind q ≠ .free := by
    intro q hq
    by_cases hqp : q = p
    · simp [hqp, hp]
    · rwa [hkind hqp] at hq
  -- the children of `p` become those of the root
  have hparent : ∀ {q}, t.parent q ≠ some p → (t.exit root p).parent q = t.parent q := fun hq =>
    if_neg hq
  have horphan : ∀ {q}, t.parent q = some p → (t.exit root p).parent q = some root := fun hq =>
    if_pos hq
  have hparents : ∀ {q r}, (t.exit root p).parent q = some r →
      t.parent q = some p ∧ r = root ∨ r ≠ p ∧ t.parent q = some r := by
    intro q r hr
    by_cases hqp : t.parent q = some p
    · rw [horphan hqp] at hr
      exact Or.inl ⟨hqp, (Option.some.inj hr).symm⟩
    · rw [hparent hqp] at hr
      refine Or.inr ⟨?_, hr⟩
      rintro rfl
      exact hqp hr
  -- `p` sets up no slot, and is not set up
  have hbuilds : ∀ {p' n b}, t.child p' = some (n, b) → p' ≠ p ∧ n ≠ p := by
    refine fun hb => ⟨?_, ?_⟩
    · rintro rfl
      rw [hchild] at hb
      cases hb
    · rintro rfl
      simp [(h.builder _ _ _ hb).2] at hp
  constructor
  case root_alive => exact (hkind (Ne.symm hroot)).trans h.root_alive
  case root_parent => exact (hparent (by simp [h.root_parent])).trans h.root_parent
  case parent_alive =>
    intro q r hr
    rcases hparents hr with ⟨-, rfl⟩ | ⟨hne, hr⟩
    · exact (hkind (Ne.symm hroot)).trans h.root_alive
    · exact (hkind hne).trans (h.parent_alive q r hr)
  case parent_pid =>
    intro q r hr
    rcases hparents hr with ⟨hqp, rfl⟩ | ⟨-, hr⟩
    · refine h.root_pid q (h.ne_free_of_parent hqp) ?_
      rintro rfl
      rw [h.root_parent] at hqp
      cases hqp
    · exact h.parent_pid q r hr
  case exists_parent =>
    intro q hq hne
    have hq' : t.kind q = .alive ∨ t.kind q = .zombie := by
      by_cases hqp : q = p
      · rw [hqp]
        exact Or.inl hp
      · rwa [hkind hqp] at hq
    obtain ⟨r, hr⟩ := h.exists_parent q hq' hne
    by_cases hrp : r = p
    · rw [hrp] at hr
      exact ⟨root, horphan hr⟩
    · exact ⟨r, (hparent (by simp [hr, hrp])).trans hr⟩
  case free =>
    intro q hq
    have hqp : q ≠ p := by
      rintro rfl
      simp [hzombie] at hq
    rw [hkind hqp] at hq
    obtain ⟨hnone, hzero⟩ := h.free q hq
    exact ⟨(hparent (by simp [hnone])).trans hnone, hzero⟩
  case root_pid =>
    intro q hq hne
    exact h.root_pid q (hold hq) hne
  case pid_pos =>
    intro q hq
    exact h.pid_pos q (hold hq)
  case pid_inj =>
    intro q r hq hr heq
    exact h.pid_inj q r (hold hq) (hold hr) heq
  case builder =>
    intro p' n b hb
    obtain ⟨hpp, hnp⟩ := hbuilds hb
    rw [hkind hpp, hkind hnp]
    exact h.builder p' n b hb
  case builder_pid => exact h.builder_pid
  case builder_inj => exact h.builder_inj
  case exists_builder =>
    intro n hn
    have hnp : n ≠ p := by
      rintro rfl
      simp [hzombie] at hn
    rw [hkind hnp] at hn
    exact h.exists_builder n hn
  case child_parent =>
    intro p' n b hb
    have hpar := h.child_parent p' n b hb
    have hne : t.parent n ≠ some p := by
      rw [hpar]
      cases b with
      | false => simp
      | true => simp [(hbuilds hb).1]
    exact (hparent hne).trans hpar

/-- A zombie is nobody's parent. -/
theorem WellFormed.reap (h : t.WellFormed root) (hparent : t.parent q = some p)
    (hq : t.kind q = .zombie) : (t.reap q).WellFormed root := by
  have hroot : root ≠ q := by
    rintro rfl
    simp [h.root_alive] at hq
  have hkind : ∀ {x}, x ≠ q → (t.reap q).kind x = t.kind x := fun hx => Function.update_of_ne hx _ _
  have hpid : ∀ {x}, x ≠ q → (t.reap q).pid x = t.pid x := fun hx => Function.update_of_ne hx _ _
  have hparent' : ∀ {x}, x ≠ q → (t.reap q).parent x = t.parent x := fun hx =>
    Function.update_of_ne hx _ _
  have hfree : (t.reap q).kind q = .free := Function.update_self ..
  have hnone : (t.reap q).parent q = none := Function.update_self ..
  have hold : ∀ {x}, (t.reap q).kind x ≠ .free → x ≠ q ∧ t.kind x ≠ .free := by
    intro x hx
    have hne : x ≠ q := by
      rintro rfl
      exact hx hfree
    exact ⟨hne, by rwa [hkind hne] at hx⟩
  have hparents : ∀ {x r}, (t.reap q).parent x = some r →
      x ≠ q ∧ r ≠ q ∧ t.parent x = some r := by
    intro x r hr
    have hne : x ≠ q := by
      rintro rfl
      rw [hnone] at hr
      cases hr
    rw [hparent' hne] at hr
    refine ⟨hne, ?_, hr⟩
    rintro rfl
    simp [h.parent_alive _ _ hr] at hq
  -- and it sets up no slot, and is not set up
  have hbuilds : ∀ {p' n b}, t.child p' = some (n, b) → p' ≠ q ∧ n ≠ q := by
    refine fun hb => ⟨?_, ?_⟩
    · rintro rfl
      simp [(h.builder _ _ _ hb).1] at hq
    · rintro rfl
      simp [(h.builder _ _ _ hb).2] at hq
  constructor
  case root_alive => exact (hkind hroot).trans h.root_alive
  case root_parent => exact (hparent' hroot).trans h.root_parent
  case parent_alive =>
    intro x r hr
    obtain ⟨-, hrq, hr⟩ := hparents hr
    exact (hkind hrq).trans (h.parent_alive x r hr)
  case parent_pid =>
    intro x r hr
    obtain ⟨hxq, hrq, hr⟩ := hparents hr
    rw [hpid hxq, hpid hrq]
    exact h.parent_pid x r hr
  case exists_parent =>
    intro x hx hne
    have hxq : x ≠ q := by
      rintro rfl
      simp [hfree] at hx
    rw [hkind hxq] at hx
    rw [hparent' hxq]
    exact h.exists_parent x hx hne
  case free =>
    intro x hx
    by_cases hxq : x = q
    · rw [hxq]
      exact ⟨hnone, Function.update_self ..⟩
    · rw [hkind hxq] at hx
      rw [hparent' hxq, hpid hxq]
      exact h.free x hx
  case root_pid =>
    intro x hx hne
    obtain ⟨hxq, hx⟩ := hold hx
    rw [hpid hroot, hpid hxq]
    exact h.root_pid x hx hne
  case pid_pos =>
    intro x hx
    obtain ⟨hxq, hx⟩ := hold hx
    rw [hpid hxq]
    exact h.pid_pos x hx
  case pid_inj =>
    intro x r hx hr heq
    obtain ⟨hxq, hx⟩ := hold hx
    obtain ⟨hrq, hr⟩ := hold hr
    rw [hpid hxq, hpid hrq] at heq
    exact h.pid_inj x r hx hr heq
  case builder =>
    intro p' n b hb
    obtain ⟨hpq, hnq⟩ := hbuilds hb
    rw [hkind hpq, hkind hnq]
    exact h.builder p' n b hb
  case builder_pid =>
    intro p' n b hb
    obtain ⟨hpq, hnq⟩ := hbuilds hb
    rw [hpid hpq, hpid hnq]
    exact h.builder_pid p' n b hb
  case builder_inj => exact h.builder_inj
  case exists_builder =>
    intro n hn
    have hnq : n ≠ q := by
      rintro rfl
      simp [hfree] at hn
    rw [hkind hnq] at hn
    exact h.exists_builder n hn
  case child_parent =>
    intro p' n b hb
    rw [hparent' (hbuilds hb).2]
    exact h.child_parent p' n b hb

/-- The moves keep it. -/
theorem WellFormed.move (h : t.WellFormed root) (hmove : Move root t t') : t'.WellFormed root := by
  cases hmove with
  | stay => exact h
  | allocate hp hchild hnp => exact h.allocate hp hchild hnp
  | abandon hchild => exact h.abandon hchild
  | adopt hchild => exact h.adopt hchild
  | start hchild => exact h.start hchild
  | exit hp hchild hroot => exact h.exit hp hchild hroot
  | reap hparent hq => exact h.reap hparent hq

end Moves

section Descends

variable {root : ι} {t : ProcessTree ι}

/-- The parent of a process, which is alive. -/
def Parent (t : ProcessTree ι) (q r : ι) : Prop := t.parent q = some r ∧ t.kind r = .alive

omit [DecidableEq ι] in
/-- **Every process comes from the root**: from parent to parent, all of them alive, the numbers get
smaller until it is reached. -/
theorem WellFormed.descends (h : t.WellFormed root) {q : ι}
    (hq : t.kind q = .alive ∨ t.kind q = .zombie) : Relation.ReflTransGen t.Parent q root := by
  induction hn : (t.pid q).toNat using Nat.strong_induction_on generalizing q with
  | _ n ih =>
    by_cases hroot : q = root
    · rw [hroot]
    · obtain ⟨r, hr⟩ := h.exists_parent q hq hroot
      have halive := h.parent_alive q r hr
      have hlt := h.parent_pid q r hr
      have hpos := h.pid_pos r (by rw [halive]; decide)
      exact .head ⟨hr, halive⟩ (ih _ (by omega) (Or.inl halive) rfl)

end Descends

end ProcessTree

end SystemProgramming
