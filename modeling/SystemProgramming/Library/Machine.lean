import Mathlib.Data.List.Basic
import Mathlib.Data.List.Induction

/-!
# Machines driven by a schedule

A concurrent program leaves open which thread moves next and which waiter a signal wakes. A
`Machine` turns every such choice into an *action*: `step` is a partial function of the state and
the action, so a run is a list of actions and can be evaluated. An action that is not possible in
a state is answered with `none`.

A step also emits *events*, the record a specification talks about (what was built, what was
handed to whom). Events are not part of the state, so no ghost field has to be carried through
the definition of a program.

## Why actions

A machine is deterministic, and everything that a program does not decide is in the action: the
schedule, the answers of a kernel, the keys of a user. Statements about all behaviours quantify over
the lists of actions, and a behaviour that is excluded is one whose action has no step.

## Main definitions

* `Machine`, `Machine.runFrom`, `Machine.run` — executing a schedule
* `Machine.Meets` — every step of a schedule meets a condition
* `Machine.Enabled` — some action that is not excluded is possible
* `Recorded` — every event is justified by the events before it

## Main results

* `Machine.run_invariant` — the induction rule: what holds initially and is kept by every step
  holds of every state a run ends in, together with the events emitted on the way
* `Machine.run_invariant_of_meets` — the rule for the runs whose steps meet a condition
-/

namespace SystemProgramming

/-- States `S`, actions `A` chosen by the scheduler, events `E` emitted by the steps. -/
structure Machine (S A E : Type*) where
  /-- The state before the first step. -/
  init : S
  /-- One step, `none` when the action is not possible in the state. -/
  step : S → A → Option (S × List E)

namespace Machine

variable {S A E : Type*} (M : Machine S A E)

/-- Execute a schedule from `s`: the last state and the events emitted, in order. -/
def runFrom (s : S) : List A → Option (S × List E)
  | [] => some (s, [])
  | a :: as =>
    (M.step s a).bind fun p => (runFrom p.1 as).map fun q => (q.1, p.2 ++ q.2)

/-- Execute a schedule from the initial state. -/
def run (as : List A) : Option (S × List E) := M.runFrom M.init as

/-- Every step of the schedule meets `P`, a condition on the events so far, the state before the
step, and the action. -/
def MeetsFrom (P : List E → S → A → Prop) (es : List E) (s : S) : List A → Prop
  | [] => True
  | a :: as => P es s a ∧ ∀ p, M.step s a = some p → MeetsFrom P (es ++ p.2) p.1 as

/-- The same, from the initial state. -/
def Meets (P : List E → S → A → Prop) (as : List A) : Prop := M.MeetsFrom P [] M.init as

/-- An action satisfying `P` is possible in `s`. -/
def Enabled (P : A → Prop) (s : S) : Prop := ∃ a, P a ∧ (M.step s a).isSome

variable {M}

@[simp] theorem runFrom_nil (s : S) : M.runFrom s [] = some (s, []) := rfl

theorem runFrom_cons_eq_some {s : S} {a : A} {as : List A} {q : S × List E} :
    M.runFrom s (a :: as) = some q ↔
      ∃ p, M.step s a = some p ∧ ∃ r, M.runFrom p.1 as = some r ∧ (r.1, p.2 ++ r.2) = q := by
  simp [runFrom, Option.bind_eq_some_iff, Option.map_eq_some_iff]

/-- One run behind another. -/
theorem runFrom_append_eq_some {as₂ : List A} {q : S × List E} : ∀ {as₁ : List A} {s : S},
    M.runFrom s (as₁ ++ as₂) = some q ↔ ∃ q₁, M.runFrom s as₁ = some q₁ ∧
      ∃ q₂, M.runFrom q₁.1 as₂ = some q₂ ∧ (q₂.1, q₁.2 ++ q₂.2) = q
  | [], s => by
    constructor
    · intro h
      exact ⟨(s, []), rfl, q, h, rfl⟩
    · rintro ⟨q₁, h₁, q₂, h₂, rfl⟩
      obtain rfl : (s, []) = q₁ := by simpa using h₁
      exact h₂
  | a :: as₁, s => by
    rw [List.cons_append, runFrom_cons_eq_some]
    constructor
    · rintro ⟨p, hp, r, hr, rfl⟩
      obtain ⟨q₁, h₁, q₂, h₂, rfl⟩ := runFrom_append_eq_some.mp hr
      refine ⟨_, runFrom_cons_eq_some.mpr ⟨p, hp, q₁, h₁, rfl⟩, q₂, h₂, ?_⟩
      rw [List.append_assoc]
    · rintro ⟨q₁, h₁, q₂, h₂, rfl⟩
      obtain ⟨p, hp, r, hr, rfl⟩ := runFrom_cons_eq_some.mp h₁
      refine ⟨p, hp, _, runFrom_append_eq_some.mpr ⟨r, hr, q₂, h₂, rfl⟩, ?_⟩
      rw [List.append_assoc]

/-- The last step of a run. -/
theorem runFrom_concat_eq_some {a : A} : ∀ (as : List A) {s : S} {q : S × List E},
    M.runFrom s (as ++ [a]) = some q ↔
      ∃ p, M.runFrom s as = some p ∧ ∃ r, M.step p.1 a = some r ∧ (r.1, p.2 ++ r.2) = q
  | [], s, q => by
    rw [List.nil_append, runFrom_cons_eq_some]
    constructor
    · rintro ⟨p, hp, r, hr, rfl⟩
      obtain rfl : (p.1, []) = r := by simpa using hr
      exact ⟨(s, []), rfl, p, hp, by simp⟩
    · rintro ⟨p, hp, r, hr, rfl⟩
      obtain rfl : (s, []) = p := by simpa using hp
      exact ⟨r, hr, (r.1, []), rfl, by simp⟩
  | b :: as, s, q => by
    rw [List.cons_append, runFrom_cons_eq_some]
    constructor
    · rintro ⟨p, hp, r, hr, rfl⟩
      obtain ⟨p', hp', r', hr', rfl⟩ := (runFrom_concat_eq_some as).mp hr
      refine ⟨_, runFrom_cons_eq_some.mpr ⟨p, hp, p', hp', rfl⟩, r', hr', ?_⟩
      rw [List.append_assoc]
    · rintro ⟨p', hp', r', hr', rfl⟩
      obtain ⟨p, hp, r, hr, rfl⟩ := runFrom_cons_eq_some.mp hp'
      refine ⟨p, hp, _, (runFrom_concat_eq_some as).mpr ⟨r, hr, r', hr', rfl⟩, ?_⟩
      rw [List.append_assoc]

theorem runFrom_invariant {I : List E → S → Prop}
    (hstep : ∀ es s a s' es', I es s → M.step s a = some (s', es') → I (es ++ es') s') :
    ∀ (as : List A) {s : S} {es : List E} {q : S × List E}, I es s → M.runFrom s as = some q →
      I (es ++ q.2) q.1
  | [], s, es, q, hI, h => by
    obtain rfl : (s, []) = q := by simpa using h
    simpa using hI
  | a :: as, s, es, q, hI, h => by
    obtain ⟨⟨s₁, es₁⟩, h₁, r, hr, rfl⟩ := runFrom_cons_eq_some.mp h
    have hrest := runFrom_invariant hstep as (hstep es s a s₁ es₁ hI h₁) hr
    simpa [List.append_assoc] using hrest

theorem meetsFrom_cons {P : List E → S → A → Prop} {es : List E} {s : S} {a : A} {as : List A}
    {p : S × List E} (ha : P es s a) (hp : M.step s a = some p)
    (h : M.MeetsFrom P (es ++ p.2) p.1 as) : M.MeetsFrom P es s (a :: as) :=
  ⟨ha, fun _ hp' => Option.some.inj (hp.symm.trans hp') ▸ h⟩

theorem meetsFrom_of_forall {P : List E → S → A → Prop} : ∀ {as : List A},
    (∀ a ∈ as, ∀ es s, P es s a) → ∀ es s, M.MeetsFrom P es s as
  | [], _, _, _ => trivial
  | a :: _, h, es, s => ⟨h a List.mem_cons_self es s, fun p _ =>
      meetsFrom_of_forall (fun a' ha' => h a' (List.mem_cons_of_mem _ ha')) (es ++ p.2) p.1⟩

/-- A condition on the actions alone. -/
theorem meets_of_forall {P : List E → S → A → Prop} {as : List A}
    (h : ∀ a ∈ as, ∀ es s, P es s a) : M.Meets P as := meetsFrom_of_forall h [] M.init

instance decidableMeetsFrom {P : List E → S → A → Prop} [∀ es s a, Decidable (P es s a)] :
    ∀ (as : List A) (es : List E) (s : S), Decidable (M.MeetsFrom P es s as)
  | [], _, _ => isTrue trivial
  | a :: as, es, s =>
    match h : M.step s a with
    | none =>
      decidable_of_iff (P es s a) ⟨fun ha => ⟨ha, fun _ hp => nomatch h.symm.trans hp⟩, And.left⟩
    | some p =>
      have : Decidable (M.MeetsFrom P (es ++ p.2) p.1 as) := decidableMeetsFrom as _ _
      decidable_of_iff (P es s a ∧ M.MeetsFrom P (es ++ p.2) p.1 as)
        ⟨fun hP => M.meetsFrom_cons hP.1 h hP.2, fun hP => ⟨hP.1, hP.2 p h⟩⟩

instance {P : List E → S → A → Prop} [∀ es s a, Decidable (P es s a)] (as : List A) :
    Decidable (M.Meets P as) := decidableMeetsFrom as [] M.init

/-- **Induction over runs.** -/
theorem run_invariant {I : List E → S → Prop} (hinit : I [] M.init)
    (hstep : ∀ es s a s' es', I es s → M.step s a = some (s', es') → I (es ++ es') s')
    {as : List A} {s : S} {es : List E} (h : M.run as = some (s, es)) : I es s := by
  have hI := runFrom_invariant hstep as hinit h
  simpa using hI

/-- The rule for what relates the state to the schedule that led there. -/
theorem run_invariant_schedule {I : List A → S → Prop} (hinit : I [] M.init)
    (hstep : ∀ as s es a s' es', M.run as = some (s, es) → I as s → M.step s a = some (s', es') →
      I (as ++ [a]) s')
    {as : List A} : ∀ {s : S} {es : List E}, M.run as = some (s, es) → I as s := by
  induction as using List.reverseRecOn with
  | nil =>
    intro s es h
    obtain ⟨rfl, -⟩ := Prod.mk.inj (Option.some.inj h)
    exact hinit
  | append_singleton as a ih =>
    intro s es h
    obtain ⟨⟨s₁, es₁⟩, hrun, r, hr, heq⟩ := (runFrom_concat_eq_some as).mp h
    obtain ⟨rfl, -⟩ := Prod.mk.inj heq
    exact hstep as s₁ es₁ a r.1 r.2 hrun (ih hrun) hr

/-- The same rule for an invariant of the states alone. -/
theorem run_invariant_state {I : S → Prop} (hinit : I M.init)
    (hstep : ∀ s a s' es', I s → M.step s a = some (s', es') → I s')
    {as : List A} {s : S} {es : List E} (h : M.run as = some (s, es)) : I s :=
  run_invariant (I := fun _ s => I s) hinit (fun _ s a s' es' => hstep s a s' es') h

theorem runFrom_invariant_of_meets {P : List E → S → A → Prop} {I : List E → S → Prop}
    (hstep : ∀ es s a s' es', I es s → P es s a → M.step s a = some (s', es') →
      I (es ++ es') s') :
    ∀ (as : List A) {s : S} {es : List E} {q : S × List E}, I es s → M.MeetsFrom P es s as →
      M.runFrom s as = some q → I (es ++ q.2) q.1
  | [], s, es, q, hI, _, h => by
    obtain rfl : (s, []) = q := by simpa using h
    simpa using hI
  | a :: as, s, es, q, hI, hP, h => by
    obtain ⟨⟨s₁, es₁⟩, h₁, r, hr, rfl⟩ := runFrom_cons_eq_some.mp h
    have hrest := runFrom_invariant_of_meets hstep as (hstep es s a s₁ es₁ hI hP.1 h₁)
      (hP.2 _ h₁) hr
    simpa [List.append_assoc] using hrest

/-- **Induction over the runs whose steps meet a condition.** -/
theorem run_invariant_of_meets {P : List E → S → A → Prop} {I : List E → S → Prop}
    (hinit : I [] M.init)
    (hstep : ∀ es s a s' es', I es s → P es s a → M.step s a = some (s', es') →
      I (es ++ es') s')
    {as : List A} {s : S} {es : List E} (hP : M.Meets P as) (h : M.run as = some (s, es)) :
    I es s := by
  have hI := runFrom_invariant_of_meets hstep as hinit hP h
  simpa using hI

theorem meetsFrom_imp {P Q : List E → S → A → Prop} {I : S → Prop}
    (hstep : ∀ es s a s' es', I s → P es s a → M.step s a = some (s', es') → I s')
    (hPQ : ∀ es s a, I s → P es s a → Q es s a) :
    ∀ {as : List A} {es : List E} {s : S}, I s → M.MeetsFrom P es s as → M.MeetsFrom Q es s as
  | [], _, _, _, _ => trivial
  | a :: _, es, s, hI, hP => ⟨hPQ es s a hI hP.1, fun p hp =>
      meetsFrom_imp hstep hPQ (hstep es s a p.1 p.2 hI hP.1 hp) (hP.2 p hp)⟩

/-- **From condition to condition.** The steps that meet the first keep an invariant, and where it
holds they meet the second. -/
theorem meets_imp {P Q : List E → S → A → Prop} {I : S → Prop} (hinit : I M.init)
    (hstep : ∀ es s a s' es', I s → P es s a → M.step s a = some (s', es') → I s')
    (hPQ : ∀ es s a, I s → P es s a → Q es s a) {as : List A} (h : M.Meets P as) : M.Meets Q as :=
  meetsFrom_imp hstep hPQ hinit h

theorem meetsFrom_append_cons {P : List E → S → A → Prop} {a : A} {as₂ : List A} :
    ∀ {as₁ : List A} {es : List E} {s : S} {q : S × List E},
      M.MeetsFrom P es s (as₁ ++ a :: as₂) → M.runFrom s as₁ = some q → P (es ++ q.2) q.1 a
  | [], es, s, q, hP, h => by
    obtain rfl : (s, []) = q := by simpa using h
    rw [List.append_nil]
    exact hP.1
  | b :: as₁, es, s, q, hP, h => by
    obtain ⟨⟨s₁, es₁⟩, h₁, r, hr, rfl⟩ := runFrom_cons_eq_some.mp h
    have hrest := meetsFrom_append_cons (hP.2 _ h₁) hr
    rwa [List.append_assoc] at hrest

/-- What a step of a schedule meets. -/
theorem meets_append_cons {P : List E → S → A → Prop} {as₁ as₂ : List A} {a : A} {s : S}
    {es : List E} (hP : M.Meets P (as₁ ++ a :: as₂)) (h : M.run as₁ = some (s, es)) : P es s a := by
  have ha := meetsFrom_append_cons hP h
  rwa [List.nil_append] at ha

/-- Two conditions that agree wherever an invariant holds and the action is possible. -/
theorem meetsFrom_congr {P Q : List E → S → A → Prop} {I : S → Prop}
    (hstep : ∀ s a s' es', I s → M.step s a = some (s', es') → I s')
    (hPQ : ∀ es s a, I s → (M.step s a).isSome → (P es s a ↔ Q es s a)) :
    ∀ (as : List A) {s : S} {es : List E} {q : S × List E}, I s → M.runFrom s as = some q →
      (M.MeetsFrom P es s as ↔ M.MeetsFrom Q es s as)
  | [], _, _, _, _, _ => Iff.rfl
  | a :: as, s, es, q, hI, h => by
    obtain ⟨⟨s₁, es₁⟩, h₁, r, hr, -⟩ := runFrom_cons_eq_some.mp h
    refine and_congr (hPQ es s a hI (Option.isSome_of_eq_some h₁)) (forall₂_congr fun p hp => ?_)
    obtain rfl : (s₁, es₁) = p := Option.some.inj (h₁.symm.trans hp)
    exact meetsFrom_congr hstep hPQ as (hstep s a s₁ es₁ hI h₁) hr

/-- The same, from the initial state. -/
theorem meets_congr {P Q : List E → S → A → Prop} {I : S → Prop} (hinit : I M.init)
    (hstep : ∀ s a s' es', I s → M.step s a = some (s', es') → I s')
    (hPQ : ∀ es s a, I s → (M.step s a).isSome → (P es s a ↔ Q es s a))
    {as : List A} {q : S × List E} (h : M.run as = some q) : M.Meets P as ↔ M.Meets Q as :=
  meetsFrom_congr hstep hPQ as hinit h

end Machine

/-! ### Records -/

section Recorded

variable {E : Type*}

/-- Every event of a record satisfies `P`, a condition on the events before it and on the event. -/
def Recorded (P : List E → E → Prop) (es : List E) : Prop :=
  ∀ es₁ e es₂, es = es₁ ++ e :: es₂ → P es₁ e

variable {P : List E → E → Prop}

theorem recorded_nil : Recorded P [] := fun _ _ _ h => absurd h (by simp)

theorem recorded_append_iff {es es' : List E} :
    Recorded P (es ++ es') ↔ Recorded P es ∧ Recorded (fun es₁ e => P (es ++ es₁) e) es' := by
  constructor
  · refine fun h => ⟨fun es₁ e es₂ heq => h es₁ e (es₂ ++ es') ?_, fun es₁ e es₂ heq =>
      h (es ++ es₁) e es₂ ?_⟩
    · rw [heq, List.append_assoc, List.cons_append]
    · rw [heq, List.append_assoc]
  · rintro ⟨h, h'⟩ es₁ e es₂ heq
    rcases List.append_eq_append_iff.mp heq with ⟨ds, rfl, hds⟩ | ⟨ds, rfl, hds⟩
    · exact h' ds e es₂ hds
    · rcases List.cons_eq_append_iff.mp hds with ⟨rfl, hes'⟩ | ⟨ds', rfl, -⟩
      · simpa using h' [] e es₂ hes'
      · exact h es₁ e ds' rfl

theorem recorded_singleton_iff {e : E} : Recorded P [e] ↔ P [] e := by
  refine ⟨fun h => h [] e [] rfl, fun h es₁ e' es₂ heq => ?_⟩
  rcases List.cons_eq_append_iff.mp heq with ⟨rfl, h'⟩ | ⟨ds, -, h'⟩
  · obtain ⟨rfl, -⟩ := List.cons.inj h'
    exact h
  · exact absurd h' (by simp)

/-- A record grows at its end. -/
theorem Recorded.concat {es : List E} {e : E} (h : Recorded P es) (he : P es e) :
    Recorded P (es ++ [e]) := by
  refine recorded_append_iff.mpr ⟨h, recorded_singleton_iff.mpr ?_⟩
  rwa [List.append_nil]

end Recorded

section Judged

variable {S A E : Type*} {M : Machine S A E} {P : List E → E → Prop} {Q : List E → S → A → Prop}
  {I : List E → S → Prop}

theorem Machine.recorded_iff_meetsFrom_of_kept
    (hstep : ∀ es s a s' es', I es s → Q es s a → M.step s a = some (s', es') → I (es ++ es') s')
    (hiff : ∀ es s a s' es', I es s → M.step s a = some (s', es') →
      (Recorded (fun es₁ e => P (es ++ es₁) e) es' ↔ Q es s a)) :
    ∀ (as : List A) {s : S} {es : List E} {q : S × List E}, I es s → M.runFrom s as = some q →
      (Recorded (fun es₁ e => P (es ++ es₁) e) q.2 ↔ M.MeetsFrom Q es s as)
  | [], s, es, q, _, h => by
    obtain rfl : (s, []) = q := by simpa using h
    exact iff_of_true recorded_nil trivial
  | a :: as, s, es, q, hI, h => by
    obtain ⟨⟨s₁, es₁⟩, h₁, r, hr, rfl⟩ := runFrom_cons_eq_some.mp h
    rw [recorded_append_iff, hiff es s a s₁ es₁ hI h₁]
    -- the invariant is needed only behind a step that meets the condition
    by_cases hQ : Q es s a
    · have hrest := recorded_iff_meetsFrom_of_kept hstep hiff as (hstep es s a s₁ es₁ hI hQ h₁) hr
      simp only [List.append_assoc] at hrest
      rw [hrest]
      exact ⟨fun hP => meetsFrom_cons hP.1 h₁ hP.2, fun hP => ⟨hP.1, hP.2 _ h₁⟩⟩
    · exact iff_of_false (fun hP => hQ hP.1) fun hP => hQ hP.1

/-- **When every event of a run is justified.** If each step's events are justified exactly when
the step meets a condition, and such a step keeps the invariant, then the events of a run are
justified exactly when all its steps meet the condition. -/
theorem Machine.recorded_iff_meets_of_kept (hinit : I [] M.init)
    (hstep : ∀ es s a s' es', I es s → Q es s a → M.step s a = some (s', es') → I (es ++ es') s')
    (hiff : ∀ es s a s' es', I es s → M.step s a = some (s', es') →
      (Recorded (fun es₁ e => P (es ++ es₁) e) es' ↔ Q es s a))
    {as : List A} {s : S} {es : List E} (h : M.run as = some (s, es)) :
    Recorded P es ↔ M.Meets Q as :=
  recorded_iff_meetsFrom_of_kept hstep hiff as hinit h

/-- The same for an invariant that every step keeps. -/
theorem Machine.recorded_iff_meets (hinit : I [] M.init)
    (hstep : ∀ es s a s' es', I es s → M.step s a = some (s', es') → I (es ++ es') s')
    (hiff : ∀ es s a s' es', I es s → M.step s a = some (s', es') →
      (Recorded (fun es₁ e => P (es ++ es₁) e) es' ↔ Q es s a))
    {as : List A} {s : S} {es : List E} (h : M.run as = some (s, es)) :
    Recorded P es ↔ M.Meets Q as :=
  recorded_iff_meets_of_kept hinit (fun es s a s' es' hI _ => hstep es s a s' es' hI) hiff h

/-- **When a run stays good.** If nothing follows a state that is not good, and a step from a good
state leads to a good one exactly when it meets a condition, then a run ends in a good state
exactly when all its steps meet the condition. -/
theorem Machine.good_iff_meetsFrom {G : S → Prop}
    (hgood : ∀ es s a s' es', M.step s a = some (s', es') → G s ∧ (G s' ↔ Q es s a)) :
    ∀ (as : List A) {s : S} {es : List E} {q : S × List E}, G s → M.runFrom s as = some q →
      (G q.1 ↔ M.MeetsFrom Q es s as)
  | [], s, es, q, hG, h => by
    obtain rfl : (s, []) = q := by simpa using h
    exact iff_of_true hG trivial
  | a :: as, s, es, q, hG, h => by
    obtain ⟨⟨s₁, es₁⟩, h₁, r, hr, rfl⟩ := runFrom_cons_eq_some.mp h
    obtain ⟨-, hQ⟩ := hgood es s a s₁ es₁ h₁
    by_cases hG₁ : G s₁
    · have hrest : G r.1 ↔ M.MeetsFrom Q (es ++ es₁) s₁ as := good_iff_meetsFrom hgood as hG₁ hr
      exact hrest.trans ⟨fun hm => meetsFrom_cons (hQ.mp hG₁) h₁ hm, fun hm => hm.2 _ h₁⟩
    · rcases as with _ | ⟨a', as⟩
      · obtain rfl : (s₁, []) = r := by simpa using hr
        exact iff_of_false hG₁ fun hm => hG₁ (hQ.mpr hm.1)
      · obtain ⟨⟨s₂, es₂⟩, h₂, -⟩ := runFrom_cons_eq_some.mp hr
        exact absurd (hgood [] s₁ a' s₂ es₂ h₂).1 hG₁

theorem Machine.good_iff_meets {G : S → Prop} (hinit : G M.init)
    (hgood : ∀ es s a s' es', M.step s a = some (s', es') → G s ∧ (G s' ↔ Q es s a))
    {as : List A} {s : S} {es : List E} (h : M.run as = some (s, es)) : G s ↔ M.Meets Q as :=
  good_iff_meetsFrom hgood as hinit h

end Judged

end SystemProgramming
