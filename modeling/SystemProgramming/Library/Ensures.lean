import SystemProgramming.Library.Machine

/-!
# Total correctness of machines

A machine leaves its choices to a schedule. `Ensures P s` says that no schedule can keep it going
for ever from `s`, and that wherever it stops, `P` holds.

## Why an inductive predicate

`Ensures` is the least predicate that holds where the machine stops with `P`, and where it can go on
and holds behind every step. As it is the least one, there is no infinite run from a state where it
holds; so to prove it is to prove that the machine ends, and that it ends well, at the same time. It
is what a program is asked for that has to come to an end whatever its environment does. A machine
that stops in a state where nothing has been achieved is not excused: `P` has to hold there.

To prove it, follow the program: `next` for a step, with one obligation for each outcome, and an
induction for a loop. Where the program has no structure that the proof could follow, a measure
will do (`ensures_of_wellFounded`). To refute it, it is enough to stay for ever in a set of states,
which need not be left alone by every schedule but by one (`not_ensures_of_forever`).

## Main definitions

* `Machine.Stopped`, `Machine.Ensures` — stopping, and stopping in the right place
* `Machine.Visits` — the states of a run

## Main results

* `Ensures.of_runFrom`, `Ensures.of_stopped`, `Ensures.no_infinite_run` — what it says of runs
* `ensures_of_wellFounded` — the rule for machines that run down
* `not_ensures_of_forever` — the rule for machines that never stop
* `forall_visits_iff_meets` — a property of all states of a run
-/

namespace SystemProgramming

namespace Machine

variable {S A E : Type*} (M : Machine S A E)

/-- No action is possible. -/
def Stopped (s : S) : Prop := ∀ a, M.step s a = none

/-- Every run from the state is finite, and stops in a state with the property. -/
inductive Ensures (P : S → Prop) : S → Prop
  | stopped {s : S} (hstop : M.Stopped s) (hP : P s) : Ensures P s
  | next {s : S} (hcan : ∃ a p, M.step s a = some p)
      (hall : ∀ a s' es, M.step s a = some (s', es) → Ensures P s') : Ensures P s

/-- The states of a run. -/
def Visits (as : List A) (s : S) : Prop :=
  ∃ as₁ as₂ es, as = as₁ ++ as₂ ∧ M.run as₁ = some (s, es)

variable {M} {P Q : S → Prop}

theorem Ensures.mono (hPQ : ∀ s, P s → Q s) {s : S} (h : M.Ensures P s) : M.Ensures Q s := by
  induction h with
  | stopped hstop hP => exact .stopped hstop (hPQ _ hP)
  | next hcan _ ih => exact .next hcan ih

/-- What is ensured is ensured after every run. -/
theorem Ensures.of_runFrom {s : S} (h : M.Ensures P s) {as : List A} {q : S × List E}
    (hrun : M.runFrom s as = some q) : M.Ensures P q.1 := by
  induction as generalizing s q with
  | nil =>
    obtain rfl : (s, []) = q := by simpa using hrun
    exact h
  | cons a as ih =>
    obtain ⟨⟨s₁, es₁⟩, h₁, r, hr, rfl⟩ := runFrom_cons_eq_some.mp hrun
    rcases h with ⟨hstop, -⟩ | ⟨-, hall⟩
    · exact absurd h₁ (by simp [hstop a])
    · have hrest : M.Ensures P r.1 := ih (hall a s₁ es₁ h₁) hr
      exact hrest

/-- Where nothing more is possible, the property holds. -/
theorem Ensures.of_stopped {s : S} (h : M.Ensures P s) (hstop : M.Stopped s) : P s := by
  rcases h with ⟨-, hP⟩ | ⟨⟨a, p, hp⟩, -⟩
  · exact hP
  · exact absurd hp (by simp [hstop a])

/-- **Running down.** If every step decreases a measure, and the property holds wherever the
machine stops, then it is ensured. -/
theorem ensures_of_wellFounded {W : Type*} {r : W → W → Prop} (hwf : WellFounded r) (μ : S → W)
    (hdec : ∀ s a s' es, M.step s a = some (s', es) → r (μ s') (μ s))
    (hstop : ∀ s, M.Stopped s → P s) (s : S) : M.Ensures P s := by
  induction s using (InvImage.wf μ hwf).induction with
  | _ s ih =>
    by_cases hs : M.Stopped s
    · exact .stopped hs (hstop s hs)
    · rw [Stopped, not_forall] at hs
      obtain ⟨a, ha⟩ := hs
      exact .next ⟨a, Option.ne_none_iff_exists'.mp ha⟩ fun a s' es h => ih s' (hdec s a s' es h)

/-- Two properties that exclude each other are not both ensured. -/
theorem Ensures.not_both {s : S} (hP : M.Ensures P s) (hPQ : ∀ s, P s → ¬ Q s) :
    ¬ M.Ensures Q s := by
  induction hP with
  | stopped hstop hP => exact fun hQ => hPQ _ hP (hQ.of_stopped hstop)
  | next hcan _ ih =>
    obtain ⟨a, ⟨s', es⟩, hp⟩ := hcan
    intro hQ
    rcases hQ with ⟨hstop, -⟩ | ⟨-, hall⟩
    · exact absurd hp (by simp [hstop a])
    · exact ih a s' es hp (hall a s' es hp)

/-- **Going on for ever.** From the states of a family there is always a way back into the family:
then nothing is ensured. -/
theorem not_ensures_of_forever {R : S → Prop}
    (hR : ∀ s, R s → ∃ a as q, M.runFrom s (a :: as) = some q ∧ R q.1) {s : S} (hs : R s) :
    ¬ M.Ensures P s := by
  intro h
  have hback : ∃ as q, M.runFrom s as = some q ∧ R q.1 := ⟨[], (s, []), rfl, hs⟩
  clear hs
  induction h with
  | stopped hstop _ =>
    obtain ⟨_ | ⟨a, as⟩, q, hq, hRq⟩ := hback
    · obtain rfl : (_, []) = q := by simpa using hq
      obtain ⟨a, as, r, hr, -⟩ := hR _ hRq
      obtain ⟨p, hp, -⟩ := runFrom_cons_eq_some.mp hr
      exact absurd hp (by simp [hstop a])
    · obtain ⟨p, hp, -⟩ := runFrom_cons_eq_some.mp hq
      exact absurd hp (by simp [hstop a])
  | next _ _ ih =>
    obtain ⟨_ | ⟨a, as⟩, q, hq, hRq⟩ := hback
    · obtain rfl : (_, []) = q := by simpa using hq
      obtain ⟨a, as, r, hr, hRr⟩ := hR _ hRq
      obtain ⟨⟨s₁, es₁⟩, hp, r', hr', rfl⟩ := runFrom_cons_eq_some.mp hr
      exact ih a s₁ es₁ hp ⟨as, r', hr', hRr⟩
    · obtain ⟨⟨s₁, es₁⟩, hp, r', hr', rfl⟩ := runFrom_cons_eq_some.mp hq
      exact ih a s₁ es₁ hp ⟨as, r', hr', hRq⟩

theorem Ensures.no_infinite_run {s : S} (h : M.Ensures P s) :
    ¬ ∃ f : ℕ → S, f 0 = s ∧ ∀ n, ∃ a es, M.step (f n) a = some (f (n + 1), es) := by
  rintro ⟨f, rfl, hf⟩
  refine not_ensures_of_forever (R := fun s => ∃ n, s = f n) ?_ ⟨0, rfl⟩ h
  rintro _ ⟨n, rfl⟩
  obtain ⟨a, es, ha⟩ := hf n
  exact ⟨a, [], (f (n + 1), es), runFrom_cons_eq_some.mpr ⟨_, ha, _, rfl, by simp⟩, n + 1, rfl⟩

/-! ### The states of a run -/

theorem forall_prefix_iff_meetsFrom {G : S → Prop} {I : List E → S → Prop}
    {Q : List E → S → A → Prop}
    (hI : ∀ es s a s' es', I es s → M.step s a = some (s', es') → I (es ++ es') s')
    (hG : ∀ es s a s' es', I es s → G s → M.step s a = some (s', es') → (G s' ↔ Q es s a))
    {as : List A} {s : S} {es : List E} {q : S × List E} (hs : I es s) (hGs : G s)
    (h : M.runFrom s as = some q) :
    (∀ as₁ as₂ r, as = as₁ ++ as₂ → M.runFrom s as₁ = some r → G r.1) ↔ M.MeetsFrom Q es s as := by
  induction as generalizing s es q with
  | nil =>
    refine iff_of_true (fun as₁ as₂ r heq hr => ?_) trivial
    obtain ⟨rfl, -⟩ := List.append_eq_nil_iff.mp heq.symm
    obtain rfl : (s, []) = r := by simpa using hr
    exact hGs
  | cons a as ih =>
    obtain ⟨⟨s₁, es₁⟩, h₁, r, hr, rfl⟩ := runFrom_cons_eq_some.mp h
    have hstep := hG es s a s₁ es₁ hs hGs h₁
    have hone : M.runFrom s [a] = some (s₁, es₁) :=
      runFrom_cons_eq_some.mpr ⟨_, h₁, _, rfl, by simp⟩
    constructor
    · intro hall
      have hG₁ : G s₁ := hall [a] as _ rfl hone
      refine meetsFrom_cons (hstep.mp hG₁) h₁ ((ih (hI es s a s₁ es₁ hs h₁) hG₁ hr).mp ?_)
      intro as₁ as₂ r' heq hr'
      exact hall (a :: as₁) as₂ (r'.1, es₁ ++ r'.2) (by rw [heq, List.cons_append])
        (runFrom_cons_eq_some.mpr ⟨_, h₁, _, hr', rfl⟩)
    · rintro ⟨ha, hrest⟩ as₁ as₂ r' heq hr'
      have hG₁ := hstep.mpr ha
      rcases as₁ with _ | ⟨a', as₁⟩
      · obtain rfl : (s, []) = r' := by simpa using hr'
        exact hGs
      · obtain ⟨rfl, rfl⟩ := List.cons.inj heq
        obtain ⟨p, hp, r'', hr'', rfl⟩ := runFrom_cons_eq_some.mp hr'
        obtain rfl := Option.some.inj (h₁.symm.trans hp)
        exact (ih (hI es s _ s₁ es₁ hs h₁) hG₁ hr).mpr (hrest _ h₁) as₁ as₂ r'' rfl hr''

/-- **A property of all states of a run.** If a step keeps the property exactly when it meets a
condition, all states of a run have the property exactly when all its steps meet the condition. -/
theorem forall_visits_iff_meets {G : S → Prop} {I : List E → S → Prop} {Q : List E → S → A → Prop}
    (hinit : I [] M.init) (hGinit : G M.init)
    (hI : ∀ es s a s' es', I es s → M.step s a = some (s', es') → I (es ++ es') s')
    (hG : ∀ es s a s' es', I es s → G s → M.step s a = some (s', es') → (G s' ↔ Q es s a))
    {as : List A} {s : S} {es : List E} (h : M.run as = some (s, es)) :
    (∀ s', M.Visits as s' → G s') ↔ M.Meets Q as := by
  rw [Meets, ← forall_prefix_iff_meetsFrom hI hG hinit hGinit h]
  constructor
  · exact fun hall as₁ as₂ r heq hr => hall r.1 ⟨as₁, as₂, r.2, heq, hr⟩
  · rintro hall s' ⟨as₁, as₂, es', heq, hr⟩
    exact hall as₁ as₂ (s', es') heq hr

end Machine

end SystemProgramming
