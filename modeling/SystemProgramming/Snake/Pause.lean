import SystemProgramming.Snake.Segments

/-!
# The pause

`paused` is toggled by `handle_input`, by the pause screen and by the handler of `SIGTSTP`, and it
is tested once a round, before `handle_input` and `move_snake`. A toggle behind the test takes
effect in the next round only: the snake moves once more.

## How it goes

Between two rounds the board does not change, and during a round `paused` is not tested. So what has
to be shown is that the lines of a round are reached with `paused` cleared, and only through the
test at its beginning. The three toggles are the only assignments; a toggle behind the test is the
one case in which a line of the round is reached with `paused` set.

## Main results

* `frozen_of_quiet` — where no toggle falls behind the test, the game stands still while `paused`
* `turn_not_frozen`, `pressed_not_frozen` — otherwise it moves on
-/

namespace SystemProgramming

namespace Snake

/-- While `paused` is 1, a step leaves the snake, its length, the food, the score and `game_over` as
they are. -/
def Frozen (_ : List Event) (s : State) (a : Act) : Prop :=
  s.paused = true → ∀ s' es, step s a = some (s', es) → s'.board = s.board

/-- The lines of `init_game`, and those from the test of `paused` to the end of `move_snake`. -/
def Line.busy : Line → Bool
  | .fill _ | .firstFoodX | .firstFoodY | .input | .shift _ | .turn | .walls | .bite _ => true
  | .eat | .score | .foodX | .foodY => true
  | _ => false

/-- The action toggles `paused`. -/
def Toggles (s : State) : Act → Prop
  | .sigtstp => True
  | .key ch => (s.line = .input ∨ s.line = .pauseKey) ∧ (ch = code 'p' ∨ ch = code 'P')
  | _ => False

instance (s : State) : DecidablePred (Toggles s)
  | .sigtstp => isTrue trivial
  | .key _ => inferInstanceAs (Decidable ((s.line = .input ∨ s.line = .pauseKey) ∧ _))
  | .next | .rand _ | .sigint => isFalse not_false

/-- `paused` is not toggled in `init_game`, nor behind its test. -/
def Quiet (_ : List Event) (s : State) (a : Act) : Prop := s.line.busy = true → ¬ Toggles s a

instance (es : List Event) (s : State) (a : Act) : Decidable (Quiet es s a) :=
  inferInstanceAs (Decidable (_ → _))

/-- A step can only come to a busy line from a busy line or, with `paused` 0, from the test; and
only a busy line changes the board. -/
structure Passes (s s' : State) : Prop where
  busy : s'.line.busy = true → s.line.busy = true ∨ s'.paused = false
  board : s.line.busy = false → s'.board = s.board

theorem passes_execute {s s' : State} {es : List Event} (hstep : s.execute = some (s', es)) :
    Passes s s' ∧ s'.paused = s.paused := by
  obtain ⟨line, b, d, paused, flag⟩ := s
  cases line <;>
    simp only [State.execute, Option.some.injEq, Prod.mk.injEq, reduceCtorEq] at hstep <;>
    (try split_ifs at hstep) <;> obtain ⟨rfl, rfl⟩ := hstep <;> refine ⟨⟨?_, ?_⟩, rfl⟩ <;>
    simp_all [Line.busy]

theorem Passes.of_busy {s s' : State} (h : s.line.busy = true) : Passes s s' :=
  ⟨fun _ => Or.inl h, fun hidle => absurd (h.symm.trans hidle) (by simp)⟩

theorem Passes.of_idle {s s' : State} (h : s'.line.busy = false) (hboard : s'.board = s.board) :
    Passes s s' :=
  ⟨fun hbusy => absurd (hbusy.symm.trans h) (by simp), fun _ => hboard⟩

theorem passes_random {s s' : State} {r : ℕ} (hstep : s.random r = some s') :
    Passes s s' ∧ s'.paused = s.paused := by
  obtain ⟨line, b, d, paused, flag⟩ := s
  cases line <;> simp only [State.random, Option.some.injEq, reduceCtorEq] at hstep <;>
    subst hstep <;> exact ⟨.of_busy rfl, rfl⟩

theorem paused_handleInput {s : State} {ch : ℤ} (h : ¬ (ch = code 'p' ∨ ch = code 'P')) :
    (handleInput s ch).paused = s.paused := by
  rw [handleInput]
  split_ifs <;> rfl

theorem passes_readKey {s s' : State} {ch : ℤ} (hstep : s.readKey ch = some s') :
    Passes s s' ∧ (s.line.busy = true → ¬ Toggles s (.key ch) → s'.paused = s.paused) := by
  obtain ⟨line, b, d, paused, flag⟩ := s
  cases line <;> simp only [State.readKey, Option.some.injEq, reduceCtorEq] at hstep
  case quitKey | pauseKey =>
    split at hstep <;> cases hstep <;> exact ⟨.of_idle rfl rfl, by simp [Line.busy]⟩
  case input =>
    subst hstep
    refine ⟨.of_busy rfl, fun _ hquiet => ?_⟩
    exact paused_handleInput fun hp => hquiet ⟨Or.inl rfl, hp⟩

/-- One step of the program or of a handler. -/
theorem passes_step {s s' : State} {a : Act} {es : List Event} (hstep : step s a = some (s', es)) :
    Passes s s' ∧ (s.line.busy = true → ¬ Toggles s a → s'.paused = s.paused) := by
  cases a with
  | next =>
    obtain ⟨hpasses, hpaused⟩ := passes_execute hstep
    exact ⟨hpasses, fun _ _ => hpaused⟩
  | key ch =>
    obtain ⟨s₁, hread, heq⟩ := Option.map_eq_some_iff.mp hstep
    cases heq
    exact passes_readKey hread
  | rand r =>
    obtain ⟨s₁, hread, heq⟩ := Option.map_eq_some_iff.mp hstep
    cases heq
    obtain ⟨hpasses, hpaused⟩ := passes_random hread
    exact ⟨hpasses, fun _ _ => hpaused⟩
  | sigint =>
    obtain ⟨-, heq⟩ := Option.ite_none_right_eq_some.mp hstep
    cases heq
    exact ⟨⟨Or.inl, fun _ => rfl⟩, fun _ _ => rfl⟩
  | sigtstp =>
    obtain ⟨-, heq⟩ := Option.ite_none_right_eq_some.mp hstep
    cases heq
    exact ⟨⟨Or.inl, fun _ => rfl⟩, fun _ hquiet => absurd trivial hquiet⟩

/-- **The pause freezes the game** in every run in which `paused` is toggled neither in `init_game`
nor between its test and the end of `move_snake`. -/
theorem frozen_of_quiet {as : List Act} (h : machine.Meets Quiet as) : machine.Meets Frozen as := by
  -- between the test and the end of `move_snake` the game is not paused
  refine Machine.meets_imp (I := fun s => s.line.busy = true → s.paused = false) ?_ ?_ ?_ h
  · intro _
    rfl
  · intro _ s a s' es' hI hquiet hstep hbusy
    obtain ⟨hpasses, hpaused⟩ := passes_step hstep
    rcases hpasses.busy hbusy with hbusy' | hgoes
    · rw [hpaused hbusy' (hquiet hbusy')]
      exact hI hbusy'
    · exact hgoes
  · intro _ s a hI _ hp s' es' hstep
    refine (passes_step hstep).1.board ?_
    by_contra hbusy
    rw [hI (by simpa using hbusy)] at hp
    exact Bool.false_ne_true hp

theorem advance_ne (d : Direction) (p : Position) : d.advance p ≠ p := by
  intro heq
  have hdist := dist_advance d p
  rw [heq, Point.dist] at hdist
  omega

/-- A snake that is moved while `paused` is not frozen. -/
theorem turn_not_frozen {es : List Event} {s : State} (hline : s.line = .turn)
    (hpaused : s.paused = true) : ¬ Frozen es s .next := by
  intro hfrozen
  let b := s.board.setSlot 0 (s.dir.advance (s.board.snake 0))
  have hstep : step s .next = some ({ s with line := .walls, board := b },
      [.index 0, .moved]) := by
    rw [step, State.execute, hline]
  have hhead := congrArg (fun b => b.snake 0) (hfrozen hpaused _ _ hstep)
  rw [show b.snake 0 = _ from Board.snake_setSlot_self ..] at hhead
  exact advance_ne _ _ hhead

/-- `p` is pressed: the snake moves once more. -/
def pressed : List Act :=
  started ++ List.replicate 4 .next ++ .key (code 'p') :: List.replicate 5 .next

theorem pressed_not_frozen : ¬ machine.Meets Frozen (pressed ++ [.next]) := by
  intro hfrozen
  have hrun : (machine.run pressed).map (fun p => (p.1.line, p.1.paused)) =
      some (.turn, true) := by decide
  obtain ⟨⟨s, es⟩, hs, heq⟩ := Option.map_eq_some_iff.mp hrun
  obtain ⟨hline, hpaused⟩ : s.line = .turn ∧ s.paused = true := by simpa using heq
  exact turn_not_frozen hline hpaused (Machine.meets_append_cons hfrozen hs)

/-- Ctrl+Z in front of the test, and `p` on the pause screen. -/
theorem frozen_of_quiet_screen :
    (∃ s es, machine.run (started ++ [.next, .sigtstp, .next, .next, .next, .key (code 'p')]) =
      some (s, es) ∧ s.paused = false) ∧
    machine.Meets Frozen
      (started ++ [.next, .sigtstp, .next, .next, .next, .key (code 'p')]) := by
  have hrun : (machine.run (started ++ [.next, .sigtstp, .next, .next, .next,
      .key (code 'p')])).map (fun q => q.1.paused) = some false := by decide
  obtain ⟨⟨s, es⟩, hs, hpaused⟩ := Option.map_eq_some_iff.mp hrun
  exact ⟨⟨s, es, hs, hpaused⟩, frozen_of_quiet (by decide)⟩

end Snake

end SystemProgramming
