import SystemProgramming.Library.Ensures
import Mathlib.Algebra.Order.Ring.Int

/-!
# The marker

`lab5-lyjae/move.c`: the marker `@` at `(y, x)`, the keys that move it, and the handler of
`SIGWINCH`, which may run between any two steps of `main` once it is installed. A test and the
change of a coordinate are two steps. `getmaxyx` and the handler find a window of at least three
rows and three columns.

## What is left out

What is drawn is left out; the position of the marker is what the walls are checked against. `getch`
returns any key. The handler may run between the test of a coordinate and its change, which is why
these are two steps; the two coordinates and the size of the window are `int`s that stay small.

## Main definitions

* `Window`, `State`, `machine` — the program
* `Inside` — the marker is inside the walls
* `Keeps` — the condition on a step

## Main results

* `drawn_inside` — in a run whose steps meet the condition the marker is drawn inside the walls
* `inside_iff` — the condition is exact for the states before and after every step
-/

namespace SystemProgramming

namespace Move

/-- What `getmaxyx` finds: the columns and rows of the window. -/
structure Window where
  maxX : ℤ
  maxY : ℤ
  three_le_maxX : 3 ≤ maxX
  three_le_maxY : 3 ≤ maxY

/-- The keys that move the marker. -/
inductive Key
  | w
  | s
  | a
  | d
  deriving DecidableEq, Repr

/-- The step that comes next. -/
inductive Line
  /-- `getmaxyx(stdscr,max_y,max_x);` -/
  | getmaxyx
  /-- `signal(SIGWINCH,handle_resize);` -/
  | signal
  /-- `clear();` to `refresh();` -/
  | draw
  /-- `ch=getch();` -/
  | getch
  /-- The test behind `case`. -/
  | test (key : Key)
  /-- The change behind the test. -/
  | change (key : Key)
  | ended
  deriving DecidableEq, Repr

/-- The variables of the program. -/
structure State where
  line : Line
  x : ℤ
  y : ℤ
  maxX : ℤ
  maxY : ℤ
  deriving DecidableEq

inductive Act
  /-- The next step of `main`. -/
  | next
  /-- `getch` returns. -/
  | key (ch : ℤ)
  /-- The window has been resized, and `handle_resize` runs. -/
  | resize (w : Window)

def handleResize (w : Window) (s : State) : State :=
  { s with
    maxX := w.maxX
    maxY := w.maxY
    x := if s.x ≥ w.maxX - 1 then w.maxX - 2 else s.x
    y := if s.y ≥ w.maxY - 1 then w.maxY - 2 else s.y }

/-- `switch(ch)` -/
def keyOf (ch : ℤ) : Option Key :=
  if ch = 'w'.toNat then some .w
  else if ch = 's'.toNat then some .s
  else if ch = 'a'.toNat then some .a
  else if ch = 'd'.toNat then some .d
  else none

/-- The test that guards the change of a coordinate. -/
def Key.Allowed (s : State) : Key → Prop
  | .w => s.y > 1
  | .s => s.y < s.maxY - 2
  | .a => s.x > 1
  | .d => s.x < s.maxX - 2

instance (s : State) : DecidablePred (Key.Allowed s)
  | .w => inferInstanceAs (Decidable (_ > _))
  | .s => inferInstanceAs (Decidable (_ < _))
  | .a => inferInstanceAs (Decidable (_ > _))
  | .d => inferInstanceAs (Decidable (_ < _))

/-- The change of a coordinate. -/
def Key.move (s : State) : Key → State
  | .w => { s with y := s.y - 1 }
  | .s => { s with y := s.y + 1 }
  | .a => { s with x := s.x - 1 }
  | .d => { s with x := s.x + 1 }

/-- A step of `main`. -/
def execute (w : Window) (s : State) : Option State :=
  match s.line with
  | .getmaxyx => some { s with line := .signal, maxX := w.maxX, maxY := w.maxY }
  | .signal => some { s with line := .draw }
  | .draw => some { s with line := .getch }
  | .test key => if key.Allowed s then some { s with line := .change key }
    else some { s with line := .draw }
  | .change key => some { key.move s with line := .draw }
  | _ => none

/-- `getch` returns `ch`. -/
def readKey (ch : ℤ) (s : State) : Option State :=
  match s.line with
  | .getch =>
    if ch = 'q'.toNat then some { s with line := .ended }
    else match keyOf ch with
      | some key => some { s with line := .test key }
      | none => some { s with line := .draw }
  | _ => none

/-- `handle_resize` is installed, and the program has not ended. -/
def Line.handles : Line → Bool
  | .getmaxyx | .signal | .ended => false
  | _ => true

def step (w : Window) (s : State) : Act → Option (State × List Empty)
  | .next => (execute w s).map fun s' => (s', [])
  | .key ch => (readKey ch s).map fun s' => (s', [])
  | .resize w' => if s.line.handles then some (handleResize w' s, []) else none

/-- The program in a window. -/
def machine (w : Window) : Machine State Act Empty where
  init := ⟨.getmaxyx, 10, 5, 0, 0⟩
  step := step w

/-- The marker is inside the walls. -/
def State.Inside (s : State) : Prop := 1 ≤ s.x ∧ s.x ≤ s.maxX - 2 ∧ 1 ≤ s.y ∧ s.y ≤ s.maxY - 2

instance (s : State) : Decidable s.Inside := inferInstanceAs (Decidable (_ ∧ _ ∧ _ ∧ _))

/-! ### The condition -/

/-- The window that is found at the start has at least 12 columns and 7 rows, and a coordinate is
changed only where the test in front still holds. -/
def Line.Safe (w : Window) (s : State) : Line → Prop
  | .getmaxyx => 12 ≤ w.maxX ∧ 7 ≤ w.maxY
  | .change key => key.Allowed s
  | _ => True

instance (w : Window) (s : State) : DecidablePred (Line.Safe w s)
  | .getmaxyx => inferInstanceAs (Decidable (_ ∧ _))
  | .change key => inferInstanceAs (Decidable (key.Allowed s))
  | .signal | .draw | .getch | .test _ | .ended => isTrue trivial

/-- A step of `main` is safe. -/
def Keeps (w : Window) (_ : List Empty) (s : State) : Act → Prop
  | .next => s.line.Safe w s
  | _ => True

instance (w : Window) (es : List Empty) (s : State) : DecidablePred (Keeps w es s)
  | .next => inferInstanceAs (Decidable (s.line.Safe w s))
  | .key _ | .resize _ => isTrue trivial

variable {w : Window} {s s' : State} {es : List Empty}

theorem inside_handleResize (w : Window) (h : s.Inside) : (handleResize w s).Inside := by
  have hx := w.three_le_maxX
  have hy := w.three_le_maxY
  obtain ⟨hx1, -, hy1, -⟩ := h
  simp only [State.Inside, handleResize]
  split_ifs <;> omega

/-- A change of a coordinate keeps the marker inside the walls if the test still holds, and only
then. -/
theorem inside_move_iff (h : s.Inside) (key : Key) : (key.move s).Inside ↔ key.Allowed s := by
  rw [State.Inside] at h ⊢
  cases key <;> simp only [Key.move, Key.Allowed] <;> omega

/-- Before the window is known the marker is where it starts. -/
def Starts (s : State) : Prop := s.line = .getmaxyx → s.x = 10 ∧ s.y = 5

theorem line_ne_of_step {a : Act} (hstep : step w s a = some (s', es)) : s'.line ≠ .getmaxyx := by
  obtain ⟨line, x, y, maxX, maxY⟩ := s
  cases a with
  | next =>
    obtain ⟨s₁, hs, heq⟩ := Option.map_eq_some_iff.mp hstep
    cases heq
    cases line <;> simp only [execute, Option.some.injEq, reduceCtorEq] at hs <;>
      (try split at hs) <;> cases hs <;> simp
  | key ch =>
    obtain ⟨s₁, hs, heq⟩ := Option.map_eq_some_iff.mp hstep
    cases heq
    cases line <;> simp only [readKey, reduceCtorEq] at hs
    (repeat' split at hs) <;> cases hs <;> simp
  | resize w' =>
    obtain ⟨hhandles, heq⟩ := Option.ite_none_right_eq_some.mp hstep
    cases heq
    intro hline
    rw [show line = .getmaxyx from hline] at hhandles
    exact Bool.false_ne_true hhandles

/-- **One step** keeps the marker inside the walls exactly when it meets the condition. -/
theorem inside_step_iff {a : Act} (hstarts : Starts s) (hin : s.line ≠ .getmaxyx → s.Inside)
    (hstep : step w s a = some (s', es)) : s'.Inside ↔ Keeps w es s a := by
  obtain ⟨line, x, y, maxX, maxY⟩ := s
  cases a with
  | next =>
    obtain ⟨s₁, hs, heq⟩ := Option.map_eq_some_iff.mp hstep
    cases heq
    cases line with
    | getmaxyx =>
      obtain ⟨rfl, rfl⟩ : x = 10 ∧ y = 5 := hstarts rfl
      cases hs
      show 1 ≤ (10 : ℤ) ∧ 10 ≤ w.maxX - 2 ∧ 1 ≤ (5 : ℤ) ∧ 5 ≤ w.maxY - 2 ↔ _
      simp only [Keeps, Line.Safe]
      omega
    | signal | draw =>
      cases hs
      exact iff_of_true (hin (by simp)) trivial
    | test key =>
      simp only [execute] at hs
      split at hs <;> cases hs <;> exact iff_of_true (hin (by simp)) trivial
    | change key =>
      cases hs
      exact inside_move_iff (hin (by simp)) key
    | getch | ended => cases hs
  | key ch =>
    obtain ⟨s₁, hs, heq⟩ := Option.map_eq_some_iff.mp hstep
    cases heq
    cases line <;> simp only [readKey, reduceCtorEq] at hs
    (repeat' split at hs) <;> cases hs <;> exact iff_of_true (hin (by simp)) trivial
  | resize w' =>
    obtain ⟨hhandles, heq⟩ := Option.ite_none_right_eq_some.mp hstep
    cases heq
    refine iff_of_true (inside_handleResize w' (hin ?_)) trivial
    rintro rfl
    exact Bool.false_ne_true hhandles

/-- **All states of a run.** Once the window is known, the marker is inside the walls in every state
of a run exactly when every step meets the condition. -/
theorem inside_iff {as : List Act} (h : (machine w).run as = some (s, es)) :
    (∀ s', (machine w).Visits as s' → s'.line ≠ .getmaxyx → s'.Inside) ↔
      (machine w).Meets (Keeps w) as := by
  refine Machine.forall_visits_iff_meets (G := fun s => s.line ≠ .getmaxyx → s.Inside)
    (I := fun _ s => Starts s) ?_ ?_ ?_ ?_ h
  · intro _
    exact ⟨rfl, rfl⟩
  · intro hline
    exact absurd rfl hline
  · intro _ s a s' es' _ hstep hline
    exact absurd hline (line_ne_of_step hstep)
  · intro _ s a s' es' hstarts hin hstep
    have hiff := inside_step_iff hstarts hin hstep
    exact ⟨fun hin' => hiff.mp (hin' (line_ne_of_step hstep)), fun hkeeps _ => hiff.mpr hkeeps⟩

/-- **The marker is drawn inside the walls** in every run whose steps meet the condition. -/
theorem drawn_inside {as : List Act} (h : (machine w).run as = some (s, es))
    (hmeets : (machine w).Meets (Keeps w) as) (hline : s.line = .draw) : s.Inside :=
  (inside_iff h).mpr hmeets s ⟨as, [], es, by simp, h⟩ (by simp [hline])

/-- The usual window. -/
def terminal : Window := ⟨80, 24, by decide, by decide⟩

/-- Down and right, with the window made smaller in between. -/
def downAndRight : List Act :=
  [.next, .next, .next, .key 's'.toNat, .next, .next, .resize ⟨12, 7, by decide, by decide⟩, .next,
    .key 'd'.toNat, .next]

theorem drawn_inside_small :
    (machine terminal).run downAndRight = some (⟨.draw, 10, 5, 12, 7⟩, []) ∧
      State.Inside ⟨.draw, 10, 5, 12, 7⟩ := by
  have hrun : (machine terminal).run downAndRight = some (⟨.draw, 10, 5, 12, 7⟩, []) := by decide
  exact ⟨hrun, drawn_inside hrun (by decide) rfl⟩

/-- A window of three rows and columns: the marker is drawn outside. -/
theorem drawn_outside : ∃ s, (machine ⟨3, 3, by decide, by decide⟩).run [.next, .next] =
    some (s, []) ∧ s.line = .draw ∧ ¬ s.Inside := ⟨_, rfl, rfl, by decide⟩

/-- The window becomes lower between the test and the change: the marker is drawn on the wall. -/
example : ∃ s, (machine terminal).run [.next, .next, .next, .key 's'.toNat, .next,
    .resize ⟨80, 7, by decide, by decide⟩, .next] = some (s, []) ∧ s.line = .draw ∧ ¬ s.Inside :=
  ⟨_, rfl, rfl, by decide⟩

end Move

end SystemProgramming
