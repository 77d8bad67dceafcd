import SystemProgramming.Snake.Game

/-!
# The body of the snake

What is true of the variables of the game at each line of the program. While `move_snake` runs,
they are described by the board on which it was called: `Board.shifted` is that board in the middle
of the loop that moves the segments, `Board.moved` the board on which the tests are made.

## How it goes

`move_snake` shifts the segments from the tail to the head, sets the head, and tests walls, body and
food, in this order, and every one of these is a step. A description by the board before the call
makes each of them a step from a formula to the next. What is true between two calls is that the
segments follow each other at distance one: a path in the grid, of which `Library.LatticePath` knows
when it can meet itself.

## Where the snake may meet itself

The head meets a segment when the path from the head along the body comes back to its first point.
Such a path has an even number of steps, and it has not two of them, as that would be to turn back.
So the head can be found at the segments 4, 6, 8 and so on, and at no others. The slot that a move
has just added is looked at on its own: nothing is stored in it before the next shift, so it does
not belong to the path yet (`Board.Alive`, with `grew`).

## Main definitions

* `Whole` — the first `k` slots hold a snake, the others nothing
* `Board.shifted`, `Board.moved` — the boards that `move_snake` passes through
* `Holds` — the invariant, by the line that comes next

## Main results

* `Ready.whole_moved` — a move that meets neither wall nor snake leads to a snake
* `Ready.even_of_bite` — the head meets even segments only, from the fourth on
* `holds_of_run` — the invariant holds in every run
-/

namespace SystemProgramming

namespace Snake

/-- The first `k` slots of the array hold a snake, and no slot behind has been written. -/
structure Whole (snake : ℕ → Position) (k : ℕ) : Prop where
  five_le : 5 ≤ k
  path : IsPath snake k
  inside : ∀ i < k, Inside (snake i)
  distinct : Set.InjOn snake (Set.Iio k)
  unused : ∀ i, k ≤ i → snake i = ⟨0, 0⟩

/-- The length goes with the score, up to `MAX_LEN`, and there is food on the board. -/
structure Board.Sound (b : Board) : Prop where
  account : b.snakeLength = min maxLen (5 + b.score)
  food : Inside b.food

/-- A game that goes on: the snake is whole but for the slot that it has just been given, and it
looks away from its neck. -/
structure Board.Alive (grew : Bool) (b : Board) (d : Direction) : Prop where
  whole : Whole b.snake (b.snakeLength - grew.toNat)
  heading : b.snake 0 = d.advance (b.snake 1)

/-- `move_snake` is called on the board. -/
structure Ready (b : Board) (d : Direction) : Prop where
  sound : b.Sound
  whole : ∃ k, Whole b.snake k ∧ k ≤ b.snakeLength ∧ b.snakeLength ≤ k + 1
  facing : d.advance (b.snake 0) ≠ b.snake 1

/-! ### Moving -/

/-- The board when the loop of `move_snake` has moved the segments behind the slot `i`. -/
def Board.shifted (b : Board) (i : ℕ) : Board :=
  { b with snake := fun j => if i < j ∧ j < b.snakeLength then b.snake (j - 1) else b.snake j }

/-- The board on which `move_snake` makes its tests. -/
def Board.moved (b : Board) (d : Direction) : Board :=
  (b.shifted 0).setSlot 0 (d.advance (b.snake 0))

theorem Board.snake_shifted_of_lt {b : Board} {i j : ℕ} (hi : i < j) (hj : j < b.snakeLength) :
    (b.shifted i).snake j = b.snake (j - 1) := if_pos ⟨hi, hj⟩

theorem Board.snake_shifted_of_le {b : Board} {i j : ℕ} (h : j ≤ i ∨ b.snakeLength ≤ j) :
    (b.shifted i).snake j = b.snake j := by
  refine if_neg ?_
  omega

theorem Board.shifted_last (b : Board) : b.shifted (b.snakeLength - 1) = b := by
  refine Board.ext ?_ rfl rfl rfl rfl
  funext j
  exact snake_shifted_of_le (by omega)

/-- The loop moves one segment a time, from the last. -/
theorem Board.setSlot_shifted {b : Board} {i : ℕ} (h0 : 0 < i) (hi : i < b.snakeLength) :
    (b.shifted i).setSlot i ((b.shifted i).snake (i - 1)) = b.shifted (i - 1) := by
  refine Board.ext ?_ rfl rfl rfl rfl
  funext j
  rw [snake_shifted_of_le (by omega)]
  by_cases hj : j = i
  · subst hj
    rw [snake_setSlot_self, snake_shifted_of_lt (by omega) hi]
  · rw [snake_setSlot_of_ne _ hj]
    by_cases hmoved : i < j ∧ j < b.snakeLength
    · rw [snake_shifted_of_lt hmoved.1 hmoved.2, snake_shifted_of_lt (by omega) hmoved.2]
    · rw [snake_shifted_of_le (by omega), snake_shifted_of_le (by omega)]

/-- The snake has another head, and its last segment is given up. -/
theorem Board.snake_moved_of_lt {b : Board} {d : Direction} {j : ℕ} (hj : j < b.snakeLength) :
    (b.moved d).snake j = pushFront (d.advance (b.snake 0)) b.snake j := by
  cases j with
  | zero => exact snake_setSlot_self ..
  | succ j =>
    rw [moved, snake_setSlot_of_ne _ (by omega), snake_shifted_of_lt (by omega) hj]
    rfl

theorem Board.snake_moved_of_le {b : Board} {d : Direction} {j : ℕ} (h0 : 0 < j)
    (hj : b.snakeLength ≤ j) : (b.moved d).snake j = b.snake j := by
  rw [moved, snake_setSlot_of_ne _ (by omega), snake_shifted_of_le (Or.inr hj)]

/-! ### Directions -/

theorem dist_advance (d : Direction) (p : Position) : (d.advance p).dist p = 1 := by
  cases d <;> simp [Direction.advance, Point.dist]

/-- The test before a change of direction: a snake that looks away from its neck cannot be turned
onto it. -/
theorem facing_handleInput {s : State} {p q : Position} (h : p = s.dir.advance q) (ch : ℤ) :
    (handleInput s ch).dir.advance p ≠ q := by
  subst h
  obtain ⟨x, y⟩ := q
  have hkeep : s.dir.advance (s.dir.advance ⟨x, y⟩) ≠ ⟨x, y⟩ := by
    cases s.dir <;> simp [Direction.advance] <;> omega
  have hturn : ∀ d e : Direction, (e = .up → d ≠ .down) → (e = .down → d ≠ .up) →
      (e = .left → d ≠ .right) → (e = .right → d ≠ .left) →
      e.advance (d.advance ⟨x, y⟩) ≠ ⟨x, y⟩ := by
    intro d e hup hdown hleft hright
    cases e <;> cases d <;> simp_all [Direction.advance] <;> omega
  rw [handleInput]
  split_ifs with hw hdown hs hup ha hright hd hleft
  · exact hturn _ _ (fun _ => hdown) nofun nofun nofun
  · exact hkeep
  · exact hturn _ _ nofun (fun _ => hup) nofun nofun
  · exact hkeep
  · exact hturn _ _ nofun nofun (fun _ => hright) nofun
  · exact hkeep
  · exact hturn _ _ nofun nofun nofun (fun _ => hleft)
  all_goals exact hkeep

/-- `handle_input` touches the direction and `paused` only. -/
theorem board_handleInput (s : State) (ch : ℤ) : (handleInput s ch).board = s.board := by
  rw [handleInput]
  split_ifs <;> rfl

/-! ### A move -/

section Ready

variable {b : Board} {d : Direction}

theorem Ready.five_le (h : Ready b d) : 5 ≤ b.snakeLength := by
  obtain ⟨k, hk, hle, -⟩ := h.whole
  exact hk.five_le.trans hle

/-- Growth exposes a slot that has never been written, but the next move writes it. -/
theorem Ready.path_moved (h : Ready b d) : IsPath (b.moved d).snake b.snakeLength := by
  obtain ⟨k, hk, hle, hge⟩ := h.whole
  have hfive := h.five_le
  have hold : IsPath b.snake (b.snakeLength - 1) := hk.path.mono (by omega)
  have hnew := hold.pushFront (dist_advance d (b.snake 0))
  rw [Nat.sub_add_cancel (by omega)] at hnew
  exact hnew.congr fun i hi => Board.snake_moved_of_lt hi

/-- **The snake bites itself only behind a loop.** The path from the head back to segment `i` is
closed, and the head does not turn back onto the neck. -/
theorem Ready.even_of_bite (h : Ready b d) {i : ℕ} (h0 : 0 < i) (hi : i < b.snakeLength)
    (heq : (b.moved d).snake 0 = (b.moved d).snake i) : Even i ∧ 4 ≤ i := by
  have heven : Even i := h.path_moved.even_of_eq hi heq.symm
  have hfive := h.five_le
  have htwo : i ≠ 2 := by
    intro htwo
    subst htwo
    rw [Board.snake_moved_of_lt (by omega), Board.snake_moved_of_lt hi] at heq
    exact h.facing heq
  obtain ⟨m, rfl⟩ := heven
  exact ⟨⟨m, rfl⟩, by omega⟩

/-- **A move that meets neither wall nor snake leads to a snake.** -/
theorem Ready.whole_moved (h : Ready b d) (hin : Inside ((b.moved d).snake 0))
    (hfree : ∀ j, 1 ≤ j → j < b.snakeLength → (b.moved d).snake j ≠ (b.moved d).snake 0) :
    Whole (b.moved d).snake b.snakeLength := by
  obtain ⟨k, hk, hle, hge⟩ := h.whole
  have hfive := h.five_le
  have hhead : (b.moved d).snake 0 = d.advance (b.snake 0) := Board.snake_moved_of_lt (by omega)
  have hrest : ∀ i, i + 1 < b.snakeLength → (b.moved d).snake (i + 1) = b.snake i :=
    fun i hi => Board.snake_moved_of_lt hi
  refine ⟨hfive, h.path_moved, ?_, ?_, ?_⟩
  · intro i hi
    cases i with
    | zero => exact hin
    | succ i =>
      rw [hrest i hi]
      exact hk.inside i (by omega)
  · have hold : Set.InjOn b.snake (Set.Iio (b.snakeLength - 1)) :=
      hk.distinct.mono fun i hi => Nat.lt_of_lt_of_le hi (by omega)
    have hnew := injOn_pushFront (p := d.advance (b.snake 0)) hold (fun i hi => by
      have hne := hfree (i + 1) (by omega) (by omega)
      rwa [hrest i (by omega), hhead] at hne)
    rw [Nat.sub_add_cancel (by omega)] at hnew
    exact hnew.congr fun i hi => (Board.snake_moved_of_lt hi).symm
  · intro i hi
    rw [Board.snake_moved_of_le (by omega) hi]
    exact hk.unused i (by omega)

theorem Ready.alive_moved (h : Ready b d) (hin : Inside ((b.moved d).snake 0))
    (hfree : ∀ j, 1 ≤ j → j < b.snakeLength → (b.moved d).snake j ≠ (b.moved d).snake 0) :
    (b.moved d).Alive false d := by
  have hfive := h.five_le
  refine ⟨h.whole_moved hin hfree, ?_⟩
  rw [Board.snake_moved_of_lt (by omega), Board.snake_moved_of_lt (by omega)]
  rfl

/-- A key is handled before the move. -/
theorem Board.Alive.ready {grew : Bool} {s : State} (h : s.board.Alive grew s.dir)
    (hsound : s.board.Sound) (ch : ℤ) : Ready s.board (handleInput s ch).dir := by
  have hfive := h.whole.five_le
  have hgrew := Bool.toNat_le grew
  exact ⟨hsound, ⟨_, h.whole, by omega, by omega⟩, facing_handleInput h.heading ch⟩

end Ready

/-! ### The invariant -/

/-- The board when `init_game` has filled `i` slots. -/
def Board.filled (i : ℕ) : Board :=
  { Board.initial with snake := fun j => if j < i then ⟨width / 2 - j, height / 2⟩ else ⟨0, 0⟩ }

theorem snake_filled (i j : ℕ) : (Board.filled i).snake j =
    if j < i then ⟨width / 2 - j, height / 2⟩ else ⟨0, 0⟩ := rfl

/-- What is true of the variables at each line; `grew` says whether the last move has made the
snake longer. -/
def Holds (grew : Bool) (b : Board) (d : Direction) : Line → Prop
  | .fill i => i ≤ 5 ∧ b = .filled i ∧ d = .right ∧ grew = false
  | .firstFoodX => b = .filled 5 ∧ d = .right ∧ grew = false
  | .firstFoodY => (∃ r, b = (Board.filled 5).setFoodX r) ∧ d = .right ∧ grew = false
  | .loop | .refresh | .ended => b.Sound ∧ (b.gameOver = false → b.Alive grew d)
  | .draw | .sigintTest | .quitKey | .pausedTest | .pauseKey | .input | .terminated =>
    b.Sound ∧ b.gameOver = false ∧ b.Alive grew d
  | .shift i => ∃ b₀, Ready b₀ d ∧ i < b₀.snakeLength ∧ b = b₀.shifted i
  | .turn => ∃ b₀, Ready b₀ d ∧ b = b₀.shifted 0
  | .walls => grew = false ∧ ∃ b₀, Ready b₀ d ∧ b = b₀.moved d
  | .bite i => grew = false ∧ ∃ b₀, Ready b₀ d ∧ b = b₀.moved d ∧ Inside (b.snake 0) ∧ 1 ≤ i ∧
      i ≤ b.snakeLength ∧ ∀ j, 1 ≤ j → j < i → b.snake j ≠ b.snake 0
  | .eat => grew = false ∧ b.Sound ∧ b.Alive grew d
  | .score => Board.Sound { b with score := b.score + 1 } ∧ b.Alive grew d
  | .foodX | .foodY => b.Sound ∧ b.Alive grew d
  | .undefined => True

/-- An event shows whether the last move has made the snake longer. -/
def noteGrowth (grew : Bool) : Event → Bool
  | .moved => false
  | .grew => true
  | _ => grew

/-- The last move has made the snake longer. -/
def lastGrew (es : List Event) : Bool := es.foldl noteGrowth false

/-- The events that `move_snake` may show. -/
def Event.Allowed : Event → Prop
  | .index i => i < maxLen
  | .bitten i => Even i ∧ 4 ≤ i
  | _ => True

theorem zero_lt_maxLen : 0 < maxLen := by decide

theorem Board.Sound.le_maxLen {b : Board} (h : b.Sound) : b.snakeLength ≤ maxLen := by
  rw [h.account]
  exact Nat.min_le_left ..

theorem sound_filled {food : Position} (h : Inside food) :
    Board.Sound { Board.filled 5 with food := food } := ⟨rfl, h⟩

theorem whole_filled : Whole (Board.filled 5).snake 5 := by
  have hslot : ∀ i < 5, (Board.filled 5).snake i = ⟨20 - i, 10⟩ := fun i hi => if_pos hi
  refine ⟨le_rfl, ?_, ?_, ?_, ?_⟩
  · intro i hi
    rw [hslot i (by omega), hslot (i + 1) hi, Point.dist]
    dsimp only
    omega
  · intro i hi
    rw [hslot i hi, Inside, width, height]
    dsimp only
    omega
  · intro i hi j hj hij
    rw [hslot i hi, hslot j hj] at hij
    have hx := congrArg Point.x hij
    simpa using hx
  · intro i hi
    exact if_neg (by omega)

theorem initial_eq_filled : Board.initial = .filled 0 := by
  refine Board.ext ?_ rfl rfl rfl rfl
  funext j
  rw [snake_filled, if_neg (Nat.not_lt_zero j)]
  rfl

theorem setSlot_filled (i : ℕ) :
    (Board.filled i).setSlot i ⟨width / 2 - i, height / 2⟩ = .filled (i + 1) := by
  refine Board.ext ?_ rfl rfl rfl rfl
  funext j
  rw [snake_filled]
  by_cases hj : j = i
  · subst hj
    rw [Board.snake_setSlot_self, if_pos (Nat.lt_succ_self j)]
  · rw [Board.snake_setSlot_of_ne _ hj, snake_filled]
    by_cases hlt : j < i
    · rw [if_pos hlt, if_pos (by omega)]
    · rw [if_neg hlt, if_neg (by omega)]

theorem foodXOf_bounds (r : ℕ) : 0 < foodXOf r ∧ foodXOf r < width - 1 := by
  rw [foodXOf, width]
  omega

theorem foodYOf_bounds (r : ℕ) : 0 < foodYOf r ∧ foodYOf r < height - 1 := by
  rw [foodYOf, height]
  omega

/-! ### One step -/

section Step

variable {grew : Bool} {b : Board} {d : Direction}

theorem holds_over (h : b.Sound) :
    Holds grew { b with gameOver := true } d .refresh := ⟨⟨h.account, h.food⟩, nofun⟩

theorem holds_shift {i : ℕ} (h : Holds grew b d (.shift i)) (hi : 0 < i) :
    Holds grew (b.setSlot i (b.snake (i - 1))) d (.shift (i - 1)) := by
  obtain ⟨b₀, hready, hlt, rfl⟩ := h
  exact ⟨b₀, hready, by omega, Board.setSlot_shifted hi hlt⟩

theorem holds_turn (h : Holds grew b d .turn) :
    Holds false (b.setSlot 0 (d.advance (b.snake 0))) d .walls := by
  obtain ⟨b₀, hready, rfl⟩ := h
  rw [Board.snake_shifted_of_le (Or.inl le_rfl)]
  exact ⟨rfl, b₀, hready, rfl⟩

theorem sound_of_walls (h : Holds grew b d .walls) : b.Sound := by
  obtain ⟨-, b₀, hready, rfl⟩ := h
  exact ⟨hready.sound.account, hready.sound.food⟩

theorem holds_walls (h : Holds grew b d .walls) (hin : Inside (b.snake 0)) :
    Holds grew b d (.bite 1) := by
  obtain ⟨hgrew, b₀, hready, rfl⟩ := h
  have hfive : 5 ≤ (b₀.moved d).snakeLength := hready.five_le
  exact ⟨hgrew, b₀, hready, rfl, hin, le_rfl, by omega, fun j hj hlt => by omega⟩

theorem sound_of_bite {i : ℕ} (h : Holds grew b d (.bite i)) : b.Sound := by
  obtain ⟨-, b₀, hready, rfl, -⟩ := h
  exact ⟨hready.sound.account, hready.sound.food⟩

theorem even_of_bitten {i : ℕ} (h : Holds grew b d (.bite i)) (hi : i < b.snakeLength)
    (heq : b.snake 0 = b.snake i) : Even i ∧ 4 ≤ i := by
  obtain ⟨-, b₀, hready, rfl, -, hone, -⟩ := h
  exact hready.even_of_bite hone hi heq

theorem holds_bite {i : ℕ} (h : Holds grew b d (.bite i)) (hi : i < b.snakeLength)
    (hne : b.snake 0 ≠ b.snake i) : Holds grew b d (.bite (i + 1)) := by
  obtain ⟨hgrew, b₀, hready, heq, hin, hone, -, hfree⟩ := h
  refine ⟨hgrew, b₀, hready, heq, hin, by omega, hi, ?_⟩
  intro j hj hji
  rcases Nat.lt_succ_iff_lt_or_eq.mp hji with hlt | rfl
  · exact hfree j hj hlt
  · exact hne.symm

/-- The tests of `move_snake` have found nothing. -/
theorem holds_eat {i : ℕ} (h : Holds grew b d (.bite i)) (hi : ¬ i < b.snakeLength) :
    Holds grew b d .eat := by
  obtain ⟨rfl, b₀, hready, rfl, hin, -, hle, hfree⟩ := h
  refine ⟨rfl, ⟨hready.sound.account, hready.sound.food⟩, hready.alive_moved hin ?_⟩
  intro j hj hlt
  have hsame : (b₀.moved d).snakeLength = b₀.snakeLength := rfl
  exact hfree j hj (by omega)

/-- The snake is made longer by a slot that has never been written. -/
theorem holds_grow (h : Holds grew b d .eat) (hlt : b.snakeLength < maxLen) :
    Holds true { b with snakeLength := b.snakeLength + 1 } d .score := by
  obtain ⟨rfl, hsound, halive⟩ := h
  have haccount := hsound.account
  refine ⟨⟨?_, hsound.food⟩, ⟨halive.whole, halive.heading⟩⟩
  show b.snakeLength + 1 = min maxLen (5 + (b.score + 1))
  omega

theorem holds_score (h : Holds grew b d .eat) (hge : ¬ b.snakeLength < maxLen) :
    Holds grew b d .score := by
  obtain ⟨rfl, hsound, halive⟩ := h
  have haccount := hsound.account
  refine ⟨⟨?_, hsound.food⟩, halive⟩
  show b.snakeLength = min maxLen (5 + (b.score + 1))
  omega

theorem alive_filled {food : Position} :
    Board.Alive false { Board.filled 5 with food := food } .right :=
  ⟨whole_filled, rfl⟩

theorem holds_random {s s' : State} {r : ℕ} (h : Holds grew s.board s.dir s.line)
    (hstep : s.random r = some s') : Holds grew s'.board s'.dir s'.line := by
  obtain ⟨line, b, d, paused, flag⟩ := s
  have hx := foodXOf_bounds r
  have hy := foodYOf_bounds r
  cases line <;> simp only [State.random, Option.some.injEq, reduceCtorEq] at hstep <;>
    subst hstep
  case firstFoodX =>
    obtain ⟨rfl, rfl, rfl⟩ := h
    exact ⟨⟨r, rfl⟩, rfl, rfl⟩
  case firstFoodY =>
    obtain ⟨⟨r', rfl⟩, rfl, rfl⟩ := h
    have hx' := foodXOf_bounds r'
    exact ⟨sound_filled ⟨hx'.1, hx'.2, hy.1, hy.2⟩, fun _ => alive_filled⟩
  case foodX =>
    obtain ⟨hsound, halive⟩ := h
    exact ⟨⟨hsound.account, hx.1, hx.2, hsound.food.2.2⟩, halive.whole, halive.heading⟩
  case foodY =>
    obtain ⟨hsound, halive⟩ := h
    exact ⟨⟨hsound.account, hsound.food.1, hsound.food.2.1, hy.1, hy.2⟩,
      fun _ => ⟨halive.whole, halive.heading⟩⟩

theorem holds_readKey {s s' : State} {ch : ℤ} (h : Holds grew s.board s.dir s.line)
    (hstep : s.readKey ch = some s') : Holds grew s'.board s'.dir s'.line := by
  obtain ⟨line, b, d, paused, flag⟩ := s
  cases line <;> simp only [State.readKey, Option.some.injEq, reduceCtorEq] at hstep
  case quitKey =>
    split at hstep <;> cases hstep <;> exact h
  case pauseKey =>
    split at hstep <;> cases hstep <;> exact ⟨h.1, fun _ => h.2.2⟩
  case input =>
    subst hstep
    obtain ⟨hsound, -, halive⟩ := h
    have hready := halive.ready (s := ⟨.input, b, d, paused, flag⟩) hsound ch
    have hfive : 5 ≤ b.snakeLength := hready.five_le
    show Holds grew (handleInput _ ch).board (handleInput _ ch).dir (.shift (b.snakeLength - 1))
    rw [board_handleInput]
    exact ⟨b, hready, Nat.sub_lt (by omega) (by omega), b.shifted_last.symm⟩

/-- One statement: the invariant is kept, and the events are allowed. -/
theorem holds_execute {s s' : State} {es : List Event} (h : Holds grew s.board s.dir s.line)
    (hstep : s.execute = some (s', es)) :
    Holds (es.foldl noteGrowth grew) s'.board s'.dir s'.line ∧ ∀ e ∈ es, e.Allowed := by
  obtain ⟨line, b, d, paused, flag⟩ := s
  cases line <;>
    simp only [State.execute, Option.some.injEq, Prod.mk.injEq, reduceCtorEq] at hstep
  case fill i =>
    obtain ⟨hi, rfl, rfl, rfl⟩ := h
    split at hstep
    · obtain ⟨rfl, rfl⟩ := hstep
      rename_i hlt
      exact ⟨⟨hlt, setSlot_filled i, rfl, rfl⟩, nofun⟩
    · obtain ⟨rfl, rfl⟩ := hstep
      rename_i hge
      obtain rfl : i = 5 := le_antisymm hi (not_lt.mp hge)
      exact ⟨⟨rfl, rfl, rfl⟩, nofun⟩
  case loop =>
    split at hstep
    · obtain ⟨rfl, rfl⟩ := hstep
      exact ⟨h, nofun⟩
    · obtain ⟨rfl, rfl⟩ := hstep
      rename_i hover
      have hgoes : b.gameOver = false := by simpa using hover
      exact ⟨⟨h.1, hgoes, h.2 hgoes⟩, nofun⟩
  case draw | refresh =>
    obtain ⟨rfl, rfl⟩ := hstep
    exact ⟨h, nofun⟩
  case sigintTest | pausedTest =>
    split at hstep <;> obtain ⟨rfl, rfl⟩ := hstep <;> exact ⟨h, nofun⟩
  case shift i =>
    have hlt : i < maxLen := by
      obtain ⟨b₀, hready, hlt, -⟩ := h
      exact hlt.trans_le hready.sound.le_maxLen
    split at hstep
    · obtain ⟨rfl, rfl⟩ := hstep
      rename_i hi
      refine ⟨holds_shift h hi, List.forall_mem_cons.mpr ⟨hlt, List.forall_mem_singleton.mpr ?_⟩⟩
      show i - 1 < maxLen
      omega
    · obtain ⟨rfl, rfl⟩ := hstep
      rename_i hi
      obtain rfl : i = 0 := Nat.eq_zero_of_not_pos hi
      obtain ⟨b₀, hready, -, heq⟩ := h
      exact ⟨⟨b₀, hready, heq⟩, nofun⟩
  case turn =>
    obtain ⟨rfl, rfl⟩ := hstep
    exact ⟨holds_turn h, List.forall_mem_cons.mpr ⟨zero_lt_maxLen, by simp [Event.Allowed]⟩⟩
  case walls =>
    have hone : ∀ e ∈ [Event.index 0], e.Allowed := List.forall_mem_singleton.mpr zero_lt_maxLen
    split at hstep
    · obtain ⟨rfl, rfl⟩ := hstep
      rename_i hin
      exact ⟨holds_walls h hin, hone⟩
    · obtain ⟨rfl, rfl⟩ := hstep
      exact ⟨holds_over (sound_of_walls h), hone⟩
  case bite i =>
    have hsound : b.Sound := sound_of_bite h
    have hmax := hsound.le_maxLen
    split at hstep
    · rename_i hi
      have hlt : i < maxLen := by omega
      split at hstep
      · obtain ⟨rfl, rfl⟩ := hstep
        rename_i heq
        exact ⟨holds_over hsound, List.forall_mem_cons.mpr ⟨zero_lt_maxLen,
          List.forall_mem_cons.mpr ⟨hlt, List.forall_mem_singleton.mpr (even_of_bitten h hi heq)⟩⟩⟩
      · obtain ⟨rfl, rfl⟩ := hstep
        rename_i hne
        exact ⟨holds_bite h hi hne, List.forall_mem_cons.mpr ⟨zero_lt_maxLen,
          List.forall_mem_singleton.mpr hlt⟩⟩
    · obtain ⟨rfl, rfl⟩ := hstep
      rename_i hi
      exact ⟨holds_eat h hi, nofun⟩
  case eat =>
    have hone : ∀ e ∈ [Event.index 0], e.Allowed := List.forall_mem_singleton.mpr zero_lt_maxLen
    split at hstep
    · split at hstep
      · obtain ⟨rfl, rfl⟩ := hstep
        rename_i hlt
        exact ⟨holds_grow h hlt, List.forall_mem_cons.mpr ⟨zero_lt_maxLen, by
          simp [Event.Allowed]⟩⟩
      · obtain ⟨rfl, rfl⟩ := hstep
        rename_i hge
        exact ⟨holds_score h hge, hone⟩
    · obtain ⟨rfl, rfl⟩ := hstep
      exact ⟨⟨h.2.1, fun _ => h.2.2⟩, hone⟩
  case score =>
    split at hstep
    · obtain ⟨rfl, rfl⟩ := hstep
      exact ⟨⟨h.1, h.2.whole, h.2.heading⟩, nofun⟩
    · obtain ⟨rfl, rfl⟩ := hstep
      exact ⟨trivial, nofun⟩

/-- **One step.** Signals change nothing that the invariant is about. -/
theorem holds_step {s s' : State} {a : Act} {es : List Event}
    (h : Holds grew s.board s.dir s.line) (hstep : step s a = some (s', es)) :
    Holds (es.foldl noteGrowth grew) s'.board s'.dir s'.line ∧ ∀ e ∈ es, e.Allowed := by
  cases a with
  | next => exact holds_execute h hstep
  | key ch =>
    obtain ⟨s₁, hread, heq⟩ := Option.map_eq_some_iff.mp hstep
    cases heq
    exact ⟨holds_readKey h hread, nofun⟩
  | rand r =>
    obtain ⟨s₁, hread, heq⟩ := Option.map_eq_some_iff.mp hstep
    cases heq
    exact ⟨holds_random h hread, nofun⟩
  | sigint =>
    obtain ⟨-, heq⟩ := Option.ite_none_right_eq_some.mp hstep
    cases heq
    exact ⟨h, nofun⟩
  | sigtstp =>
    obtain ⟨-, heq⟩ := Option.ite_none_right_eq_some.mp hstep
    cases heq
    exact ⟨h, nofun⟩

/-- **Every run.** -/
theorem holds_of_run {as : List Act} {s : State} {es : List Event}
    (h : machine.run as = some (s, es)) :
    Holds (lastGrew es) s.board s.dir s.line ∧ ∀ e ∈ es, e.Allowed := by
  refine Machine.run_invariant
    (I := fun es s => Holds (lastGrew es) s.board s.dir s.line ∧ ∀ e ∈ es, e.Allowed) ?_ ?_ h
  · exact ⟨⟨Nat.zero_le 5, initial_eq_filled, rfl, rfl⟩, nofun⟩
  · intro es s a s' es' hI hstep
    obtain ⟨hholds, hallowed⟩ := holds_step hI.1 hstep
    rw [lastGrew, List.foldl_append]
    exact ⟨hholds, List.forall_mem_append.mpr ⟨hI.2, hallowed⟩⟩

end Step

end Snake

end SystemProgramming
