import SystemProgramming.Snake.Body

/-!
# What is drawn of the snake

The segments that `draw_snake` draws, and where the game ends: results about every run, with any
keys, any random numbers and any signals.

## How it goes

The invariant of `Body` says what the array holds at every line. What is drawn are the first
`length` slots of it. The length grows below `MAX_LEN` only, and the slot that is added is the one
that the tail has just left, or one that has never been used.

## Main results

* `drawn_connected_iff` — the segments are a path on the board unless the last move has made the
  snake longer
* `bitten_even` — the snake bites itself only where it has made a loop
* `accounted` — length, score, food and the slots that are used
-/

namespace SystemProgramming

namespace Snake

variable {as : List Act} {s : State} {es : List Event}

theorem sound_of_settled {grew : Bool} {b : Board} {d : Direction} {line : Line}
    (h : Holds grew b d line) (hline : line.settled = true) :
    b.Sound ∧ (b.gameOver = false → b.Alive grew d) := by
  cases line with
  | loop | refresh | ended => exact h
  | draw | sigintTest | quitKey | pausedTest | pauseKey | input | terminated =>
    exact ⟨h.1, fun _ => h.2.2⟩
  | fill | firstFoodX | firstFoodY | shift | turn | walls | bite | eat | score | foodX | foodY |
    undefined => exact absurd hline Bool.false_ne_true

/-- All segments are strictly inside the walls, each at distance one from the next. -/
structure Board.Connected (b : Board) : Prop where
  inside : ∀ i < b.snakeLength, Inside (b.snake i)
  path : IsPath b.snake b.snakeLength

/-- A slot that has never been written is a corner of the wall. -/
theorem not_inside_corner : ¬ Inside ⟨0, 0⟩ := by decide

/-- A new segment is nowhere on the board. -/
theorem Whole.injOn {f : ℕ → Position} {k n : ℕ} (h : Whole f k) (hn : n ≤ k + 1) :
    Set.InjOn f (Set.Iio n) := by
  have hnew : ∀ m < k, f m ≠ f k := by
    intro m hm heq
    have hin := h.inside m hm
    rw [heq, h.unused k le_rfl] at hin
    exact not_inside_corner hin
  intro i hi j hj hij
  have hi' : i < n := hi
  have hj' : j < n := hj
  rcases Nat.lt_or_ge i k with hik | hik
  · rcases Nat.lt_or_ge j k with hjk | hjk
    · exact h.distinct hik hjk hij
    · obtain rfl : j = k := by omega
      exact absurd hij (hnew i hik)
  · obtain rfl : i = k := by omega
    rcases Nat.lt_or_ge j i with hjk | hjk
    · exact absurd hij.symm (hnew j hjk)
    · omega

theorem Board.Alive.connected_iff_grew {grew : Bool} {b : Board} {d : Direction}
    (h : b.Alive grew d) : b.Connected ↔ grew = false := by
  have hwhole := h.whole
  have hfive := hwhole.five_le
  cases grew with
  | false => exact iff_of_true ⟨hwhole.inside, hwhole.path⟩ rfl
  | true =>
    refine iff_of_false (fun hconnected => ?_) (by decide)
    rw [Bool.toNat_true] at hwhole hfive
    have hlen : b.snakeLength - 1 < b.snakeLength := by omega
    have hlast := hconnected.inside _ hlen
    rw [hwhole.unused _ le_rfl] at hlast
    exact not_inside_corner hlast

/-- **The drawn segments.** Outside `move_snake`, while the game is not over, they are a path
inside the walls exactly when the last move has not made the snake longer. -/
theorem drawn_connected_iff (h : machine.run as = some (s, es)) (hline : s.line.settled = true)
    (halive : s.board.gameOver = false) : s.board.Connected ↔ lastGrew es = false :=
  ((sound_of_settled (holds_of_run h).1 hline).2 halive).connected_iff_grew

/-- `init_game`, with the food next to the head. -/
def started : List Act := List.replicate 6 .next ++ [.rand 20, .rand 9]

/-- One round of the loop without a meal, for a snake of five segments, with this key. -/
def round (ch : ℤ) : List Act :=
  List.replicate 4 .next ++ .key ch :: List.replicate 14 .next

/-- The round in which the food is eaten, up to the drawing of the next. -/
def meal : List Act :=
  List.replicate 4 .next ++ .key (-1) :: List.replicate 14 .next ++ [.rand 0, .rand 0, .next, .next]

/-- After `init_game` the snake is connected. -/
theorem started_connected : ∃ s es, machine.run started = some (s, es) ∧ s.board.Connected := by
  have hrun : (machine.run started).map (fun p => (p.1.line, p.1.board.gameOver, p.2)) =
      some (.loop, false, []) := by decide
  obtain ⟨⟨s, es⟩, hs, heq⟩ := Option.map_eq_some_iff.mp hrun
  obtain ⟨hline, hover, rfl⟩ : s.line = .loop ∧ s.board.gameOver = false ∧ es = [] := by
    simpa using heq
  exact ⟨s, [], hs, (drawn_connected_iff hs (by rw [hline]; rfl) hover).mpr rfl⟩

/-- The first meal: a segment is drawn on the corner of the wall. -/
theorem grown_not_connected : ∃ s es, machine.run (started ++ meal) = some (s, es) ∧
    s.line = .draw ∧ s.board.gameOver = false ∧ ¬ s.board.Connected := by
  have hrun : (machine.run (started ++ meal)).map (fun p =>
      (p.1.line, p.1.board.gameOver, p.1.board.snakeLength, p.1.board.snake 5)) =
        some (.draw, false, 6, ⟨0, 0⟩) := by decide
  obtain ⟨⟨s, es⟩, hs, heq⟩ := Option.map_eq_some_iff.mp hrun
  obtain ⟨hline, hover, hlen, hslot⟩ : s.line = .draw ∧ s.board.gameOver = false ∧
      s.board.snakeLength = 6 ∧ s.board.snake 5 = ⟨0, 0⟩ := by simpa using heq
  refine ⟨s, es, hs, hline, hover, ?_⟩
  intro hconnected
  have hlast := hconnected.inside 5 (by omega)
  rw [hslot] at hlast
  exact not_inside_corner hlast

/-- **Bites.** Whenever the game ends because the head meets segment `i`, the snake from the head to
that segment is a loop: `i` is even, and at least 4. -/
theorem bitten_even (h : machine.run as = some (s, es)) {i : ℕ} (hi : .bitten i ∈ es) :
    Even i ∧ 4 ≤ i := (holds_of_run h).2 _ hi

/-- Up, left and down: the head meets the last of five segments. -/
def biting : List Act :=
  started ++ round (code 'w') ++ round (code 'a') ++ List.replicate 4 .next ++
    .key (code 's') :: List.replicate 11 .next

theorem bitten_even_four : ∃ s es, machine.run biting = some (s, es) ∧ .bitten 4 ∈ es ∧
    Even 4 ∧ 4 ≤ 4 := by
  have hrun : (machine.run biting).map (fun p => decide (.bitten 4 ∈ p.2)) = some true := by
    decide
  obtain ⟨⟨s, es⟩, hs, hbitten⟩ := Option.map_eq_some_iff.mp hrun
  exact ⟨s, es, hs, of_decide_eq_true hbitten, bitten_even hs (of_decide_eq_true hbitten)⟩

/-- **Accounts.** The slots that `move_snake` uses are those of the array. Outside it the length is
`5 + score` up to `MAX_LEN`, and the food is on the board; while the game is not over no two
segments are in one place, and the head is on the board. -/
theorem accounted (h : machine.run as = some (s, es)) :
    (∀ i, .index i ∈ es → i < maxLen) ∧
    (s.line.settled = true →
      s.board.snakeLength = min maxLen (5 + s.board.score) ∧ Inside s.board.food ∧
      (s.board.gameOver = false →
        Set.InjOn s.board.snake (Set.Iio s.board.snakeLength) ∧ Inside (s.board.snake 0))) := by
  obtain ⟨hholds, hallowed⟩ := holds_of_run h
  refine ⟨fun i hi => hallowed _ hi, fun hline => ?_⟩
  obtain ⟨hsound, halive⟩ := sound_of_settled hholds hline
  refine ⟨hsound.account, hsound.food, fun hover => ?_⟩
  have hwhole := (halive hover).whole
  have hfive := hwhole.five_le
  have hgrew := Bool.toNat_le (lastGrew es)
  exact ⟨hwhole.injOn (by omega), hwhole.inside 0 (by omega)⟩

/-- The account after the first meal. -/
theorem accounted_meal : ∃ s es, machine.run (started ++ meal) = some (s, es) ∧
    s.board.snakeLength = 6 ∧ Set.InjOn s.board.snake (Set.Iio s.board.snakeLength) := by
  have hrun : (machine.run (started ++ meal)).map (fun p =>
      (p.1.line, p.1.board.gameOver, p.1.board.snakeLength)) = some (.draw, false, 6) := by decide
  obtain ⟨⟨s, es⟩, hs, heq⟩ := Option.map_eq_some_iff.mp hrun
  obtain ⟨hline, hover, hlen⟩ : s.line = .draw ∧ s.board.gameOver = false ∧
      s.board.snakeLength = 6 := by simpa using heq
  exact ⟨s, es, hs, hlen, (((accounted hs).2 (by rw [hline]; rfl)).2.2 hover).1⟩

end Snake

end SystemProgramming
