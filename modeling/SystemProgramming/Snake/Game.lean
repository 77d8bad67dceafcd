import Mathlib.Logic.Function.Basic
import SystemProgramming.Library.LatticePath
import SystemProgramming.Library.Machine

/-!
# The snake game

`lab5-lyjae/snake.c`, statement by statement: `init_game`, the loop of `main` with its two prompts,
`handle_input` and `move_snake`. The actions are what the program does not decide: the key that
`getch` returns (any `int`, `ERR` included), the number that `rand` returns, and the two signals,
whose handlers may run between any two statements.

The array `snake` is a function on `ℕ`, its slots those below `MAX_LEN`; that no other is used is a
theorem about the events. A test and the assignment that it guards are one step: what the handlers
change is not tested in `move_snake`. Adding to a `score` of `INT_MAX` has no meaning.

## What is left out

What is drawn has no part in the game, but `draw_snake` reads the array and is there for its
indices. `usleep` and the terminal are left out. The two handlers assign one variable each, and an
assignment is one step. `rand` returns any number, so that food may be put anywhere in the field,
also on the snake.

## Main definitions

* `Board`, `State` — the variables of the game
* `Line` — the statement that comes next
* `handleInput`, `execute`, `machine` — the program
* `Line.settled` — the lines outside `init_game` and `move_snake`
-/

namespace SystemProgramming

namespace Snake

def width : ℤ := 40

def height : ℤ := 20

def maxLen : ℕ := 300

def intMax : ℕ := 2147483647

abbrev Position := Point

inductive Direction
  | up
  | down
  | left
  | right
  deriving DecidableEq, Repr

/-- The variables of the game that are not about the keyboard. -/
@[ext]
structure Board where
  snake : ℕ → Position
  snakeLength : ℕ
  food : Position
  gameOver : Bool
  score : ℕ

/-- The statement that comes next. -/
inductive Line
  /-- `snake[i].x = WIDTH / 2 - i; snake[i].y = HEIGHT / 2;` -/
  | fill (i : ℕ)
  | firstFoodX
  | firstFoodY
  /-- `while(!game_over)` -/
  | loop
  /-- `clear();` to `draw_status();` -/
  | draw
  /-- `if(sigint_flag)` -/
  | sigintTest
  /-- `getch` behind the question whether to quit. -/
  | quitKey
  /-- `if(paused)` -/
  | pausedTest
  /-- `getch` on the pause screen. -/
  | pauseKey
  /-- `handle_input();` -/
  | input
  /-- `snake[i] = snake[i-1];` -/
  | shift (i : ℕ)
  /-- `switch(dir)` -/
  | turn
  /-- The test for the walls. -/
  | walls
  /-- The test for segment `i`. -/
  | bite (i : ℕ)
  /-- The test for the food, and the length. -/
  | eat
  /-- `score++;` -/
  | score
  | foodX
  | foodY
  /-- `refresh(); usleep(100000);` -/
  | refresh
  /-- `end_game()` -/
  | ended
  /-- `exit(0)` -/
  | terminated
  /-- The source does something that has no defined behaviour. -/
  | undefined
  deriving DecidableEq, Repr

structure State where
  line : Line
  board : Board
  dir : Direction
  paused : Bool
  sigintFlag : Bool

inductive Act
  /-- The next statement is executed. -/
  | next
  /-- `getch` returns. -/
  | key (ch : ℤ)
  /-- `rand` returns. -/
  | rand (r : ℕ)
  | sigint
  | sigtstp
  deriving DecidableEq, Repr

inductive Event
  /-- `move_snake` uses the slot `i`. -/
  | index (i : ℕ)
  /-- The head has been moved. -/
  | moved
  /-- The snake has been made longer. -/
  | grew
  /-- The game ends because the head meets segment `i`. -/
  | bitten (i : ℕ)
  deriving DecidableEq, Repr

/-- The code of a character. -/
def code (c : Char) : ℤ := c.toNat

/-- The arms of `switch(dir)`. -/
def Direction.advance : Direction → Position → Position
  | .up, p => { p with y := p.y - 1 }
  | .down, p => { p with y := p.y + 1 }
  | .left, p => { p with x := p.x - 1 }
  | .right, p => { p with x := p.x + 1 }

/-- A position strictly inside the walls, as the test of `move_snake` has it. -/
def Inside (p : Position) : Prop := 0 < p.x ∧ p.x < width - 1 ∧ 0 < p.y ∧ p.y < height - 1

instance (p : Position) : Decidable (Inside p) := inferInstanceAs (Decidable (_ ∧ _))

/-- Assigning to a slot of the array. -/
def Board.setSlot (b : Board) (i : ℕ) (p : Position) : Board :=
  { b with snake := Function.update b.snake i p }

@[simp] theorem Board.snake_setSlot_self (b : Board) (i : ℕ) (p : Position) :
    (b.setSlot i p).snake i = p := Function.update_self ..

theorem Board.snake_setSlot_of_ne (b : Board) {i j : ℕ} (hj : j ≠ i) (p : Position) :
    (b.setSlot i p).snake j = b.snake j := Function.update_of_ne hj ..

/-- `handle_input` when `getch` returns `ch`. -/
def handleInput (s : State) (ch : ℤ) : State :=
  if ch = code 'w' then
    if s.dir ≠ .down then { s with dir := .up } else s
  else if ch = code 's' then
    if s.dir ≠ .up then { s with dir := .down } else s
  else if ch = code 'a' then
    if s.dir ≠ .right then { s with dir := .left } else s
  else if ch = code 'd' then
    if s.dir ≠ .left then { s with dir := .right } else s
  else if ch = code 'p' ∨ ch = code 'P' then
    { s with paused := !s.paused }
  else s

def State.readKey (s : State) (ch : ℤ) : Option State :=
  match s.line with
  | .quitKey =>
    if ch = code 'y' ∨ ch = code 'Y' then some { s with line := .terminated }
    else some { s with line := .pausedTest, sigintFlag := false }
  | .pauseKey =>
    if ch = code 'p' ∨ ch = code 'P' then some { s with line := .loop, paused := !s.paused }
    else some { s with line := .loop }
  | .input => some { handleInput s ch with line := .shift (s.board.snakeLength - 1) }
  | _ => none

/-- `rand() % (WIDTH - 2) + 1` -/
def foodXOf (r : ℕ) : ℤ := r % (width - 2) + 1

/-- `rand() % (HEIGHT - 2) + 1` -/
def foodYOf (r : ℕ) : ℤ := r % (height - 2) + 1

def Board.setFoodX (b : Board) (r : ℕ) : Board := { b with food := { b.food with x := foodXOf r } }

def Board.setFoodY (b : Board) (r : ℕ) : Board := { b with food := { b.food with y := foodYOf r } }

/-- `rand` is called. -/
def State.random (s : State) (r : ℕ) : Option State :=
  match s.line with
  | .firstFoodX => some { s with line := .firstFoodY, board := s.board.setFoodX r }
  | .firstFoodY => some { s with line := .loop, board := s.board.setFoodY r }
  | .foodX => some { s with line := .foodY, board := s.board.setFoodX r }
  | .foodY => some { s with line := .refresh, board := s.board.setFoodY r }
  | _ => none

/-- A statement that reads no key and no random number. -/
def State.execute (s : State) : Option (State × List Event) :=
  let b := s.board
  match s.line with
  | .fill i =>
    if i < b.snakeLength then
      some ({ s with line := .fill (i + 1), board := b.setSlot i ⟨width / 2 - i, height / 2⟩ }, [])
    else some ({ s with line := .firstFoodX }, [])
  | .loop =>
    if b.gameOver then some ({ s with line := .ended }, []) else some ({ s with line := .draw }, [])
  | .draw => some ({ s with line := .sigintTest }, [])
  | .sigintTest =>
    if s.sigintFlag then some ({ s with line := .quitKey }, [])
    else some ({ s with line := .pausedTest }, [])
  | .pausedTest =>
    if s.paused then some ({ s with line := .pauseKey }, [])
    else some ({ s with line := .input }, [])
  | .shift i =>
    if 0 < i then
      some ({ s with line := .shift (i - 1), board := b.setSlot i (b.snake (i - 1)) },
        [.index i, .index (i - 1)])
    else some ({ s with line := .turn }, [])
  | .turn =>
    some ({ s with line := .walls, board := b.setSlot 0 (s.dir.advance (b.snake 0)) },
      [.index 0, .moved])
  | .walls =>
    if Inside (b.snake 0) then some ({ s with line := .bite 1 }, [.index 0])
    else some ({ s with line := .refresh, board := { b with gameOver := true } }, [.index 0])
  | .bite i =>
    if i < b.snakeLength then
      if b.snake 0 = b.snake i then
        some ({ s with line := .refresh, board := { b with gameOver := true } },
          [.index 0, .index i, .bitten i])
      else some ({ s with line := .bite (i + 1) }, [.index 0, .index i])
    else some ({ s with line := .eat }, [])
  | .eat =>
    if b.snake 0 = b.food then
      if b.snakeLength < maxLen then
        some ({ s with line := .score, board := { b with snakeLength := b.snakeLength + 1 } },
          [.index 0, .grew])
      else some ({ s with line := .score }, [.index 0])
    else some ({ s with line := .refresh }, [.index 0])
  | .score =>
    if b.score < intMax then
      some ({ s with line := .foodX, board := { b with score := b.score + 1 } }, [])
    else some ({ s with line := .undefined }, [])
  | .refresh => some ({ s with line := .loop }, [])
  | _ => none

/-- The process still runs. -/
def Line.running : Line → Bool
  | .ended | .terminated | .undefined => false
  | _ => true

def step (s : State) : Act → Option (State × List Event)
  | .next => s.execute
  | .key ch => (s.readKey ch).map fun s' => (s', [])
  | .rand r => (s.random r).map fun s' => (s', [])
  | .sigint => if s.line.running then some ({ s with sigintFlag := true }, []) else none
  | .sigtstp => if s.line.running then some ({ s with paused := !s.paused }, []) else none

/-- The variables before `init_game`. -/
def Board.initial : Board where
  snake := fun _ => ⟨0, 0⟩
  snakeLength := 5
  food := ⟨0, 0⟩
  gameOver := false
  score := 0

/-- The program. -/
def machine : Machine State Act Event where
  init := ⟨.fill 0, .initial, .right, false, false⟩
  step := step

/-- The lines outside `init_game` and `move_snake`. -/
def Line.settled : Line → Bool
  | .loop | .draw | .sigintTest | .quitKey | .pausedTest | .pauseKey | .input | .refresh => true
  | .ended | .terminated => true
  | _ => false

end Snake

end SystemProgramming
