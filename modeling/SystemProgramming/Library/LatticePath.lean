import Mathlib.Algebra.Group.Int.Even
import Mathlib.Algebra.Order.Ring.Int
import Mathlib.Data.Set.Function
import Mathlib.Order.Interval.Set.Defs

/-!
# Lattice paths

Points of the plane with integer coordinates, and paths that go from a point to one at distance
one. A path is a function on `ℕ` together with the number of its points, so that it can be part of
a longer memory.

## Parity

Every step changes the parity of `x + y`, so after `i` steps it has changed as often as `i` says,
and where the path is back at its first point, `i` is even. That is all there is to the proof, and
the reason why a body that moves one cell at a time cannot run into itself at some of its places.

## Main results

* `IsPath.even_of_eq` — a path comes back to its first point after an even number of steps only
* `IsPath.pushFront`, `injOn_pushFront` — another point in front
-/

namespace SystemProgramming

/-- A point of the lattice. -/
structure Point where
  x : ℤ
  y : ℤ
  deriving DecidableEq, Repr

/-- The number of unit steps from one point to another. -/
def Point.dist (p q : Point) : ℕ := (p.x - q.x).natAbs + (p.y - q.y).natAbs

/-- The first `n` points are a path. -/
def IsPath (f : ℕ → Point) (n : ℕ) : Prop := ∀ i, i + 1 < n → (f i).dist (f (i + 1)) = 1

/-- A sequence with another point in front. -/
def pushFront (p : Point) (f : ℕ → Point) : ℕ → Point
  | 0 => p
  | i + 1 => f i

variable {p : Point} {f g : ℕ → Point} {m n : ℕ}

theorem IsPath.mono (h : IsPath f n) (hmn : m ≤ n) : IsPath f m :=
  fun i hi => h i (hi.trans_le hmn)

theorem IsPath.congr (h : IsPath f n) (hfg : ∀ i < n, g i = f i) : IsPath g n := by
  intro i hi
  rw [hfg i (by omega), hfg (i + 1) hi]
  exact h i hi

theorem IsPath.pushFront (h : IsPath f n) (hp : p.dist (f 0) = 1) :
    IsPath (pushFront p f) (n + 1) := by
  intro i hi
  cases i with
  | zero => exact hp
  | succ i => exact h i (by omega)

theorem injOn_pushFront (h : Set.InjOn f (Set.Iio n)) (hp : ∀ i < n, f i ≠ p) :
    Set.InjOn (pushFront p f) (Set.Iio (n + 1)) := by
  intro i hi j hj hij
  have hi' : i < n + 1 := hi
  have hj' : j < n + 1 := hj
  match i, j with
  | 0, 0 => rfl
  | 0, j + 1 => exact absurd hij.symm (hp j (by omega))
  | i + 1, 0 => exact absurd hij (hp i (by omega))
  | i + 1, j + 1 =>
    have hi'' : i < n := by omega
    have hj'' : j < n := by omega
    rw [h hi'' hj'' hij]

/-- On a path the sum of the coordinates is odd and even in turn. -/
theorem IsPath.sum_mod_two (h : IsPath f n) : ∀ i < n,
    ((f i).x + (f i).y + (f 0).x + (f 0).y + i) % 2 = 0 := by
  intro i
  induction i with
  | zero =>
    intro _
    omega
  | succ i ih =>
    intro hi
    have hstep := h i hi
    have hbefore := ih (by omega)
    rw [Point.dist] at hstep
    omega

/-- **Closed paths have even length.** -/
theorem IsPath.even_of_eq (h : IsPath f n) {i : ℕ} (hi : i < n) (heq : f i = f 0) : Even i := by
  have hsum := h.sum_mod_two i hi
  rw [heq] at hsum
  rw [Nat.even_iff]
  omega

end SystemProgramming
