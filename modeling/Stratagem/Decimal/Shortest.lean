import Stratagem.Decimal.Double

/-!
# Shortest digits

The fewest decimal digits that read back to a given double: of all decimals
`digits · 10 ^ place` that round to the double, one with the fewest digits, and of those the
nearest. The decimals that round to it form an interval around its value, with its ends if the
significand is even. If any point of a grid lies in the interval, so does one of the value's two
neighbours on that grid, and the search over finer and finer grids looks at these two only;
17 digits always suffice.
-/

namespace Stratagem.Decimal

/-- The decimal `digits · 10 ^ place`. -/
structure Scaled where
  digits : Nat
  place : Int
  deriving DecidableEq, Repr

/-- Which of two equally near decimals is taken. -/
inductive Tie
  | upward
  | even
  deriving DecidableEq, Repr

/-- Whether `a` steps of the grid round to the double `significand · 2 ^ exponent`. Distances are
counted in quarters of `2 ^ exponent`: at a power of two the next lower double is half as far. -/
def readsBack (significand : Nat) (exponent : Int) (g : Grid) (a : Nat) : Bool :=
  let below := if significand = hiddenBit ∧ leastExponent < exponent then 1 else 2
  let low := (4 * significand - below) * g.unit
  let high := (4 * significand + 2) * g.unit
  let here := 4 * a * g.step
  if significand % 2 = 0 then low ≤ here && here ≤ high else low < here && here < high

/-- The number of whole steps in the double's value. -/
def stepsBelow (significand : Nat) (g : Grid) : Nat := significand * g.unit / g.step

/-- Whether the point `a + 1` of the grid is taken before the point `a`, when both read back. -/
def prefersNext (tie : Tie) (significand : Nat) (g : Grid) (a : Nat) : Bool :=
  match compare (2 * significand * g.unit) ((2 * a + 1) * g.step) with
  | .lt => false
  | .gt => true
  | .eq =>
    match tie with
    | .upward => true
    | .even => a % 2 == 1

/-- The nearest point of the grid that reads back to the double. -/
def nearestOnGrid (tie : Tie) (significand : Nat) (exponent : Int) (g : Grid) : Option Nat :=
  let a := stepsBelow significand g
  match readsBack significand exponent g a, readsBack significand exponent g (a + 1) with
  | true, true => some (if prefersNext tie significand g a then a + 1 else a)
  | true, false => some a
  | false, true => some (a + 1)
  | false, false => none

/-- The largest `e` with `10 ^ e ≤ significand · 2 ^ exponent`. The estimate from the number of
bits is exact or one too small. -/
def decimalExponent (significand : Nat) (exponent : Int) : Int :=
  let estimate := ((significand.log2 + exponent) * 30103).fdiv 100000
  if stepsBelow significand (Grid.of exponent (estimate + 1)) = 0 then estimate else estimate + 1

/-- The first hit on the grids of places `place`, `place - 1`, …; after `budget` grids the point
below the value. -/
def searchGrids (tie : Tie) (significand : Nat) (exponent : Int) : (budget : Nat) → Int → Scaled
  | 0, place => ⟨stepsBelow significand (Grid.of exponent place), place⟩
  | budget + 1, place =>
    match nearestOnGrid tie significand exponent (Grid.of exponent place) with
    | some a => ⟨a, place⟩
    | none => searchGrids tie significand exponent budget (place - 1)

/-- The shortest decimal that reads back to `significand · 2 ^ exponent`. -/
def shortest (tie : Tie) (significand : Nat) (exponent : Int) : Scaled :=
  searchGrids tie significand exponent 17 (decimalExponent significand exponent)

end Stratagem.Decimal
