/-!
# Scalars

The arithmetic that prices and indicators need, as a class. Programs run on doubles; the same
definitions can be read over exact numbers, where the averages obey the laws of arithmetic.
-/

namespace Stratagem

/-- Numbers that prices can be given in. -/
class Scalar (α : Type) extends Add α, Sub α, Mul α, Div α, Neg α where
  /-- A whole number as a scalar. -/
  ofNat : Nat → α
  /-- What a sum starts from: adding it to `x` gives `x` back, down to the sign of zero. -/
  sumStart : α
  sqrt : α → α
  abs : α → α
  /-- The greater of two numbers. -/
  max : α → α → α
  lt : α → α → Bool
  isZero : α → Bool

namespace Scalar

variable {α : Type} [Scalar α]

/-- The number zero. -/
def zero : α := ofNat 0

/-- The number one. -/
def one : α := ofNat 1

/-- The sum of a list, from left to right. -/
def sum (xs : List α) : α := xs.foldl (· + ·) sumStart

/-- The mean of a list of a given length. -/
def mean (count : Nat) (xs : List α) : α := sum xs / ofNat count

end Scalar

/-- The lesser of two doubles, where a number is less than what is none. -/
def minDouble (a b : Float) : Float := if b < a || a.isNaN then b else a

/-- The greater of two doubles, where a number is greater than what is none. -/
def maxDouble (a b : Float) : Float := if a < b || a.isNaN then b else a

instance : Scalar Float where
  ofNat := Float.ofNat
  sumStart := -0.0
  sqrt := Float.sqrt
  abs := Float.abs
  max := maxDouble
  lt a b := a < b
  isZero a := a == 0.0

end Stratagem
