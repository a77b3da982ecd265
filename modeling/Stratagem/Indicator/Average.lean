import Stratagem.Indicator.Scan
import Stratagem.Scalar

/-!
# The exponential average

An average that is fed one number at a time. It begins with the mean of the numbers, up to `period`
of them. After that it gives a new number the weight `2 / (period + 1)`.
-/

namespace Stratagem

/-- An average of the numbers fed so far. -/
structure Average (α : Type) where
  /-- How many numbers have been fed. -/
  count : Nat
  /-- The sum of the first numbers. -/
  sum : α
  value : α

namespace Average

variable {α : Type}

/-- Whether as many numbers have been fed as the period asks for. -/
def isReady (period : Nat) (a : Average α) : Bool := 0 < period && period ≤ a.count

variable [Scalar α]

/-- The average before any number, whose sum starts from `start`. -/
def empty (start : α) : Average α := ⟨0, start, Scalar.zero⟩

/-- The weight of a new number in the exponential average. -/
def weight (period : Nat) : α := Scalar.ofNat 2 / (Scalar.ofNat period + Scalar.one)

/-- Feeds the exponential average. Up to the period its value is the mean of what has been fed. -/
def exponential (period : Nat) (a : Average α) (x : α) : Average α :=
  let count := a.count + 1
  if count ≤ period then
    let sum := a.sum + x
    ⟨count, sum, sum / Scalar.ofNat count⟩
  else
    ⟨count, a.sum, x * weight period + a.value * (Scalar.one - weight period)⟩

/-- What the exponential average shows after each of some numbers. -/
def values (period : Nat) (xs : List α) : List α :=
  let feed := fun (a : Average α) x =>
    let a := a.exponential period x
    (a, a.value)
  scan feed (empty Scalar.zero) xs

end Average

end Stratagem
