/-!
# The exact value of a double

A finite double is `± significand · 2 ^ exponent` with whole numbers, and all exact work on
doubles (shortest digits, fixed places) starts from these. `leastExponent` bounds the exponents:
the smallest doubles are multiples of `2 ^ -1074`.
-/

namespace Stratagem.Decimal

/-- A double taken apart. -/
inductive Double
  | nan
  | infinite (negative : Bool)
  /-- The value `± significand · 2 ^ exponent`. -/
  | finite (negative : Bool) (significand : Nat) (exponent : Int)
  deriving DecidableEq, Repr

/-- The first significand of the normal doubles. -/
def hiddenBit : Nat := Nat.pow 2 52

/-- The exponent of the smallest doubles. -/
def leastExponent : Int := -1074

/-- The double whose 64 bits are the number `bits`. -/
def Double.ofBits (bits : Nat) : Double :=
  let negative := bits / Nat.pow 2 63 % 2 == 1
  let fraction := bits % hiddenBit
  let biased := bits / hiddenBit % Nat.pow 2 11
  if biased == 2047 then
    if fraction == 0 then .infinite negative else .nan
  else if biased == 0 then .finite negative fraction leastExponent
  else .finite negative (hiddenBit + fraction) (leastExponent + (biased - 1 : Nat))

/-- The parts of a double. -/
def Double.of (x : Float) : Double := .ofBits x.toBits.toNat

/-- The whole part of a double; what is not finite counts as zero. -/
def Double.truncate : Double → Int
  | .nan | .infinite _ => 0
  | .finite negative significand exponent =>
    let n : Int := (significand * Nat.pow 2 exponent.toNat / Nat.pow 2 (-exponent).toNat : Nat)
    if negative then -n else n

/-- The value of a double that is a whole number. -/
def Double.whole? : Double → Option Int
  | .nan | .infinite _ => none
  | .finite negative significand exponent =>
    if significand * Nat.pow 2 exponent.toNat % Nat.pow 2 (-exponent).toNat = 0 then
      some (truncate (.finite negative significand exponent))
    else none

/-- A grid of decimals seen from a power of two: `2 ^ exponent` is `unit / step` times the grid's
distance `10 ^ place`. -/
structure Grid where
  unit : Nat
  step : Nat
  deriving DecidableEq, Repr

/-- The multiples of `10 ^ place`, for doubles that are multiples of `2 ^ exponent`. -/
def Grid.of (exponent place : Int) : Grid where
  unit := Nat.pow 2 exponent.toNat * Nat.pow 10 (-place).toNat
  step := Nat.pow 2 (-exponent).toNat * Nat.pow 10 place.toNat

end Stratagem.Decimal
