import Stratagem.Decimal.Shortest

/-!
# Written decimals

How a double is written. A `Layout` holds the decisions of one format: which exponents are written
with a plain point and which scientifically, whether a whole number keeps `.0`, and the words for
values that are not finite. Two layouts are used:

* `plain`, for messages and tables: never an exponent, no trailing `.0`;
* `logged`, for decision logs: plain from `1e-5` up to `1e16` and scientific outside.

`fixed` writes a given number of places, rounding the exact value.
-/

namespace Stratagem.Decimal

/-- The decisions of a format. -/
structure Layout where
  tie : Tie
  /-- Whether a number whose first digit stands for `10 ^ e` is written without an exponent. -/
  positional : Int → Bool
  /-- What follows a whole number written without an exponent. -/
  wholeEnd : List Char
  nan : String
  infinity : String
  negativeInfinity : String

/-- The digits of a number without the zeros at its end, and the power of ten that the point after
the last digit left stands for. -/
def Scaled.significant (s : Scaled) : List Char × Int :=
  let ds := Nat.toDigits 10 s.digits
  let kept := (ds.reverse.dropWhile (· == '0')).reverse
  (kept, s.place + ((ds.length : Int) - kept.length))

/-- Digits with a plain point; the value is `0.digits · 10 ^ point`. -/
def positionalText (wholeEnd digits : List Char) (point : Int) : List Char :=
  if point ≤ 0 then '0' :: '.' :: (List.replicate (-point).toNat '0' ++ digits)
  else if digits.length ≤ point.toNat then
    digits ++ List.replicate (point.toNat - digits.length) '0' ++ wholeEnd
  else digits.take point.toNat ++ '.' :: digits.drop point.toNat

/-- Digits with one of them before the point, and the exponent with its sign. -/
def scientificText (digits : List Char) (exponent : Int) : List Char :=
  let mantissa :=
    match digits with
    | d :: e :: ds => d :: '.' :: e :: ds
    | ds => ds
  let sign := if exponent < 0 then '-' else '+'
  mantissa ++ 'e' :: sign :: Nat.toDigits 10 exponent.natAbs

/-- A finite value without its sign. -/
def Layout.magnitude (l : Layout) (significand : Nat) (exponent : Int) : List Char :=
  if significand = 0 then '0' :: l.wholeEnd
  else
    let (digits, place) := (shortest l.tie significand exponent).significant
    let point := digits.length + place
    if l.positional (point - 1) then positionalText l.wholeEnd digits point
    else scientificText digits (point - 1)

/-- A double in the format. -/
def Layout.write (l : Layout) (x : Float) : String :=
  match Double.of x with
  | .nan => l.nan
  | .infinite negative => if negative then l.negativeInfinity else l.infinity
  | .finite negative significand exponent =>
    let digits := l.magnitude significand exponent
    String.ofList (if negative then '-' :: digits else digits)

/-- Every finite number with a plain point, whole ones without any. -/
def plainLayout : Layout where
  tie := .upward
  positional := fun _ => true
  wholeEnd := []
  nan := "NaN"
  infinity := "inf"
  negativeInfinity := "-inf"

/-- Numbers from `1e-5` up to `1e16` with a point and at least one place, the others with an
exponent that always has a sign. What is not finite is `null`. -/
def loggedLayout : Layout where
  tie := .even
  positional := fun e => -5 ≤ e && e < 16
  wholeEnd := ['.', '0']
  nan := "null"
  infinity := "null"
  negativeInfinity := "null"

/-- A double in messages and tables. -/
def plain (x : Float) : String := plainLayout.write x

/-- A double in logs and in quoted data. -/
def logged (x : Float) : String := loggedLayout.write x

/-- The nearest whole number to `num / den`, the even one of two. -/
def roundHalfEven (num den : Nat) : Nat :=
  let q := num / den
  match compare (2 * (num % den)) den with
  | .lt => q
  | .gt => q + 1
  | .eq => if q % 2 = 0 then q else q + 1

/-- A number as at least `width` digits, with zeros in front. -/
def padded (width n : Nat) : List Char :=
  let ds := Nat.toDigits 10 n
  List.replicate (width - ds.length) '0' ++ ds

/-- A double with `places` digits after the point, its exact value rounded to the nearest. -/
def fixed (places : Nat) (x : Float) : String :=
  match Double.of x with
  | .nan => "NaN"
  | .infinite negative => if negative then "-inf" else "inf"
  | .finite negative significand exponent =>
    let g := Grid.of exponent (-places)
    let ds := padded (places + 1) (roundHalfEven (significand * g.unit) g.step)
    let whole := ds.length - places
    let digits := ds.take whole ++ '.' :: ds.drop whole
    String.ofList (if negative then '-' :: digits else digits)

end Stratagem.Decimal
