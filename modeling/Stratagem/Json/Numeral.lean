import Stratagem.Decimal.Reading
import Stratagem.Json.Value

/-!
# Reading JSON numbers

A number's digits are gathered into a significand as long as it fits 64 bits. Whole digits after
that count as zeros, and digits after the point are dropped. The significand, as a double, is then
multiplied or divided once by a power of ten, so that the result may differ from the nearest double
in its last bit. A number without point and exponent that fits 64 bits stays whole.
-/

namespace Stratagem.Json

open Decimal (digitsValue splitSign)

/-- Significands stay below this. -/
def significandLimit : Nat := Nat.pow 2 64

/-- Appends digits to a significand as long as it stays below the limit, and leaves the rest. -/
def gather (significand : Nat) : List Char → Nat × List Char
  | [] => (significand, [])
  | c :: cs =>
    let next := significand * 10 + (c.toNat - '0'.toNat)
    if c.isDigit && next < significandLimit then gather next cs else (significand, c :: cs)

/-- A power of ten up to `1e308`. -/
def powerOfTen (n : Nat) : Float := Float.ofScientific 1 false n

/-- The number `significand · 10 ^ exponent`, unless it is too large for a double. -/
def scale (significand : Nat) (exponent : Int) : Option Float :=
  let x := Float.ofNat significand
  if significand = 0 then some x
  else if 308 < exponent then none
  else if 0 ≤ exponent then
    let y := x * powerOfTen exponent.toNat
    if y.isInf then none else some y
  else
    let n := (-exponent).toNat
    if n ≤ 308 then some (x / powerOfTen n)
    else if n ≤ 616 then some (x / powerOfTen 308 / powerOfTen (n - 308))
    else some 0.0

/-- Exponents from this on are not computed with. -/
def exponentLimit : Nat := Nat.pow 2 31

/-- The end of a number that is not whole: an exponent, or nothing. -/
def readScaled (significand : Nat) (exponent : Int) (cs : List Char) : Option (Float × List Char) :=
  match cs with
  | c :: r =>
    if c == 'e' || c == 'E' then
      let (negative, r) := splitSign r
      let ds := r.takeWhile Char.isDigit
      let rest := r.dropWhile Char.isDigit
      if ds.isEmpty then none
      else
        let n := digitsValue ds
        if exponentLimit ≤ n then
          if significand ≠ 0 ∧ ¬negative then none else some (0.0, rest)
        else
          (scale significand (if negative then exponent - n else exponent + n)).map fun x =>
            (x, rest)
    else (scale significand exponent).map fun x => (x, cs)
  | [] => (scale significand exponent).map fun x => (x, [])

/-- The digits in front of a number, as far as they fit. A zero in front is the only one. -/
def readWhole : List Char → Nat × List Char
  | '0' :: r => (0, r)
  | r => gather 0 r

/-- The rest of a number: digits that do not fit, those behind a point, and an exponent. Without
any of these the number is whole. -/
def readRest (significand : Nat) (cs : List Char) : Option ((Nat ⊕ Float) × List Char) :=
  let dropped := cs.takeWhile Char.isDigit
  let exponent : Int := dropped.length
  let double := fun (r : Option (Float × List Char)) => r.map fun (x, cs) => (Sum.inr x, cs)
  match cs.dropWhile Char.isDigit with
  | '.' :: r =>
    if r.head?.any Char.isDigit then
      let (significand, r') := gather significand r
      double (readScaled significand (exponent - (r.length - r'.length : Nat))
        (r'.dropWhile Char.isDigit))
    else none
  | c :: r =>
    if c == 'e' || c == 'E' || !dropped.isEmpty then
      double (readScaled significand exponent (c :: r))
    else some (.inl significand, c :: r)
  | [] =>
    if dropped.isEmpty then some (.inl significand, [])
    else double (readScaled significand exponent [])

/-- A number without its sign: a double, or a whole number below the limit. -/
def readUnsigned (cs : List Char) : Option ((Nat ⊕ Float) × List Char) :=
  let (significand, rest) := readWhole cs
  let leadingZero := cs.head? == some '0'
  let startsRight := cs.head?.any Char.isDigit && !(leadingZero && rest.head?.any Char.isDigit)
  if startsRight then readRest significand rest else none

/-- A number at the start of a text. Zero with a minus sign is a double, and so is a negative number
below the 64-bit range. -/
def readNumber (cs : List Char) : Option (Json × List Char) :=
  match cs with
  | '-' :: r =>
    (readUnsigned r).map fun
      | (.inl n, rest) =>
        if n = 0 ∨ Nat.pow 2 63 < n then (.float (-Float.ofNat n), rest)
        else (.int (-(n : Int)), rest)
      | (.inr x, rest) => (.float (-x), rest)
  | r =>
    (readUnsigned r).map fun
      | (.inl n, rest) => (.int n, rest)
      | (.inr x, rest) => (.float x, rest)

end Stratagem.Json
