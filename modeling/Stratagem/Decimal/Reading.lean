import Stratagem.Decimal.Double

/-!
# Reading decimals

The text of a number and the double nearest to it. A number is digits with an optional point and
an optional exponent, with at least one digit before the exponent; `inf`, `infinity` and `nan` in
any case are read as well, and one sign may stand in front.
-/

namespace Stratagem.Decimal

/-- Why a text is no number. -/
inductive ReadError
  | empty
  | malformed
  deriving DecidableEq, Repr

def ReadError.message : ReadError → String
  | .empty => "cannot parse float from empty string"
  | .malformed => "invalid float literal"

/-- The number that a list of decimal digits stands for. -/
def digitsValue (cs : List Char) : Nat := Nat.ofDigitChars 10 cs 0

/-- The least whole number above those of 64 bits with a sign. -/
def int64Limit : Int := Int.ofNat (Nat.pow 2 63)

/-- The whole numbers of 64 bits with a sign. -/
def isInt64 (n : Int) : Bool := -int64Limit ≤ n && n < int64Limit

/-- The double nearest to `digits · 10 ^ place`. Beyond `1e310` every number is infinite and below
`1e-400` every number is zero, so that powers stay small. -/
def nearest (digits : Nat) (place : Int) : Float :=
  if digits = 0 then 0.0
  else
    let top := place + (Nat.toDigits 10 digits).length
    if top > 310 then 1.0 / 0.0
    else if top < -400 then 0.0
    else if 0 ≤ place then Float.ofScientific digits false place.toNat
    else Float.ofScientific digits true (-place).toNat

/-- A sign in front of a text. -/
def splitSign : List Char → Bool × List Char
  | '-' :: cs => (true, cs)
  | '+' :: cs => (false, cs)
  | cs => (false, cs)

/-- The power of ten after the digits of a number. -/
def readExponent : List Char → Option Int
  | [] => some 0
  | c :: cs =>
    if c == 'e' || c == 'E' then
      let (negative, ds) := splitSign cs
      if ds.isEmpty || !ds.all Char.isDigit then none
      else
        let n : Int := digitsValue ds
        some (if negative then -n else n)
    else none

/-- A number without a sign. -/
def readMagnitude (cs : List Char) : Option Float :=
  let whole := cs.takeWhile Char.isDigit
  let afterWhole := cs.dropWhile Char.isDigit
  let (fraction, rest) :=
    match afterWhole with
    | '.' :: r => (r.takeWhile Char.isDigit, r.dropWhile Char.isDigit)
    | r => ([], r)
  if whole.isEmpty && fraction.isEmpty then
    let word := String.ofList (cs.map Char.toLower)
    if word == "inf" || word == "infinity" then some (1.0 / 0.0)
    else if word == "nan" then some (0.0 / 0.0)
    else none
  else
    (readExponent rest).map fun e => nearest (digitsValue (whole ++ fraction)) (e - fraction.length)

/-- The double that a text stands for. -/
def read (text : String) : Except ReadError Float :=
  match text.toList with
  | [] => .error .empty
  | cs =>
    let (negative, rest) := splitSign cs
    match readMagnitude rest with
    | none => .error .malformed
    | some x => .ok (if negative then -x else x)

/-- The whole number that digits with an optional sign stand for. -/
def readInteger? (text : String) : Option Int :=
  let (negative, ds) := splitSign text.toList
  if ds.isEmpty || !ds.all Char.isDigit then none
  else
    let n : Int := digitsValue ds
    some (if negative then -n else n)

/-- The 64-bit whole number of a text. -/
def readInt64? (text : String) : Option Int := (readInteger? text).filter isInt64

end Stratagem.Decimal
