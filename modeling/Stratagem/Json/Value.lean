import Stratagem.Decimal.Layout
import Stratagem.Decimal.Reading
import Stratagem.Keyed

/-!
# Structured data

The values of JSON texts. The members of an object are a keyed list: in ascending order of their
keys, each key once. A number is whole if it was written without point and exponent and fits 64
bits, signed or unsigned; every other number is a double.
-/

namespace Stratagem

/-- A JSON value. -/
inductive Json
  | null
  | bool (b : Bool)
  /-- A whole number of 64 bits, signed or unsigned. -/
  | int (n : Int)
  | float (x : Float)
  | text (s : String)
  | array (items : List Json)
  /-- Members in ascending order of their keys. -/
  | object (members : List (String × Json))
  deriving Inhabited

namespace Json

/-- What a value is called in messages. -/
def kindName : Json → String
  | null => "null"
  | bool _ => "boolean"
  | int _ | float _ => "number"
  | text _ => "string"
  | array _ => "array"
  | object _ => "object"

/-- A whole number that fits 64 bits with a sign. -/
def int64? : Json → Option Int
  | int n => if Decimal.isInt64 n then some n else none
  | _ => none

/-- The double nearest to a number. -/
def float? : Json → Option Float
  | int n => some (Float.ofInt n)
  | float x => some x
  | _ => none

/-- The text of a string. -/
def text? : Json → Option String
  | text s => some s
  | _ => none

/-- A member of an object that is not null. -/
def present? (key : String) (members : Keyed Json) : Option Json :=
  match Keyed.find? key members with
  | some null | none => none
  | some v => some v

end Json

end Stratagem
