import Stratagem.Decimal.Layout

/-!
# Values

The values of expressions and variables: numbers, truth values and texts.
-/

namespace Stratagem

/-- The value of an expression. -/
inductive Value
  | number (x : Float)
  | bool (b : Bool)
  | text (s : String)
  deriving Inhabited

namespace Value

/-- What a value is called in messages. -/
def kindName : Value → String
  | number _ => "number"
  | bool _ => "boolean"
  | text _ => "string"

/-- The text of a value. -/
def render : Value → String
  | number x => Decimal.plain x
  | bool b => if b then "true" else "false"
  | text s => "\"" ++ s ++ "\""

/-- A value with what it is, for messages. -/
def described (v : Value) : String := v.kindName ++ " " ++ v.render

/-- The number of a value. -/
def number? : Value → Option Float
  | number x => some x
  | _ => none

/-- The truth value of a value. -/
def bool? : Value → Option Bool
  | bool b => some b
  | _ => none

end Value

end Stratagem
