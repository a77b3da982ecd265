import Stratagem.Market.Bar

/-!
# Points of an indicator

An indicator gives a point for every bar. A point says whether it is valid: while an indicator warms
up it is not. The values of a point are written to variables (`Reading.bindings`) and to the columns
of a table (`Reading.components`), under names that other modules give in the same order.
-/

namespace Stratagem

/-- The values of an indicator at one bar. -/
inductive Reading (α : Type := Float)
  | single (x : α)
  | macd (line signal histogram : α)
  | bands (upper middle lower : α)

/-- An indicator at one bar. -/
structure Point (α : Type := Float) where
  time : Instant
  valid : Bool
  reading : Reading α

namespace Reading

variable {α : Type}

/-- The values in the order of the columns of a table. -/
def components : Reading α → List α
  | single x => [x]
  | macd line signal histogram => [line, signal, histogram]
  | bands upper middle lower => [upper, lower, middle]

/-- The variables that a reading is bound to under the name `target`: its main value to `target`
itself, the others to names with an ending. -/
def bindings (target : String) : Reading α → List (String × α)
  | single x => [(target, x)]
  | macd line signal histogram =>
    [(target, line), (target ++ "_signal", signal), (target ++ "_histogram", histogram)]
  | bands upper middle lower =>
    [(target, middle), (target ++ "_upper", upper), (target ++ "_lower", lower),
      (target ++ "_middle", middle)]

end Reading

/-- The last point, if it is valid. -/
def currentPoint? {α : Type} (points : List (Point α)) : Option (Point α) :=
  points.getLast?.filter Point.valid

end Stratagem
