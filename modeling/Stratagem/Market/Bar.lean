import Stratagem.Scalar
import Stratagem.Json.Writing
import Stratagem.Text.Blank
import Stratagem.Text.Case
import Stratagem.Time.Stamp

/-!
# Bars

A bar holds the prices and the volume of one interval of a market. Strategies read its five fields
as variables; indicators read one column of it, its `PriceSource`.
-/

namespace Stratagem

/-- Prices and volume of one interval, stamped with its start. -/
structure Bar (α : Type := Float) where
  time : Instant
  opening : α
  high : α
  low : α
  close : α
  volume : α

/-- The column of a bar that an indicator reads. -/
inductive PriceSource
  | opening
  | high
  | low
  | close
  | volume
  /-- The mean of high, low and close. -/
  | typical
  deriving DecidableEq, Repr

/-- The names under which strategies read the fields of the latest bar. -/
def marketFields : List String := ["open", "high", "low", "close", "volume"]

namespace PriceSource

/-- All columns. -/
def all : List PriceSource := [opening, high, low, close, volume, typical]

/-- The name of a column. -/
def name : PriceSource → String
  | opening => "open"
  | high => "high"
  | low => "low"
  | close => "close"
  | volume => "volume"
  | typical => "typical"

/-- The column that a word names, whatever its case; `hlc3` is another name of `typical`. -/
def ofWord? (word : String) : Option PriceSource :=
  let w := Text.asciiLower (Text.trim word)
  if w == "hlc3" then some typical else all.find? fun s => s.name == w

/-- What is wrong with a word that names no column. -/
def unknown (word : String) : String :=
  s!"unknown price source '{Text.asciiLower (Text.trim word)}'"

end PriceSource

namespace Bar

variable {α : Type} [Scalar α]

/-- The mean of high, low and close. -/
def typical (b : Bar α) : α := (b.high + b.low + b.close) / Scalar.ofNat 3

/-- How far the price moved, the gap from the previous close included. -/
def trueRange (b : Bar α) (previousClose : α) : α :=
  Scalar.max (Scalar.max (b.high - b.low) (Scalar.abs (b.high - previousClose)))
    (Scalar.abs (b.low - previousClose))

/-- The column of a bar that a source names. -/
def price (b : Bar α) : PriceSource → α
  | .opening => b.opening
  | .high => b.high
  | .low => b.low
  | .close => b.close
  | .volume => b.volume
  | .typical => b.typical

omit [Scalar α] in
/-- The field of a bar that strategies read under a name. -/
def field? (b : Bar α) (name : String) : Option α :=
  match name with
  | "open" => some b.opening
  | "high" => some b.high
  | "low" => some b.low
  | "close" => some b.close
  | "volume" => some b.volume
  | _ => none

/-- A bar as it stands in logs. -/
def encode (b : Bar) : String :=
  let entry := fun key x => "," ++ Json.quote key ++ ":" ++ Decimal.logged x
  "\x7b\"timestamp\":" ++ Json.quote b.time.zuluStamp ++ entry "open" b.opening ++
    entry "high" b.high ++ entry "low" b.low ++ entry "close" b.close ++
    entry "volume" b.volume ++ "\x7d"

end Bar

/-- The column of bars that an indicator reads. -/
def PriceSource.column {α : Type} [Scalar α] (source : PriceSource) (bars : List (Bar α)) :
    List α :=
  bars.map fun bar => bar.price source

end Stratagem
