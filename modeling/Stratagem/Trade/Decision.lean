import Stratagem.Json.Writing
import Stratagem.Text.Blank
import Stratagem.Text.Case
import Stratagem.Time.Stamp

/-!
# Trade decisions

A decision is the intent to buy or sell, for another program to carry out. `Decision.make` refuses
blank symbols and quantities that are not positive numbers; `Decision.encode` is the line that a
log holds for a decision.
-/

namespace Stratagem

/-- The direction of a trade. -/
inductive Side
  | buy
  | sell
  deriving DecidableEq, Repr

/-- The quantities of a trade. -/
inductive Quantity
  | size
  | price
  | stop
  deriving DecidableEq, Repr

/-- Why a trade is refused. -/
inductive TradeFault
  | emptySymbol
  | unknownSide (word : String)
  | notPositive (quantity : Quantity) (value : Float)
  /-- There is no bar to stamp the decision with. -/
  | noMarketData
  /-- A reason in words. -/
  | reported (reason : String)

/-- A trade that a strategy decided on. -/
structure Decision where
  symbol : String
  side : Side
  size : Float
  price : Option Float
  stop : Option Float
  time : Instant

namespace Quantity

/-- The name of a quantity. -/
def name : Quantity → String
  | size => "size"
  | price => "price"
  | stop => "stop"

end Quantity

namespace TradeFault

/-- Why the trade is refused, in words. -/
def describe : TradeFault → String
  | emptySymbol => "symbol must not be empty"
  | unknownSide word => s!"unknown side '{word}' (expected buy or sell)"
  | notPositive quantity value =>
    s!"{quantity.name} must be a positive finite number, got {Decimal.plain value}"
  | noMarketData => "no market snapshot to timestamp the decision"
  | reported reason => reason

end TradeFault

namespace Side

/-- The name of a side. -/
def name : Side → String
  | buy => "buy"
  | sell => "sell"

/-- The side that a word names, whatever its case. -/
def ofWord (word : String) : Except TradeFault Side :=
  match Text.asciiLower (Text.trim word) with
  | "buy" | "long" => .ok buy
  | "sell" | "short" => .ok sell
  | other => .error (.unknownSide other)

end Side

namespace Decision

/-- Refuses a quantity that is not a positive number. -/
def checkPositive (quantity : Quantity) (value : Float) : Except TradeFault Unit :=
  if value.isFinite && 0.0 < value then .ok () else .error (.notPositive quantity value)

/-- Refuses an optional quantity that is not a positive number. -/
def checkOptional (quantity : Quantity) : Option Float → Except TradeFault Unit
  | none => .ok ()
  | some value => checkPositive quantity value

/-- A decision about a symbol, whose blanks at either end are dropped. -/
def make (symbol : String) (side : Side) (size : Float) (price stop : Option Float)
    (time : Instant) : Except TradeFault Decision := do
  if Text.isBlankText symbol then throw .emptySymbol
  checkPositive .size size
  checkOptional .price price
  checkOptional .stop stop
  return { symbol := Text.trim symbol, side, size, price, stop, time }

/-- A decision in messages. -/
def render (d : Decision) : String :=
  let after := fun word => fun
    | some x => word ++ Decimal.plain x
    | none => ""
  d.side.name ++ " " ++ Decimal.plain d.size ++ " " ++ d.symbol ++ after " @ " d.price ++
    after " stop " d.stop ++ " (" ++ d.time.offsetStamp ++ ")"

/-- A number under a key. -/
def encodeNumber (key : String) (x : Float) : String :=
  Json.quote key ++ ":" ++ Decimal.logged x

/-- A decision as a JSON object. Quantities that are not given have no key. -/
def encode (d : Decision) : String :=
  let entries :=
    [Json.quote "symbol" ++ ":" ++ Json.quote d.symbol,
      Json.quote "side" ++ ":" ++ Json.quote d.side.name, encodeNumber "size" d.size] ++
    (d.price.map (encodeNumber "price")).toList ++ (d.stop.map (encodeNumber "stop")).toList ++
    [Json.quote "timestamp" ++ ":" ++ Json.quote d.time.zuluStamp]
  "\x7b" ++ ",".intercalate entries ++ "\x7d"

/-- The lines of a log of decisions, each with its end. -/
def encodeLog (ds : List Decision) : String := String.join (ds.map fun d => d.encode ++ "\n")

end Decision

end Stratagem
