import Stratagem.Indicator.Momentum
import Stratagem.Indicator.Window

/-!
# Indicators

An indicator with its parameters: its label in messages, the number of bars it needs
(`Indicator.minBars`), the names of its columns, and its points over a list of bars. `series` gives
the points as they come; `compute` first asks that every parameter is positive and that there are
enough bars.
-/

namespace Stratagem

/-- An indicator with its parameters. -/
inductive Indicator
  | ema (period : Nat)
  | rsi (period : Nat)
  | atr (period : Nat)
  | vwap (span : Span)
  | macd (fast slow signal : Nat)
  /-- The number of standard deviations is given in hundredths. -/
  | bollinger (period hundredths : Nat)
  deriving DecidableEq, Repr

/-- Why an indicator cannot be computed. -/
inductive Shortage
  /-- A parameter is zero. -/
  | zeroParameter (indicator : Indicator)
  | tooFewBars (indicator : Indicator) (bars minimum : Nat)
  deriving DecidableEq, Repr

namespace Indicator

/-- An indicator in messages. -/
def label : Indicator → String
  | ema n => s!"EMA({toString n})"
  | rsi n => s!"RSI({toString n})"
  | atr n => s!"ATR({toString n})"
  | vwap .cumulative => "VWAP"
  | vwap .session => "VWAP(session)"
  | vwap (.rolling n) => s!"VWAP({toString n})"
  | macd fast slow signal =>
    s!"MACD({toString fast},{toString slow},{toString signal})"
  | bollinger period hundredths =>
    let deviations := Float.ofNat hundredths / 100.0
    s!"BOLLINGER({toString period},{Decimal.plain deviations})"

/-- The fewest bars that give a valid point. -/
def minBars : Indicator → Nat
  | ema n | atr n => n
  | rsi n => n + 1
  | vwap (.rolling n) => n
  | vwap _ => 1
  | macd fast slow signal => max fast slow + (signal - 1)
  | bollinger period _ => period

/-- The names of the columns, in the order of `Reading.components`. -/
def fieldNames : Indicator → List String
  | ema n => [s!"EMA_{toString n}"]
  | rsi _ => ["RSI"]
  | atr _ => ["ATR"]
  | vwap _ => ["VWAP"]
  | macd _ _ _ => ["MACD", "MACD_Signal", "MACD_Histogram"]
  | bollinger _ _ => ["Upper_Band", "Lower_Band", "Middle_Band"]

/-- Whether a parameter that must be positive is zero. -/
def hasZero : Indicator → Bool
  | ema n | rsi n | atr n => n == 0
  | vwap (.rolling n) => n == 0
  | vwap _ => false
  | macd fast slow signal => fast == 0 || slow == 0 || signal == 0
  | bollinger period hundredths => period == 0 || hundredths == 0

variable {α : Type} [Scalar α]

/-- The points of an indicator over bars. -/
def series (i : Indicator) (source : PriceSource) (bars : List (Bar α)) : List (Point α) :=
  match i with
  | ema n => Stratagem.ema n source bars
  | rsi n => Stratagem.rsi n source bars
  | atr n => Stratagem.atr n bars
  | vwap span => Stratagem.vwap span source bars
  | macd fast slow signal => Stratagem.macd fast slow signal source bars
  | bollinger period hundredths => Stratagem.bollinger period hundredths source bars

/-- The points of an indicator over enough bars. -/
def compute (i : Indicator) (source : PriceSource) (bars : List (Bar α)) :
    Except Shortage (List (Point α)) :=
  if i.hasZero then .error (.zeroParameter i)
  else if bars.length < i.minBars then .error (.tooFewBars i bars.length i.minBars)
  else .ok (i.series source bars)

end Indicator

end Stratagem
