import Stratagem.Indicator.Basic

/-!
# Indicator families

The six families that a strategy names, the variables that each binds (`Kind.boundNames`, which are
those of `Reading.bindings`), and the check of parameters. Parameters are kept as they were
written, so integers may be negative until `Kind.configure` has looked at them; it reports the
first one that is wrong.
-/

namespace Stratagem

/-- A family of indicators. -/
inductive Kind
  | atr
  | bollinger
  | ema
  | macd
  | rsi
  | vwap
  deriving DecidableEq, Repr

/-- The parameters of an indicator as a strategy gives them. -/
structure Params where
  period : Option Int := none
  fast : Option Int := none
  slow : Option Int := none
  signal : Option Int := none
  multiplier : Option Float := none
  mode : Option String := none
  window : Option Int := none
  source : PriceSource := .close

/-- What is wrong with parameters. -/
inductive ParameterFault
  /-- The family has no such parameter. -/
  | inapplicable (parameter : String) (kind : Kind)
  | notPositive (parameter : String) (value : Int)
  | fastNotShorter (fast slow : Nat)
  | shortPeriod (period : Nat)
  | multiplierNotPositive (multiplier : Float)
  /-- The multiplier is no whole number of hundredths. -/
  | multiplierTooFine (multiplier : Float)
  | multiplierOutOfRange (multiplier : Float)
  /-- A rolling average without a window. -/
  | missingWindow
  | unknownMode (mode : String)
  /-- A window for an average that is not rolling. -/
  | uselessWindow (mode : String)

namespace Kind

/-- All families. -/
def all : List Kind := [atr, bollinger, ema, macd, rsi, vwap]

/-- The name of a family in messages. -/
def title : Kind → String
  | atr => "Atr"
  | bollinger => "Bollinger"
  | ema => "Ema"
  | macd => "Macd"
  | rsi => "Rsi"
  | vwap => "Vwap"

/-- A name in lower case without hyphens, underscores and spaces. -/
def normalize (name : String) : String :=
  Text.asciiLower (String.ofList (name.toList.filter fun c => !(c == '-' || c == '_' || c == ' ')))

/-- The family of a name. -/
def ofName? (name : String) : Option Kind :=
  match normalize name with
  | "atr" => some atr
  | "bollinger" | "bollingerbands" | "bb" => some bollinger
  | "ema" => some ema
  | "macd" => some macd
  | "rsi" => some rsi
  | "vwap" => some vwap
  | _ => none

/-- The endings of the names that a family binds. -/
def endings : Kind → List String
  | macd => ["", "_signal", "_histogram"]
  | bollinger => ["", "_upper", "_lower", "_middle"]
  | _ => [""]

/-- The names that a family binds under the name `target`. -/
def boundNames (k : Kind) (target : String) : List String :=
  k.endings.map fun ending => target ++ ending

/-- The names of the parameters of a family. -/
def parameters : Kind → List String
  | atr | ema | rsi => ["period"]
  | bollinger => ["period", "multiplier"]
  | macd => ["fast", "slow", "signal"]
  | vwap => ["mode", "window"]

end Kind

namespace ParameterFault

/-- What is wrong, in words. -/
def describe : ParameterFault → String
  | inapplicable parameter kind => s!"parameter '{parameter}' does not apply to {kind.title}"
  | notPositive parameter value => s!"{parameter} must be positive, got {toString value}"
  | fastNotShorter fast slow =>
    s!"fast period ({toString fast}) must be shorter than slow period ({toString slow})"
  | shortPeriod period => s!"period must be at least 2, got {toString period}"
  | multiplierNotPositive x => s!"multiplier must be positive, got {Decimal.plain x}"
  | multiplierTooFine x => s!"multiplier {Decimal.plain x} has more than two decimal places"
  | multiplierOutOfRange x => s!"multiplier {Decimal.plain x} is out of range"
  | missingWindow => "rolling VWAP requires a 'window' parameter"
  | unknownMode mode =>
    s!"unknown VWAP mode '{mode}' (expected cumulative, session or rolling)"
  | uselessWindow mode => s!"'window' only applies to rolling VWAP, not '{mode}'"

end ParameterFault

namespace Params

/-- The names of the parameters that are given, in the order in which they are checked. -/
def given (p : Params) : List String :=
  [("period", p.period.isSome), ("fast", p.fast.isSome), ("slow", p.slow.isSome),
    ("signal", p.signal.isSome), ("multiplier", p.multiplier.isSome), ("mode", p.mode.isSome),
    ("window", p.window.isSome)].filterMap
      fun (name, present) => if present then some name else none

end Params

/-- A whole number that must be positive, or its default. -/
def positive (parameter : String) (value : Option Int) (default : Nat) :
    Except ParameterFault Nat :=
  match value with
  | none => .ok default
  | some v => if 0 < v then .ok v.toNat else .error (.notPositive parameter v)

/-- The greatest multiplier, in hundredths. -/
def maxHundredths : Nat := Nat.pow 2 32 - 1

/-- The whole number nearest to a double from 0 to `2 ^ 52`; a half goes up. -/
def nearestWhole (x : Float) : UInt64 :=
  let below := x.toUInt64
  if x - below.toFloat < 0.5 then below else below + 1

/-- A multiplier in hundredths. -/
def hundredths (multiplier : Float) : Except ParameterFault Nat :=
  if !multiplier.isFinite || multiplier ≤ 0.0 then .error (.multiplierNotPositive multiplier)
  else
    let scaled := multiplier * 100.0
    -- From `2 ^ 52` on doubles are whole numbers, so none of these is too fine.
    if 4503599627370496.0 ≤ scaled then .error (.multiplierOutOfRange multiplier)
    else
      let nearest := nearestWhole scaled
      if 1e-6 < (scaled - nearest.toFloat).abs then .error (.multiplierTooFine multiplier)
      else if nearest = 0 || maxHundredths < nearest.toNat then
        .error (.multiplierOutOfRange multiplier)
      else .ok nearest.toNat

/-- The span of a volume-weighted average. -/
def configureSpan (mode : Option String) (window : Option Int) : Except ParameterFault Span :=
  match mode.map fun m => Text.asciiLower (Text.trim m), window with
  | none, none | some "cumulative", none => .ok .cumulative
  | some "session", none => .ok .session
  | none, some w | some "rolling", some w => (positive "window" (some w) 0).map .rolling
  | some "rolling", none => .error .missingWindow
  | some m, none => .error (.unknownMode m)
  | some m, some _ => .error (.uselessWindow m)

/-- The indicator of a family with given parameters; those not given have their usual values. -/
def Kind.configure (k : Kind) (p : Params) : Except ParameterFault Indicator :=
  match p.given.find? fun name => !k.parameters.contains name with
  | some name => .error (.inapplicable name k)
  | none =>
    match k with
    | .ema => (positive "period" p.period 14).map .ema
    | .rsi => (positive "period" p.period 14).map .rsi
    | .atr => (positive "period" p.period 14).map .atr
    | .macd => do
      let fast ← positive "fast" p.fast 12
      let slow ← positive "slow" p.slow 26
      let signal ← positive "signal" p.signal 9
      if fast < slow then return .macd fast slow signal
      else throw (.fastNotShorter fast slow)
    | .bollinger => do
      let period ← positive "period" p.period 20
      if period < 2 then throw (.shortPeriod period)
      else return .bollinger period (← hundredths (p.multiplier.getD 2.0))
    | .vwap => (configureSpan p.mode p.window).map .vwap

end Stratagem
