import Stratagem.Failure
import Stratagem.Session.Engine
import Stratagem.Settings.Basic

/-!
# Groups of settings

What the commands take from a settings text: the engine, the directory of histories, the exchange
and the log of decisions. The first setting that is missing or wrong is reported.
-/

namespace Stratagem

/-- Where and how patiently an exchange is asked. -/
structure Exchange where
  url : String
  timeoutSeconds : Nat
  deriving DecidableEq, Repr

/-- Where decisions are logged. -/
structure LogTarget where
  path : Option String
  /-- Whether the log keeps what it holds. -/
  append : Bool
  deriving DecidableEq, Repr

namespace Settings

/-- The value of a key that must have one. -/
def required (s : Settings) (group key : String) : Except Failure String :=
  match s.word? group key with
  | some v => .ok v
  | none => .error (.settingMissing group key)

/-- The positive whole number at a key; a default if there is none. -/
def positive (s : Settings) (group key : String) (default : Nat) : Except Failure Nat :=
  match s.word? group key with
  | none => .ok default
  | some raw =>
    match Decimal.readInt64? raw with
    | none => .error (.settingInvalid group key s!"'{raw}' is not an integer")
    | some n =>
      if 0 < n then .ok n.toNat
      else .error (.settingInvalid group key s!"{key} must be positive")

/-- The value of a key of the engine, which a strategy may give as well. -/
def engineWord (s : Settings) (key : String) (fallback : Option String) : Except Failure String :=
  match (s.word? "engine" key).or fallback with
  | some v => .ok v
  | none => .error (.settingMissing "engine" key)

/-- The policy of the engine. -/
def policy (s : Settings) : Except Failure Policy :=
  match s.word? "engine" "context_policy" with
  | none => .ok .persist
  | some word =>
    match Policy.ofWord? word with
    | some p => .ok p
    | none => .error (.settingInvalid "engine" "context_policy" (Policy.unknown word))

/-- The engine for a strategy, whose symbol and interval serve where the settings give none. -/
def engine (s : Settings) (strategy : Strategy) : Except Failure Engine := do
  let symbol ← s.engineWord "symbol" strategy.symbol
  let interval ← s.engineWord "interval" strategy.interval
  let policy ← s.policy
  let historyBars ← s.positive "engine" "history_bars" Engine.defaultHistoryBars
  let maxSteps ← s.positive "engine" "max_steps" Engine.defaultMaxSteps
  return { symbol, interval, historyBars, maxSteps, policy }

/-- The engine for a strategy where the command line may name the market. -/
def engineFor (s : Settings) (strategy : Strategy) (symbol interval : Option String) :
    Except Failure Engine := do
  let strategy :=
    { strategy with symbol := symbol.or strategy.symbol, interval := interval.or strategy.interval }
  let engine ← s.engine strategy
  return { engine with
    symbol := symbol.getD engine.symbol, interval := interval.getD engine.interval }

/-- The directory of histories. -/
def dataDirectory (s : Settings) : Except Failure String := s.required "data" "directory"

/-- The usual address of the exchange. -/
def defaultExchangeUrl : String := "https://api.binance.com"

/-- The usual patience with the exchange, in seconds. -/
def defaultTimeout : Nat := 10

/-- A text without the slashes at its end. -/
def dropSlashes (text : String) : String :=
  String.ofList (text.toList.reverse.dropWhile (· == '/')).reverse

/-- The exchange. -/
def exchange (s : Settings) : Except Failure Exchange := do
  let url := (s.word? "binance" "base_url").getD defaultExchangeUrl
  if ["http://", "https://"].any fun scheme => scheme.toList.isPrefixOf url.toList then
    let timeoutSeconds ← s.positive "binance" "timeout_secs" defaultTimeout
    return { url := dropSlashes url, timeoutSeconds }
  else throw (.settingInvalid "binance" "base_url" s!"'{url}' is not an http(s) URL")

/-- The log of decisions. -/
def logTarget (s : Settings) : LogTarget :=
  { path := s.word? "output" "path", append := s.flag "output" "append" false }

end Settings

end Stratagem
