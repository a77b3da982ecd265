import Stratagem.Command.Usage

/-!
# Commands

The commands of the program and how they are written: a verb, then its options.

* `validate` checks a strategy.
* `backtest` runs a strategy over a stored history.
* `live` runs a strategy against an exchange.
* `indicators` prints a stored history with columns of indicators.
-/

namespace Stratagem

/-- What to test, and what to say in place of the settings. -/
structure BacktestOptions where
  settings : String
  strategy : String
  log : Option String
  symbol : Option String
  interval : Option String
  deriving DecidableEq, Repr

/-- What to run, for how many polls, and how long to pause between them. -/
structure LiveOptions where
  settings : String
  strategy : String
  log : Option String
  polls : Option Nat
  pauseSeconds : Nat
  deriving DecidableEq, Repr

/-- What to print. -/
structure TableOptions where
  settings : String
  symbol : String
  interval : String
  indicators : List String
  source : String
  /-- The number of last rows to print; all if not given. -/
  tail : Option Nat
  deriving DecidableEq, Repr

/-- A command. -/
inductive Command
  | validate (strategy : String)
  | backtest (options : BacktestOptions)
  | live (options : LiveOptions)
  | indicators (options : TableOptions)
  deriving DecidableEq, Repr

/-- The first word of a command. -/
inductive Verb
  | validate
  | backtest
  | live
  | indicators
  deriving DecidableEq, Repr

namespace Verb

/-- All verbs. -/
def all : List Verb := [validate, backtest, live, indicators]

/-- How a verb is written. -/
def name : Verb → String
  | validate => "validate"
  | backtest => "backtest"
  | live => "live"
  | indicators => "indicators"

/-- The verb that a word is. -/
def ofName? (word : String) : Option Verb := all.find? fun v => v.name == word

/-- A required option. -/
def needed (name : String) (letter : Option Char) (demand : Demand) : Switch :=
  ⟨name, letter, demand, true, false⟩

/-- An option that need not be given. -/
def optional (name : String) (letter : Option Char) (demand : Demand) : Switch :=
  ⟨name, letter, demand, false, false⟩

/-- The options of a verb. -/
def switches : Verb → List Switch
  | validate => [needed "strategy" (some 's') .path]
  | backtest =>
    [needed "config" (some 'c') .path, needed "strategy" (some 's') .path,
      optional "output" (some 'o') .path, optional "symbol" none .text,
      optional "interval" none .text]
  | live =>
    [needed "config" (some 'c') .path, needed "strategy" (some 's') .path,
      optional "output" (some 'o') .path, optional "ticks" none .count,
      optional "poll-secs" none .count]
  | indicators =>
    [needed "config" (some 'c') .path, needed "symbol" none .text, needed "interval" none .text,
      ⟨"indicator", some 'i', .text, true, true⟩, optional "source" none .text,
      optional "tail" none .count]

/-- The usual pause between polls, in seconds. -/
def defaultPause : Nat := 60

/-- The command of a verb with given options. -/
def command (v : Verb) (g : Given) : Except Usage Command :=
  match v with
  | validate => return .validate (← g.required "strategy")
  | backtest =>
    return .backtest
      { settings := ← g.required "config", strategy := ← g.required "strategy",
        log := g.text? "output", symbol := g.text? "symbol", interval := g.text? "interval" }
  | live =>
    return .live
      { settings := ← g.required "config", strategy := ← g.required "strategy",
        log := g.text? "output", polls := g.count? "ticks",
        pauseSeconds := (g.count? "poll-secs").getD defaultPause }
  | indicators =>
    return .indicators
      { settings := ← g.required "config", symbol := ← g.required "symbol",
        interval := ← g.required "interval", indicators := g.all "indicator",
        source := (g.text? "source").getD "close", tail := g.count? "tail" }

end Verb

namespace Command

/-- Whether words after `help` name something that there is help about. -/
def isHelpTopic : List String → Bool
  | [] => true
  | [word] => word == "help" || (Verb.ofName? word).isSome
  | _ => false

/-- The command that words make. -/
def ofWords : List String → Except Usage Command
  | [] => .error .noVerb
  | w :: ws =>
    match Verb.ofName? w with
    | some v => do v.command (← Given.ofWords v.switches ws)
    | none =>
      if w = "help" then .error (if isHelpTopic ws then .help else .unknownVerb)
      else
        match Word.ofText w with
        | .plain => .error .unknownVerb
        | .divider =>
          match ws with
          | [] => .error .noVerb
          | word :: _ =>
            let known := word == "help" || (Verb.ofName? word).isSome
            .error (if known then .unknownOption else .unknownVerb)
        | .long name value =>
          let flag := String.ofList name
          if flag = "help" || flag = "version" then
            match value with
            | some _ => .error .needlessValue
            | none => .error (if flag = "help" then .help else .version)
          else .error .unknownOption
        | .short 'h' _ => .error .help
        | .short 'V' _ => .error .version
        | .short _ _ => .error .unknownOption

end Command

end Stratagem
