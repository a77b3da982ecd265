import Stratagem.Command.Basic
import Stratagem.Command.Host
import Stratagem.Indicator.Spec
import Stratagem.Indicator.Table
import Stratagem.Market.Archive
import Stratagem.Plan.Document
import Stratagem.Session.Backtest
import Stratagem.Settings.Groups

/-!
# Running commands

What each command does on a host. Results go to the output, everything else to the user. A command
that fails tells why and ends with the exit code of its failure.
-/

namespace Stratagem

namespace Host

variable {m : Type → Type} [Monad m] (host : Host m)

/-! ## Loading -/

/-- An error that ends a command. -/
def orFail {ε α : Type} (failure : ε → Failure) (result : Except ε α) : Action m α :=
  match result with
  | .ok v => pure v
  | .error e => throw (failure e)

/-- The settings of a file. -/
def loadSettings (path : String) : Action m Settings := do
  host.say s!"Loading config from {path}"
  orFail (fun e => .settingsText path e.message) (Settings.ofText (← host.load path))

/-- The strategy of a file, if there is no issue with it. -/
def loadStrategy (path : String) : Action m Strategy := do
  host.say s!"Loading strategy from {path}"
  let source ← host.load path
  let strategy ← orFail (fun e => .strategy (.ofDefinition e)) (Strategy.ofText source)
  let issues := strategy.definition.review
  if issues.isEmpty then return strategy
  else
    issues.forM fun i => host.say ("  " ++ i.render)
    throw (.strategy (.rejected issues))

/-- The stored history of a market. -/
def loadBars (archive : Archive) (symbol interval : String) : Action m (List Bar) := do
  let answer ← ExceptT.lift (host.read (archive.path symbol interval))
  orFail (fun e => .data e.describe) (archive.bars symbol interval answer)

/-! ## Verbs -/

/-- Checks a strategy. -/
def validate (path : String) : Action m Unit := do
  let strategy ← host.loadStrategy path
  host.say s!"Strategy '{strategy.name}' is valid ({strategy.definition.count} instructions)"
  if !strategy.description.isEmpty then host.say ("  " ++ strategy.description)

/-- Writes decisions to the file that the command line or the settings name; else gives them out. -/
def logDecisions (target : LogTarget) (path : Option String) (decisions : List Decision) :
    Action m Unit := do
  let log := Decision.encodeLog decisions
  match path.or target.path with
  | none => host.give log
  | some path =>
    host.say s!"Writing decisions to {path}"
    host.store path target.append log

/-- Tells the user what a backtest led to. -/
def summarize (report : Report) : Action m Unit := do
  host.say ""
  host.say "=== Backtest Summary ==="
  host.say s!"Ticks:            {toString report.ticks}"
  host.say s!"Decisions:        {toString report.decisions.length}"
  host.say s!"Failed ticks:     {toString report.failures.length}"
  match report.failures.head? with
  | some (time, e) => host.say s!"First failure:    {e.message} ({time.utcStamp})"
  | none => pure ()
  if report.endedPaused then host.say "Strategy was waiting when the history ended"

/-- Runs a strategy over a stored history. -/
def backtest (o : BacktestOptions) : Action m Unit := do
  let settings ← host.loadSettings o.settings
  let strategy ← host.loadStrategy o.strategy
  let engine ← orFail id (settings.engineFor strategy o.symbol o.interval)
  let directory ← orFail id settings.dataDirectory
  let bars ← host.loadBars ⟨directory⟩ engine.symbol engine.interval
  if bars.isEmpty then throw (.data s!"no bars for {engine.symbol} {engine.interval}")
  let count := toString bars.length
  host.say s!"Replaying {count} bars of {engine.symbol} {engine.interval} through '{strategy.name}'"
  let replay := Replay.ofBars engine.symbol engine.interval bars
  let report := (engine.backtest strategy.definition replay).1
  host.logDecisions settings.logTarget o.log report.decisions
  host.summarize report

/-- Prints a stored history with columns of indicators. -/
def indicators (o : TableOptions) : Action m Unit := do
  let source ←
    match PriceSource.ofWord? o.source with
    | some s => pure s
    | none => throw (.settingInvalid "cli" "source" (PriceSource.unknown o.source))
  let chosen ← o.indicators.mapM fun spec => do
    let i ← orFail (fun e => .settingInvalid "cli" "indicator" e.describe) (Indicator.ofSpec spec)
    return (i, source)
  let settings ← host.loadSettings o.settings
  let directory ← orFail id settings.dataDirectory
  let bars ← host.loadBars ⟨directory⟩ o.symbol o.interval
  let frame ← orFail (fun e => .strategy (.ofFrameFault e)) (Frame.ofIndicators bars chosen)
  host.give (frame.table o.tail)

omit [Monad m] in
/-- Running against an exchange takes a host that can reach one, and a host has files only. -/
def live (_ : Host m) (_ : LiveOptions) : Except Failure Unit :=
  .error (.data "binance feature is required for live")

/-- Does what a command says. -/
def perform (c : Command) : Action m Unit :=
  match c with
  | .validate path => host.validate path
  | .backtest o => host.backtest o
  | .live o => orFail id (host.live o)
  | .indicators o => host.indicators o

/-- Does what a command says and gives the exit code. -/
def run (c : Command) : m Nat := do
  match ← (host.perform c).run with
  | .ok () => return 0
  | .error e =>
    host.report s!"error: {e.message}"
    return e.exitCode

end Host

end Stratagem
