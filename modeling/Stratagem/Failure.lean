import Stratagem.Formula.Evaluation
import Stratagem.Indicator.Frame
import Stratagem.Market.Feed
import Stratagem.Plan.DefinitionFault
import Stratagem.Plan.Review

/-!
# Failures

What can go wrong with a strategy (`StrategyError`) and with a command (`Failure`), in which words,
and the exit code that a failed command ends with.
-/

namespace Stratagem

/-- Why the engine cannot carry out an instruction. -/
inductive EngineFault
  /-- An expression has no value. -/
  | expression (fault : Fault)
  | zeroParameter (indicator : Indicator)
  | parameter (indicator : String) (fault : ParameterFault)
  | feed (symbol interval : String) (error : FeedError)
  | waitTicks (count : Int)
  | waitElapsed (span : TimeSpan)
  /-- There is no bar to count a duration from. -/
  | waitWithoutData
  | deadlineOutOfRange
  /-- The suspended instruction is no wait. -/
  | notAWait (path : Path)
  | noCondition (path : Path)
  | stalePath (path : Path)
  /-- An indicator is not valid at the latest bar. -/
  | noCurrentValue (indicator : Indicator)
  | misaligned (indicator : Indicator) (points bars : Nat)
  /-- A reason in words. -/
  | reported (reason : String)

/-- What is wrong with a strategy. -/
inductive StrategyError
  | definition (place message : String)
  | rejected (issues : List Issue)
  | evaluation (fault : EngineFault)
  | insufficient (indicator : String) (bars minimum : Nat)
  | unknownVariable (name : String)
  | unknownIndicator (name : String)
  | trade (fault : TradeFault)
  | stepLimit (limit : Nat)

/-- The classes of errors of strategies. -/
inductive StrategyError.Category
  | parse
  | validation
  | evaluation
  | unknownVariable
  | unknownIndicator
  | trade
  | timeout
  deriving DecidableEq, Repr

/-- What is wrong with a command. -/
inductive Failure
  | settingsText (file reason : String)
  | settingMissing (group key : String)
  | settingInvalid (group key reason : String)
  | data (reason : String)
  | strategy (error : StrategyError)
  /-- The operating system refuses something. -/
  | system (reason : String)

namespace EngineFault

/-- Why an instruction fails, in words. -/
def describe : EngineFault → String
  | expression fault => fault.describe
  | zeroParameter i => s!"{i.label} has a zero-length parameter"
  | parameter indicator fault => s!"{indicator}: {fault.describe}"
  | feed symbol interval error => s!"market data for {symbol} {interval}: {error.describe}"
  | waitTicks count => (IssueCause.waitTicks count).describe
  | waitElapsed span => (IssueCause.waitElapsed span).describe
  | waitWithoutData => "wait duration needs market data"
  | deadlineOutOfRange => "wait deadline is out of range"
  | notAWait path => s!"suspended at {path.render} which is not a wait"
  | noCondition path => s!"wait at {path.render} has no condition to re-check"
  | stalePath path => s!"suspension path does not match the tree at {path.render}"
  | noCurrentValue i => s!"{i.label} has no valid value at the latest bar"
  | misaligned i points bars =>
    s!"{i.label} has {toString points} points for {toString bars} bars"
  | reported reason => reason

end EngineFault

namespace StrategyError

/-- What is wrong, in words. -/
def message : StrategyError → String
  | definition place message => s!"parse error at {place}: {message}"
  | rejected issues => s!"strategy rejected: {Issue.renderAll issues}"
  | evaluation fault => s!"evaluation error: {fault.describe}"
  | insufficient indicator bars minimum =>
    s!"insufficient data for {indicator}: have {toString bars} bars, need {toString minimum}"
  | unknownVariable name => s!"unknown variable '{name}'"
  | unknownIndicator name => s!"unknown indicator '{name}'"
  | trade fault => s!"invalid trade: {fault.describe}"
  | stepLimit limit => s!"step limit of {toString limit} instructions exceeded"

/-- The class of an error. -/
def category : StrategyError → Category
  | definition _ _ => .parse
  | rejected _ => .validation
  | evaluation _ | insufficient _ _ _ => .evaluation
  | unknownVariable _ => .unknownVariable
  | unknownIndicator _ => .unknownIndicator
  | trade _ => .trade
  | stepLimit _ => .timeout

/-- An error in a definition. -/
def ofDefinition (e : DefinitionError) : StrategyError :=
  definition e.place.render e.fault.describe

/-- An error in an expression. -/
def ofFault : Fault → StrategyError
  | .unbound name => unknownVariable name
  | fault => evaluation (.expression fault)

/-- An error in the computation of an indicator. -/
def ofShortage : Shortage → StrategyError
  | .zeroParameter i => evaluation (.zeroParameter i)
  | .tooFewBars i bars minimum => insufficient i.label bars minimum

/-- An error in the building of a frame. -/
def ofFrameFault : FrameFault → StrategyError
  | .shortage cause => ofShortage cause
  | .misaligned i points bars => evaluation (.misaligned i points bars)

end StrategyError

namespace Failure

/-- What is wrong, in words. -/
def message : Failure → String
  | settingsText file reason => s!"config parse error in {file}: {reason}"
  | settingMissing group key => s!"missing config key [{group}] {key}"
  | settingInvalid group key reason => s!"invalid config value [{group}] {key}: {reason}"
  | data reason => s!"data error: {reason}"
  | strategy error => error.message
  | system reason => reason

/-- The exit code of a command that fails. -/
def exitCode : Failure → Nat
  | system _ => 1
  | settingsText _ _ | settingMissing _ _ | settingInvalid _ _ _ => 2
  | data _ => 3
  | strategy error =>
    match error.category with
    | .parse | .validation => 4
    | _ => 5

end Failure

end Stratagem
