import Stratagem.Decimal.Reading
import Stratagem.Indicator.Kind
import Stratagem.Text.Parts

/-!
# Indicators on the command line

An indicator is written as a name and its parameters in order, such as `rsi:14`, `macd:12,26,9`,
`bollinger:20,2.5` or `vwap:session`.
-/

namespace Stratagem

/-- What is wrong with an indicator on the command line. -/
inductive SpecFault
  | unknownName (name : String)
  | notInteger (argument spec : String)
  | notNumber (argument spec : String)
  | argumentCount (spec : String)
  | parameter (fault : ParameterFault)

namespace SpecFault

/-- What is wrong, in words. -/
def describe : SpecFault → String
  | unknownName name => s!"unknown indicator '{name}'"
  | notInteger argument spec => s!"'{argument}' is not an integer in '{spec}'"
  | notNumber argument spec => s!"'{argument}' is not a number in '{spec}'"
  | argumentCount spec => s!"wrong number of arguments in '{spec}'"
  | parameter fault => fault.describe

end SpecFault

/-- The name and the arguments of an indicator; without a colon there are no arguments. -/
def splitSpec (spec : String) : String × List String :=
  let cs := spec.toList
  let name := String.ofList (cs.takeWhile (· != ':'))
  match cs.dropWhile (· != ':') with
  | [] => (name, [])
  | _ :: rest => (name, (Text.parts ',' rest).map fun part => String.ofList (Text.trimChars part))

/-- The indicator that a text on the command line names. -/
def Indicator.ofSpec (spec : String) : Except SpecFault Indicator := do
  let (name, args) := splitSpec spec
  let integer := fun arg =>
    match Decimal.readInt64? arg with
    | some n => Except.ok n
    | none => Except.error (SpecFault.notInteger arg spec)
  match Kind.ofName? name with
  | none => throw (.unknownName name)
  | some kind =>
    let params : Params ←
      match kind, args with
      | _, [] => pure {}
      | .atr, [n] | .ema, [n] | .rsi, [n] => do pure { period := some (← integer n) }
      | .macd, [fast, slow, signal] => do
        let fast ← integer fast
        let slow ← integer slow
        let signal ← integer signal
        pure { fast := some fast, slow := some slow, signal := some signal }
      | .bollinger, [n] => do pure { period := some (← integer n) }
      | .bollinger, [n, multiplier] => do
        let n ← integer n
        match Decimal.read multiplier with
        | .ok x => pure { period := some n, multiplier := some x }
        | .error _ => throw (.notNumber multiplier spec)
      | .vwap, [arg] =>
        match Decimal.readInt64? arg with
        | some n => pure { window := some n }
        | none => pure { mode := some arg }
      | _, _ => throw (.argumentCount spec)
    (kind.configure params).mapError .parameter

end Stratagem
