import Stratagem.Decimal.Layout
import Stratagem.Decimal.Reading
import Stratagem.Plan.Node

/-!
# Durations

A duration is written as a number of seconds or as a number with a unit: seconds, minutes, hours or
days. Numbers are rounded to the nearest millisecond.
-/

namespace Stratagem

/-- What is wrong with a duration. -/
inductive DurationFault
  | notFinite (seconds : Float)
  | outOfRange (seconds : Float)
  | malformed (text : String)

namespace DurationFault

/-- What is wrong, in words. -/
def describe : DurationFault → String
  | notFinite seconds => s!"duration {Decimal.plain seconds} is not finite"
  | outOfRange seconds => s!"duration {Decimal.plain seconds}s is out of range"
  | malformed text => s!"invalid duration '{text}' (expected e.g. 30s, 5m, 1h)"

end DurationFault

namespace Wait

/-- A number of seconds, rounded to whole milliseconds. -/
def ofSeconds (seconds : Float) : Except DurationFault TimeSpan :=
  if !seconds.isFinite then .error (.notFinite seconds)
  else
    let millis := (seconds * 1000.0).round
    if 9223372036854775808.0 ≤ millis.abs then .error (.outOfRange seconds)
    else .ok (.ofMillis (Decimal.Double.of millis).truncate)

/-- The seconds of a unit of time; a digit stands for no unit, which is seconds. -/
def unitSeconds? (c : Char) : Option Float :=
  match c with
  | 's' => some 1.0
  | 'm' => some 60.0
  | 'h' => some 3600.0
  | 'd' => some 86400.0
  | c => if c.isDigit then some 1.0 else none

/-- A duration such as `30s`, `5m`, `1.5h`, `2d` or `45`. -/
def readDuration (text : String) : Except DurationFault TimeSpan :=
  let cs := Text.trimChars text.toList
  let malformed := Except.error (.malformed (String.ofList cs))
  match cs.getLast? with
  | none => malformed
  | some last =>
    match unitSeconds? last with
    | none => malformed
    | some scale =>
      let number := if last.isDigit then cs else cs.dropLast
      match Decimal.read (String.ofList (Text.trimChars number)) with
      | .error _ => malformed
      | .ok x => ofSeconds (x * scale)

end Wait

end Stratagem
