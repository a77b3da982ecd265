import Stratagem.Command.Basic

/-!
# Help

What the program says about itself and about words that are no command. The options that it lists
are those that `Verb.switches` reads.
-/

namespace Stratagem

namespace Verb

/-- What a verb does, in words. -/
def summary : Verb → String
  | validate => "check a strategy"
  | backtest => "run a strategy over a stored history"
  | live => "run a strategy against an exchange"
  | indicators => "print a stored history with columns of indicators"

end Verb

namespace Switch

/-- How an option is written. -/
def usage (s : Switch) : String :=
  let names :=
    match s.letter with
    | some c => "-" ++ String.singleton c ++ ", --" ++ s.name
    | none => "--" ++ s.name
  let value :=
    match s.demand with
    | .path => " PATH"
    | .text => " TEXT"
    | .count => " NUMBER"
  names ++ value ++ (if s.required then " (required)" else "") ++
    (if s.repeatable then " (repeatable)" else "")

end Switch

namespace Command

/-- The name and the version of the program. -/
def version : String := "stratagem 0.1.0"

/-- The help on a verb. -/
def helpOn (v : Verb) : String :=
  "  " ++ v.name ++ ": " ++ v.summary ++ "\n" ++
    String.join (v.switches.map fun s => "      " ++ s.usage ++ "\n")

/-- The help on the program. -/
def help : String :=
  "usage: stratagem VERB [OPTION VALUE]...\n" ++ String.join (Verb.all.map helpOn)

end Command

namespace Usage

/-- What the program answers to words that are not a command. -/
def message : Usage → String
  | help | noVerb => Command.help
  | version => Command.version
  | unknownVerb => "error: unknown verb"
  | unknownOption => "error: unexpected word or option"
  | missingOption => "error: a required option is missing"
  | missingValue => "error: an option has no value"
  | badValue => "error: a value is no number"
  | needlessValue => "error: an option takes no value"
  | repeated => "error: an option is given twice"

end Usage

end Stratagem
