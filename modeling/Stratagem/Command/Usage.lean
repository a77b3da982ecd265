import Stratagem.Decimal.Reading

/-!
# Options

How the words after a verb are read. A verb has named options, each with one value. A value is
attached to the name (`--tail=3`, `-ifile`, `-i=file`) or is the next word; a next word that begins
with a hyphen and is longer than it is no value but the next option. An option that lacks its value
or has one that is wrong is reported when the next option begins or the words end, whereas a word
with no place is reported at once.
-/

namespace Stratagem

/-- Why words are not a command. -/
inductive Usage
  | help
  | version
  | noVerb
  | unknownVerb
  | unknownOption
  /-- A required option is not given. -/
  | missingOption
  /-- An option has no value. -/
  | missingValue
  /-- A value that should be a number is none. -/
  | badValue
  /-- A value is attached to a name that takes none. -/
  | needlessValue
  /-- An option is given twice. -/
  | repeated
  deriving DecidableEq, Repr

/-- What the value of an option must be. -/
inductive Demand
  /-- A text that is not empty. -/
  | path
  | text
  /-- A natural number of at most 64 bits. -/
  | count
  deriving DecidableEq, Repr

/-- An option of a verb. -/
structure Switch where
  name : String
  /-- A letter that stands for the name. -/
  letter : Option Char
  demand : Demand
  required : Bool
  /-- Whether the option may be given more than once. -/
  repeatable : Bool
  deriving DecidableEq, Repr

/-- The values of options, in the order in which they are given. -/
abbrev Given := List (String × String)

namespace Usage

/-- The exit code: to ask for help is no mistake. -/
def exitCode : Usage → Nat
  | help | version => 0
  | _ => 2

end Usage

namespace Given

/-- The values of an option. -/
def all (g : Given) (name : String) : List String :=
  g.filterMap fun p => if p.1 = name then some p.2 else none

/-- The value of an option that is given at most once. -/
def text? (g : Given) (name : String) : Option String := (g.all name).head?

/-- The value of an option that must be given. -/
def required (g : Given) (name : String) : Except Usage String :=
  match g.text? name with
  | some v => .ok v
  | none => .error .missingOption

/-- The number that a value stands for. -/
def readCount? (value : String) : Option Nat :=
  if value.startsWith "-" then none
  else
    match Decimal.readInteger? value with
    | some n => if n.toNat < Nat.pow 2 64 then some n.toNat else none
    | none => none

/-- The number that is given with an option. -/
def count? (g : Given) (name : String) : Option Nat := (g.text? name).bind readCount?

end Given

/-- What a word looks like. -/
inductive Word
  | plain
  /-- Two hyphens, after which no option follows. -/
  | divider
  | long (name : List Char) (value : Option (List Char))
  | short (letter : Char) (rest : List Char)
  deriving DecidableEq, Repr

namespace Word

/-- What a word looks like. -/
def ofText (text : String) : Word :=
  match text.toList with
  | ['-', '-'] => .divider
  | '-' :: '-' :: rest =>
    match rest.dropWhile (· != '=') with
    | [] => .long rest none
    | _ :: value => .long (rest.takeWhile (· != '=')) (some value)
  | '-' :: c :: rest => .short c rest
  | _ => .plain

/-- The value that is attached to a letter. -/
def attached : List Char → Option (List Char)
  | [] => none
  | '=' :: value => some value
  | value => some value

end Word

namespace Switch

/-- Whether a text is as demanded. -/
def check (s : Switch) (value : String) : Except Usage Unit :=
  match s.demand with
  | .path => if value.isEmpty then .error .missingValue else .ok ()
  | .text => .ok ()
  | .count => if (Given.readCount? value).isSome then .ok () else .error .badValue

/-- Adds the value of an option, if it has one. -/
def give (s : Switch) (value : Option String) (g : Given) : Except Usage Given :=
  match value with
  | none => .error .missingValue
  | some v =>
    if !s.repeatable && (g.text? s.name).isSome then .error .repeated
    else (s.check v).map fun _ => g ++ [(s.name, v)]

end Switch

/-- An option that has begun, with its value as soon as that has been read. -/
abbrev Begun := Option (Switch × Option String)

namespace Begun

/-- Finishes an option. -/
def settle (b : Begun) (g : Given) : Except Usage Given :=
  match b with
  | none => .ok g
  | some (s, value) => s.give value g

end Begun

namespace Given

/-- An option begins, perhaps with a value attached, which finishes it at once. -/
def beginSwitch (s : Switch) (value : Option (List Char)) (b : Begun) (g : Given) :
    Except Usage (Begun × Given) := do
  let g ← b.settle g
  match value with
  | none => return (some (s, none), g)
  | some v => return (none, ← s.give (some (String.ofList v)) g)

/-- The effect of one word. -/
def readWord (switches : List Switch) (text : String) (b : Begun) (g : Given) :
    Except Usage (Begun × Given) :=
  match Word.ofText text with
  | .long name value =>
    match switches.find? fun s => s.name.toList == name with
    | some s => beginSwitch s value b g
    | none =>
      if String.ofList name = "help" then
        match value with
        | none => do
          let _ ← b.settle g
          throw .help
        | some _ => .error .needlessValue
      else .error .unknownOption
  | .short c rest =>
    match switches.find? fun s => s.letter == some c with
    | some s => beginSwitch s (Word.attached rest) b g
    | none =>
      if c = 'h' then do
        let _ ← b.settle g
        throw .help
      else .error .unknownOption
  | .plain | .divider =>
    match b with
    | some (s, none) => .ok (some (s, some text), g)
    | _ => .error .unknownOption

/-- The values that words give to options. Nothing may follow a divider. -/
def readWords (switches : List Switch) : Begun → Given → List String → Except Usage Given
  | b, g, [] => b.settle g
  | b, g, w :: ws =>
    if Word.ofText w = .divider then
      if ws.isEmpty then b.settle g else .error .unknownOption
    else do
      let (b, g) ← readWord switches w b g
      readWords switches b g ws

/-- The values that words give to options, the required ones among them. -/
def ofWords (switches : List Switch) (words : List String) : Except Usage Given := do
  let g ← readWords switches none [] words
  if switches.all fun s => !s.required || (g.text? s.name).isSome then return g
  else throw .missingOption

end Given

end Stratagem
