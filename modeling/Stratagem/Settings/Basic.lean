import Stratagem.Decimal.Reading
import Stratagem.Text.Blank
import Stratagem.Text.Case
import Stratagem.Text.Parts

/-!
# Settings

A settings text gives values to keys, in groups:

```
[engine]
symbol = BTCUSDT      ; a comment
history_bars: 250
```

Names of groups and keys are written in any case. The last value of a key counts, also if that is no
value at all: a key may stand without one, and then it reads as absent. Keys before the first
header belong to the group `default`.
-/

namespace Stratagem

/-- A key in a group, and its value if it has one. -/
structure Setting where
  group : String
  key : String
  value : Option String
  deriving DecidableEq, Repr

/-- The settings of a text, in its order. -/
structure Settings where
  entries : List Setting
  deriving Repr

/-- What is wrong with a line of a settings text. -/
inductive SettingsFault
  | openHeader
  | emptyKey
  deriving DecidableEq, Repr

/-- What is wrong with a settings text, and in which line; the first line is 1. -/
structure SettingsError where
  line : Nat
  fault : SettingsFault
  deriving DecidableEq, Repr

namespace SettingsError

/-- What is wrong, in words. -/
def message (e : SettingsError) : String :=
  match e.fault with
  | .openHeader =>
    s!"line {toString e.line}: " ++
      "Found opening bracket for section name but no closing bracket"
  | .emptyKey => s!"line {toString e.line}:0: Key cannot be empty"

end SettingsError

namespace Settings

/-! ## Reading -/

/-- A line of a settings text. -/
inductive Line
  | blank
  | header (group : String)
  | entry (key : String) (value : Option String)
  deriving DecidableEq, Repr

/-- Whether a character starts a comment. -/
def isComment (c : Char) : Bool := c == ';' || c == '#'

/-- Whether a character stands between a key and its value. -/
def isDelimiter (c : Char) : Bool := c == '=' || c == ':'

/-- The form in which names of groups and keys are compared. -/
def fold (cs : List Char) : String := Text.lower (String.ofList (Text.trimChars cs))

/-- The text up to the last closing bracket. -/
def headerName? (cs : List Char) : Option (List Char) :=
  match cs.reverse.dropWhile (· != ']') with
  | [] => none
  | _ :: before => some before.reverse

/-- The line that a text is, its comment and the blanks around it left out. -/
def readLine (text : List Char) : Except SettingsFault Line :=
  match Text.trimChars (text.takeWhile fun c => !isComment c) with
  | [] => .ok .blank
  | '[' :: rest =>
    match headerName? rest with
    | some name => .ok (.header (fold name))
    | none => .error .openHeader
  | cs =>
    match cs.dropWhile fun c => !isDelimiter c with
    | [] => .ok (.entry (fold cs) none)
    | _ :: value =>
      let key := fold (cs.takeWhile fun c => !isDelimiter c)
      if key.isEmpty then .error .emptyKey
      else .ok (.entry key (some (String.ofList (Text.trimChars value))))

/-- The settings of lines from a numbered one on, the first of which belong to `group`. -/
def readLines : (line : Nat) → (group : String) → List (List Char) →
    Except SettingsError (List Setting)
  | _, _, [] => .ok []
  | line, group, text :: rest =>
    match readLine text with
    | .error fault => .error ⟨line, fault⟩
    | .ok .blank => readLines (line + 1) group rest
    | .ok (.header name) => readLines (line + 1) name rest
    | .ok (.entry key value) => do
      let entries ← readLines (line + 1) group rest
      return ⟨group, key, value⟩ :: entries

/-- The group of keys before the first header. -/
def defaultGroup : String := "default"

/-- The settings of a text. -/
def ofText (text : String) : Except SettingsError Settings :=
  (readLines 1 defaultGroup (Text.parts '\n' text.toList)).map Settings.mk

/-! ## Looking up -/

/-- The value of a key. -/
def text? (s : Settings) (group key : String) : Option String :=
  let group := Text.lower group
  let key := Text.lower key
  (s.entries.reverse.find? fun e => e.group == group && e.key == key).bind Setting.value

/-- The whole number at a key; a default if there is none. -/
def integer (s : Settings) (group key : String) (default : Int) : Int :=
  ((s.text? group key).bind Decimal.readInt64?).getD default

/-- The number at a key; a default if there is none. -/
def number (s : Settings) (group key : String) (default : Float) : Float :=
  ((s.text? group key).bind fun v => (Decimal.read v).toOption).getD default

/-- The truth value that a word stands for. -/
def boolOfWord? (word : String) : Option Bool :=
  let w := Text.lower (Text.trim word)
  if ["true", "yes", "on", "1"].contains w then some true
  else if ["false", "no", "off", "0"].contains w then some false
  else none

/-- The truth value at a key; a default if there is none. -/
def flag (s : Settings) (group key : String) (default : Bool) : Bool :=
  ((s.text? group key).bind boolOfWord?).getD default

/-- The value of a key unless it is blank. -/
def word? (s : Settings) (group key : String) : Option String :=
  ((s.text? group key).map Text.trim).filter fun v => !v.isEmpty

end Settings

end Stratagem
