import Stratagem.Json.Numeral

/-!
# Reading JSON

A strict reader: one value, blanks around it, nothing else. Arrays and objects may be nested 127
deep. Of two members with one key the last counts. A string may hold any character but control
characters, and `\u` escapes only in pairs that stand for a character.

The reader of a value takes the reader of its parts as an argument, one that may nest less deep, so
the recursion is on the depth; loops over items count the characters that are left.
-/

namespace Stratagem.Json

/-- A reader takes a value off the front of a text. -/
abbrev Reader (α : Type) := List Char → Option (α × List Char)

/-- The rest of a text after its blanks. -/
def skipSpace (cs : List Char) : List Char :=
  cs.dropWhile fun c => c == ' ' || c == '\n' || c == '\t' || c == '\r'

/-- The value of a hexadecimal digit. -/
def hexValue (c : Char) : Option Nat :=
  if c.isDigit then some (c.toNat - '0'.toNat)
  else if 'a' ≤ c && c ≤ 'f' then some (c.toNat - 'a'.toNat + 10)
  else if 'A' ≤ c && c ≤ 'F' then some (c.toNat - 'A'.toNat + 10)
  else none

/-- Four hexadecimal digits. -/
def readHex4 : Reader Nat
  | a :: b :: c :: d :: rest => do
    let a ← hexValue a
    let b ← hexValue b
    let c ← hexValue c
    let d ← hexValue d
    return (((a * 16 + b) * 16 + c) * 16 + d, rest)
  | _ => none

/-- The character of a `\u` escape: one unit, or two that form a surrogate pair. -/
def readUnicode (cs : List Char) : Option (Char × List Char) := do
  let (unit, rest) ← readHex4 cs
  if 0xD800 ≤ unit ∧ unit < 0xDC00 then
    match rest with
    | '\\' :: 'u' :: rest =>
      let (low, rest) ← readHex4 rest
      if 0xDC00 ≤ low ∧ low < 0xE000 then
        return (Char.ofNat (0x10000 + (unit - 0xD800) * 0x400 + (low - 0xDC00)), rest)
      else none
    | _ => none
  else if 0xDC00 ≤ unit ∧ unit < 0xE000 then none
  else return (Char.ofNat unit, rest)

/-- The character that an escape stands for; the backslash has been read. -/
def readEscape (cs : List Char) : Option (Char × List Char) :=
  match cs with
  | '"' :: rest => some ('"', rest)
  | '\\' :: rest => some ('\\', rest)
  | '/' :: rest => some ('/', rest)
  | 'b' :: rest => some ('\x08', rest)
  | 'f' :: rest => some ('\x0c', rest)
  | 'n' :: rest => some ('\n', rest)
  | 'r' :: rest => some ('\r', rest)
  | 't' :: rest => some ('\t', rest)
  | 'u' :: rest => readUnicode rest
  | _ => none

/-- The characters of a string up to its closing quote, put after those of `read`, which stand in
reverse. -/
def readQuoted : (budget : Nat) → (read : List Char) → Reader (List Char)
  | 0, _, _ => none
  | budget + 1, read, cs =>
    match cs with
    | [] => none
    | '"' :: rest => some (read.reverse, rest)
    | '\\' :: rest =>
      match readEscape rest with
      | some (c, rest) => readQuoted budget (c :: read) rest
      | none => none
    | c :: rest => if c.toNat < 0x20 then none else readQuoted budget (c :: read) rest

/-- A string; its opening quote has been read. -/
def readText (cs : List Char) : Option (String × List Char) :=
  (readQuoted (cs.length + 1) [] cs).map fun (chars, rest) => (String.ofList chars, rest)

/-- The items of an array after its first one, up to the closing bracket. -/
def readItems (item : Reader Json) : (budget : Nat) → List Json → Reader (List Json)
  | 0, _, _ => none
  | budget + 1, items, cs =>
    match skipSpace cs with
    | ']' :: rest => some (items.reverse, rest)
    | ',' :: rest =>
      match item rest with
      | some (v, rest) => readItems item budget (v :: items) rest
      | none => none
    | _ => none

/-- A member of an object. -/
def readMember (item : Reader Json) (cs : List Char) : Option ((String × Json) × List Char) :=
  match skipSpace cs with
  | '"' :: rest => do
    let (key, rest) ← readText rest
    match skipSpace rest with
    | ':' :: rest =>
      let (v, rest) ← item rest
      return ((key, v), rest)
    | _ => none
  | _ => none

/-- The members of an object after its first one, up to the closing brace. -/
def readMembers (item : Reader Json) : (budget : Nat) → Keyed Json → Reader (Keyed Json)
  | 0, _, _ => none
  | budget + 1, members, cs =>
    match skipSpace cs with
    | '\x7d' :: rest => some (members, rest)
    | ',' :: rest =>
      match readMember item rest with
      | some ((key, v), rest) => readMembers item budget (members.insert key v) rest
      | none => none
    | _ => none

/-- An array; its opening bracket has been read. -/
def readArray (item : Reader Json) (cs : List Char) : Option (Json × List Char) :=
  match skipSpace cs with
  | ']' :: rest => some (.array [], rest)
  | cs => do
    let (first, rest) ← item cs
    let (items, rest) ← readItems item (rest.length + 1) [first] rest
    return (.array items, rest)

/-- An object; its opening brace has been read. -/
def readObject (item : Reader Json) (cs : List Char) : Option (Json × List Char) :=
  match skipSpace cs with
  | '\x7d' :: rest => some (.object [], rest)
  | cs => do
    let ((key, first), rest) ← readMember item cs
    let (members, rest) ← readMembers item (rest.length + 1) [(key, first)] rest
    return (.object members, rest)

/-- The rest of a text after a word. -/
def readWord (word : String) (value : Json) (cs : List Char) : Option (Json × List Char) :=
  if word.toList.isPrefixOf cs then some (value, cs.drop word.length) else none

/-- A value whose parts are read by `nested`; without it, arrays and objects are refused. -/
def readWith (nested : Option (Reader Json)) (cs : List Char) : Option (Json × List Char) :=
  match skipSpace cs with
  | '[' :: rest => nested.bind fun item => readArray item rest
  | '\x7b' :: rest => nested.bind fun item => readObject item rest
  | '"' :: rest => (readText rest).map fun (s, rest) => (.text s, rest)
  | 'n' :: rest => readWord "null" .null ('n' :: rest)
  | 't' :: rest => readWord "true" (.bool true) ('t' :: rest)
  | 'f' :: rest => readWord "false" (.bool false) ('f' :: rest)
  | rest => readNumber rest

/-- A value in which arrays and objects nest at most `depth` deep. -/
def readNested : (depth : Nat) → Reader Json
  | 0 => readWith none
  | depth + 1 => readWith (some (readNested depth))

/-- How deep arrays and objects may nest. -/
def maxDepth : Nat := 127

/-- The value of a text. -/
def read? (text : String) : Option Json := do
  let (v, rest) ← readNested maxDepth text.toList
  if (skipSpace rest).isEmpty then some v else none

end Stratagem.Json
