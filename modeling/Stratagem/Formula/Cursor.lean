import Stratagem.Formula.SyntaxError

/-!
# Cursors

The state of reading an expression: what is left of the text, how many bytes have been read, and how
many nested parts are open. A `Parse` takes a cursor to a result and a later cursor, or to an error.
-/

namespace Stratagem

/-- A place in the text of an expression. -/
structure Cursor where
  /-- The characters not yet read. -/
  rest : List Char
  /-- The number of bytes read. -/
  position : Nat
  /-- The number of nested parts around this place. -/
  depth : Nat
  deriving DecidableEq, Repr

/-- A reader of some part of an expression. -/
abbrev Parse (α : Type) := Cursor → Except SyntaxError (α × Cursor)

/-- Whether a character can start a name. -/
def isNameStart (c : Char) : Bool := c.isAlpha || c == '_'

/-- Whether a character can stand inside a name. -/
def isNameChar (c : Char) : Bool := c.isAlphanum || c == '_'

namespace Cursor

/-- The start of a text. -/
def start (source : String) : Cursor := ⟨source.toList, 0, 0⟩

/-- The cursor after some characters that come next. -/
def after (c : Cursor) (taken : List Char) : Cursor :=
  { c with rest := c.rest.drop taken.length, position := c.position + Text.bytes taken }

/-- The cursor after `count` characters. -/
def skip (c : Cursor) (count : Nat) : Cursor := c.after (c.rest.take count)

/-- The cursor after the blanks that come next. -/
def skipBlanks (c : Cursor) : Cursor := c.after (c.rest.takeWhile Text.isBlank)

/-- An error at the cursor. -/
def fail {α : Type} (c : Cursor) (reason : SyntaxError.Reason) : Except SyntaxError α :=
  .error ⟨reason, c.position⟩

/-- Whether a word comes next. -/
def startsWith (c : Cursor) (word : String) : Bool := word.toList.isPrefixOf c.rest

/-- The cursor after a word, if it comes next. -/
def take? (c : Cursor) (word : String) : Option Cursor :=
  if c.startsWith word then some (c.after word.toList) else none

/-- The cursor after a keyword, if it comes next and no longer name does. -/
def takeKeyword? (c : Cursor) (word : String) : Option Cursor :=
  let goesOn := (c.rest.drop word.length).head?.any isNameChar
  if c.startsWith word && !goesOn then some (c.after word.toList) else none

/-- The cursor after blanks and a given character. -/
def expect (c : Cursor) (wanted : Char) : Except SyntaxError Cursor :=
  let c := c.skipBlanks
  if c.rest.head? = some wanted then .ok (c.skip 1) else c.fail (.expected wanted c.rest.head?)

/-- The cursor inside one more nested part. -/
def enter (c : Cursor) : Except SyntaxError Cursor :=
  if c.depth < maxNesting then .ok { c with depth := c.depth + 1 } else c.fail .tooDeep

/-- The cursor outside the innermost nested part. -/
def leave (c : Cursor) : Cursor := { c with depth := c.depth - 1 }

end Cursor

end Stratagem
