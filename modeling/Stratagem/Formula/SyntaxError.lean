import Stratagem.Formula.Expr
import Stratagem.Text.Blank

/-!
# Syntax errors

Why a text is no expression, and where. A position counts bytes from the start of the text;
`Diagnostic.inContext` shows the text with a caret under the position.
-/

namespace Stratagem

/-- How deep parentheses, signs, exponents and calls may nest. -/
def maxNesting : Nat := 64

/-- The greatest length of an expression in bytes. -/
def maxSourceBytes : Nat := 4096

namespace SyntaxError

/-- What is wrong with a text. -/
inductive Reason
  | tooLong
  | empty
  | tooDeep
  /-- Another character than the one that must come next, or the end. -/
  | expected (wanted : Char) (found : Option Char)
  | expectedName (found : Option Char)
  | unexpectedEnd
  | unexpectedCharacter (c : Char)
  | unexpectedKeyword (word : String)
  /-- An equals sign alone inside an expression. -/
  | strayAssignment
  | memberAccess
  | indexing
  /-- An opening parenthesis after something that is not the name of a function. -/
  | callOfValue
  | unknownFunction (name : String)
  | argumentCount (function : Builtin) (count : Nat)
  | malformedExponent
  | malformedNumber (text : String)
  | numberTooLarge (text : String)
  | unterminatedText
  | trailing (rest : String)
  /-- The target of an assignment is a keyword or a function. -/
  | reservedTarget (name : String)
  | expectedAssignment (target : String)
  deriving DecidableEq, Repr

/-- How many arguments a function takes, in words. -/
def Reason.arityText (f : Builtin) : String :=
  match f.arity with
  | (least, some most) =>
    if most = least then toString least else s!"{toString least} to {toString most}"
  | (least, none) => s!"at least {toString least}"

/-- What was found, in words. -/
def Reason.foundText : Option Char → String
  | some c => "'" ++ c.toString ++ "'"
  | none => "end of input"

/-- What is wrong, in words. -/
def Reason.message : Reason → String
  | tooLong => s!"expression longer than {toString maxSourceBytes} bytes"
  | empty => "empty expression"
  | tooDeep => s!"expression nested deeper than {toString maxNesting} levels"
  | expected wanted found => s!"expected '{wanted.toString}', found {foundText found}"
  | expectedName found => s!"expected identifier, found {foundText found}"
  | unexpectedEnd => "unexpected end of input"
  | unexpectedCharacter c => s!"unexpected character '{c.toString}'"
  | unexpectedKeyword word => s!"unexpected keyword '{word}'"
  | strayAssignment => "assignment '=' is not allowed in an expression"
  | memberAccess => "attribute access is not allowed"
  | indexing => "indexing is not allowed"
  | callOfValue => "only builtin functions can be called"
  | unknownFunction name => s!"function '{name}' is not allowed"
  | argumentCount f count =>
    s!"{f.name}() takes {arityText f} argument(s), got {toString count}"
  | malformedExponent => "malformed exponent in number"
  | malformedNumber text => s!"invalid number: {text}"
  | numberTooLarge text => s!"number out of range: {text}"
  | unterminatedText => "unterminated string literal"
  | trailing rest => s!"unexpected input after expression: '{rest}'"
  | reservedTarget name => s!"'{name}' cannot be assigned to"
  | expectedAssignment target => s!"expected '=' after '{target}'"

end SyntaxError

/-- A syntax error and the byte it was found at. -/
structure SyntaxError where
  reason : SyntaxError.Reason
  position : Nat
  deriving DecidableEq, Repr

/-- A message about a byte of a text. -/
structure Diagnostic where
  message : String
  position : Nat
  deriving DecidableEq, Repr

namespace Diagnostic

/-- The message with its position. -/
def render (d : Diagnostic) : String :=
  s!"parse error at position {toString d.position}: {d.message}"

/-- The column of the position, counted in characters; a position that is not between two
characters of the text is taken as it is. -/
def column (d : Diagnostic) (input : String) : Nat :=
  (Text.charsBefore d.position input.toList).getD d.position

/-- The text, a caret under the position, and the message. -/
def inContext (d : Diagnostic) (input : String) : String :=
  input ++ "\n" ++ String.ofList (List.replicate (d.column input) ' ') ++ "^\n" ++ d.render

end Diagnostic

namespace SyntaxError

/-- The error as a message. -/
def diagnostic (e : SyntaxError) : Diagnostic := ⟨e.reason.message, e.position⟩

/-- The error in words, with its position. -/
def render (e : SyntaxError) : String := e.diagnostic.render

end SyntaxError

end Stratagem
