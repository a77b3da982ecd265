import Stratagem.Decimal.Reading
import Stratagem.Formula.Cursor

/-!
# Literals and names

The tokens of an expression that stand for themselves: numbers, quoted texts and names.

A number is digits with an optional point, which must have a digit after it, and an optional
exponent. A text stands in single or double quotes and has no escapes. A name is made of ASCII
letters, digits and underscores and does not start with a digit.
-/

namespace Stratagem.Literal

/-- The digits and the point at the start of a number. -/
def mantissa (cs : List Char) : List Char :=
  let whole := cs.takeWhile Char.isDigit
  match cs.dropWhile Char.isDigit with
  | '.' :: r =>
    let fraction := r.takeWhile Char.isDigit
    if fraction.isEmpty then whole else whole ++ '.' :: fraction
  | _ => whole

/-- The exponent that comes next, which may be empty; `none` if there is an `e` without digits. -/
def exponent? (cs : List Char) : Option (List Char) :=
  match cs with
  | c :: r =>
    if c = 'e' ∨ c = 'E' then
      let sign := r.takeWhile fun d => d == '+' || d == '-'
      let sign := sign.take 1
      let digits := (r.drop sign.length).takeWhile Char.isDigit
      if digits.isEmpty then none else some (c :: (sign ++ digits))
    else some []
  | [] => some []

/-- A number. -/
def number : Parse Expr := fun c =>
  let digits := mantissa c.rest
  let stop := c.after digits
  match exponent? stop.rest with
  | none => stop.fail .malformedExponent
  | some exponent =>
    let text := String.ofList (digits ++ exponent)
    match Decimal.read text with
    | .error _ => c.fail (.malformedNumber text)
    | .ok x =>
      if x.isFinite then .ok (.number x, stop.after exponent) else c.fail (.numberTooLarge text)

/-- A text in quotes; the opening one comes next. -/
def quoted (quote : Char) : Parse Expr := fun c =>
  let inside := c.skip 1
  let text := inside.rest.takeWhile (· != quote)
  let stop := inside.after text
  if stop.rest.isEmpty then c.fail .unterminatedText
  else .ok (.text (String.ofList text), stop.skip 1)

/-- A name. -/
def name : Parse String := fun c =>
  if c.rest.head?.any isNameStart then
    let text := c.rest.takeWhile isNameChar
    .ok (String.ofList text, c.after text)
  else c.fail (.expectedName c.rest.head?)

/-- The words that are no names of variables. -/
def reservedWords : List String := ["and", "or", "not", "true", "false"]

/-- Whether a text is a name. -/
def isName (text : String) : Bool :=
  text.toList.head?.any isNameStart && text.toList.all isNameChar

/-- Whether a text is a name that can be bound: neither reserved nor the name of a function. -/
def isTarget (text : String) : Bool :=
  isName text && !reservedWords.contains text && (Builtin.ofName? text).isNone

end Stratagem.Literal
