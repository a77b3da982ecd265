import Stratagem.Text.Blank

/-!
# Records

Tables of text: records of fields between commas, one to a line. A field in quotes may hold commas
and line ends, and a quote if it is written twice. A record ends at a line feed, a carriage return
or both; empty lines are skipped. What follows a closing quote still belongs to the field.

Every record knows where it starts: right behind the end of the record before it.
-/

namespace Stratagem

/-- A place in a text: its line, counted from one, and its byte, counted from zero. -/
structure LinePlace where
  line : Nat
  byte : Nat
  deriving DecidableEq, Repr

/-- A record of a table. -/
structure Record where
  place : LinePlace
  fields : List String
  deriving DecidableEq, Repr

namespace Record

/-- Where a scan stands. -/
inductive Mark
  /-- Before the first character of a record. -/
  | recordStart
  /-- Before the first character of a later field. -/
  | fieldStart
  | unquoted
  | quoted
  /-- Behind a quote inside a quoted field. -/
  | afterQuote
  deriving DecidableEq, Repr

/-- What a character does. -/
inductive Effect
  /-- It belongs to the field. -/
  | keep (next : Mark)
  | drop (next : Mark)
  | endField
  | endRecord
  deriving DecidableEq, Repr

/-- Whether a character ends a line. -/
def isLineEnd (c : Char) : Bool := c == '\n' || c == '\r'

/-- What a character outside quotes does. -/
def outside (c : Char) : Effect :=
  if c == ',' then .endField else if isLineEnd c then .endRecord else .keep .unquoted

/-- What a character at the start of a field does. -/
def atStart (c : Char) : Effect := if c == '"' then .drop .quoted else outside c

/-- What a character does at a place. -/
def effect : Mark → Char → Effect
  | .recordStart, c => if isLineEnd c then .drop .recordStart else atStart c
  | .fieldStart, c => atStart c
  | .unquoted, c => outside c
  | .quoted, c => if c == '"' then .drop .afterQuote else .keep .quoted
  | .afterQuote, c => if c == '"' then .keep .quoted else outside c

/-- The place behind a character. -/
def placeAfter (p : LinePlace) (c : Char) : LinePlace :=
  ⟨if c == '\n' then p.line + 1 else p.line, p.byte + c.utf8Size⟩

/-- The records of a text. The field and the fields read so far stand in reverse. -/
def scanRecords (mark : Mark) (field : List Char) (fields : List String) (start here : LinePlace) :
    List Char → List Record
  | [] =>
    if mark = .recordStart then []
    else [⟨start, (String.ofList field.reverse :: fields).reverse⟩]
  | c :: cs =>
    let next := placeAfter here c
    match effect mark c with
    | .keep m => scanRecords m (c :: field) fields start next cs
    | .drop m => scanRecords m field fields start next cs
    | .endField =>
      scanRecords .fieldStart [] (String.ofList field.reverse :: fields) start next cs
    | .endRecord =>
      ⟨start, (String.ofList field.reverse :: fields).reverse⟩ ::
        scanRecords .recordStart [] [] next next cs

/-- The records of a text; a byte order mark in front is skipped. -/
def ofText (text : String) : List Record :=
  match text.toList with
  | '\ufeff' :: cs => scanRecords .recordStart [] [] ⟨1, 3⟩ ⟨1, 3⟩ cs
  | cs => scanRecords .recordStart [] [] ⟨1, 0⟩ ⟨1, 0⟩ cs

end Record

end Stratagem
