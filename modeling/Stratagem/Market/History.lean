import Stratagem.Market.Feed
import Stratagem.Market.Records
import Stratagem.Time.StampReading

/-!
# Stored histories

The history of a market at an interval is a table in a file named after both, with the columns
`timestamp,open,high,low,close,volume` under a header. Rows may stand in any order: the bars are
sorted by time, and rows of one time keep their order. The first row that cannot be read makes the
whole table malformed.
-/

namespace Stratagem

/-- What is wrong with a row of a table. -/
inductive RowFault
  /-- A row has another number of fields than the header. -/
  | fieldCount (record : Nat) (place : LinePlace) (found header : Nat)
  | missing (line : Nat) (column : String)
  | badTime (line : Nat) (text : String)
  | badNumber (line : Nat) (column text : String) (error : Decimal.ReadError)
  deriving DecidableEq, Repr

namespace RowFault

/-- What is wrong, in words. -/
def describe : RowFault → String
  | fieldCount record place found header =>
    "CSV parse error: CSV error: " ++
      s!"record {toString record} " ++
      s!"(line: {toString place.line}, byte: {toString place.byte}): " ++
      s!"found record with {toString found} fields, " ++
      s!"but the previous record has {toString header} fields"
  | missing line column => s!"line {toString line}: missing {column} column"
  | badTime line text => s!"line {toString line}: invalid timestamp '{text}'"
  | badNumber line column text error =>
    s!"line {toString line}: invalid {column} value '{text}': {error.message}"

end RowFault

namespace History

/-- The field of a row under a column of a given number. -/
def field (line : Nat) (fields : List String) (index : Nat) (column : String) :
    Except RowFault String :=
  match fields[index]? with
  | some text => .ok text
  | none => .error (.missing line column)

/-- The number of a row under a column. -/
def number (line : Nat) (fields : List String) (index : Nat) (column : String) :
    Except RowFault Float := do
  let text ← field line fields index column
  match Decimal.read (Text.trim text) with
  | .ok x => return x
  | .error e => throw (.badNumber line column text e)

/-- The bar of a row; `line` is its number in messages. -/
def rowBar (line : Nat) (fields : List String) : Except RowFault Bar := do
  let stamp ← field line fields 0 "timestamp"
  match Instant.read? stamp with
  | none => throw (.badTime line stamp)
  | some time =>
    let opening ← number line fields 1 "open"
    let high ← number line fields 2 "high"
    let low ← number line fields 3 "low"
    let close ← number line fields 4 "close"
    let volume ← number line fields 5 "volume"
    return { time, opening, high, low, close, volume }

/-- The bars of rows in their order; `index` is the number of the first, the header being 0. -/
def rowBars (header : Nat) : (index : Nat) → List Record → Except RowFault (List Bar)
  | _, [] => .ok []
  | index, r :: rs => do
    if r.fields.length ≠ header then throw (.fieldCount index r.place r.fields.length header)
    let bar ← rowBar (index + 1) r.fields
    let bars ← rowBars header (index + 1) rs
    return bar :: bars

/-- Bars in the order of their times; those of one time keep their order. -/
def sortBars (bars : List Bar) : List Bar := bars.mergeSort fun a b => a.time ≤ b.time

/-- The bars of the records of a table, the first of which is its header. -/
def ofRecords : List Record → Except RowFault (List Bar)
  | [] => .ok []
  | header :: rows => (rowBars header.fields.length 1 rows).map sortBars

/-- The bars of a table, given how a text is split into records. -/
def ofText (split : String → List Record) (text : String) : Except FeedError (List Bar) :=
  (ofRecords (split text)).mapError fun fault => .malformed fault.describe

/-- The name of the file that holds the history of a market. -/
def fileName (symbol interval : String) : String := s!"{symbol}_{interval}.csv"

/-- The latest bars of a history that is kept at `path`. -/
def latest (path : String) (count : Nat) (bars : List Bar) : Except FeedError (List Bar) :=
  if bars.isEmpty then .error (.unavailable s!"{path} has no rows") else .ok (lastOf count bars)

/-- The symbol of a file with a history at an interval. -/
def symbolOf? (interval name : String) : Option String :=
  let ending := (fileName "" interval).toList
  let cs := name.toList
  if ending.isSuffixOf cs then some (String.ofList (cs.take (cs.length - ending.length))) else none

/-- The symbols of the files with a history at an interval, in ascending order. -/
def symbols (interval : String) (names : List String) : List String :=
  (names.filterMap (symbolOf? interval)).mergeSort fun a b => a ≤ b

end History

end Stratagem
