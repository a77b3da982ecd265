import Stratagem.Decimal.Reading
import Stratagem.Json.Value
import Stratagem.Market.History

/-!
# Klines

An exchange answers with rows of the form
`[open time, "open", "high", "low", "close", "volume", close time, …]`, the times in milliseconds.
A row whose close time lies in the future is still being formed and is left out. The others become
bars in the order of their open times.
-/

namespace Stratagem

/-- What is wrong with an answer of an exchange. -/
inductive KlineFault
  | notAnArray
  | tooFewFields (row : Nat)
  | badOpenTime (row : Nat)
  | openTimeOutOfRange (row : Nat) (millis : Int)
  | badNumber (row : Nat) (column : String)
  deriving DecidableEq, Repr

namespace KlineFault

/-- What is wrong, in words. -/
def describe : KlineFault → String
  | notAnArray => "klines response is not an array"
  | tooFewFields row => s!"kline {toString row} has fewer than 6 fields"
  | badOpenTime row => s!"kline {toString row}: bad open time"
  | openTimeOutOfRange row millis =>
    s!"kline {toString row}: open time {toString millis} out of range"
  | badNumber row column => s!"kline {toString row}: bad {column}"

end KlineFault

namespace Klines

/-- A number that is given as such or as a text. -/
def number (row : Nat) (column : String) (v : Json) : Except KlineFault Float :=
  match v with
  | .text s => (Decimal.read s).mapError fun _ => .badNumber row column
  | .int n => .ok (Float.ofInt n)
  | .float x => .ok x
  | _ => .error (.badNumber row column)

/-- Whether a close time is given and lies in the future. -/
def isOpen (now : Int) (more : List Json) : Bool :=
  (more.head?.bind Json.int64?).any fun t => now < t

/-- The bar of a row, or none if the row is still open. -/
def rowBar? (now : Int) (row : Nat) (v : Json) : Except KlineFault (Option Bar) :=
  match v with
  | .array (openTime :: opening :: high :: low :: close :: volume :: more) =>
    match openTime.int64? with
    | none => .error (.badOpenTime row)
    | some millis =>
      match Instant.ofMillis? millis with
      | none => .error (.openTimeOutOfRange row millis)
      | some time =>
        if isOpen now more then .ok none
        else do
          let opening ← number row "open" opening
          let high ← number row "high" high
          let low ← number row "low" low
          let close ← number row "close" close
          let volume ← number row "volume" volume
          return some { time, opening, high, low, close, volume }
  | _ => .error (.tooFewFields row)

/-- The bars of rows in their order; `row` is the number of the first. -/
def rowBars (now : Int) : (row : Nat) → List Json → Except KlineFault (List Bar)
  | _, [] => .ok []
  | row, v :: vs => do
    let bar? ← rowBar? now row v
    let bars ← rowBars now (row + 1) vs
    return bar?.toList ++ bars

/-- The closed bars of an answer of an exchange. -/
def bars (body : Json) (now : Int) : Except FeedError (List Bar) :=
  let rows :=
    match body with
    | .array rows => (rowBars now 0 rows).map History.sortBars
    | _ => .error .notAnArray
  rows.mapError fun fault => .malformed fault.describe

end Klines

end Stratagem
