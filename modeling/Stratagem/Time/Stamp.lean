import Stratagem.Decimal.Layout
import Stratagem.Time.Instant

/-!
# Written instants

The text of an instant: `2024-01-01T00:00:00+00:00` in answers, with `Z` in logs, and
`2024-01-01 00:00:00 UTC` in messages. A fraction is shown with 3, 6 or 9 digits and only if there
is one, a leap second as second 60, and a year outside 0 to 9999 with its sign and five digits at
least.
-/

namespace Stratagem.Instant

open Time Decimal

/-- The hour, minute and second of the day. -/
def clock (t : Instant) : Nat × Nat × Nat :=
  let s := (t.seconds % secondsPerDay).toNat
  (s / 3600, s / 60 % 60, s % 60 + t.nanos / 1000000000)

/-- A year; four digits are enough only up to 9999. -/
def yearText (year : Int) : List Char :=
  if 0 ≤ year ∧ year ≤ 9999 then padded 4 year.toNat
  else (if year < 0 then '-' else '+') :: padded (if year < 0 then 4 else 5) year.natAbs

/-- The date of an instant as `2024-01-01`. -/
def dateText (t : Instant) : List Char :=
  let d := Date.ofDay t.day
  yearText d.year ++ '-' :: padded 2 d.month ++ '-' :: padded 2 d.day

/-- The point and the digits after it, if there are any. -/
def fractionText (t : Instant) : List Char :=
  let n := t.nanos % 1000000000
  if n = 0 then []
  else if n % 1000000 = 0 then '.' :: padded 3 (n / 1000000)
  else if n % 1000 = 0 then '.' :: padded 6 (n / 1000)
  else '.' :: padded 9 n

/-- The time of day of an instant as `00:00:00`. -/
def timeText (t : Instant) : List Char :=
  let (hour, minute, second) := t.clock
  padded 2 hour ++ ':' :: padded 2 minute ++ ':' :: padded 2 second ++ t.fractionText

/-- The instant with its offset written out, which is zero. -/
def offsetStamp (t : Instant) : String :=
  String.ofList (t.dateText ++ 'T' :: t.timeText ++ ['+', '0', '0', ':', '0', '0'])

/-- The instant with `Z` for its offset. -/
def zuluStamp (t : Instant) : String := String.ofList (t.dateText ++ 'T' :: t.timeText ++ ['Z'])

/-- The instant in messages. -/
def utcStamp (t : Instant) : String :=
  String.ofList (t.dateText ++ ' ' :: t.timeText ++ [' ', 'U', 'T', 'C'])

end Stratagem.Instant
