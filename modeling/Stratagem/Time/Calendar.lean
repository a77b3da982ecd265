/-!
# Calendar

Days and dates of the proleptic Gregorian calendar. A day is counted from 1 January 1970. In 400
years there are 146097 days; counting from 1 March puts the leap day at the end of a year, and
`Date.ofDay` and `Date.toDay` work with years that begin there.
-/

namespace Stratagem.Time

/-- A date of the calendar; `Date.IsValid` says which ones exist. -/
structure Date where
  year : Int
  month : Nat
  day : Nat
  deriving DecidableEq, Repr

/-- Whether a year has 366 days. -/
def isLeapYear (year : Int) : Bool := year % 4 == 0 && (year % 100 != 0 || year % 400 == 0)

/-- The number of days in a month. -/
def daysInMonth (year : Int) (month : Nat) : Nat :=
  match month with
  | 2 => if isLeapYear year then 29 else 28
  | 4 | 6 | 9 | 11 => 30
  | _ => 31

/-- The years an instant can lie in. -/
def firstYear : Int := -262143

/-- The last of these years. -/
def lastYear : Int := 262142

/-- Whether a date exists and lies in the years covered. -/
def Date.isValid (d : Date) : Bool :=
  firstYear ≤ d.year && d.year ≤ lastYear && 1 ≤ d.month && d.month ≤ 12 && 1 ≤ d.day &&
    d.day ≤ daysInMonth d.year d.month

/-- The number of days in 400 years. -/
def daysPerCycle : Int := 146097

/-- The number of days from 1 March of the year 0 to 1 January 1970. -/
def dayOfMarchZero : Int := 719468

/-- The day that a date falls on. -/
def Date.toDay (d : Date) : Int :=
  let year := if d.month ≤ 2 then d.year - 1 else d.year
  let cycle := year / 400
  let yearOfCycle := year % 400
  let month : Int := ((d.month + 9) % 12 : Nat)
  let dayOfYear := (153 * month + 2) / 5 + d.day - 1
  let dayOfCycle := yearOfCycle * 365 + yearOfCycle / 4 - yearOfCycle / 100 + dayOfYear
  cycle * daysPerCycle + dayOfCycle - dayOfMarchZero

/-- The date of a day. -/
def Date.ofDay (day : Int) : Date :=
  let shifted := day + dayOfMarchZero
  let cycle := shifted / daysPerCycle
  let dayOfCycle := shifted % daysPerCycle
  let yearOfCycle :=
    (dayOfCycle - dayOfCycle / 1460 + dayOfCycle / 36524 - dayOfCycle / 146096) / 365
  let dayOfYear := dayOfCycle - (365 * yearOfCycle + yearOfCycle / 4 - yearOfCycle / 100)
  let month := (5 * dayOfYear + 2) / 153
  let dayOfMonth := dayOfYear - (153 * month + 2) / 5 + 1
  let monthOfYear := if month < 10 then month + 3 else month - 9
  let year := yearOfCycle + cycle * 400
  { year := if monthOfYear ≤ 2 then year + 1 else year
    month := monthOfYear.toNat
    day := dayOfMonth.toNat }

end Stratagem.Time
