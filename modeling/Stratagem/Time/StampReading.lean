import Stratagem.Text.Blank
import Stratagem.Decimal.Reading
import Stratagem.Time.Instant

/-!
# Reading instants

The four forms in which a table of bars may give a time, in the order in which they are tried:

* a date and a time with an offset (`readZoned`), such as `2024-01-15T10:00:00.5+02:00`;
* a date and a time in UTC (`readLocal`), such as `2024-01-15 10:00:00`;
* a date, which stands for its first second;
* a whole number of seconds.

The first form has fixed widths. In the next two a number may have blanks in front and fewer
digits, and a year with a sign may have more than four.
-/

namespace Stratagem.Instant

open Time Text Decimal

/-- At most `most` digits, and at least `least` of them. -/
def takeDigits (least most : Nat) (cs : List Char) : Option (Nat × List Char) :=
  let ds := (cs.take most).takeWhile Char.isDigit
  if ds.length < least then none else some (digitsValue ds, cs.drop ds.length)

/-- The rest of a text after a given character. -/
def takeChar (c : Char) : List Char → Option (List Char)
  | d :: cs => if d == c then some cs else none
  | [] => none

/-- The instant at a date and a time of day; second 60 is the leap second. -/
def ofClock? (d : Date) (hour minute second nanos : Nat) : Option Instant :=
  if d.isValid ∧ hour < 24 ∧ minute < 60 ∧ second ≤ 60 then
    let leap := second / 60
    let secondOfDay := hour * 3600 + minute * 60 + (second - leap)
    some
      { seconds := d.toDay * secondsPerDay + Int.ofNat secondOfDay
        nanos := nanos + leap * 1000000000 }
  else none

/-- The digits after a point as nanoseconds; digits after the ninth are dropped. -/
def takeFraction (cs : List Char) : Option (Nat × List Char) :=
  match cs with
  | '.' :: r =>
    let ds := r.takeWhile Char.isDigit
    if ds.isEmpty then none
    else
      let kept := ds.take 9
      some (digitsValue kept * Nat.pow 10 (9 - kept.length), r.drop ds.length)
  | r => some (0, r)

/-- The offset from UTC at the end of a time, in seconds and below one day. -/
def takeOffset (cs : List Char) : Option Int :=
  match cs with
  | ['Z'] | ['z'] => some 0
  | c :: r => do
    let sign ← if c == '+' then some 1 else if c == '-' || c == '−' then some (-1) else none
    let (hours, r) ← takeDigits 2 2 r
    let r ← takeChar ':' r
    let (minutes, r) ← takeDigits 2 2 r
    if r.isEmpty ∧ hours < 24 ∧ minutes < 60 then
      some (sign * ((hours * 3600 + minutes * 60 : Nat) : Int))
    else none
  | [] => none

/-- What follows the year in a date and a time with an offset. -/
def readAfterYear (year : Int) (cs : List Char) : Option Instant := do
  let cs ← takeChar '-' cs
  let (month, cs) ← takeDigits 2 2 cs
  let cs ← takeChar '-' cs
  let (day, cs) ← takeDigits 2 2 cs
  let cs ← (takeChar 'T' cs).or ((takeChar 't' cs).or (takeChar ' ' cs))
  let (hour, cs) ← takeDigits 2 2 cs
  let cs ← takeChar ':' cs
  let (minute, cs) ← takeDigits 2 2 cs
  let cs ← takeChar ':' cs
  let (second, cs) ← takeDigits 2 2 cs
  let (nanos, cs) ← takeFraction cs
  let offset ← takeOffset cs
  let t ← ofClock? ⟨year, month, day⟩ hour minute second nanos
  let moved ← ofSeconds? (t.seconds - offset)
  return { moved with nanos := t.nanos }

/-- A date and a time with an offset. -/
def readZoned (cs : List Char) : Option Instant := do
  let (year, cs) ← takeDigits 4 4 cs
  readAfterYear year cs

/-- A number with blanks in front. -/
def takeNumber (most : Nat) (cs : List Char) : Option (Nat × List Char) :=
  takeDigits 1 most (skipBlanks cs)

/-- A year of at most four digits, or of any number of digits after a sign. -/
def takeYear (cs : List Char) : Option (Int × List Char) :=
  match skipBlanks cs with
  | '-' :: r => (takeDigits 1 r.length r).map fun (y, r) => (-(y : Int), r)
  | '+' :: r => (takeDigits 1 r.length r).map fun (y, r) => ((y : Int), r)
  | r => (takeDigits 1 4 r).map fun (y, r) => ((y : Int), r)

/-- A date whose numbers may be short. -/
def takeDate (cs : List Char) : Option (Date × List Char) := do
  let (year, cs) ← takeYear cs
  let cs ← takeChar '-' cs
  let (month, cs) ← takeNumber 2 cs
  let cs ← takeChar '-' cs
  let (day, cs) ← takeNumber 2 cs
  return (⟨year, month, day⟩, cs)

/-- A date and a time in UTC. -/
def readLocal (cs : List Char) : Option Instant := do
  let (date, cs) ← takeDate cs
  let (hour, cs) ← takeNumber 2 cs
  let cs ← takeChar ':' cs
  let (minute, cs) ← takeNumber 2 cs
  let cs ← takeChar ':' cs
  let (second, cs) ← takeNumber 2 cs
  if cs.isEmpty then ofClock? date hour minute second 0 else none

/-- A date. -/
def readDate (cs : List Char) : Option Instant := do
  let (date, cs) ← takeDate cs
  if cs.isEmpty then ofClock? date 0 0 0 0 else none

/-- The instant that a text gives, in any of the four forms. -/
def read? (text : String) : Option Instant :=
  let cs := trimChars text.toList
  (readZoned cs).or ((readLocal cs).or ((readDate cs).or
    ((readInteger? (String.ofList cs)).bind ofSeconds?)))

end Stratagem.Instant
