import Stratagem.Time.Calendar

/-!
# Instants and spans of time

A point of time in UTC: whole seconds since the start of 1970 and nanoseconds. Within a leap
second the nanoseconds run from one to two thousand million on top of second 59, so instants are
ordered by seconds first and nanoseconds second. The instants of the years covered by the calendar
are the only ones that are read.

A span of time is a number of nanoseconds, which may be negative. An instant and a span after it
make an instant, if the calendar covers it.
-/

namespace Stratagem

/-- A span of time. -/
structure TimeSpan where
  nanos : Int
  deriving DecidableEq, Repr, Inhabited

namespace TimeSpan

/-- A number of milliseconds. -/
def ofMillis (millis : Int) : TimeSpan := ⟨millis * 1000000⟩

/-- The whole milliseconds of a span, toward zero. -/
def millis (d : TimeSpan) : Int := d.nanos.tdiv 1000000

/-- The whole seconds of a span, toward zero. -/
def seconds (d : TimeSpan) : Int := d.nanos.tdiv 1000000000

/-- A span counts as its whole milliseconds. -/
instance : Coe TimeSpan Int := ⟨millis⟩

@[simp] theorem millis_ofMillis (n : Int) : (ofMillis n).millis = n :=
  Int.mul_tdiv_cancel n (by decide)

end TimeSpan

/-- A point of time in UTC. -/
structure Instant where
  /-- Seconds since the start of 1970. -/
  seconds : Int
  /-- Nanoseconds, below two thousand million; a thousand million or more in a leap second. -/
  nanos : Nat
  deriving DecidableEq, Repr, Inhabited

namespace Instant

open Time

/-- Earlier or equal: seconds count first. -/
def le (a b : Instant) : Bool :=
  a.seconds < b.seconds || (a.seconds == b.seconds && a.nanos ≤ b.nanos)

instance : LE Instant where
  le a b := le a b = true

instance (a b : Instant) : Decidable (a ≤ b) := inferInstanceAs (Decidable (le a b = true))

instance : LT Instant where
  lt a b := ¬b ≤ a

instance (a b : Instant) : Decidable (a < b) := inferInstanceAs (Decidable (¬b ≤ a))

/-- The number of seconds in a day. -/
def secondsPerDay : Int := 86400

/-- The UTC day of an instant. -/
def day (t : Instant) : Int := t.seconds / secondsPerDay

/-- The first second that an instant can have. -/
def leastSeconds : Int := Date.toDay ⟨firstYear, 1, 1⟩ * secondsPerDay

/-- The second after the last one that an instant can have. -/
def endSeconds : Int := (Date.toDay ⟨lastYear, 12, 31⟩ + 1) * secondsPerDay

/-- The instant at a whole second, if the calendar covers it. -/
def ofSeconds? (seconds : Int) : Option Instant :=
  if leastSeconds ≤ seconds ∧ seconds < endSeconds then some ⟨seconds, 0⟩ else none

/-- The instant at a number of milliseconds, if the calendar covers it. -/
def ofMillis? (millis : Int) : Option Instant :=
  (ofSeconds? (millis / 1000)).map fun t => { t with nanos := (millis % 1000).toNat * 1000000 }

/-- The instant that lies `nanos` nanoseconds later, if the calendar covers it. Time that passes
inside a leap second stays in it; a step that leaves it counts from second 59. -/
def addNanos? (t : Instant) (nanos : Nat) : Option Instant :=
  let whole := nanos / 1000000000
  let part := nanos % 1000000000
  if 1000000000 ≤ t.nanos ∧ whole = 0 ∧ t.nanos + part < 2000000000 then
    some { t with nanos := t.nanos + part }
  else
    let nanos := t.nanos % 1000000000 + part
    (ofSeconds? (t.seconds + whole + nanos / 1000000000)).map fun u =>
      { u with nanos := nanos % 1000000000 }

theorem le_iff {a b : Instant} :
    a ≤ b ↔ a.seconds < b.seconds ∨ a.seconds = b.seconds ∧ a.nanos ≤ b.nanos := by
  show le a b = true ↔ _
  simp [le]

theorem le_refl (a : Instant) : a ≤ a := le_iff.2 (.inr ⟨rfl, Nat.le_refl _⟩)

theorem le_trans {a b c : Instant} (hab : a ≤ b) (hbc : b ≤ c) : a ≤ c := by
  rw [le_iff] at *
  omega

theorem le_total (a b : Instant) : a ≤ b ∨ b ≤ a := by
  rw [le_iff, le_iff]
  omega

theorem le_antisymm {a b : Instant} (hab : a ≤ b) (hba : b ≤ a) : a = b := by
  rw [le_iff] at *
  cases a
  cases b
  simp only [mk.injEq] at *
  omega

end Instant

end Stratagem
