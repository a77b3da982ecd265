import Mathlib.Data.List.Forall2
import Stratagem.Market.Bar
import Stratagem.Time.Instant

/-!
# Rows of fields

Histories come as rows of fields: a time, then five numbers. Which texts or values are times and
numbers depends on where the rows come from; what bar a row gives does not (`Bar.ReadOff`).
-/

namespace Stratagem

variable {α : Type} {time? : α → Option Instant} {number? : α → Option Float}

/-- A bar that is read off a row: its time off the first field, its numbers off the next five. -/
structure Bar.ReadOff (time? : α → Option Instant) (number? : α → Option Float) (fields : List α)
    (bar : Bar) : Prop where
  time : fields[0]?.bind time? = some bar.time
  opening : fields[1]?.bind number? = some bar.opening
  high : fields[2]?.bind number? = some bar.high
  low : fields[3]?.bind number? = some bar.low
  close : fields[4]?.bind number? = some bar.close
  volume : fields[5]?.bind number? = some bar.volume

namespace Bar.ReadOff

theorem six {fields : List α} {bar : Bar} (h : ReadOff time? number? fields bar) :
    6 ≤ fields.length := by
  obtain ⟨field, hfield, -⟩ := Option.bind_eq_some_iff.1 h.volume
  exact (List.getElem?_eq_some_iff.1 hfield).1

theorem unique {fields : List α} {bar bar' : Bar} (h : ReadOff time? number? fields bar)
    (h' : ReadOff time? number? fields bar') : bar = bar' := by
  have time := Option.some.inj (h.time.symm.trans h'.time)
  have opening := Option.some.inj (h.opening.symm.trans h'.opening)
  have high := Option.some.inj (h.high.symm.trans h'.high)
  have low := Option.some.inj (h.low.symm.trans h'.low)
  have close := Option.some.inj (h.close.symm.trans h'.close)
  have volume := Option.some.inj (h.volume.symm.trans h'.volume)
  cases bar
  cases bar'
  simp only at time opening high low close volume
  subst time opening high low close volume
  rfl

theorem exists_forall₂_iff {rows : List (List α)} :
    (∃ bars, List.Forall₂ (ReadOff time? number?) rows bars) ↔
      ∀ fields ∈ rows, ∃ bar, ReadOff time? number? fields bar := by
  induction rows with
  | nil => simp
  | cons fields rows ih =>
    rw [List.forall_mem_cons, ← ih]
    constructor
    · rintro ⟨_, gives⟩
      cases gives with
      | cons own rest => exact ⟨⟨_, own⟩, _, rest⟩
    · rintro ⟨⟨bar, own⟩, bars, rest⟩
      exact ⟨bar :: bars, .cons own rest⟩

/-- The bars of fewer rows are a part of the bars of all. -/
theorem sublist {some all : List (List α)} (h : some.Sublist all) {bars bars' : List Bar}
    (gives : List.Forall₂ (ReadOff time? number?) some bars)
    (gives' : List.Forall₂ (ReadOff time? number?) all bars') : bars.Sublist bars' := by
  induction h generalizing bars bars' with
  | slnil =>
    cases gives
    cases gives'
    exact .slnil
  | cons fields _ ih =>
    cases gives' with
    | cons _ rest => exact (ih gives rest).cons _
  | cons_cons fields _ ih =>
    cases gives with
    | cons own rest =>
      cases gives' with
      | cons own' rest' =>
        cases own.unique own'
        exact (ih rest rest').cons_cons _

end Bar.ReadOff

end Stratagem
