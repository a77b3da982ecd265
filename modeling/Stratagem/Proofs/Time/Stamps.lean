import Stratagem.Proofs.Chains
import Stratagem.Proofs.Decimal.Digits
import Stratagem.Proofs.Time.Calendar
import Stratagem.Time.Stamp
import Stratagem.Time.StampReading

/-!
# Stamps are read back

The stamp of an instant with `Z` for its offset is read as the instant (`ofStamp?_zuluStamp`), for
all instants that the calendar covers (`Instant.Valid`).
-/

namespace Stratagem.Instant

open Time Decimal

/-- An instant of the years that the calendar covers. A leap second follows second 59. -/
structure Valid (t : Instant) : Prop where
  least : leastSeconds ≤ t.seconds
  last : t.seconds < endSeconds
  nanos : t.nanos < 2000000000
  leap : 1000000000 ≤ t.nanos → t.seconds % 60 = 59

/-- The instant of a date and a time with an offset. A year that has a sign may be of any length. -/
def ofStamp? (text : String) : Option Instant :=
  match text.toList with
  | '-' :: cs => (takeDigits 1 cs.length cs).bind fun (year, r) => readAfterYear (-(year : Int)) r
  | '+' :: cs => (takeDigits 1 cs.length cs).bind fun (year, r) => readAfterYear year r
  | cs => readZoned cs

/-! ## Numbers of a stamp -/

theorem takeDigits_digits {ds rest : List Char} {least most : Nat} (digits : AreDigits ds)
    (enough : least ≤ ds.length) (le : ds.length ≤ most)
    (ends : EndsDigits (rest.take (most - ds.length))) :
    takeDigits least most (ds ++ rest) = some (digitsValue ds, rest) := by
  have taken : ((ds ++ rest).take most).takeWhile Char.isDigit = ds := by
    rw [List.take_append, List.take_of_length_le le, takeWhile_digits digits ends]
  unfold takeDigits
  rw [taken, if_neg (Nat.not_lt.2 enough), List.drop_left]

theorem takeDigits_padded {width n : Nat} (pos : 0 < width) (h : n < 10 ^ width)
    (rest : List Char) : takeDigits width width (padded width n ++ rest) = some (n, rest) := by
  have length := length_padded pos h
  rw [takeDigits_digits (areDigits_padded width n) length.ge length.le, digitsValue_padded]
  rw [length, Nat.sub_self]
  exact endsDigits_nil

theorem takeFraction_padded {width n : Nat} (pos : 0 < width) (le : width ≤ 9)
    (h : n < 10 ^ width) :
    takeFraction ('.' :: padded width n ++ ['Z']) = some (n * 10 ^ (9 - width), ['Z']) := by
  have length := length_padded pos h
  have digits : (padded width n ++ ['Z']).takeWhile Char.isDigit = padded width n :=
    takeWhile_digits (areDigits_padded width n) (endsDigits_cons rfl [])
  have nonempty : (padded width n).isEmpty = false := by
    rw [List.isEmpty_eq_false_iff, ← List.length_pos_iff, length]
    exact pos
  simp only [List.cons_append, takeFraction, digits, nonempty, Bool.false_eq_true, if_false]
  rw [List.take_of_length_le (length.trans_le le), digitsValue_padded, length,
    List.drop_left' length]
  rfl

theorem takeFraction_fractionText (t : Instant) :
    takeFraction (t.fractionText ++ ['Z']) = some (t.nanos % 1000000000, ['Z']) := by
  unfold fractionText
  generalize hn : t.nanos % 1000000000 = n
  have lt : n < 10 ^ 9 := by omega
  dsimp only
  split
  · subst n
    rename_i zero
    rw [zero]
    rfl
  split
  · rw [takeFraction_padded (by decide) (by decide) (by omega)]
    congr 2
    omega
  split
  · rw [takeFraction_padded (by decide) (by decide) (by omega)]
    congr 2
    omega
  · rw [takeFraction_padded (by decide) (by decide) lt]
    congr 2
    omega

/-! ## Dates and times -/

theorem Valid.covered {t : Instant} (valid : t.Valid) : Date.Covered t.day := by
  have least := valid.least
  have last := valid.last
  unfold leastSeconds endSeconds secondsPerDay at *
  unfold Date.Covered day secondsPerDay
  omega

theorem clock_lt {t : Instant} (valid : t.Valid) :
    t.clock.1 < 10 ^ 2 ∧ t.clock.2.1 < 10 ^ 2 ∧ t.clock.2.2 < 10 ^ 2 := by
  have nanos := valid.nanos
  unfold clock secondsPerDay
  dsimp only
  omega

theorem date_lt {t : Instant} (valid : t.Valid) :
    (Date.ofDay t.day).month < 10 ^ 2 ∧ (Date.ofDay t.day).day < 10 ^ 2 := by
  have month : ∀ year month, daysInMonth year month ≤ 31 := by
    intro year month
    unfold daysInMonth
    split
    · split <;> decide
    · decide
    · decide
    · decide
    · decide
    · decide
  have exists' := Date.isValid_ofDay valid.covered
  simp only [Date.isValid, Bool.and_eq_true, decide_eq_true_eq] at exists'
  have := month (Date.ofDay t.day).year (Date.ofDay t.day).month
  omega

theorem ofClock?_clock {t : Instant} (valid : t.Valid) :
    ofClock? (Date.ofDay t.day) t.clock.1 t.clock.2.1 t.clock.2.2 (t.nanos % 1000000000) =
      some t := by
  have date := Date.isValid_ofDay valid.covered
  obtain ⟨-, -, nanos, leap⟩ := valid
  unfold ofClock? clock
  rw [if_pos ⟨date, by dsimp only [secondsPerDay]; omega⟩, Date.toDay_ofDay]
  obtain ⟨seconds, ns⟩ := t
  simp only [day, secondsPerDay, Option.some.injEq, Instant.mk.injEq, Int.ofNat_eq_natCast] at *
  omega

theorem takeChar_cons (c : Char) (cs : List Char) : takeChar c (c :: cs) = some cs :=
  if_pos (beq_self_eq_true c)

/-- What follows the year of a stamp is read as the date and the time that it gives. -/
theorem readAfterYear_eq {month day hour minute second nanos : Nat} (hmonth : month < 10 ^ 2)
    (hday : day < 10 ^ 2) (hhour : hour < 10 ^ 2) (hminute : minute < 10 ^ 2)
    (hsecond : second < 10 ^ 2) {fraction : List Char}
    (hfraction : takeFraction (fraction ++ ['Z']) = some (nanos, ['Z'])) (year : Int) :
    readAfterYear year ('-' :: (padded 2 month ++ '-' :: (padded 2 day ++ 'T' ::
      (padded 2 hour ++ ':' :: (padded 2 minute ++ ':' :: (padded 2 second ++
        (fraction ++ ['Z']))))))) = do
      let t ← ofClock? ⟨year, month, day⟩ hour minute second nanos
      let moved ← ofSeconds? (t.seconds - 0)
      return { moved with nanos := t.nanos } := by
  have number {n : Nat} (h : n < 10 ^ 2) (rest : List Char) :
      takeDigits 2 2 (padded 2 n ++ rest) = some (n, rest) := takeDigits_padded Nat.two_pos h rest
  refine bind_of_eq_some (takeChar_cons _ _) ?_
  refine bind_of_eq_some (number hmonth _) ?_
  refine bind_of_eq_some (takeChar_cons _ _) ?_
  refine bind_of_eq_some (number hday _) ?_
  refine bind_of_eq_some (congrArg (Option.or · _) (takeChar_cons _ _)) ?_
  refine bind_of_eq_some (number hhour _) ?_
  refine bind_of_eq_some (takeChar_cons _ _) ?_
  refine bind_of_eq_some (number hminute _) ?_
  refine bind_of_eq_some (takeChar_cons _ _) ?_
  refine bind_of_eq_some (number hsecond _) ?_
  refine bind_of_eq_some hfraction ?_
  exact bind_of_eq_some (a := 0) rfl rfl

/-- Behind its year, a stamp is read as the instant. -/
theorem readAfterYear_stamp {t : Instant} (valid : t.Valid) :
    readAfterYear (Date.ofDay t.day).year ('-' :: (padded 2 (Date.ofDay t.day).month ++
      '-' :: (padded 2 (Date.ofDay t.day).day ++ 'T' :: (t.timeText ++ ['Z'])))) = some t := by
  obtain ⟨month, day⟩ := date_lt valid
  obtain ⟨hour, minute, second⟩ := clock_lt valid
  have read := readAfterYear_eq month day hour minute second (takeFraction_fractionText t)
    (Date.ofDay t.day).year
  have seconds : ofSeconds? (t.seconds - 0) = some ⟨t.seconds, 0⟩ := by
    rw [ofSeconds?, Int.sub_zero, if_pos ⟨valid.least, valid.last⟩]
  rw [ofClock?_clock valid, Option.bind_eq_bind, Option.bind_some, seconds] at read
  simp only [timeText, List.append_assoc, List.cons_append]
  exact read

theorem takeDigits_year (width n : Nat) (pos : 0 < width) (rest : List Char) :
    takeDigits 1 (padded width n ++ '-' :: rest).length (padded width n ++ '-' :: rest) =
      some (n, '-' :: rest) := by
  have enough := le_length_padded width n
  rw [takeDigits_digits (areDigits_padded width n) (by omega), digitsValue_padded]
  · rw [List.length_append]
    omega
  · rw [List.length_append, Nat.add_sub_cancel_left, List.take_length]
    exact endsDigits_cons rfl rest

theorem ofStamp?_of_digits {text : String} {ds rest : List Char} (digits : AreDigits ds)
    (some : ds ≠ []) (h : text.toList = ds ++ rest) : ofStamp? text = readZoned (ds ++ rest) := by
  obtain ⟨d, ds, rfl⟩ := List.exists_cons_of_ne_nil some
  have digit := digits d List.mem_cons_self
  unfold ofStamp?
  rw [h]
  split
  · rename_i same
    cases same
    exact absurd digit (by decide)
  · rename_i same
    cases same
    exact absurd digit (by decide)
  · rfl

/-- The stamp of an instant is read as the instant. -/
theorem ofStamp?_zuluStamp {t : Instant} (valid : t.Valid) : ofStamp? t.zuluStamp = some t := by
  have behind := readAfterYear_stamp valid
  have text : t.zuluStamp.toList = yearText (Date.ofDay t.day).year ++ ('-' ::
      (padded 2 (Date.ofDay t.day).month ++
        '-' :: (padded 2 (Date.ofDay t.day).day ++ 'T' :: (t.timeText ++ ['Z'])))) := by
    simp [zuluStamp, dateText]
  generalize padded 2 (Date.ofDay t.day).month ++
    '-' :: (padded 2 (Date.ofDay t.day).day ++ 'T' :: (t.timeText ++ ['Z'])) = rest at behind text
  generalize (Date.ofDay t.day).year = year at behind text
  unfold yearText at text
  split at text
  · rename_i plain
    have length := length_padded (show 0 < 4 by decide) (show year.toNat < 10 ^ 4 by omega)
    have digits := areDigits_padded 4 year.toNat
    rw [ofStamp?_of_digits digits (List.ne_nil_of_length_pos (by omega)) text, readZoned,
      takeDigits_padded (by decide) (by omega)]
    show readAfterYear (year.toNat : Int) ('-' :: rest) = some t
    rw [Int.toNat_of_nonneg plain.1]
    exact behind
  · split at text
    · rename_i negative
      unfold ofStamp?
      rw [text]
      show (takeDigits 1 (padded 4 year.natAbs ++ '-' :: rest).length
        (padded 4 year.natAbs ++ '-' :: rest)).bind _ = _
      rw [takeDigits_year 4 year.natAbs (by decide)]
      show readAfterYear (-(year.natAbs : Int)) ('-' :: rest) = some t
      rw [Int.ofNat_natAbs_of_nonpos (by omega), Int.neg_neg]
      exact behind
    · rename_i positive
      unfold ofStamp?
      rw [text]
      show (takeDigits 1 (padded 5 year.natAbs ++ '-' :: rest).length
        (padded 5 year.natAbs ++ '-' :: rest)).bind _ = _
      rw [takeDigits_year 5 year.natAbs (by decide)]
      show readAfterYear (year.natAbs : Int) ('-' :: rest) = some t
      rw [Int.natAbs_of_nonneg (by omega)]
      exact behind

end Stratagem.Instant
