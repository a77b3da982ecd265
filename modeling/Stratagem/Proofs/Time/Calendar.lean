import Mathlib.Tactic.IntervalCases
import Stratagem.Time.Calendar

/-!
# Days and dates

A day is read off its date again (`toDay_ofDay`), and the date of a day exists (`isValid_ofDay`).
Within 400 years, which begin in March, a day lies in a century, in four years of this century, in
one of these years, and in one of its days (`YearDay`); the last day of a year is the 29 February.
-/

namespace Stratagem.Time

/-- The parts of a day of a cycle of 400 years: centuries, groups of four years, years and days. -/
structure YearDay (dayOfCycle : Int) where
  century : Int
  group : Int
  year : Int
  day : Int
  century_mem : 0 ≤ century ∧ century ≤ 3
  group_mem : 0 ≤ group ∧ group ≤ 24
  year_mem : 0 ≤ year ∧ year ≤ 3
  day_mem : 0 ≤ day ∧ day ≤ 365
  /-- The last day is there in every fourth year, but not at the end of a century unless it is the
  last one. -/
  leap : day = 365 → year = 3 ∧ (group = 24 → century = 3)
  sum : dayOfCycle = 36524 * century + 1461 * group + 365 * year + day

theorem exists_yearDay {d : Int} (nonneg : 0 ≤ d) (lt : d < 146097) : Nonempty (YearDay d) := by
  -- The last century and the last year of four are a day longer than the others.
  obtain ⟨c, r, hc, hr, last, rfl⟩ : ∃ c r : Int, (0 ≤ c ∧ c ≤ 3) ∧ (0 ≤ r ∧ r ≤ 36524) ∧
      (r = 36524 → c = 3) ∧ d = 36524 * c + r := by
    by_cases h : d = 146096
    · exact ⟨3, 36524, by omega⟩
    · exact ⟨d / 36524, d % 36524, by omega⟩
  obtain ⟨t, s, ht, hs, leap, sum⟩ : ∃ t s : Int, (0 ≤ t ∧ t ≤ 3) ∧ (0 ≤ s ∧ s ≤ 365) ∧
      (s = 365 → t = 3) ∧ r % 1461 = 365 * t + s := by
    by_cases h : r % 1461 = 1460
    · exact ⟨3, 365, by omega⟩
    · exact ⟨r % 1461 / 365, r % 1461 % 365, by omega⟩
  exact ⟨⟨c, r / 1461, t, s, hc, by omega, ht, hs, by omega, by omega⟩⟩

namespace YearDay

variable {d : Int} (p : YearDay d)

/-- The year within the cycle. -/
def yearOfCycle : Int := 100 * p.century + 4 * p.group + p.year

theorem yearOfCycle_eq :
    (d - d / 1460 + d / 36524 - d / 146096) / 365 = p.yearOfCycle := by
  obtain ⟨c, q, t, r, ⟨hc, hc'⟩, hq, ⟨ht, ht'⟩, hr, leap, sum⟩ := p
  have centuries : d / 36524 = c ∨ d = 146096 := by omega
  have cycles : d / 146096 = 0 ∨ d = 146096 := by omega
  simp only [yearOfCycle]
  interval_cases c <;> interval_cases t <;> omega

theorem day_eq :
    d - (365 * p.yearOfCycle + p.yearOfCycle / 4 - p.yearOfCycle / 100) = p.day := by
  obtain ⟨c, q, t, r, hc, hq, ht, hr, leap, rfl⟩ := p
  simp only [yearOfCycle]
  omega

end YearDay

namespace Date

/-- The date at a month and a day of a year that begins in March. -/
def ofMarch (year month dayOfYear : Int) : Date where
  year := if 10 ≤ month then year + 1 else year
  month := (if month < 10 then month + 3 else month - 9).toNat
  day := (dayOfYear - (153 * month + 2) / 5 + 1).toNat

theorem ofDay_eq {day cycle d : Int} (hd : day + dayOfMarchZero = cycle * daysPerCycle + d)
    (nonneg : 0 ≤ d) (lt : d < daysPerCycle) (p : YearDay d) :
    ofDay day = ofMarch (cycle * 400 + p.yearOfCycle) ((5 * p.day + 2) / 153) p.day := by
  have hcycle : (day + dayOfMarchZero) / daysPerCycle = cycle := by
    rw [hd]
    unfold daysPerCycle at *
    omega
  have hrest : (day + dayOfMarchZero) % daysPerCycle = d := by
    rw [hd]
    unfold daysPerCycle at *
    omega
  have month : (5 * p.day + 2) / 153 ≤ 11 ∧ 0 ≤ (5 * p.day + 2) / 153 := by
    have := p.day_mem
    omega
  unfold ofDay ofMarch
  simp only [hcycle, hrest, p.yearOfCycle_eq, p.day_eq, Date.mk.injEq, and_true]
  generalize (5 * p.day + 2) / 153 = month at month
  split <;> split <;> omega

theorem toDay_ofMarch {year month dayOfYear : Int} (hmonth : month = (5 * dayOfYear + 2) / 153)
    (hday : 0 ≤ dayOfYear ∧ dayOfYear ≤ 365) :
    (ofMarch year month dayOfYear).toDay =
      year / 400 * daysPerCycle +
        (year % 400 * 365 + year % 400 / 4 - year % 400 / 100 + dayOfYear) - dayOfMarchZero := by
  have bounds : 0 ≤ month ∧ month ≤ 11 := by omega
  have start : (153 * month + 2) / 5 ≤ dayOfYear := by omega
  -- The months behind December belong to the next year, and are taken back.
  have hyear : (if (if month < 10 then month + 3 else month - 9).toNat ≤ 2 then
      (if 10 ≤ month then year + 1 else year) - 1 else if 10 ≤ month then year + 1 else year) =
        year := by
    split <;> split <;> omega
  have hmonth : ((((if month < 10 then month + 3 else month - 9).toNat + 9) % 12 : Nat) : Int) =
      month := by
    split <;> omega
  have hday : (((dayOfYear - (153 * month + 2) / 5 + 1).toNat : Nat) : Int) =
      dayOfYear - (153 * month + 2) / 5 + 1 := Int.toNat_of_nonneg (by omega)
  unfold toDay ofMarch
  simp only [hyear, hmonth, hday]
  omega

theorem exists_parts (day : Int) : ∃ cycle d : Int,
    day + dayOfMarchZero = cycle * daysPerCycle + d ∧ 0 ≤ d ∧ d < daysPerCycle ∧
      Nonempty (YearDay d) := by
  have sum := Int.mul_ediv_add_emod (day + dayOfMarchZero) daysPerCycle
  have nonneg := Int.emod_nonneg (day + dayOfMarchZero) (show daysPerCycle ≠ 0 by decide)
  have lt := Int.emod_lt_of_pos (day + dayOfMarchZero) (show 0 < daysPerCycle by decide)
  exact ⟨_, _, by rw [Int.mul_comm, sum], nonneg, lt, exists_yearDay nonneg lt⟩

theorem toDay_ofDay (day : Int) : (ofDay day).toDay = day := by
  obtain ⟨cycle, d, hd, nonneg, lt, ⟨p⟩⟩ := exists_parts day
  rw [ofDay_eq hd nonneg lt p, toDay_ofMarch rfl p.day_mem]
  have year : 0 ≤ p.yearOfCycle ∧ p.yearOfCycle < 400 := by
    have := p.century_mem
    have := p.group_mem
    have := p.year_mem
    unfold YearDay.yearOfCycle
    omega
  have whole : (cycle * 400 + p.yearOfCycle) / 400 = cycle := by omega
  have rest : (cycle * 400 + p.yearOfCycle) % 400 = p.yearOfCycle := by omega
  have day := p.day_eq
  rw [whole, rest]
  omega

theorem isLeapYear_of_day {d : Int} (p : YearDay d) (last : p.day = 365) (cycle : Int) :
    isLeapYear (cycle * 400 + p.yearOfCycle + 1) = true := by
  obtain ⟨year, century⟩ := p.leap last
  have := p.century_mem
  have := p.group_mem
  simp only [isLeapYear, YearDay.yearOfCycle, Bool.and_eq_true, Bool.or_eq_true, beq_iff_eq,
    bne_iff_ne]
  omega

/-- The date of a day of a year that begins in March, for the 29 February if there is one. -/
theorem daysInMonth_ofMarch {year month dayOfYear : Int}
    (hmonth : month = (5 * dayOfYear + 2) / 153) (hday : 0 ≤ dayOfYear ∧ dayOfYear ≤ 365)
    (leap : dayOfYear = 365 → isLeapYear (year + 1) = true) :
    1 ≤ (ofMarch year month dayOfYear).month ∧ (ofMarch year month dayOfYear).month ≤ 12 ∧
      1 ≤ (ofMarch year month dayOfYear).day ∧ (ofMarch year month dayOfYear).day ≤
        daysInMonth (ofMarch year month dayOfYear).year (ofMarch year month dayOfYear).month := by
  obtain ⟨nonneg, le⟩ : 0 ≤ month ∧ month ≤ 11 := by omega
  have positive : 1 ≤ (ofMarch year month dayOfYear).day := by
    simp only [ofMarch]
    omega
  have months : 1 ≤ (ofMarch year month dayOfYear).month ∧
      (ofMarch year month dayOfYear).month ≤ 12 := by
    simp only [ofMarch]
    omega
  refine ⟨months.1, months.2, positive, ?_⟩
  by_cases february : month = 11
  · subst february
    show (dayOfYear - (153 * 11 + 2) / 5 + 1).toNat ≤ if isLeapYear (year + 1) then 29 else 28
    split
    · omega
    · rename_i plain
      have : dayOfYear ≠ 365 := mt leap plain
      omega
  · -- All other months have 30 or 31 days.
    interval_cases month <;> first
      | show (dayOfYear - _ + 1).toNat ≤ 31; omega
      | show (dayOfYear - _ + 1).toNat ≤ 30; omega
      | exact absurd rfl february

/-- The days that the calendar covers. -/
def Covered (day : Int) : Prop :=
  toDay ⟨firstYear, 1, 1⟩ ≤ day ∧ day ≤ toDay ⟨lastYear, 12, 31⟩

theorem isValid_ofDay {day : Int} (h : Covered day) : (ofDay day).isValid = true := by
  obtain ⟨cycle, d, hd, nonneg, lt, ⟨p⟩⟩ := exists_parts day
  rw [ofDay_eq hd nonneg lt p]
  obtain ⟨h₁, h₂, h₃, h₄⟩ := @daysInMonth_ofMarch (cycle * 400 + p.yearOfCycle) _ _ rfl p.day_mem
    fun last => isLeapYear_of_day p last cycle
  obtain ⟨first, last⟩ : firstYear ≤ (ofMarch (cycle * 400 + p.yearOfCycle)
      ((5 * p.day + 2) / 153) p.day).year ∧ (ofMarch (cycle * 400 + p.yearOfCycle)
      ((5 * p.day + 2) / 153) p.day).year ≤ lastYear := by
    have first : toDay ⟨firstYear, 1, 1⟩ = -96465292 := rfl
    have last : toDay ⟨lastYear, 12, 31⟩ = 95026236 := rfl
    obtain ⟨low, high⟩ := h
    rw [first] at low
    rw [last] at high
    have sum := p.sum
    have := p.century_mem
    have := p.group_mem
    have := p.year_mem
    have := p.day_mem
    simp only [ofMarch, YearDay.yearOfCycle, firstYear, lastYear, daysPerCycle, dayOfMarchZero] at *
    omega
  simp [isValid, first, last, h₁, h₂, h₃, h₄]

end Date

end Stratagem.Time
