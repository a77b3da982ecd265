import Mathlib.Tactic.Positivity
import Stratagem.Decimal.Shortest
import Stratagem.Proofs.Decimal.Numerals
import Stratagem.Proofs.Decimal.Rounding

/-!
# Shortest digits read back

The shortest decimal of a double is rounded to it (`shortest_rounds`). A point of a grid is taken
only if it reads back (`readsBack_iff`), so it is enough that the search hits one: the last grid is
so fine that one of the value's two neighbours lies between the halfway points
(`nearestOnGrid_ne_none`), as its distance is at most `10 ^ -16` of the value
(`decimalExponent_le`).
-/

namespace Stratagem.Decimal

open Rounding

/-! ## Grids -/

theorem step_pos (exponent place : Int) : 0 < (Grid.of exponent place).step :=
  Nat.mul_pos (Nat.two_pow_pos _) (Nat.pow_pos (by decide))

theorem unit_pos (exponent place : Int) : 0 < (Grid.of exponent place).unit :=
  Nat.mul_pos (Nat.two_pow_pos _) (Nat.pow_pos (by decide))

theorem zpow_eq_div (b : ℚ) (e : Int) : b ^ e = b ^ e.toNat / b ^ (-e).toNat := by
  rcases Int.eq_nat_or_neg e with ⟨k, rfl | rfl⟩
  · simp
  · simp

/-- What unit and step of a grid stand for. -/
theorem unit_mul (exponent place : Int) :
    ((Grid.of exponent place).unit * 10 ^ place : ℚ) =
      (Grid.of exponent place).step * 2 ^ exponent := by
  show ((Nat.pow 2 exponent.toNat * Nat.pow 10 (-place).toNat : Nat) * 10 ^ place : ℚ) =
    (Nat.pow 2 (-exponent).toNat * Nat.pow 10 place.toNat : Nat) * 2 ^ exponent
  rw [zpow_eq_div 2, zpow_eq_div 10]
  simp only [Nat.pow_eq]
  push_cast
  field_simp

/-- Quarter units and points of a grid, counted in whole numbers, are in proportion to their
values. -/
theorem exists_scale (exponent place : Int) : ∃ c : ℚ, 0 < c ∧
    (∀ n : Nat, ((n * (Grid.of exponent place).unit : Nat) : ℚ) = c * (n / 4 * 2 ^ exponent)) ∧
    ∀ a : Nat, ((4 * a * (Grid.of exponent place).step : Nat) : ℚ) = c * (a * 10 ^ place) := by
  have ratio := unit_mul exponent place
  have unit : (0 : ℚ) < (Grid.of exponent place).unit := by exact_mod_cast unit_pos exponent place
  have power := two_zpow_pos exponent
  refine ⟨4 * (Grid.of exponent place).unit / 2 ^ exponent, by positivity, fun n => ?_, fun a => ?_⟩
  · push_cast
    field_simp
  · push_cast
    field_simp
    rw [mul_assoc, ← ratio, mul_assoc]

section

variable {tie : Tie} {significand : Nat} {exponent place : Int} {a : Nat}

/-- A point of a grid reads back if it is rounded to the double. -/
theorem readsBack_iff (hs : 0 < significand) :
    readsBack significand exponent (Grid.of exponent place) a = true ↔
      RoundsTo significand exponent (a * 10 ^ place) := by
  obtain ⟨c, pos, quarters, points⟩ := exists_scale exponent place
  have above : (((4 * significand + 2 : Nat) : ℚ) / 4) = significand + 1 / 2 := by
    push_cast
    ring
  have below : (((4 * significand -
      if significand = hiddenBit ∧ leastExponent < exponent then 1 else 2 : Nat) : ℚ) / 4) =
      significand - halfBelow significand exponent := by
    unfold halfBelow
    rw [hiddenBit, leastExponent, Nat.pow_eq]
    split
    · rw [Nat.cast_sub (by omega)]
      push_cast
      ring
    · rw [Nat.cast_sub (by omega)]
      push_cast
      ring
  unfold readsBack RoundsTo
  dsimp only
  split
  · rw [Bool.and_eq_true, decide_eq_true_eq, decide_eq_true_eq, ← Nat.cast_le (α := ℚ),
      ← Nat.cast_le (α := ℚ), quarters, quarters, points, mul_le_mul_iff_right₀ pos,
      mul_le_mul_iff_right₀ pos, above, below]
  · rw [Bool.and_eq_true, decide_eq_true_eq, decide_eq_true_eq, ← Nat.cast_lt (α := ℚ),
      ← Nat.cast_lt (α := ℚ), quarters, quarters, points, mul_lt_mul_iff_right₀ pos,
      mul_lt_mul_iff_right₀ pos, above, below]

/-- The point below a double's value, and the one above. -/
theorem stepsBelow_bounds (significand : Nat) (exponent place : Int) :
    (stepsBelow significand (Grid.of exponent place) * 10 ^ place : ℚ) ≤
        significand * 2 ^ exponent ∧
      (significand * 2 ^ exponent : ℚ) <
        (stepsBelow significand (Grid.of exponent place) + 1) * 10 ^ place := by
  obtain ⟨c, pos, quarters, points⟩ := exists_scale exponent place
  have value : ((4 * significand * (Grid.of exponent place).unit : Nat) : ℚ) =
      c * (significand * 2 ^ exponent) := by
    rw [quarters]
    push_cast
    ring
  have least := Nat.div_mul_le_self (significand * (Grid.of exponent place).unit)
    (Grid.of exponent place).step
  have most := Nat.lt_div_mul_add (a := significand * (Grid.of exponent place).unit)
    (step_pos exponent place)
  change stepsBelow significand (Grid.of exponent place) * _ ≤ _ at least
  change _ < stepsBelow significand (Grid.of exponent place) * _ + _ at most
  generalize stepsBelow significand (Grid.of exponent place) = a at least most ⊢
  constructor
  · rw [← mul_le_mul_iff_right₀ pos, ← points, ← value, Nat.cast_le]
    linarith
  · have next : c * ((a + 1) * 10 ^ place) =
        ((4 * (a + 1) * (Grid.of exponent place).step : Nat) : ℚ) := by
      rw [points]
      push_cast
      rfl
    rw [← mul_lt_mul_iff_right₀ pos, next, ← value, Nat.cast_lt]
    linarith

/-! ## The search -/

/-- A point that is taken reads back. -/
theorem readsBack_of_nearestOnGrid {g : Grid}
    (h : nearestOnGrid tie significand exponent g = some a) :
    readsBack significand exponent g a = true := by
  unfold nearestOnGrid at h
  dsimp only at h
  split at h
  · rename_i here next
    split at h <;> cases h
    · exact next
    · exact here
  · rename_i here _
    cases h
    exact here
  · rename_i next
    cases h
    exact next
  · cases h

/-- A point that is taken is one of the value's two neighbours. -/
theorem le_of_nearestOnGrid {g : Grid} (h : nearestOnGrid tie significand exponent g = some a) :
    a ≤ stepsBelow significand g + 1 := by
  unfold nearestOnGrid at h
  dsimp only at h
  split at h
  · split at h <;> cases h
    · exact le_rfl
    · exact Nat.le_succ _
  · cases h
    exact Nat.le_succ _
  · cases h
    exact le_rfl
  · cases h

/-- If none of the two neighbours is taken, none of them reads back. -/
theorem not_readsBack_of_eq_none {g : Grid} (h : nearestOnGrid tie significand exponent g = none) :
    readsBack significand exponent g (stepsBelow significand g) = false ∧
      readsBack significand exponent g (stepsBelow significand g + 1) = false := by
  unfold nearestOnGrid at h
  dsimp only at h
  split at h
  · cases h
  · cases h
  · cases h
  · rename_i here next
    exact ⟨here, next⟩

/-- On a grid that is fine enough one of the value's two neighbours is taken. -/
theorem nearestOnGrid_ne_none (canonical : Canonical significand exponent)
    (fine : (10 ^ 16 * 10 ^ place : ℚ) ≤ significand * 2 ^ exponent) :
    nearestOnGrid tie significand exponent (Grid.of exponent place) ≠ none := by
  intro none
  obtain ⟨here, next⟩ := not_readsBack_of_eq_none none
  rw [← Bool.not_eq_true, readsBack_iff canonical.pos] at here next
  obtain ⟨least, most⟩ := stepsBelow_bounds significand exponent place
  generalize stepsBelow significand (Grid.of exponent place) = a at here next least most
  have unit := two_zpow_pos exponent
  have half : 0 < halfBelow significand exponent * 2 ^ exponent :=
    mul_pos (halfBelow_pos _ _) unit
  -- A step is shorter than the interval, also below a power of two.
  have short : (10 ^ place : ℚ) < (halfBelow significand exponent + 1 / 2) * 2 ^ exponent := by
    unfold halfBelow
    split
    · rename_i power
      rw [power.1] at fine
      push_cast at fine
      linarith
    · have bits : (significand + 1 : ℚ) * 2 ^ exponent ≤ 2 ^ 53 * 2 ^ exponent :=
        mul_le_mul_of_nonneg_right (by exact_mod_cast canonical.lt) unit.le
      linarith
  have far : (a * 10 ^ place : ℚ) ≤
      (significand - halfBelow significand exponent) * 2 ^ exponent := by
    by_contra near
    exact here (.of_lt (not_le.1 near) (by linarith))
  exact next (.of_lt (by push_cast; linarith) (by push_cast; linarith))

/-- If the last grid has a hit, the search ends with a point that reads back. -/
theorem readsBack_searchGrids (budget : Nat)
    (last : nearestOnGrid tie significand exponent (Grid.of exponent (place - budget)) ≠ none) :
    readsBack significand exponent
      (Grid.of exponent (searchGrids tie significand exponent (budget + 1) place).place)
      (searchGrids tie significand exponent (budget + 1) place).digits = true := by
  induction budget generalizing place with
  | zero =>
    rw [Nat.cast_zero, sub_zero] at last
    obtain ⟨a, hit⟩ := Option.ne_none_iff_exists'.1 last
    rw [searchGrids, hit]
    exact readsBack_of_nearestOnGrid hit
  | succ budget ih =>
    rw [searchGrids]
    cases hit : nearestOnGrid tie significand exponent (Grid.of exponent place) with
    | some a => exact readsBack_of_nearestOnGrid hit
    | none =>
      refine ih ?_
      rwa [sub_sub, add_comm 1, ← Nat.cast_succ]

/-! ## The first grid -/

/-- The estimate of a power of ten from a power of two is not too large. -/
theorem ten_pow_le : ∀ k < 1100, 10 ^ (k * 30103 / 100000) ≤ 2 ^ k := by
  decide +kernel

theorem two_pow_le : ∀ k < 1100, 2 ^ k ≤ 10 ^ ((k * 30103 + 99999) / 100000) := by
  decide +kernel

theorem ten_zpow_le {k : Int} (low : -1100 < k) (high : k < 1100) :
    (10 : ℚ) ^ (k * 30103).fdiv 100000 ≤ 2 ^ k := by
  rcases Int.eq_nat_or_neg k with ⟨n, rfl | rfl⟩
  · have same : ((n : Int) * 30103).fdiv 100000 = (n * 30103 / 100000 : Nat) := by
      rw [Int.fdiv_eq_ediv_of_nonneg _ (by decide)]
      omega
    rw [same, zpow_natCast, zpow_natCast]
    exact_mod_cast ten_pow_le n (by omega)
  · have same : (-(n : Int) * 30103).fdiv 100000 = -((n * 30103 + 99999) / 100000 : Nat) := by
      rw [Int.fdiv_eq_ediv_of_nonneg _ (by decide)]
      omega
    rw [same, zpow_neg, zpow_neg, zpow_natCast, zpow_natCast]
    refine inv_anti₀ (by positivity) ?_
    exact_mod_cast two_pow_le n (by omega)

/-- The first grid's points are not farther apart than the value. -/
theorem decimalExponent_le (canonical : Canonical significand exponent) (high : exponent ≤ 971) :
    (10 : ℚ) ^ decimalExponent significand exponent ≤ significand * 2 ^ exponent := by
  unfold decimalExponent
  dsimp only
  split
  · have bits : significand.log2 ≤ 52 :=
      Nat.lt_succ_iff.1 ((Nat.log2_lt canonical.pos.ne').2 canonical.lt)
    have least := canonical.least
    have leading : (2 ^ significand.log2 : ℚ) ≤ significand := by
      exact_mod_cast Nat.log2_self_le canonical.pos.ne'
    refine (ten_zpow_le (by omega) (by omega)).trans ?_
    rw [zpow_add₀ two_ne_zero, zpow_natCast]
    exact mul_le_mul_of_nonneg_right leading (two_zpow_pos _).le
  · rename_i some
    have one : (1 : ℚ) ≤ stepsBelow significand (Grid.of exponent
        (((significand.log2 + exponent) * 30103).fdiv 100000 + 1)) := by
      exact_mod_cast Nat.pos_of_ne_zero some
    have unit : (0 : ℚ) < 10 ^ (((significand.log2 + exponent) * 30103).fdiv 100000 + 1) :=
      zpow_pos (by norm_num) _
    exact (le_mul_of_one_le_left unit.le one).trans (stepsBelow_bounds _ _ _).1

theorem two_zpow_le {k : Int} (low : -1100 < k) (high : k < 1099) :
    (2 : ℚ) ^ (k + 1) ≤ 10 ^ ((k * 30103).fdiv 100000 + 2) := by
  have ten : (1 : ℚ) ≤ 10 := by norm_num
  rcases lt_or_ge k 0 with negative | nonneg
  · obtain ⟨n, rfl⟩ : ∃ n : Nat, k = -(n + 1 : Nat) := ⟨(-k - 1).toNat, by omega⟩
    have power : (10 : ℚ) ^ (n * 30103 / 100000) ≤ 2 ^ n := by
      exact_mod_cast ten_pow_le n (by omega)
    calc (2 : ℚ) ^ (-(n + 1 : Nat) + 1 : Int) = (2 ^ n)⁻¹ := by
          rw [← zpow_natCast, ← zpow_neg]
          congr 1
          omega
      _ ≤ (10 ^ (n * 30103 / 100000))⁻¹ := inv_anti₀ (by positivity) power
      _ = 10 ^ (-(n * 30103 / 100000 : Nat) : Int) := by rw [zpow_neg, zpow_natCast]
      _ ≤ _ := zpow_le_zpow_right₀ ten (by
        rw [Int.fdiv_eq_ediv_of_nonneg _ (by decide)]
        omega)
  · lift k to Nat using nonneg
    have power : (2 : ℚ) ^ (k + 1) ≤ 10 ^ (((k + 1) * 30103 + 99999) / 100000) := by
      exact_mod_cast two_pow_le (k + 1) (by omega)
    rw [← zpow_natCast, ← zpow_natCast] at power
    refine power.trans (zpow_le_zpow_right₀ ten ?_)
    rw [Int.fdiv_eq_ediv_of_nonneg _ (by decide)]
    omega

/-- The value is less than ten points of the first grid. -/
theorem lt_decimalExponent (canonical : Canonical significand exponent) (high : exponent ≤ 971) :
    (significand * 2 ^ exponent : ℚ) < 10 ^ (decimalExponent significand exponent + 1) := by
  unfold decimalExponent
  dsimp only
  split
  · rename_i none
    have above := (stepsBelow_bounds significand exponent
      (((significand.log2 + exponent) * 30103).fdiv 100000 + 1)).2
    rwa [none, Nat.cast_zero, zero_add, one_mul] at above
  · have bits : significand.log2 ≤ 52 :=
      Nat.lt_succ_iff.1 ((Nat.log2_lt canonical.pos.ne').2 canonical.lt)
    have least := canonical.least
    have following : (significand : ℚ) < 2 ^ (significand.log2 + 1) := by
      exact_mod_cast Nat.lt_log2_self
    calc (significand * 2 ^ exponent : ℚ) < 2 ^ (significand.log2 + 1) * 2 ^ exponent :=
          mul_lt_mul_of_pos_right following (two_zpow_pos _)
      _ = 2 ^ ((significand.log2 : Int) + exponent + 1) := by
          rw [← zpow_natCast, ← zpow_add₀ two_ne_zero]
          congr 1
          omega
      _ ≤ _ := by
          rw [add_assoc _ 1 1]
          exact two_zpow_le (by omega) (by omega)

/-- The last grid has a hit. -/
theorem hit_last (tie : Tie) (canonical : Canonical significand exponent) (high : exponent ≤ 971) :
    nearestOnGrid tie significand exponent
      (Grid.of exponent (decimalExponent significand exponent - (16 : Nat))) ≠ none := by
  refine nearestOnGrid_ne_none canonical ((le_of_eq ?_).trans (decimalExponent_le canonical high))
  rw [zpow_sub₀ (by norm_num), zpow_natCast, mul_div_cancel₀ _ (by norm_num)]

/-- The shortest decimal of a positive double is rounded to it. -/
theorem shortest_rounds (tie : Tie) (canonical : Canonical significand exponent)
    (high : exponent ≤ 971) :
    RoundsTo significand exponent (shortest tie significand exponent).value := by
  exact (readsBack_iff canonical.pos).1 (readsBack_searchGrids 16 (hit_last tie canonical high))

/-- If the last grid has a hit, the search ends on a grid that is as coarse, next to the value. -/
theorem searchGrids_le (budget : Nat)
    (last : nearestOnGrid tie significand exponent (Grid.of exponent (place - budget)) ≠ none) :
    place - budget ≤ (searchGrids tie significand exponent (budget + 1) place).place ∧
      (searchGrids tie significand exponent (budget + 1) place).digits ≤
        stepsBelow significand (Grid.of exponent
          (searchGrids tie significand exponent (budget + 1) place).place) + 1 := by
  induction budget generalizing place with
  | zero =>
    rw [Nat.cast_zero, sub_zero] at last
    obtain ⟨a, hit⟩ := Option.ne_none_iff_exists'.1 last
    rw [searchGrids, hit]
    exact ⟨by simp, le_of_nearestOnGrid hit⟩
  | succ budget ih =>
    rw [searchGrids]
    cases hit : nearestOnGrid tie significand exponent (Grid.of exponent place) with
    | some a => exact ⟨sub_le_self _ (Int.natCast_nonneg _), le_of_nearestOnGrid hit⟩
    | none =>
      have rest := @ih (place - 1) (by rwa [sub_sub, add_comm 1, ← Nat.cast_succ])
      refine ⟨?_, rest.2⟩
      have := rest.1
      push_cast
      omega

/-- The shortest decimal has at most 17 digits, or it is the number after those. -/
theorem digits_shortest_le (tie : Tie) (canonical : Canonical significand exponent)
    (high : exponent ≤ 971) : (shortest tie significand exponent).digits ≤ 10 ^ 17 := by
  obtain ⟨coarse, next⟩ := searchGrids_le 16 (hit_last tie canonical high)
  change _ ≤ (shortest tie significand exponent).place at coarse
  change (shortest tie significand exponent).digits ≤ stepsBelow significand
    (Grid.of exponent (shortest tie significand exponent).place) + 1 at next
  have below := (stepsBelow_bounds significand exponent
    (shortest tie significand exponent).place).1.trans_lt (lt_decimalExponent canonical high)
  generalize shortest tie significand exponent = s at coarse next below
  have unit : (0 : ℚ) < 10 ^ s.place := zpow_pos (by norm_num) _
  have few : (10 : ℚ) ^ (decimalExponent significand exponent + 1) ≤ 10 ^ 17 * 10 ^ s.place := by
    rw [← zpow_natCast, ← zpow_add₀ (by norm_num)]
    exact zpow_le_zpow_right₀ (by norm_num) (by push_cast at coarse ⊢; omega)
  have lt := lt_of_mul_lt_mul_right (below.trans_le few) unit.le
  have lt : stepsBelow significand (Grid.of exponent s.place) < 10 ^ 17 := by exact_mod_cast lt
  omega

theorem digits_shortest_ne_zero (tie : Tie) (canonical : Canonical significand exponent)
    (high : exponent ≤ 971) : (shortest tie significand exponent).digits ≠ 0 := by
  intro none
  have pos := (shortest_rounds tie canonical high).pos canonical.pos
  rw [Scaled.value, none, Nat.cast_zero, zero_mul] at pos
  exact lt_irrefl _ pos

end

end Stratagem.Decimal
