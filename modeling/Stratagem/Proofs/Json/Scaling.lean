import Stratagem.Json.Numeral
import Stratagem.Proofs.Decimal.Accuracy
import Stratagem.Proofs.Decimal.ShortestDigits

/-!
# Numbers that are read in several roundings

The JSON reader turns a decimal into a double by one product or quotient with a power of ten
(`scale`). The digits and the power are doubles by then, so up to four numbers are rounded. If the
digits and the power are exact, only the last rounding is left, and the decimal is read as the
double that it is rounded to (`scale_of_exact`). Any other decimal is read as a double that is at
most eight units in the last place away (`scaledNear_of_rounds`).
-/

namespace Stratagem.Json

open Decimal Rounding

/-- A whole number of at most 17 digits as a double. -/
theorem exists_ofNat {n : Nat} (pos : 0 < n) (few : n ≤ 10 ^ 17) :
    ∃ m e, Parts (Float.ofNat n) m e ∧ 2 ^ 52 ≤ m ∧ Close 1 (n : ℚ) (m * 2 ^ e) := by
  have le : (n : ℚ) ≤ 10 ^ 17 := by exact_mod_cast few
  have high : (n * 10 ^ 0 : ℚ) < top := by
    rw [pow_zero, mul_one]
    exact le.trans_lt (ten_pow_lt_top (by decide))
  obtain ⟨m, e, parts, all, rounds⟩ := exists_ofScientific pos (by omega) high
  rw [pow_zero, mul_one] at rounds
  exact ⟨m, e, parts, all, rounds.close (by omega)⟩

/-- A power of ten of the table as a double. -/
theorem exists_powerOfTen {n : Nat} (h : n ≤ 308) :
    ∃ m e, Parts (powerOfTen n) m e ∧ 2 ^ 52 ≤ m ∧ Close 1 (10 ^ n : ℚ) (m * 2 ^ e) := by
  have high : ((1 : Nat) * 10 ^ n : ℚ) < top := by
    rw [Nat.cast_one, one_mul]
    exact ten_pow_lt_top h
  obtain ⟨m, e, parts, all, rounds⟩ := exists_ofScientific (by decide) (by omega) high
  rw [Nat.cast_one, one_mul] at rounds
  exact ⟨m, e, parts, all, rounds.close (by omega)⟩

section

variable {x : Float} {m digits : Nat} {e : Int}

/-- A decimal that is rounded to a double is below the top. -/
theorem lt_top (parts : Parts x m e) {v : ℚ} (rounds : RoundsTo m e v)
    (small : (m * 2 ^ e : ℚ) ≤ (2 ^ 53 - 4) * 2 ^ (971 : Int)) : slack ^ 2 * v < top := by
  have power : (2 : ℚ) ^ e ≤ 2 ^ (971 : Int) := zpow_le_zpow_right₀ one_le_two parts.high
  have le := (abs_le.1 rounds.half).2
  have factor : slack ^ 2 ≤ 1 + 2.1 / 2 ^ 53 := by norm_num [slack]
  have pos := rounds.pos parts.pos
  unfold top
  generalize (2 : ℚ) ^ (971 : Int) = t at small power
  have bound : v ≤ (2 ^ 53 - 7 / 2) * t := by linarith
  have unit : 0 < t := (two_zpow_pos e).trans_le power
  calc slack ^ 2 * v ≤ (1 + 2.1 / 2 ^ 53) * ((2 ^ 53 - 7 / 2) * t) :=
        mul_le_mul factor bound pos.le (by norm_num)
    _ < (2 ^ 53 - 1 / 2) * t := by
      rw [← mul_assoc]
      exact mul_lt_mul_of_pos_right (by norm_num) unit

/-- A decimal is read as a double that is at most eight units in the last place away from the one
with the parts `m` and `e`. -/
def ScaledNear (m : Nat) (e : Int) (digits : Nat) (place : Int) : Prop :=
  ∃ y n d, scale digits place = some y ∧ Parts y n d ∧ |(n * 2 ^ d - m * 2 ^ e : ℚ)| ≤ 8 * 2 ^ e

/-- A decimal is read as a double a few units away if what is rounded last is close to it. -/
theorem scaledNear_of_close {y : Float} {n : Nat} {d place : Int} {v w : ℚ} {k : Nat}
    (close : Close k v w) (few : k ≤ 6) (hv : 0 ≤ v) (hw : 0 ≤ w) (parts : Parts x m e)
    (rounds : RoundsTo m e w) (read : scale digits place = some y) (parts' : Parts y n d)
    (rounds' : RoundsTo n d v) : ScaledNear m e digits place :=
  ⟨y, n, d, read, parts',
    (close.mono few hv hw).units parts.canonical rounds parts'.canonical rounds'⟩

/-- A decimal without places is read as a double a few units away. -/
theorem scaledNear_mul {power : Nat} (parts : Parts x m e)
    (rounds : RoundsTo m e (digits * 10 ^ power)) (pos : 0 < digits) (few : digits ≤ 10 ^ 17)
    (le : power ≤ 308) (small : (m * 2 ^ e : ℚ) ≤ (2 ^ 53 - 4) * 2 ^ (971 : Int)) :
    ScaledNear m e digits power := by
  obtain ⟨f, fe, whole, all, closeWhole⟩ := exists_ofNat pos few
  obtain ⟨g, ge, table, -, closeTable⟩ := exists_powerOfTen le
  have close := closeWhole.symm.mul closeTable.symm (by positivity) (by positivity)
    (by positivity) (by positivity)
  have one : (1 : ℚ) ≤ digits * 10 ^ power := by
    exact_mod_cast Nat.mul_pos pos (Nat.pow_pos (by decide))
  have low : (2 : ℚ) ^ (-1074 : Int) ≤ f * 2 ^ fe * (g * 2 ^ ge) := by
    have half : (2 : ℚ) ^ (-1074 : Int) ≤ 1 / 2 :=
      (zpow_le_zpow_right₀ one_le_two (show (-1074 : Int) ≤ -1 by decide)).trans (by norm_num)
    have factor : slack ^ (1 + 1) ≤ 2 := by norm_num [slack]
    have doubled := close.ge.trans (mul_le_mul_of_nonneg_right factor (by positivity))
    linarith
  obtain ⟨n, d, product, rounds'⟩ := exists_mul whole table all low
    (close.le.trans_lt (lt_top parts rounds small))
  refine scaledNear_of_close close (by decide) (by positivity) (by positivity) parts rounds ?_
    product rounds'
  unfold scale
  dsimp only
  rw [if_neg pos.ne', if_neg (by omega), if_pos (by omega), Int.toNat_natCast, product.isInf]
  rfl

/-- A decimal with up to 308 places is read as a double a few units away. -/
theorem scaledNear_div {power : Nat} (parts : Parts x m e)
    (rounds : RoundsTo m e (digits / 10 ^ power)) (pos : 0 < digits) (few : digits ≤ 10 ^ 17)
    (many : 0 < power) (le : power ≤ 308)
    (above : 1.01 * 2 ^ (-1074 : Int) ≤ (digits / 10 ^ power : ℚ)) :
    ScaledNear m e digits (-power) := by
  obtain ⟨f, fe, whole, all, closeWhole⟩ := exists_ofNat pos few
  obtain ⟨g, ge, table, full, closeTable⟩ := exists_powerOfTen le
  have close := closeWhole.symm.div closeTable.symm (by positivity) (by positivity)
    (mul_pos (by exact_mod_cast table.pos) (two_zpow_pos _)) (by positivity)
  have short : (digits / 10 ^ power : ℚ) ≤ 10 ^ 17 :=
    (div_le_self (by positivity) (one_le_pow₀ (by norm_num))).trans (by exact_mod_cast few)
  obtain ⟨n, d, quotient, rounds'⟩ := exists_div whole table
    (close.least_le (by decide) above) (close.lt_top_of_le (by decide) (by positivity) short)
  refine scaledNear_of_close close (by decide) (by positivity) (by positivity) parts rounds ?_
    quotient rounds'
  unfold scale
  dsimp only
  rw [if_neg pos.ne', if_neg (by omega), if_neg (by omega), if_pos (by omega), neg_neg,
    Int.toNat_natCast]

/-- A decimal with more places is divided twice, and is read as a double a few units away. -/
theorem scaledNear_div_twice {power : Nat} (parts : Parts x m e)
    (rounds : RoundsTo m e (digits / 10 ^ (308 + power))) (pos : 0 < digits)
    (few : digits ≤ 10 ^ 17) (many : 0 < power) (le : power ≤ 308)
    (above : 1.01 * 2 ^ (-1074 : Int) ≤ (digits / 10 ^ (308 + power) : ℚ)) :
    ScaledNear m e digits (-(308 + power : Nat)) := by
  obtain ⟨f, fe, whole, all, closeWhole⟩ := exists_ofNat pos few
  obtain ⟨g, ge, first, -, closeFirst⟩ := exists_powerOfTen (n := 308) le_rfl
  obtain ⟨h, he, second, -, closeSecond⟩ := exists_powerOfTen le
  have least := least_le_ten_pow
  have unit := two_zpow_pos (-1074)
  have one : (1 : ℚ) ≤ digits := by exact_mod_cast pos
  rw [pow_add, ← div_div] at rounds above
  have power308 : (1 : ℚ) ≤ 10 ^ 308 := one_le_pow₀ (by norm_num)
  generalize (10 : ℚ) ^ 308 = p at closeFirst rounds above least power308
  have close := closeWhole.symm.div closeFirst.symm (by positivity) (by positivity)
    (mul_pos (by exact_mod_cast first.pos) (two_zpow_pos _)) (by linarith)
  have wide : 1 / p ≤ digits / p := div_le_div_of_nonneg_right one (by linarith)
  have short : digits / p ≤ 10 ^ 17 :=
    (div_le_self (by positivity) power308).trans (by exact_mod_cast few)
  have bits : 1.9 * 10 ^ 15 * 2 ^ (-1074 : Int) ≤ (f * 2 ^ fe / (g * 2 ^ ge) : ℚ) := by
    have factor : slack ^ (1 + 1) ≤ 1.01 := by norm_num [slack]
    have := close.ge.trans (mul_le_mul_of_nonneg_right factor (by positivity))
    linarith
  obtain ⟨z, ze, quotient, rounded⟩ := exists_div whole first (by linarith)
    (close.lt_top_of_le (by decide) (by positivity) short)
  have close := ((rounded.close_div quotient bits).symm.trans close).div closeSecond.symm
    (by positivity) (by positivity)
    (mul_pos (by exact_mod_cast second.pos) (two_zpow_pos _)) (by positivity)
  have short : digits / p / 10 ^ power ≤ 10 ^ 17 :=
    (div_le_self (by positivity) (one_le_pow₀ (by norm_num))).trans short
  obtain ⟨n, d, result, rounds'⟩ := exists_div quotient second
    (close.least_le (by decide) above) (close.lt_top_of_le (by decide) (by positivity) short)
  refine scaledNear_of_close close (by decide) (by positivity) (by positivity) parts rounds ?_
    result rounds'
  unfold scale
  dsimp only
  rw [if_neg pos.ne', if_neg (by omega), if_neg (by omega), neg_neg, Int.toNat_natCast,
    if_neg (by omega), if_pos (by omega), Nat.add_sub_cancel_left]

/-- A decimal is read as a double a few units away from the one that it is rounded to. -/
theorem scaledNear_of_rounds {place : Int} (parts : Parts x m e)
    (rounds : RoundsTo m e (digits * 10 ^ place)) (pos : 0 < digits) (few : digits ≤ 10 ^ 17)
    (above : 1.01 * 2 ^ (-1074 : Int) ≤ (digits * 10 ^ place : ℚ))
    (small : (m * 2 ^ e : ℚ) ≤ (2 ^ 53 - 4) * 2 ^ (971 : Int)) :
    ScaledNear m e digits place := by
  obtain ⟨least, most⟩ := rounds.limits parts.canonical parts.high
  obtain ⟨bottom, limit⟩ := place_bounds pos least most
  have len : 0 < (Nat.toDigits 10 digits).length := Nat.length_toDigits_pos
  have short : (Nat.toDigits 10 digits).length ≤ 18 :=
    (Nat.length_toDigits_le_iff (by decide) (by decide)).2 (by omega)
  rcases lt_or_ge place 0 with behind | front
  · obtain ⟨power, rfl⟩ : ∃ power : Nat, place = -power := ⟨(-place).toNat, by omega⟩
    have quotient : (digits * 10 ^ (-power : Int) : ℚ) = digits / 10 ^ power := by
      rw [zpow_neg, zpow_natCast, div_eq_mul_inv]
    rw [quotient] at rounds above
    rcases le_or_gt power 308 with once | twice
    · exact scaledNear_div parts rounds pos few (by omega) once above
    · obtain ⟨more, rfl⟩ := Nat.exists_eq_add_of_le twice.le
      exact scaledNear_div_twice parts rounds pos few (by omega) (by omega) above
  · lift place to Nat using front
    rw [zpow_natCast] at rounds
    exact scaledNear_mul parts rounds pos few (by omega) small

/-! ## Shortest decimals -/

/-- The shortest decimal of a double is above the least double by more than rounding can take. -/
theorem least_lt_shortest (parts : Parts x m e) :
    1.01 * 2 ^ (-1074 : Int) ≤ (shortest .even m e).value := by
  have canonical := parts.canonical
  have unit := two_zpow_pos (-1074)
  have power : (2 : ℚ) ^ (-1074 : Int) ≤ 2 ^ e := zpow_le_zpow_right₀ one_le_two canonical.least
  by_cases one : m = 1
  · subst one
    obtain rfl : e = -1074 := by
      by_contra other
      have := canonical.full (by have := canonical.least; omega)
      omega
    have text : shortest .even 1 (-1074) = ⟨5, -324⟩ := by decide +kernel
    have powers : 101 * 10 ^ 324 ≤ 500 * 2 ^ 1074 := by decide +kernel
    have powers : (101 * 10 ^ 324 : ℚ) ≤ 500 * 2 ^ 1074 := by exact_mod_cast powers
    rw [text, Scaled.value, zpow_neg, zpow_neg, show (1074 : Int) = (1074 : Nat) from rfl,
      show (324 : Int) = (324 : Nat) from rfl, zpow_natCast, zpow_natCast, ← div_eq_mul_inv,
      ← div_eq_mul_inv, div_le_div_iff₀ (by positivity) (by positivity)]
    push_cast
    generalize (10 : ℚ) ^ 324 = a at powers ⊢
    generalize (2 : ℚ) ^ 1074 = b at powers ⊢
    linarith
  · have two : (2 : ℚ) ≤ m := by exact_mod_cast (show 2 ≤ m by have := canonical.pos; omega)
    have half := halfBelow_le m e
    refine le_trans ?_ (shortest_rounds .even canonical parts.high).ge
    exact mul_le_mul (by linarith) power unit.le (by linarith)

/-- A number of at most 17 digits that stands for a number of 17 digits with no zero behind them is
the same number. -/
theorem eq_of_value_eq {c : Nat} {place place' : Int} (few : digits ≤ 10 ^ 17)
    (many : 10 ^ 16 < c) (noZero : c % 10 ≠ 0)
    (value : (digits * 10 ^ place : ℚ) = c * 10 ^ place') : digits = c ∧ place = place' := by
  have ten : (10 : ℚ) ≠ 0 := by norm_num
  rcases lt_trichotomy place place' with less | rfl | more
  · obtain ⟨k, rfl⟩ : ∃ k : Nat, place' = place + (k + 1) := ⟨(place' - place - 1).toNat, by omega⟩
    rw [zpow_add₀ ten, ← mul_assoc, mul_right_comm, mul_left_inj' (zpow_ne_zero _ ten),
      ← Nat.cast_succ, zpow_natCast] at value
    have value : digits = c * 10 ^ (k + 1) := by exact_mod_cast value
    have := Nat.mul_le_mul_left c (Nat.pow_pos (n := k) (show 0 < 10 by decide))
    rw [Nat.pow_succ, ← Nat.mul_assoc] at value
    omega
  · rw [mul_left_inj' (zpow_ne_zero _ ten)] at value
    exact ⟨by exact_mod_cast value, rfl⟩
  · obtain ⟨k, rfl⟩ : ∃ k : Nat, place = place' + (k + 1) := ⟨(place - place' - 1).toNat, by omega⟩
    rw [zpow_add₀ ten, ← mul_assoc, mul_right_comm, mul_left_inj' (zpow_ne_zero _ ten),
      ← Nat.cast_succ, zpow_natCast] at value
    have value : digits * 10 ^ (k + 1) = c := by exact_mod_cast value
    rw [Nat.pow_succ, ← Nat.mul_assoc] at value
    omega

/-- The doubles that are too great for the rounding to be followed are the three greatest. -/
theorem exists_of_large (parts : Parts x m e)
    (large : (2 ^ 53 - 4) * 2 ^ (971 : Int) < (m * 2 ^ e : ℚ)) :
    e = 971 ∧ ∃ k < 3, m = 2 ^ 53 - 1 - k := by
  have bits : (m : ℚ) + 1 ≤ 2 ^ 53 := by exact_mod_cast parts.canonical.lt
  have unit := two_zpow_pos 970
  have double : (2 : ℚ) ^ (971 : Int) = 2 ^ (970 : Int) * 2 := zpow_add_one₀ two_ne_zero 970
  obtain rfl : e = 971 := by
    by_contra other
    have power : (2 : ℚ) ^ e ≤ 2 ^ (970 : Int) :=
      zpow_le_zpow_right₀ one_le_two (by have := parts.high; omega)
    have := mul_le_mul (show (m : ℚ) ≤ 2 ^ 53 by linarith) power (two_zpow_pos e).le (by norm_num)
    rw [double] at large
    generalize (2 : ℚ) ^ (970 : Int) = t at large this unit
    linarith
  have above : ((2 ^ 53 - 4 : Nat) : ℚ) < m := by
    have := lt_of_mul_lt_mul_right large (two_zpow_pos 971).le
    push_cast
    linarith
  have above : 2 ^ 53 - 4 < m := by exact_mod_cast above
  have lt := parts.canonical.lt
  exact ⟨rfl, 2 ^ 53 - 1 - m, by omega, by omega⟩

/-- The three greatest doubles are read too, and the reader gives one of them. -/
theorem scaledNear_greatest {place : Int} (parts : Parts x m e) (few : digits ≤ 10 ^ 17)
    (value : (digits * 10 ^ place : ℚ) = (shortest .even m e).value)
    (large : (2 ^ 53 - 4) * 2 ^ (971 : Int) < (m * 2 ^ e : ℚ)) :
    ScaledNear m e digits place := by
  obtain ⟨rfl, k, three, rfl⟩ := exists_of_large parts large
  have texts : ∀ k < 3, shortest .even (2 ^ 53 - 1 - k) 971 = ⟨17976931348623157 - 2 * k, 292⟩ := by
    decide +kernel
  have read : ∀ k < 3, (scale (17976931348623157 - 2 * k) 292).map Double.of =
      some (.finite false (2 ^ 53 - 1 - k / 2 * 2) 971) := by
    decide +kernel
  rw [texts k three] at value
  obtain ⟨rfl, rfl⟩ :=
    eq_of_value_eq (c := 17976931348623157 - 2 * k) few (by omega) (by omega) value
  obtain ⟨y, hy, of⟩ := Option.map_eq_some_iff.1 (read k three)
  refine ⟨y, _, _, hy, ⟨of, by omega⟩, ?_⟩
  have near : |((2 ^ 53 - 1 - k / 2 * 2 : Nat) - (2 ^ 53 - 1 - k : Nat) : ℚ)| ≤ 8 := by
    obtain rfl | rfl | rfl : k = 0 ∨ k = 1 ∨ k = 2 := by omega
    all_goals norm_num
  rw [← sub_mul, abs_mul, abs_of_pos (two_zpow_pos 971)]
  exact mul_le_mul_of_nonneg_right near (two_zpow_pos 971).le

/-- The shortest decimal of a double is read as a double a few units away. -/
theorem scaledNear_shortest {place : Int} (parts : Parts x m e) (few : digits ≤ 10 ^ 17)
    (value : (digits * 10 ^ place : ℚ) = (shortest .even m e).value) :
    ScaledNear m e digits place := by
  rcases le_or_gt (m * 2 ^ e : ℚ) ((2 ^ 53 - 4) * 2 ^ (971 : Int)) with small | large
  · have rounds := shortest_rounds .even parts.canonical parts.high
    have above := least_lt_shortest parts
    rw [← value] at rounds above
    have pos : 0 < digits := by
      have positive := rounds.pos parts.pos
      exact Nat.pos_of_ne_zero fun zero => by simp [zero] at positive
    exact scaledNear_of_rounds parts rounds pos few above small
  · exact scaledNear_greatest parts few value large

/-! ## Exact factors -/

theorem exactly_powerOfTen : ∀ n ≤ 22, Exactly 0 (10 ^ n : Nat) (powerOfTen n).toModel.unpack := by
  have whole : ∀ n ≤ 22, isWhole (10 ^ n) (powerOfTen n).toModel.unpack = true := by
    decide +kernel
  exact fun n h => exactly_of_isWhole (.float_ofScientific 1 false n) (whole n h)

theorem exactly_ofNat {n : Nat} (pos : 0 < n) (lt : n < 2 ^ 53) :
    Exactly (2 ^ 52) n (Float.ofNat n).toModel.unpack := by
  have bits : n.log2 ≤ 52 := Nat.lt_succ_iff.1 ((Nat.log2_lt pos.ne').2 lt)
  obtain ⟨k, hk⟩ : ∃ k, n.log2 + k = 52 := ⟨52 - n.log2, by omega⟩
  have canonical := canonical_shifted pos hk
  have value : ((n * 2 ^ k : Nat) * 2 ^ (-(k : Int)) : ℚ) = n := by
    rw [zpow_neg, zpow_natCast]
    push_cast
    field_simp
  have parts := of_ofModel_pack canonical (by omega)
  have rounds := RoundsTo.self (n * 2 ^ k) (-(k : Int))
  rw [value] at rounds
  have same := ofScientific_mul parts canonical.pos pos (Nat.zero_le _)
    (by rwa [Nat.pow_zero, Nat.cast_one, mul_one])
  show Exactly (2 ^ 52) n (Float.ofScientific n false 0).toModel.unpack
  rw [same, Double.unpack_eq parts canonical.pos]
  exact .finite _ (canonical.full (by omega)) value

/-- A decimal whose digits and power of ten are exact is read as the double that it is rounded
to. -/
theorem scale_of_exact {place : Int} (parts : Parts x m e)
    (rounds : RoundsTo m e (digits * 10 ^ place)) (pos : 0 < digits) (lt : digits < 2 ^ 53)
    (near : place.natAbs ≤ 22) : scale digits place = some x := by
  have whole := exactly_ofNat pos lt
  unfold scale
  dsimp only
  rw [if_neg pos.ne', if_neg (by omega)]
  rcases lt_or_ge place 0 with behind | front
  · obtain ⟨power, rfl⟩ : ∃ power : Nat, place = -power := ⟨(-place).toNat, by omega⟩
    have table := exactly_powerOfTen power (by omega)
    rw [zpow_neg, zpow_natCast, ← div_eq_mul_inv] at rounds
    have quotient : Float.ofNat digits / powerOfTen power = x :=
      parts.ofModel_pack (whole.div table parts.canonical (by exact_mod_cast rounds))
    rw [if_neg (by omega), if_pos (by omega), neg_neg, Int.toNat_natCast, quotient]
  · lift place to Nat using front
    have table := exactly_powerOfTen place (by omega)
    rw [zpow_natCast] at rounds
    have product : Float.ofNat digits * powerOfTen place = x :=
      parts.ofModel_pack (whole.mul table parts.canonical (by exact_mod_cast rounds))
    rw [if_pos (by omega), Int.toNat_natCast, product, parts.isInf]
    rfl

end

end Stratagem.Json
