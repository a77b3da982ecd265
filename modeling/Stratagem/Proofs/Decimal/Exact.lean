import Mathlib.Algebra.Field.Rat
import Mathlib.Algebra.Order.Ring.Cast
import Mathlib.Tactic.FieldSimp
import Stratagem.Decimal.Double

/-!
# The exact value of a double

`Decimal.Double.value?` is the rational number that a finite double stands for. The whole number
that a double is found to be is this value (`whole?_eq_some_iff`): nothing is rounded on the way.
-/

namespace Stratagem.Decimal.Double

/-- The exact value of a double. -/
def value? : Double → Option ℚ
  | .nan | .infinite _ => none
  | .finite negative significand exponent =>
    some ((if negative then -1 else 1) * (significand * 2 ^ exponent))

/-- A power of two as a quotient of whole numbers. -/
theorem two_zpow_eq (exponent : Int) :
    (2 : ℚ) ^ exponent = (2 ^ exponent.toNat : ℕ) / (2 ^ (-exponent).toNat : ℕ) := by
  rcases Int.eq_nat_or_neg exponent with ⟨k, rfl | rfl⟩
  · simp
  · simp

theorem div_eq_intCast_iff {a b : ℕ} (pos : 0 < b) {n : ℤ} :
    (a : ℚ) / b = n ↔ a % b = 0 ∧ (a / b : ℕ) = n := by
  have hb : (b : ℚ) ≠ 0 := by exact_mod_cast pos.ne'
  rw [div_eq_iff hb]
  constructor
  · intro h
    have h : (a : ℤ) = n * b := by exact_mod_cast h
    have divides : b ∣ a := Int.natCast_dvd_natCast.1 ⟨n, by rw [h, mul_comm]⟩
    refine ⟨Nat.mod_eq_zero_of_dvd divides, ?_⟩
    rw [Int.natCast_div, h, Int.mul_ediv_cancel _ (by exact_mod_cast pos.ne')]
  · rintro ⟨divides, rfl⟩
    have := Nat.div_mul_cancel (Nat.dvd_of_mod_eq_zero divides)
    exact_mod_cast this.symm

/-- A double is a whole number if its exact value is one. -/
theorem whole?_eq_some_iff {d : Double} {n : ℤ} :
    d.whole? = some n ↔ d.value? = some (n : ℚ) := by
  cases d with
  | nan => simp [whole?, value?]
  | infinite negative => simp [whole?, value?]
  | finite negative significand exponent =>
    have pos : 0 < 2 ^ (-exponent).toNat := Nat.two_pow_pos _
    have value : (significand * 2 ^ exponent : ℚ) =
        (significand * 2 ^ exponent.toNat : ℕ) / (2 ^ (-exponent).toNat : ℕ) := by
      rw [two_zpow_eq, mul_div_assoc', Nat.cast_mul]
    have whole : ((if negative then -1 else 1) * (significand * 2 ^ exponent) : ℚ) = n ↔
        (significand * 2 ^ exponent : ℚ) = ((if negative then -n else n : ℤ) : ℚ) := by
      cases negative with
      | false => simp
      | true => simp [neg_eq_iff_eq_neg]
    rw [value?, Option.some_inj, whole, value, div_eq_intCast_iff pos, whole?,
      Option.ite_none_right_eq_some, Option.some_inj, truncate]
    refine and_congr_right fun divides => ?_
    cases negative with
    | false => rfl
    | true => exact neg_eq_iff_eq_neg

end Stratagem.Decimal.Double
