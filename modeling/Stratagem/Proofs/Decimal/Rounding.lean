import Mathlib.Algebra.Order.Field.Rat
import Mathlib.Data.Nat.Log
import Mathlib.Tactic.FieldSimp
import Mathlib.Tactic.Linarith
import Mathlib.Tactic.NormNum
import Mathlib.Tactic.Ring

/-!
# Rounding to the nearest double

A positive double is `m · 2 ^ e` with at most 53 bits in `m`, all of them used unless `e` is the
least exponent (`Canonical`). The numbers that are rounded to it lie between the halfway points to
its neighbours, and on these points if `m` is even (`RoundsTo`).

`roundWithAccuracy_eq` says that rounding does just this. Rounding shifts bits out of the mantissa
and remembers where the rest lies within a unit (`Near`); a shift by one bit keeps this true. From
it follow the same for products (`mul_eq`) and quotients (`div_eq`).
-/

namespace Stratagem.Rounding

open Float.Model Float.Model.UnpackedFloat

/-- The mantissa and the exponent of a positive double, but for an upper bound of the exponent. -/
structure Canonical (m : Nat) (e : Int) : Prop where
  pos : 0 < m
  lt : m < 2 ^ 53
  least : -1074 ≤ e
  full : -1074 < e → 2 ^ 52 ≤ m

/-- How far the lower halfway point is, in units of the last bit: the double below a power of two is
half as far as the one above. -/
def halfBelow (m : Nat) (e : Int) : ℚ := if m = 2 ^ 52 ∧ -1074 < e then 1 / 4 else 1 / 2

/-- The numbers that are rounded to a double. -/
def RoundsTo (m : Nat) (e : Int) (v : ℚ) : Prop :=
  if m % 2 = 0 then (m - halfBelow m e) * 2 ^ e ≤ v ∧ v ≤ (m + 1 / 2) * 2 ^ e
  else (m - halfBelow m e) * 2 ^ e < v ∧ v < (m + 1 / 2) * 2 ^ e

theorem two_zpow_pos (e : Int) : (0 : ℚ) < 2 ^ e := zpow_pos two_pos e

theorem halfBelow_pos (m : Nat) (e : Int) : 0 < halfBelow m e := by
  unfold halfBelow
  split <;> norm_num

theorem halfBelow_le (m : Nat) (e : Int) : halfBelow m e ≤ 1 / 2 := by
  unfold halfBelow
  split <;> norm_num

namespace RoundsTo

variable {m : Nat} {e : Int} {v : ℚ}

/-- What lies strictly between the halfway points is rounded to the double. -/
theorem of_lt (low : (m - halfBelow m e) * 2 ^ e < v) (high : v < (m + 1 / 2) * 2 ^ e) :
    RoundsTo m e v := by
  unfold RoundsTo
  split
  · exact ⟨low.le, high.le⟩
  · exact ⟨low, high⟩

/-- A double is rounded to itself. -/
theorem self (m : Nat) (e : Int) : RoundsTo m e (m * 2 ^ e) := by
  have unit := two_zpow_pos e
  have half := halfBelow_pos m e
  refine of_lt ?_ ?_ <;> refine mul_lt_mul_of_pos_right ?_ unit <;> linarith

theorem ge (h : RoundsTo m e v) : (m - halfBelow m e) * 2 ^ e ≤ v := by
  unfold RoundsTo at h
  split at h
  · exact h.1
  · exact h.1.le

theorem le (h : RoundsTo m e v) : v ≤ (m + 1 / 2) * 2 ^ e := by
  unfold RoundsTo at h
  split at h
  · exact h.2
  · exact h.2.le

theorem pos (h : RoundsTo m e v) (hm : 0 < m) : 0 < v := by
  have unit := two_zpow_pos e
  have one : (1 : ℚ) ≤ m := by exact_mod_cast hm
  have half := halfBelow_le m e
  have inside : 0 < (m - halfBelow m e) * 2 ^ e := mul_pos (by linarith) unit
  exact inside.trans_le h.ge

/-- A number on a halfway point is rounded to the even neighbour. -/
theorem even (h : RoundsTo m e v)
    (tie : v = (m - halfBelow m e) * 2 ^ e ∨ v = (m + 1 / 2) * 2 ^ e) : m % 2 = 0 := by
  unfold RoundsTo at h
  split at h
  · assumption
  · obtain rfl | rfl := tie
    · exact absurd h.1 (lt_irrefl _)
    · exact absurd h.2 (lt_irrefl _)

end RoundsTo

/-! ## Nearest whole numbers -/

/-- The whole number is nearest to `r`, and even if another one is as near. -/
structure Nearest (n : Nat) (r : ℚ) : Prop where
  ge : n - 1 / 2 ≤ r
  le : r ≤ n + 1 / 2
  even : r = n - 1 / 2 ∨ r = n + 1 / 2 → n % 2 = 0

namespace Nearest

variable {n n' : Nat} {r : ℚ}

theorem of_lt (low : n - 1 / 2 < r) (high : r < n + 1 / 2) : Nearest n r :=
  ⟨low.le, high.le, by rintro (tie | tie) <;> linarith⟩

theorem not_lt (h : Nearest n r) (h' : Nearest n' r) : ¬ n < n' := by
  intro less
  have step : (n : ℚ) + 1 ≤ n' := by exact_mod_cast less
  have low := h'.ge
  have high := h.le
  -- Only neighbours are left, with `r` halfway between them, and they cannot both be even.
  have even := h.even (.inr (by linarith))
  have even' := h'.even (.inl (by linarith))
  have next : (n' : ℚ) ≤ n + 1 := by linarith
  have next : n' ≤ n + 1 := by exact_mod_cast next
  omega

theorem unique (h : Nearest n r) (h' : Nearest n' r) : n = n' :=
  Nat.le_antisymm (Nat.not_lt.1 (h'.not_lt h)) (Nat.not_lt.1 (h.not_lt h'))

end Nearest

/-! ## The rest of a mantissa -/

/-- Where a number lies at or above a mantissa: below, on or above the half, or on the mantissa. -/
def Near (em : ExtendedMantissa) (r : ℚ) : Prop :=
  match em.roundBit, em.stickyBit with
  | false, false => r = em.mantissa
  | false, true => em.mantissa < r ∧ r < em.mantissa + 1 / 2
  | true, false => r = em.mantissa + 1 / 2
  | true, true => em.mantissa + 1 / 2 < r ∧ r < em.mantissa + 1

namespace Near

variable {em : ExtendedMantissa} {r : ℚ}

theorem bounds (h : Near em r) : em.mantissa ≤ r ∧ r < em.mantissa + 1 := by
  obtain ⟨m, b, s⟩ := em
  cases b <;> cases s <;> simp only [Near] at h ⊢ <;> constructor <;> linarith

theorem shiftRightOne (h : Near em r) : Near em.shiftRightOne (r / 2) := by
  obtain ⟨m, b, s⟩ := em
  have halves : (m : ℚ) = 2 * (m / 2 : Nat) + (m % 2 : Nat) := by
    exact_mod_cast (Nat.div_add_mod m 2).symm
  rcases Nat.mod_two_eq_zero_or_one m with even | odd
  · rw [even] at halves
    cases b <;> cases s <;>
      simp [Near, ExtendedMantissa.shiftRightOne, even] at h ⊢ <;>
      (try constructor) <;> push_cast at halves <;> linarith
  · rw [odd] at halves
    cases b <;> cases s <;>
      simp [Near, ExtendedMantissa.shiftRightOne, odd] at h ⊢ <;>
      (try constructor) <;> push_cast at halves <;> linarith

theorem shiftRight (h : Near em r) (k : Nat) : Near (em >>> k) (r / 2 ^ k) := by
  show Near (k.repeat ExtendedMantissa.shiftRightOne em) (r / 2 ^ k)
  induction k with
  | zero => simpa [Nat.repeat] using h
  | succ k ih =>
    rw [pow_succ, ← div_div]
    exact ih.shiftRightOne

/-- The rounded mantissa is the nearest whole number. -/
theorem rounded (h : Near em r) : Nearest em.roundedMantissa r := by
  obtain ⟨m, b, s⟩ := em
  cases b <;> cases s <;>
    simp only [Near, ExtendedMantissa.roundedMantissa, ExtendedMantissa.accuracy,
      Accuracy.roundToNearestEven] at h ⊢
  · subst h
    exact .of_lt (by linarith) (by linarith)
  · exact .of_lt (by linarith) (by linarith)
  · subst h
    have even : (m + m % 2) % 2 = 0 := by omega
    rcases Nat.mod_two_eq_zero_or_one m with parity | parity <;> rw [parity] at even ⊢ <;>
      exact ⟨by push_cast; linarith, by push_cast; linarith, fun _ => even⟩
  · exact .of_lt (by push_cast; linarith) (by push_cast; linarith)

end Near

theorem mantissa_shiftRight (em : ExtendedMantissa) (k : Nat) :
    (em >>> k).mantissa = em.mantissa / 2 ^ k := by
  show (k.repeat ExtendedMantissa.shiftRightOne em).mantissa = _
  induction k with
  | zero => simp [Nat.repeat]
  | succ k ih =>
    rw [Nat.pow_succ, ← Nat.div_div_eq_div_mul, ← ih]
    rfl

theorem mantissa_ofMantissaAndAccuracy (m : Nat) (accuracy : Accuracy) :
    (ExtendedMantissa.ofMantissaAndAccuracy m accuracy).mantissa = m := by
  cases accuracy with
  | exact => rfl
  | inexact order => cases order <;> rfl

/-! ## Target exponents -/

/-- The exponent that a number is rounded at. -/
theorem target_eq (m : Nat) (e : Int) :
    Format.binary64.targetExponent (totalExponent m e) = max (m.log2 + e - 52) (-1074) := by
  have least : Format.binary64.minExponent = -1074 := rfl
  have width : (Format.binary64.mantissaBits : Int) = 53 := rfl
  rw [Format.targetExponent, totalExponent, least, width]
  omega

/-- Enough bits, or an exponent small enough: no bit is missing at the target exponent. -/
theorem le_target {m : Nat} {e : Int} (h : 2 ^ 52 ≤ m ∨ e ≤ -1074) :
    e ≤ Format.binary64.targetExponent (totalExponent m e) := by
  rw [target_eq]
  obtain many | small := h
  · have bits : 52 ≤ m.log2 := (Nat.le_log2 (by omega)).2 many
    omega
  · omega

/-- A shift to the target exponent leaves the number where it is, with as many bits as a double
holds, and with all of them above the least exponent. -/
theorem shift_spec {m : Nat} {e : Int} {accuracy : Accuracy} {v : ℚ}
    (near : Near (ExtendedMantissa.ofMantissaAndAccuracy m accuracy) (v / 2 ^ e))
    (room : e ≤ Format.binary64.targetExponent (totalExponent m e)) :
    ∃ em target, shiftToTargetExponent Format.binary64 m e accuracy = (em, target) ∧
      Near em (v / 2 ^ target) ∧ -1074 ≤ target ∧ em.mantissa < 2 ^ 53 ∧
      (-1074 < target → 2 ^ 52 ≤ em.mantissa) := by
  rw [target_eq] at room
  obtain ⟨k, hk⟩ := Int.eq_ofNat_of_zero_le (sub_nonneg.2 room)
  have shifted : shiftToTargetExponent Format.binary64 m e accuracy =
      (ExtendedMantissa.ofMantissaAndAccuracy m accuracy >>> k, e + k) := by
    simp only [shiftToTargetExponent, shiftToExponent]
    rw [target_eq, hk]
    rfl
  have mantissa : (ExtendedMantissa.ofMantissaAndAccuracy m accuracy >>> k).mantissa =
      m / 2 ^ k := by
    rw [mantissa_shiftRight, mantissa_ofMantissaAndAccuracy]
  refine ⟨_, _, shifted, ?_, by omega, ?_, fun above => ?_⟩
  · have powers : v / 2 ^ (e + k) = v / 2 ^ e / 2 ^ k := by
      rw [zpow_add₀ (by norm_num), zpow_natCast, div_div]
    rw [powers]
    exact near.shiftRight k
  · rw [mantissa, Nat.div_lt_iff_lt_mul (Nat.two_pow_pos k), ← Nat.pow_add]
    exact Nat.lt_of_lt_of_le Nat.lt_log2_self (Nat.pow_le_pow_right (by omega) (by omega))
  · rw [mantissa, Nat.le_div_iff_mul_le (Nat.two_pow_pos k), ← Nat.pow_add]
    have some : m ≠ 0 := by
      rintro rfl
      rw [Nat.log2_zero] at room hk
      omega
    exact (Nat.le_log2 some).1 (by omega)

/-- A mantissa that a double can hold stays as it is. -/
theorem shift_eq_of_lt {m : Nat} {e : Int} (lt : m < 2 ^ 53) (least : -1074 ≤ e) :
    shiftToTargetExponent Format.binary64 m e .exact = (⟨m, false, false⟩, e) := by
  have few : m.log2 ≤ 52 := by
    by_cases zero : m = 0
    · simp [zero]
    · exact Nat.lt_succ_iff.1 ((Nat.log2_lt zero).2 lt)
  have none : (max (m.log2 + e - 52) (-1074) - e).toNat = 0 := by omega
  simp only [shiftToTargetExponent, shiftToExponent]
  rw [target_eq, none]
  simp [HShiftRight.hShiftRight, Nat.repeat, ExtendedMantissa.ofMantissaAndAccuracy]

/-- A mantissa that rounding has carried into a bit too many loses its last bit. -/
theorem shift_two_pow {e : Int} (least : -1074 ≤ e) :
    shiftToTargetExponent Format.binary64 (2 ^ 53) e .exact =
      (⟨2 ^ 52, false, false⟩, e + 1) := by
  have one : (max (((2 ^ 53 : Nat).log2 : Int) + e - 52) (-1074) - e).toNat = 1 := by
    rw [Nat.log2_two_pow]
    omega
  simp only [shiftToTargetExponent, shiftToExponent]
  rw [target_eq, one]
  rfl

/-! ## Rounding -/

/-- The bounds of `RoundsTo` in units of another power of two. -/
theorem RoundsTo.scaled {m : Nat} {target d : Int} {r : ℚ}
    (h : RoundsTo m (target + d) (r * 2 ^ target)) :
    (m - halfBelow m (target + d)) * 2 ^ d ≤ r ∧ r ≤ (m + 1 / 2) * 2 ^ d := by
  have unit := two_zpow_pos target
  have low := h.ge
  have high := h.le
  rw [add_comm target d, zpow_add₀ two_ne_zero, ← mul_assoc,
    mul_le_mul_iff_left₀ unit] at low high
  rw [add_comm target d]
  exact ⟨low, high⟩

/-- At the double's own exponent its significand is the nearest whole number. -/
theorem RoundsTo.nearest {m : Nat} {e : Int} {r : ℚ} (h : RoundsTo m e (r * 2 ^ e)) :
    Nearest m r := by
  have unit := two_zpow_pos e
  have half := halfBelow_le m e
  have scaled : RoundsTo m (e + 0) (r * 2 ^ e) := by rwa [add_zero]
  obtain ⟨low, high⟩ := scaled.scaled
  rw [zpow_zero, mul_one] at low high
  rw [add_zero] at low
  refine ⟨by linarith, high, fun tie => h.even ?_⟩
  rw [mul_left_inj' unit.ne', mul_left_inj' unit.ne']
  obtain tie | tie := tie
  · exact .inl (by linarith)
  · exact .inr tie

/-- A number with all its bits at an exponent is rounded there: the double has this exponent, or it
is the power of two above. -/
theorem RoundsTo.at_target {significand : Nat} {exponent target : Int} {r : ℚ}
    (h : RoundsTo significand exponent (r * 2 ^ target))
    (canonical : Canonical significand exponent) (lt : r < 2 ^ 53) (least : -1074 ≤ target)
    (full : -1074 < target → 2 ^ 52 ≤ r) :
    (exponent = target ∧ Nearest significand r) ∨
      (exponent = target + 1 ∧ significand = 2 ^ 52 ∧ Nearest (2 ^ 53) r) := by
  obtain ⟨d, rfl⟩ : ∃ d, exponent = target + d := ⟨exponent - target, by omega⟩
  have small : (significand : ℚ) + 1 ≤ 2 ^ 53 := by exact_mod_cast canonical.lt
  have half := halfBelow_le significand (target + d)
  obtain ⟨low, high⟩ := h.scaled
  rcases lt_trichotomy d 0 with below | rfl | above
  · -- The number has more bits than the double's exponent leaves room for.
    have all := full (by have := canonical.least; omega)
    have power : (2 : ℚ) ^ d ≤ 2 ^ (-1 : Int) := zpow_le_zpow_right₀ one_le_two (by omega)
    have short : (significand + 1 / 2) * (2 : ℚ) ^ d ≤ (significand + 1 / 2) * 2 ^ (-1 : Int) :=
      mul_le_mul_of_nonneg_left power (by positivity)
    rw [zpow_neg_one] at short
    linarith
  · rw [add_zero] at h ⊢
    exact .inl ⟨rfl, h.nearest⟩
  · have all : 2 ^ 52 ≤ significand := canonical.full (by omega)
    have bits : (2 ^ 52 : ℚ) ≤ significand := by exact_mod_cast all
    have wide {b : ℚ} (le : b ≤ significand - halfBelow significand (target + d))
        (pos : 0 ≤ b) {k : Int} (hk : k ≤ d) : b * 2 ^ k ≤ r :=
      (mul_le_mul le (zpow_le_zpow_right₀ one_le_two hk) (two_zpow_pos k).le
        (pos.trans le)).trans low
    have one : d = 1 := by
      by_contra different
      have := wide (b := 2 ^ 52 - 1 / 2) (by linarith) (by norm_num) (k := 2) (by omega)
      norm_num at this
      linarith
    subst one
    have power : significand = 2 ^ 52 := by
      by_contra different
      have next : (2 ^ 52 : ℚ) + 1 ≤ significand := by
        exact_mod_cast Nat.lt_of_le_of_ne all (Ne.symm different)
      have := wide (b := 2 ^ 52 + 1 / 2) (by linarith) (by norm_num) le_rfl
      norm_num at this
      linarith
    have quarter : halfBelow significand (target + 1) = 1 / 4 := if_pos ⟨power, by omega⟩
    have close := wide (b := 2 ^ 52 - 1 / 4) (by linarith) (by norm_num) le_rfl
    norm_num at close
    exact .inr ⟨rfl, power, by norm_num; linarith, by norm_num; linarith, fun _ => rfl⟩

/-- A number with all its bits is rounded to the double whose halfway points are around it. -/
theorem roundWithAccuracy_eq {m significand : Nat} {e exponent : Int} {accuracy : Accuracy} {v : ℚ}
    (canonical : Canonical significand exponent) (rounds : RoundsTo significand exponent v)
    (near : Near (ExtendedMantissa.ofMantissaAndAccuracy m accuracy) (v / 2 ^ e))
    (room : 2 ^ 52 ≤ m ∨ e ≤ -1074) (s : Sign) :
    roundWithAccuracy Format.binary64 s m e accuracy =
      .finite s significand exponent canonical.pos := by
  obtain ⟨em, target, shifted, position, least, lt, full⟩ := shift_spec near (le_target room)
  have bounds := position.bounds
  have value : v = v / 2 ^ target * 2 ^ target := (div_mul_cancel₀ v (two_zpow_pos target).ne').symm
  rw [value] at rounds
  have top : (em.mantissa : ℚ) + 1 ≤ 2 ^ 53 := by exact_mod_cast lt
  have all (above : -1074 < target) : (2 ^ 52 : ℚ) ≤ v / 2 ^ target := by
    have mantissa : (2 ^ 52 : ℚ) ≤ em.mantissa := by exact_mod_cast full above
    exact mantissa.trans bounds.1
  have pos := canonical.pos
  unfold roundWithAccuracy
  rw [shifted]
  dsimp only
  obtain ⟨rfl, nearest⟩ | ⟨rfl, rfl, nearest⟩ :=
    rounds.at_target canonical (bounds.2.trans_le top) least all
  · rw [position.rounded.unique nearest, shift_eq_of_lt canonical.lt canonical.least]
    exact dif_neg pos.ne'
  · rw [position.rounded.unique nearest, shift_two_pow least]
    rfl

/-! ## Products and quotients -/

/-- A product is rounded to the double whose halfway points are around its exact value. -/
theorem mul_eq {m₁ m₂ significand : Nat} {e₁ e₂ exponent : Int} {pos₁ : 0 < m₁} {pos₂ : 0 < m₂}
    (canonical : Canonical significand exponent) (room : 2 ^ 52 ≤ m₁)
    (rounds : RoundsTo significand exponent (m₁ * 2 ^ e₁ * (m₂ * 2 ^ e₂))) :
    UnpackedFloat.mul Format.binary64 (.finite .positive m₁ e₁ pos₁)
      (.finite .positive m₂ e₂ pos₂) = .finite .positive significand exponent canonical.pos := by
  refine roundWithAccuracy_eq canonical rounds ?_
    (.inl (room.trans (Nat.le_mul_of_pos_right m₁ pos₂))) _
  show (m₁ * 2 ^ e₁ * (m₂ * 2 ^ e₂) / 2 ^ (e₁ + e₂) : ℚ) = (m₁ * m₂ : Nat)
  rw [zpow_add₀ two_ne_zero]
  have := (two_zpow_pos e₁).ne'
  have := (two_zpow_pos e₂).ne'
  push_cast
  field_simp

/-- The accuracy of a quotient of whole numbers. -/
theorem near_div (a : Nat) {b : Nat} (pos : 0 < b) :
    Near (ExtendedMantissa.ofMantissaAndAccuracy (a / b) (accuracyOfFraction (a % b) b))
      (a / b : ℚ) := by
  have hb : (0 : ℚ) < b := by exact_mod_cast pos
  have parts : (a : ℚ) = b * (a / b : Nat) + (a % b : Nat) := by
    exact_mod_cast (Nat.div_add_mod a b).symm
  have lt : ((a % b : Nat) : ℚ) < b := by exact_mod_cast Nat.mod_lt a pos
  generalize a / b = q at parts ⊢
  generalize a % b = rest at parts lt ⊢
  have value : (a : ℚ) / b = q + rest / b := by
    rw [parts]
    field_simp
  rw [value]
  unfold accuracyOfFraction
  split
  · rename_i none
    show (q + rest / b : ℚ) = q
    simp [none]
  · rename_i some
    have positive : (0 : ℚ) < rest / b :=
      div_pos (by exact_mod_cast Nat.pos_of_ne_zero some) hb
    have one : (rest / b : ℚ) < 1 := by rwa [div_lt_iff₀ hb, one_mul]
    cases order : compare (2 * rest) b with
    | lt =>
      have less : (2 * rest : ℚ) < b := by exact_mod_cast Nat.compare_eq_lt.1 order
      have half : (rest / b : ℚ) < 1 / 2 := by
        rw [div_lt_iff₀ hb]
        linarith
      exact ⟨lt_add_of_pos_right _ positive, add_lt_add_right half _⟩
    | eq =>
      have same : (2 * rest : ℚ) = b := by exact_mod_cast Nat.compare_eq_eq.1 order
      have half : (rest / b : ℚ) = 1 / 2 := by
        rw [div_eq_iff hb.ne']
        linarith
      exact congrArg _ half
    | gt =>
      have more : (b : ℚ) < 2 * rest := by exact_mod_cast Nat.compare_eq_gt.1 order
      have half : (1 / 2 : ℚ) < rest / b := by
        rw [lt_div_iff₀ hb]
        linarith
      exact ⟨add_lt_add_right half _, add_lt_add_right one _⟩

/-- A quotient is rounded to the double whose halfway points are around its exact value. -/
theorem div_eq {m₁ m₂ significand : Nat} {e₁ e₂ exponent : Int} {pos₁ : 0 < m₁} {pos₂ : 0 < m₂}
    (canonical : Canonical significand exponent)
    (rounds : RoundsTo significand exponent (m₁ * 2 ^ e₁ / (m₂ * 2 ^ e₂))) :
    UnpackedFloat.div Format.binary64 (.finite .positive m₁ e₁ pos₁)
      (.finite .positive m₂ e₂ pos₂) = .finite .positive significand exponent canonical.pos := by
  show (let (m, e, accuracy) := divCore Format.binary64 m₁ e₁ m₂ e₂;
    roundWithAccuracy Format.binary64 .positive m e accuracy) = _
  unfold divCore
  dsimp only
  have target : Format.binary64.targetExponent (totalExponent m₁ e₁ - totalExponent m₂ e₂) =
      max (m₁.log2 + e₁ - (m₂.log2 + e₂) - 53) (-1074) := by
    have least : Format.binary64.minExponent = -1074 := rfl
    have width : (Format.binary64.mantissaBits : Int) = 53 := rfl
    rw [Format.targetExponent, totalExponent, totalExponent, least, width]
    omega
  rw [target]
  generalize he : min (e₁ - e₂) (max (m₁.log2 + e₁ - (m₂.log2 + e₂) - 53) (-1074)) = e
  obtain ⟨k, hk⟩ := Int.eq_ofNat_of_zero_le (show 0 ≤ e₁ - e₂ - e by omega)
  rw [hk, Int.toNat_natCast, Nat.shiftLeft_eq]
  refine roundWithAccuracy_eq canonical rounds ?_ ?_ _
  · have position : (m₁ * 2 ^ e₁ / (m₂ * 2 ^ e₂) / 2 ^ e : ℚ) = (m₁ * 2 ^ k : Nat) / m₂ := by
      have power : (2 : ℚ) ^ e₁ = 2 ^ k * 2 ^ e₂ * 2 ^ e := by
        rw [← zpow_natCast, ← zpow_add₀ two_ne_zero, ← zpow_add₀ two_ne_zero]
        congr 1
        omega
      have := (two_zpow_pos e₂).ne'
      have := (two_zpow_pos e).ne'
      rw [power]
      push_cast
      field_simp
    rw [position]
    exact near_div _ pos₂
  · by_cases small : e ≤ -1074
    · exact .inr small
    · refine .inl ((Nat.le_div_iff_mul_le pos₂).2 ?_)
      calc 2 ^ 52 * m₂ ≤ 2 ^ 52 * 2 ^ (m₂.log2 + 1) :=
            Nat.mul_le_mul_left _ Nat.lt_log2_self.le
        _ = 2 ^ (52 + (m₂.log2 + 1)) := (Nat.pow_add 2 _ _).symm
        _ ≤ 2 ^ (m₁.log2 + k) := Nat.pow_le_pow_right (by omega) (by omega)
        _ = 2 ^ m₁.log2 * 2 ^ k := Nat.pow_add 2 _ _
        _ ≤ m₁ * 2 ^ k := Nat.mul_le_mul_right _ (Nat.log2_self_le pos₁.ne')

end Stratagem.Rounding
