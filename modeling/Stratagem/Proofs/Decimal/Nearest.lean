import Stratagem.Decimal.Reading
import Stratagem.Proofs.Decimal.Unpacking
import Stratagem.Proofs.Decimal.Unsigned

/-!
# The nearest double

`Decimal.nearest` gives the double that a decimal is rounded to (`nearest_eq`): if
`digits · 10 ^ place` lies between the halfway points of a positive double, it is read as this
double. There are three ways to it, all with one rounding: a product or a quotient of exact doubles,
if the digits and the power of ten are exact ones, and else a product or a quotient of whole
numbers.
-/

namespace Stratagem.Rounding

open Float.Model Float.Model.UnpackedFloat

/-- The unpacked number is exactly `v`, with a mantissa of at least `least`. -/
inductive Exactly (least : Nat) (v : ℚ) : UnpackedFloat → Prop
  | finite {m : Nat} {e : Int} (pos : 0 < m) (full : least ≤ m) (value : (m * 2 ^ e : ℚ) = v) :
      Exactly least v (.finite .positive m e pos)

section

variable {f g : UnpackedFloat} {v w : ℚ} {least significand : Nat} {exponent : Int}

theorem Exactly.mul (hf : Exactly (2 ^ 52) v f) (hg : Exactly least w g)
    (canonical : Canonical significand exponent) (rounds : RoundsTo significand exponent (v * w)) :
    UnpackedFloat.mul Format.binary64 f g =
      .finite .positive significand exponent canonical.pos := by
  obtain ⟨pos, full, rfl⟩ := hf
  obtain ⟨pos', -, rfl⟩ := hg
  exact mul_eq canonical full rounds

theorem Exactly.div {least' : Nat} (hf : Exactly least v f) (hg : Exactly least' w g)
    (canonical : Canonical significand exponent) (rounds : RoundsTo significand exponent (v / w)) :
    UnpackedFloat.div Format.binary64 f g =
      .finite .positive significand exponent canonical.pos := by
  obtain ⟨pos, -, rfl⟩ := hf
  obtain ⟨pos', -, rfl⟩ := hg
  exact div_eq canonical rounds

end

/-! ## Whole numbers -/

/-- A whole number with its bits moved up until there are 53. -/
theorem canonical_shifted {n k : Nat} (pos : 0 < n) (hk : n.log2 + k = 52) :
    Canonical (n * 2 ^ k) (-(k : Int)) := by
  refine ⟨Nat.mul_pos pos (Nat.two_pow_pos k), ?_, by omega, fun _ => ?_⟩
  · calc n * 2 ^ k < 2 ^ (n.log2 + 1) * 2 ^ k :=
          Nat.mul_lt_mul_of_pos_right Nat.lt_log2_self (Nat.two_pow_pos k)
      _ = 2 ^ 53 := by rw [← Nat.pow_add]; congr 1; omega
  · calc 2 ^ 52 = 2 ^ n.log2 * 2 ^ k := by rw [← Nat.pow_add, hk]
      _ ≤ n * 2 ^ k := Nat.mul_le_mul_right _ (Nat.log2_self_le pos.ne')

theorem ofNat_eq {n k : Nat} (pos : 0 < n) (hk : n.log2 + k = 52) :
    UnpackedFloat.ofNat Format.binary64 n =
      .finite .positive (n * 2 ^ k) (-(k : Int)) (canonical_shifted pos hk).pos := by
  have canonical := canonical_shifted pos hk
  have positive : compare (n : Int) 0 = .gt := by
    rw [Int.compare_eq_gt]
    omega
  have shift : (0 - max ((n.log2 : Int) + 0 - 52) (-1074)).toNat = k := by omega
  unfold UnpackedFloat.ofNat UnpackedFloat.ofInt UnpackedFloat.normalize
  rw [positive]
  unfold UnpackedFloat.round decreaseExponent
  dsimp only
  rw [Int.toNat_natCast, target_eq, shift, Nat.shiftLeft_eq, zero_sub]
  refine roundWithAccuracy_eq canonical (RoundsTo.self _ _) ?_ ?_ _
  · exact mul_div_cancel_right₀ _ (two_zpow_pos _).ne'
  · exact .inl (canonical.full (by omega))

/-- A whole number of at most 53 bits is exact as a double. -/
theorem exactly_toFloat {n : Nat} (pos : 0 < n) (lt : n < 2 ^ 53) :
    Exactly (2 ^ 52) n n.toUInt64.toFloat.toModel.unpack := by
  have word : n.toUInt64.toNat = n := by
    rw [Nat.toUInt64_eq, UInt64.toNat_ofNat', Nat.mod_eq_of_lt (by omega)]
  have bits : n.log2 ≤ 52 := Nat.lt_succ_iff.1 ((Nat.log2_lt pos.ne').2 lt)
  obtain ⟨k, hk⟩ : ∃ k, n.log2 + k = 52 := ⟨52 - n.log2, by omega⟩
  have canonical := canonical_shifted pos hk
  have unpacked : n.toUInt64.toFloat.toModel.unpack =
      .finite .positive (n * 2 ^ k) (-(k : Int)) canonical.pos := by
    show (Float.Model.pack (UnpackedFloat.ofNat Format.binary64 n.toUInt64.toNat)).unpack = _
    rw [word, ofNat_eq pos hk]
    exact Decimal.unpack_pack canonical (by omega)
  rw [unpacked]
  refine .finite _ (canonical.full (by omega)) ?_
  rw [zpow_neg, zpow_natCast]
  push_cast
  field_simp

/-- Whether an unpacked number without a minus sign is this whole number. -/
def isWhole (n : Nat) : UnpackedFloat → Bool
  | .finite _ m e _ => m * 2 ^ e.toNat == n * 2 ^ (-e).toNat
  | _ => false

theorem exactly_of_isWhole {n : Nat} {f : UnpackedFloat} (unsigned : Unsigned f)
    (h : isWhole n f = true) : Exactly 0 n f := by
  cases unsigned with
  | notANumber => cases h
  | infinity => cases h
  | zero => cases h
  | @finite m e pos =>
    refine .finite pos (Nat.zero_le _) ?_
    have same : m * 2 ^ e.toNat = n * 2 ^ (-e).toNat := beq_iff_eq.1 h
    have same : (m * 2 ^ e.toNat : ℚ) = n * 2 ^ (-e).toNat := by exact_mod_cast same
    rcases Int.eq_nat_or_neg e with ⟨k, rfl | rfl⟩
    · simpa using same
    · have same : (m : ℚ) = n * 2 ^ k := by simpa using same
      rw [same, zpow_neg, zpow_natCast]
      field_simp

/-- The table of powers of ten is exact. -/
theorem exactly_power {n : Nat} (h : n < Float.exactlyRepresentablePowersOfTen.size) :
    Exactly 0 (10 ^ n : Nat) Float.exactlyRepresentablePowersOfTen[n].toModel.unpack := by
  refine exactly_of_isWhole (Unsigned.powers ⟨n, h⟩) ?_
  revert n
  decide +kernel

/-! ## Decimals -/

section

variable {x : Float} {significand : Nat} {exponent : Int} {digits power : Nat}

/-- A decimal without places is read as the double that it is rounded to. -/
theorem ofScientific_mul (parts : Decimal.Double.of x = .finite false significand exponent)
    (hs : 0 < significand) (hd : 0 < digits) (short : power ≤ 2048)
    (rounds : RoundsTo significand exponent (digits * (10 ^ power : Nat))) :
    Float.ofScientific digits false power = x := by
  have canonical := (Decimal.Double.canonical parts hs).1
  unfold Float.ofScientific
  split
  · rename_i both
    have table := exactly_power (Nat.lt_of_le_of_lt both.2 (by decide))
    have product := (exactly_toFloat hd both.1).mul table canonical rounds
    exact Decimal.ofModel_pack parts hs product
  · refine Decimal.ofModel_pack parts hs ?_
    have room : ¬ (Int.ofNat power > 2 ^ 11) := by
      rw [Int.ofNat_eq_natCast]
      omega
    have front : (0 : Int) ≤ Int.ofNat power := Int.natCast_nonneg power
    show UnpackedFloat.ofScientific Format.binary64 digits (Int.ofNat power) = _
    unfold UnpackedFloat.ofScientific
    rw [dif_neg hd.ne', if_neg room, if_neg (by simp; omega), if_pos front]
    refine @Exactly.mul _ _ digits (10 ^ power : Nat) 0 _ _
      (.finite _ ?_ ?_) (.finite _ (Nat.zero_le _) ?_) canonical rounds
    · show 2 ^ 52 ≤ digits <<< 53
      rw [Nat.shiftLeft_eq]
      omega
    · show ((digits <<< 53 : Nat) * 2 ^ (-(53 : Nat) : Int) : ℚ) = digits
      rw [Nat.shiftLeft_eq, zpow_neg, zpow_natCast]
      push_cast
      field_simp
      norm_num
    · show ((10 ^ power : Nat) * 2 ^ (0 : Int) : ℚ) = (10 ^ power : Nat)
      rw [zpow_zero, mul_one]

/-- A decimal with places is read as the double that it is rounded to. -/
theorem ofScientific_div (parts : Decimal.Double.of x = .finite false significand exponent)
    (hs : 0 < significand) (hd : 0 < digits) (some : 0 < power) (short : power ≤ 2048 + digits.log2)
    (rounds : RoundsTo significand exponent (digits / (10 ^ power : Nat))) :
    Float.ofScientific digits true power = x := by
  have canonical := (Decimal.Double.canonical parts hs).1
  unfold Float.ofScientific
  split
  · rename_i both
    have table := exactly_power (Nat.lt_of_le_of_lt both.2 (by decide))
    have quotient := (exactly_toFloat hd both.1).div table canonical rounds
    exact Decimal.ofModel_pack parts hs quotient
  · refine Decimal.ofModel_pack parts hs ?_
    have place : Int.negOfNat power = -(power : Int) := Int.negOfNat_eq
    show UnpackedFloat.ofScientific Format.binary64 digits (Int.negOfNat power) = _
    rw [place]
    unfold UnpackedFloat.ofScientific
    rw [dif_neg hd.ne', if_neg (by simp), if_neg (by simp; omega), if_neg (by omega)]
    refine @Exactly.div _ _ digits (10 ^ power : Nat) 0 _ _ 0
      (.finite _ (Nat.zero_le _) ?_) (.finite _ (Nat.zero_le _) ?_) canonical rounds
    · rw [zpow_zero, mul_one]
    · rw [zpow_zero, mul_one, neg_neg, Int.toNat_natCast]

theorem two_zpow_lt {a b : Nat} (h : 2 ^ a < 10 ^ b) : (2 : ℚ) ^ (a : Int) < 10 ^ (b : Int) := by
  rw [zpow_natCast, zpow_natCast]
  exact_mod_cast h

theorem ten_zpow_neg_lt {a b : Nat} (h : 2 ^ a < 10 ^ b) :
    (10 : ℚ) ^ (-b : Int) < 2 ^ (-a : Int) := by
  rw [zpow_neg, zpow_neg]
  exact inv_strictAnti₀ (two_zpow_pos _) (two_zpow_lt h)

/-- What is rounded to a double is between the least and the greatest numbers that are read. -/
theorem RoundsTo.limits {m : Nat} {e : Int} {v : ℚ} (h : RoundsTo m e v) (canonical : Canonical m e)
    (high : e ≤ 971) : (10 : ℚ) ^ (-400 : Int) < v ∧ v < 10 ^ (309 : Int) := by
  have one : (1 : ℚ) ≤ m := by exact_mod_cast canonical.pos
  have bits : (m : ℚ) + 1 ≤ 2 ^ 53 := by exact_mod_cast canonical.lt
  have half := halfBelow_le m e
  constructor
  · calc (10 : ℚ) ^ (-400 : Int) < 2 ^ (-1075 : Int) :=
        ten_zpow_neg_lt (a := 1075) (b := 400) (by decide +kernel)
      _ = 1 / 2 * 2 ^ (-1074 : Int) := by
        rw [show (-1075 : Int) = -1 + -1074 from rfl, zpow_add₀ two_ne_zero, zpow_neg_one,
          one_div]
      _ ≤ (m - halfBelow m e) * 2 ^ e :=
        mul_le_mul (by linarith) (zpow_le_zpow_right₀ one_le_two canonical.least)
          (two_zpow_pos _).le (by linarith)
      _ ≤ v := h.ge
  · calc v ≤ (m + 1 / 2) * 2 ^ e := h.le
      _ ≤ 2 ^ (53 : Int) * 2 ^ (971 : Int) :=
        mul_le_mul (by rw [zpow_ofNat]; linarith) (zpow_le_zpow_right₀ one_le_two high)
          (two_zpow_pos _).le (two_zpow_pos _).le
      _ = 2 ^ (1024 : Int) := by rw [← zpow_add₀ two_ne_zero]; rfl
      _ < 10 ^ (309 : Int) := two_zpow_lt (a := 1024) (b := 309) (by decide +kernel)

/-- A number lies between two powers of ten by its number of digits. -/
theorem digits_bounds (hd : 0 < digits) :
    10 ^ ((Nat.toDigits 10 digits).length - 1) ≤ digits ∧
      digits < 10 ^ (Nat.toDigits 10 digits).length := by
  have pos : 0 < (Nat.toDigits 10 digits).length := Nat.length_toDigits_pos
  refine ⟨?_, (Nat.length_toDigits_le_iff (by decide) pos).1 le_rfl⟩
  by_contra less
  by_cases single : (Nat.toDigits 10 digits).length = 1
  · rw [single] at less
    omega
  · have := (Nat.length_toDigits_le_iff (k := (Nat.toDigits 10 digits).length - 1)
      (by decide) (by omega)).2 (Nat.not_le.1 less)
    omega

/-- A decimal lies between two powers of ten by its number of digits and its place. -/
theorem place_bounds (hd : 0 < digits) {place a b : Int}
    (low : (10 : ℚ) ^ a < digits * 10 ^ place) (high : (digits * 10 ^ place : ℚ) < 10 ^ b) :
    a < place + (Nat.toDigits 10 digits).length ∧
      place + (Nat.toDigits 10 digits).length ≤ b := by
  have ten : (1 : ℚ) < 10 := by norm_num
  have unit : (0 : ℚ) < 10 ^ place := zpow_pos (by norm_num) place
  have len : 0 < (Nat.toDigits 10 digits).length := Nat.length_toDigits_pos
  obtain ⟨least, most⟩ := digits_bounds hd
  generalize (Nat.toDigits 10 digits).length = n at *
  constructor
  · have following : (digits * 10 ^ place : ℚ) < 10 ^ (place + n) := by
      have most : (digits : ℚ) < 10 ^ n := by exact_mod_cast most
      rw [add_comm place, zpow_add₀ (by norm_num), zpow_natCast]
      exact mul_lt_mul_of_pos_right most unit
    exact (zpow_lt_zpow_iff_right₀ ten).1 (low.trans following)
  · have leading : (10 : ℚ) ^ (place + n - 1) ≤ digits * 10 ^ place := by
      have least : (10 ^ (n - 1) : ℚ) ≤ digits := by exact_mod_cast least
      rw [show place + n - 1 = ((n - 1 : Nat) : Int) + place by omega,
        zpow_add₀ (by norm_num), zpow_natCast]
      exact mul_le_mul_of_nonneg_right least unit.le
    have := (zpow_lt_zpow_iff_right₀ ten).1 (leading.trans_lt high)
    omega

/-- A number has at most as many digits as bits. -/
theorem length_toDigits_le (n : Nat) : (Nat.toDigits 10 n).length ≤ n.log2 + 1 := by
  refine (Nat.length_toDigits_le_iff (by decide) (Nat.succ_pos _)).2 ?_
  exact Nat.lt_log2_self.trans_le (Nat.pow_le_pow_left (by decide) _)

/-- A decimal is read as the double that it is rounded to. -/
theorem nearest_eq (parts : Decimal.Double.of x = .finite false significand exponent)
    (hs : 0 < significand) {place : Int}
    (rounds : RoundsTo significand exponent (digits * 10 ^ place)) :
    Decimal.nearest digits place = x := by
  obtain ⟨canonical, high⟩ := Decimal.Double.canonical parts hs
  have hd : 0 < digits := by
    have value := rounds.pos hs
    exact Nat.pos_of_ne_zero fun zero => by simp [zero] at value
  obtain ⟨above, below⟩ := rounds.limits canonical high
  obtain ⟨bottom, top⟩ := place_bounds hd above below
  have len : 0 < (Nat.toDigits 10 digits).length := Nat.length_toDigits_pos
  have bits := length_toDigits_le digits
  unfold Decimal.nearest
  rw [if_neg hd.ne']
  dsimp only
  rw [if_neg (by omega), if_neg (by omega)]
  split
  · rename_i front
    lift place to Nat using front
    refine ofScientific_mul parts hs hd (by omega) ?_
    rw [zpow_natCast] at rounds
    exact_mod_cast rounds
  · rename_i behind
    obtain ⟨k, rfl⟩ : ∃ k : Nat, place = -k := ⟨(-place).toNat, by omega⟩
    rw [neg_neg, Int.toNat_natCast]
    refine ofScientific_div parts hs hd (by omega) (by omega) ?_
    rw [zpow_neg, zpow_natCast, ← div_eq_mul_inv] at rounds
    exact_mod_cast rounds

end

end Stratagem.Rounding
