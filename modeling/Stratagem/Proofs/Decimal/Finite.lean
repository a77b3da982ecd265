import Mathlib.Data.Nat.Log
import Mathlib.Tactic.NormNum

/-!
# Finite doubles

Facts about doubles that are finite: one that is not at most zero is above zero
(`zero_lt_of_isFinite`), all of them lie between the infinities (`neg_infinity_lt`, `lt_infinity`),
negation and the absolute value keep them finite (`isFinite_neg`, `isFinite_abs`), and so are all
whole numbers of 64 bits (`isFinite_ofInt`).

A double is finite unless its exponent is too large, so the proofs follow a bound on exponents
(`Below`) through unpacking, packing and rounding. The bounds are far from sharp.
-/

namespace Stratagem.Finite

open Float.Model Float.Model.UnpackedFloat

/-- The number is finite, with an exponent of at most `limit`. -/
inductive Below (limit : Int) : UnpackedFloat → Prop
  | zero (s : Sign) : Below limit (.zero s)
  | finite (s : Sign) {m : Nat} {e : Int} (pos : 0 < m) (le : e ≤ limit) :
      Below limit (.finite s m e pos)

variable {limit : Int} {f : UnpackedFloat}

theorem Below.isFinite (h : Below limit f) : f.isFinite = true := by
  cases h with
  | zero s => rfl
  | finite s pos le => rfl

theorem Below.neg (h : Below limit f) : Below limit f.neg := by
  cases h with
  | zero s => exact .zero _
  | finite s pos le => exact .finite _ pos le

theorem Below.abs (h : Below limit f) : Below limit f.abs := by
  cases h with
  | zero s => exact .zero _
  | finite s pos le => exact .finite _ pos le

theorem Below.lt_infinity (h : Below limit f) : f.lt (.infinity .positive) = true := by
  cases h with
  | zero s => rfl
  | finite s pos le => rfl

theorem Below.neg_infinity_lt (h : Below limit f) :
    UnpackedFloat.lt (.infinity .negative) f = true := by
  cases h with
  | zero s => rfl
  | finite s pos le => rfl

theorem bias_eq : (Format.binary64.exponentBias : Int) = 1023 := rfl

theorem width_eq : (Format.binary64.mantissaBitsWithoutImplicit : Int) = 52 := rfl

/-! ## Packing and unpacking -/

/-- A double whose exponent field is not the greatest is zero or finite. -/
theorem unpack_cases {b : BitVec Format.binary64.numBits} (h : unpackExponent b ≠ -1#_) :
    (∃ s, unpack Format.binary64 b = .zero s) ∨
      ∃ s m e pos, unpack Format.binary64 b = .finite s m e pos ∧ m < 2 ^ 53 ∧
        e ≤ max 1 (unpackExponent b).toNat - 1075 := by
  unfold UnpackedFloat.unpack
  rw [if_neg h]
  by_cases zero : @unpackExponent Format.binary64 b = 0#_
  · rw [if_pos zero]
    by_cases none : @unpackMantissa Format.binary64 b = 0#_
    · rw [dif_pos none]
      exact .inl ⟨_, rfl⟩
    · have pos : 0 < (@unpackMantissa Format.binary64 b).toNat :=
        Nat.pos_of_ne_zero fun same => none (BitVec.eq_of_toNat_eq same)
      rw [dif_neg none]
      refine .inr ⟨_, _, _, pos, rfl, (BitVec.isLt _).trans (by decide), ?_⟩
      rw [bias_eq, width_eq, zero, BitVec.toNat_zero]
      omega
  · have pos {w : Nat} (mantissa : BitVec w) : 0 < (1#1 ++ mantissa).toNat := by simp
    rw [if_neg zero]
    refine .inr ⟨_, _, _, pos _, rfl, BitVec.isLt _, ?_⟩
    rw [bias_eq, width_eq]
    omega

theorem unpackExponent_ne {b : BitVec Format.binary64.numBits}
    (h : (unpack Format.binary64 b).isFinite = true) : unpackExponent b ≠ -1#_ := by
  intro top
  unfold UnpackedFloat.unpack at h
  rw [if_pos top] at h
  by_cases none : @unpackMantissa Format.binary64 b = 0#_
  · rw [if_pos none] at h
    cases h
  · rw [if_neg none] at h
    cases h

theorem mantissa_unpack_lt {b : BitVec Format.binary64.numBits} {s : Sign} {m : Nat} {e : Int}
    {pos : 0 < m} (h : unpack Format.binary64 b = .finite s m e pos) : m < 2 ^ 53 := by
  have finite : (unpack Format.binary64 b).isFinite = true := by rw [h]; rfl
  obtain ⟨s', eq⟩ | ⟨s', m', e', pos', eq, lt, -⟩ := unpack_cases (unpackExponent_ne finite)
  · rw [eq] at h
    cases h
  · rw [eq] at h
    injection h with _ same
    exact same ▸ lt

theorem below_unpack {b : BitVec Format.binary64.numBits} {field : BitVec 11}
    (hfield : unpackExponent b = field) (h : field ≠ -1#11) (low : -1074 ≤ limit)
    (le : field.toNat ≤ limit + 1075) : Below limit (unpack Format.binary64 b) := by
  subst hfield
  obtain ⟨s, eq⟩ | ⟨s, m, e, pos, eq, -, small⟩ := unpack_cases h
  · exact eq ▸ .zero s
  · exact eq ▸ .finite s pos (by omega)

/-- A finite double has an exponent of at most 971. -/
theorem below_of_isFinite {b : BitVec Format.binary64.numBits}
    (h : (unpack Format.binary64 b).isFinite = true) : Below 971 (unpack Format.binary64 b) := by
  have notTop := unpackExponent_ne h
  generalize hfield : @unpackExponent Format.binary64 b = field at notTop
  refine below_unpack hfield notTop (by omega) ?_
  have small : field.toNat < 2048 := field.isLt
  have below : field.toNat ≠ 2047 := fun top => notTop (BitVec.eq_of_toNat_eq top)
  omega

theorem below_pack (h : Below limit f) (low : -1074 ≤ limit) (high : limit ≤ 971) :
    Below limit (Float.Model.pack f).unpack := by
  have unpacked : (Float.Model.pack f).unpack =
      unpack Format.binary64 (UnpackedFloat.pack Format.binary64 f) := rfl
  rw [unpacked]
  cases h with
  | zero s =>
    refine below_unpack unpackExponent_packComponents (by decide) low ?_
    simp only [BitVec.ofNat_eq_ofNat, BitVec.toNat_zero]
    omega
  | @finite s m e pos le =>
    unfold UnpackedFloat.pack
    extract_lets
    split
    · rename_i large
      have large : 2048 ≤ (e + 1023 + 52).toNat + 1 := large
      omega
    · split
      · refine below_unpack unpackExponent_packComponents ?_ low ?_
        · intro top
          have top : (e + 1023 + 52).toNat % 2048 = 2047 := congrArg BitVec.toNat top
          omega
        · show (((e + 1023 + 52).toNat % 2048 : Nat) : Int) ≤ limit + 1075
          omega
      · refine below_unpack unpackExponent_packComponents (by decide) low ?_
        simp only [BitVec.toNat_zero]
        omega

/-! ## Rounding -/

theorem mantissa_shiftRight_le (em : ExtendedMantissa) (k : Nat) :
    (em >>> k).mantissa ≤ em.mantissa := by
  show (k.repeat ExtendedMantissa.shiftRightOne em).mantissa ≤ em.mantissa
  induction k with
  | zero => exact Nat.le_refl _
  | succ k ih =>
    refine Nat.le_trans ?_ ih
    exact Nat.div_le_self _ _

theorem roundedMantissa_le (em : ExtendedMantissa) : em.roundedMantissa ≤ em.mantissa + 1 := by
  obtain ⟨m, r, s⟩ := em
  unfold ExtendedMantissa.roundedMantissa
  cases r <;> cases s <;>
    simp only [ExtendedMantissa.accuracy, Accuracy.roundToNearestEven] <;> omega

/-- A shift takes bits off the mantissa, and the exponent goes up to the target at most. -/
theorem shiftToTargetExponent_le {m bits : Nat} {e : Int} (hm : m < 2 ^ (bits + 1)) :
    (shiftToTargetExponent Format.binary64 m e .exact).1.mantissa ≤ m ∧
      (shiftToTargetExponent Format.binary64 m e .exact).2 ≤ max (e + bits) (-1074) := by
  refine ⟨mantissa_shiftRight_le _ _, ?_⟩
  have log : m.log2 ≤ bits := by
    by_cases zero : m = 0
    · simp [zero]
    · exact Nat.lt_succ_iff.1 ((Nat.log2_lt zero).2 hm)
  have width : (Format.binary64.mantissaBits : Int) = 53 := rfl
  simp only [shiftToTargetExponent, shiftToExponent, Format.targetExponent, totalExponent, width,
    Format.minExponent]
  norm_num
  omega

theorem below_round {m bits : Nat} {e : Int} (s : Sign) (hm : m + 1 < 2 ^ (bits + 1))
    (le : e + 2 * bits ≤ limit) (low : -1074 + bits ≤ limit) :
    Below limit (roundWithAccuracy Format.binary64 s m e .exact) := by
  have first := @shiftToTargetExponent_le m bits e (by omega)
  unfold roundWithAccuracy
  generalize shiftToTargetExponent Format.binary64 m e .exact = shifted at first
  obtain ⟨em, e₁⟩ := shifted
  have rounded := roundedMantissa_le em
  have second := @shiftToTargetExponent_le em.roundedMantissa bits e₁ (by simp only at first; omega)
  dsimp only at first second ⊢
  generalize shiftToTargetExponent Format.binary64 em.roundedMantissa e₁ .exact = again at second ⊢
  by_cases none : again.1.mantissa = 0
  · rw [dif_pos none]
    exact .zero s
  · rw [dif_neg none]
    refine .finite s _ ?_
    omega

theorem below_mul {s₁ s₂ : Sign} {m₁ m₂ : Nat} {e₁ e₂ : Int} {pos₁ : 0 < m₁} {pos₂ : 0 < m₂}
    (bits : Nat) (hm : m₁ * m₂ + 1 < 2 ^ (bits + 1)) (le : e₁ + e₂ + 2 * bits ≤ limit)
    (low : -1074 + bits ≤ limit) :
    Below limit (UnpackedFloat.mul Format.binary64 (.finite s₁ m₁ e₁ pos₁)
      (.finite s₂ m₂ e₂ pos₂)) :=
  below_round _ hm le low

/-! ## Doubles -/

theorem below_toModel {x : Float} (h : x.isFinite = true) : Below 971 x.toModel.unpack :=
  below_of_isFinite h

theorem lt_iff {x y : Float} : x < y ↔ x.toModel.unpack.lt y.toModel.unpack = true :=
  decide_eq_true_iff

/-- A finite double that is not at most zero is above zero. -/
theorem zero_lt_of_isFinite {x : Float} (h : x.isFinite = true) (pos : ¬ x ≤ 0.0) : 0.0 < x := by
  have zero : (0.0 : Float).toModel.unpack = .zero .positive := rfl
  have le_iff : x ≤ 0.0 ↔ x.toModel.unpack.le (0.0 : Float).toModel.unpack = true :=
    decide_eq_true_iff
  rw [le_iff, zero] at pos
  rw [lt_iff, zero]
  have finite : x.toModel.unpack.isFinite = true := h
  cases hx : x.toModel.unpack with
  | infinity s => rw [hx] at finite; cases finite
  | notANumber => rw [hx] at finite; cases finite
  | zero s => rw [hx] at pos; exact absurd rfl pos
  | finite s m e hm =>
    cases s with
    | negative => rw [hx] at pos; exact absurd rfl pos
    | positive => rfl

theorem isFinite_neg {x : Float} (h : x.isFinite = true) : (-x).isFinite = true :=
  (below_pack (below_toModel h).neg (by omega) (by omega)).isFinite

theorem isFinite_abs {x : Float} (h : x.isFinite = true) : x.abs.isFinite = true :=
  (below_pack (below_toModel h).abs (by omega) (by omega)).isFinite

theorem lt_infinity {x : Float} (h : x.isFinite = true) : x < 1.0 / 0.0 := by
  have infinity : (1.0 / 0.0 : Float).toModel.unpack = .infinity .positive := rfl
  rw [lt_iff, infinity]
  exact (below_toModel h).lt_infinity

theorem neg_infinity_lt {x : Float} (h : x.isFinite = true) : -1.0 / 0.0 < x := by
  have infinity : (-1.0 / 0.0 : Float).toModel.unpack = .infinity .negative := rfl
  rw [lt_iff, infinity]
  exact (below_toModel h).neg_infinity_lt

/-- Rounding a whole number below `2 ^ 53`. -/
theorem below_ofNat {n : Nat} (h : n < 2 ^ 53) :
    Below 210 (UnpackedFloat.ofNat Format.binary64 n) := by
  unfold UnpackedFloat.ofNat UnpackedFloat.ofInt UnpackedFloat.normalize
  cases n with
  | zero => exact .zero _
  | succ n =>
    have positive : compare ((n + 1 : Nat) : Int) 0 = .gt := by
      rw [Int.compare_eq_gt]
      omega
    rw [positive]
    unfold Float.Model.UnpackedFloat.round decreaseExponent
    generalize hk : (0 - Format.binary64.targetExponent (totalExponent (n + 1 : Nat) 0)).toNat = k
    have few : k ≤ 52 := by
      rw [← hk]
      have width : (Format.binary64.mantissaBits : Int) = 53 := rfl
      simp only [Format.targetExponent, totalExponent, width, Format.minExponent]
      norm_num
      omega
    have shifted : (n + 1) <<< k + 1 < 2 ^ (105 + 1) := by
      rw [Nat.shiftLeft_eq]
      have power : 2 ^ k ≤ 2 ^ 52 := Nat.pow_le_pow_right (by decide) few
      have product : (n + 1) * 2 ^ k ≤ (2 ^ 53 - 1) * 2 ^ 52 := Nat.mul_le_mul (by omega) power
      omega
    refine @below_round 210 _ 105 _ .positive ?_ ?_ ?_
    · show ((n + 1 : Nat) : Int).toNat <<< _ + 1 < _
      rw [Int.toNat_natCast, hk]
      exact shifted
    · omega
    · omega

theorem isFinite_ofNat {n : Nat} (h : n < 2 ^ 64) : (Float.ofNat n).isFinite = true := by
  show (Float.ofScientific n false 0).isFinite = true
  unfold Float.ofScientific
  split
  · rename_i small
    have word : n.toUInt64.toNat = n := by
      rw [Nat.toUInt64_eq, UInt64.toNat_ofNat', Nat.mod_eq_of_lt h]
    have whole : Below 210 (n.toUInt64.toFloat).toModel.unpack := by
      refine below_pack ?_ (by omega) (by omega)
      show Below 210 (UnpackedFloat.ofNat Format.binary64 n.toUInt64.toNat)
      rw [word]
      exact below_ofNat small.1
    have below : Below 971 (UnpackedFloat.mul Format.binary64 n.toUInt64.toFloat.toModel.unpack
          (.finite .positive (2 ^ 52) (-52) (by decide))) := by
      generalize hf : n.toUInt64.toFloat.toModel.unpack = f at whole
      cases whole with
      | zero s => exact .zero _
      | @finite s m e pos le =>
        have bound : m < 2 ^ 53 := mantissa_unpack_lt hf
        exact below_mul 105 (by omega) (by omega) (by omega)
    -- The table of powers of ten gives the double 1 for the power 0.
    generalize hpower : getElem Float.exactlyRepresentablePowersOfTen 0 (by decide) = power
    have one : power.toModel.unpack = .finite .positive (2 ^ 52) (-52) (by decide) := by
      rw [← hpower]
      rfl
    show (Float.Model.pack (UnpackedFloat.mul Format.binary64 n.toUInt64.toFloat.toModel.unpack
      power.toModel.unpack)).unpack.isFinite = true
    rw [one]
    exact (below_pack below (by omega) (by omega)).isFinite
  · rename_i large
    have below : Below 971 (UnpackedFloat.ofScientific Format.binary64 n 0) := by
      have limit : (0 : Int) ≤ 2 ^ Format.binary64.exponentBits := by decide
      have width : (Format.binary64.mantissaBits : Int) = 53 := rfl
      unfold UnpackedFloat.ofScientific
      rw [dif_neg (by omega), if_neg (by decide), if_neg (by omega), if_pos (by decide)]
      refine below_mul 117 ?_ ?_ (by omega)
      · have width : Format.binary64.mantissaBits = 53 := rfl
        rw [Int.toNat_zero, Nat.pow_zero, Nat.mul_one, Nat.shiftLeft_eq, width]
        omega
      · omega
    exact (below_pack below (by omega) (by omega)).isFinite

/-- A whole number of 64 bits, with or without a sign, is finite as a double. -/
theorem isFinite_ofInt {n : Int} (low : -2 ^ 63 ≤ n) (high : n < 2 ^ 64) :
    (Float.ofInt n).isFinite = true := by
  cases n with
  | ofNat n =>
    have small : n < 2 ^ 64 := by
      have := high
      simp only [Int.ofNat_eq_natCast] at this
      omega
    exact isFinite_ofNat small
  | negSucc n =>
    have small : n + 1 < 2 ^ 64 := by omega
    exact isFinite_neg (isFinite_ofNat small)

end Stratagem.Finite
