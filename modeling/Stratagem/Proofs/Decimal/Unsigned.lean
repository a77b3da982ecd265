import Stratagem.Decimal.Reading

/-!
# Numbers that are read are not negative

A decimal without a minus sign in front is not negative as a double (`zero_le_of_read`). No
operation that reading uses makes a minus sign out of numbers that have none (`Unsigned`).
-/

namespace Stratagem

open Float.Model Float.Model.UnpackedFloat

/-- The number has no minus sign. -/
inductive Unsigned : UnpackedFloat → Prop
  | notANumber : Unsigned .notANumber
  | infinity : Unsigned (.infinity .positive)
  | zero : Unsigned (.zero .positive)
  | finite {m : Nat} {e : Int} (pos : 0 < m) : Unsigned (.finite .positive m e pos)

namespace Unsigned

variable {f g : UnpackedFloat}

theorem ite {p : Prop} [Decidable p] (hf : Unsigned f) (hg : Unsigned g) :
    Unsigned (if p then f else g) := by
  split
  · exact hf
  · exact hg

theorem unpack {b : BitVec Format.binary64.numBits} (h : unpackSign b = 0#1) :
    Unsigned (unpack Format.binary64 b) := by
  have sign : Sign.ofBitVec (unpackSign b) = .positive := by rw [h]; rfl
  unfold UnpackedFloat.unpack
  dsimp only
  rw [sign]
  refine ite (ite .infinity .notANumber) (ite ?_ (.finite _))
  by_cases none : @unpackMantissa Format.binary64 b = 0#_
  · rw [dif_pos none]
    exact .zero
  · rw [dif_neg none]
    exact .finite _

theorem unpackSign_packComponents (format : Format) (s : Sign) (exponent mantissa) :
    unpackSign (packComponents format s exponent mantissa) = s.toBitVec := by
  ext i hi
  obtain rfl : i = 0 := by omega
  show (BitVec.cast _ (BitVec.extractLsb _ _ (s.toBitVec ++ exponent ++ mantissa)))[0] = _
  simp [BitVec.getLsbD_append, BitVec.getElem_append]

theorem pack (h : Unsigned f) : Unsigned (Float.Model.pack f).unpack := by
  show Unsigned (UnpackedFloat.unpack Format.binary64 (UnpackedFloat.pack Format.binary64 f))
  refine unpack ?_
  cases h with
  | notANumber => exact unpackSign_packComponents _ .positive _ _
  | infinity => exact unpackSign_packComponents _ .positive _ _
  | zero => exact unpackSign_packComponents _ .positive _ _
  | finite pos =>
    unfold UnpackedFloat.pack
    extract_lets
    split
    · exact unpackSign_packComponents _ .positive _ _
    · split <;> exact unpackSign_packComponents _ .positive _ _

theorem round (m : Nat) (e : Int) (accuracy : Accuracy) :
    Unsigned (roundWithAccuracy Format.binary64 .positive m e accuracy) := by
  unfold roundWithAccuracy
  dsimp only
  generalize shiftToTargetExponent Format.binary64 _ _ .exact = shifted
  by_cases none : shifted.1.mantissa = 0
  · rw [dif_pos none]
    exact .zero
  · rw [dif_neg none]
    exact .finite _

theorem mul (hf : Unsigned f) (hg : Unsigned g) :
    Unsigned (UnpackedFloat.mul Format.binary64 f g) := by
  cases hf <;> cases hg <;>
    first | exact .notANumber | exact .infinity | exact .zero | exact round _ _ _

theorem div (hf : Unsigned f) (hg : Unsigned g) :
    Unsigned (UnpackedFloat.div Format.binary64 f g) := by
  cases hf <;> cases hg <;>
    first | exact .notANumber | exact .infinity | exact .zero | exact round _ _ _

theorem ofNat (n : Nat) : Unsigned (UnpackedFloat.ofNat Format.binary64 n) := by
  unfold UnpackedFloat.ofNat UnpackedFloat.ofInt UnpackedFloat.normalize
  split
  · rename_i negative
    rw [Int.compare_eq_lt] at negative
    omega
  · exact .zero
  · exact round _ _ _

/-! ## Decimals -/

/-- The table of powers of ten has no negative ones. -/
theorem powers (i : Fin Float.exactlyRepresentablePowersOfTen.size) :
    Unsigned Float.exactlyRepresentablePowersOfTen[i].toModel.unpack := by
  refine unpack ?_
  revert i
  decide +kernel

theorem ofScientific (m : Nat) (e : Int) :
    Unsigned (UnpackedFloat.ofScientific Format.binary64 m e) := by
  unfold UnpackedFloat.ofScientific
  by_cases none : m = 0
  · rw [dif_pos none]
    exact .zero
  · rw [dif_neg none]
    refine ite .infinity (ite .zero (ite ?_ ?_))
    · exact mul (.finite _) (.finite _)
    · exact div (.finite _) (.finite _)

theorem float_ofScientific (m : Nat) (small : Bool) (e : Nat) :
    Unsigned (Float.ofScientific m small e).toModel.unpack := by
  unfold Float.ofScientific
  split
  · rename_i exact'
    have whole : Unsigned m.toUInt64.toFloat.toModel.unpack := pack (ofNat _)
    have power := powers ⟨e, Nat.lt_of_le_of_lt exact'.2 (by decide)⟩
    split
    · exact pack (div whole power)
    · exact pack (mul whole power)
  · exact pack (ofScientific _ _)

theorem nearest (digits : Nat) (place : Int) :
    Unsigned (Decimal.nearest digits place).toModel.unpack := by
  have nothing : Unsigned (0.0 : Float).toModel.unpack := .zero
  have infinite : Unsigned (1.0 / 0.0 : Float).toModel.unpack := .infinity
  unfold Decimal.nearest
  dsimp only
  split
  · exact nothing
  · split
    · exact infinite
    · split
      · exact nothing
      · split <;> exact float_ofScientific _ _ _

theorem readMagnitude {cs : List Char} {x : Float} (h : Decimal.readMagnitude cs = some x) :
    Unsigned x.toModel.unpack := by
  have infinite : Unsigned (1.0 / 0.0 : Float).toModel.unpack := .infinity
  have invalid : Unsigned (0.0 / 0.0 : Float).toModel.unpack := .notANumber
  unfold Decimal.readMagnitude at h
  dsimp only at h
  -- With or without a point, what follows is the same.
  split at h
  all_goals
    split at h
    · split at h
      · cases h
        exact infinite
      · split at h
        · cases h
          exact invalid
        · cases h
    · obtain ⟨e, -, rfl⟩ := Option.map_eq_some_iff.1 h
      exact nearest _ _

theorem zero_le {x : Float} (h : Unsigned x.toModel.unpack) (finite : x.isFinite = true) :
    0.0 ≤ x := by
  have nothing : (0.0 : Float).toModel.unpack = .zero .positive := rfl
  have le_iff : 0.0 ≤ x ↔ (0.0 : Float).toModel.unpack.le x.toModel.unpack = true :=
    decide_eq_true_iff
  have finite : x.toModel.unpack.isFinite = true := finite
  rw [le_iff, nothing]
  generalize x.toModel.unpack = f at h finite
  cases h with
  | notANumber => cases finite
  | infinity | zero | finite => rfl

end Unsigned

/-- A number that is read from a text without a minus sign in front is not negative. -/
theorem Decimal.zero_le_of_read {text : String} {x : Float} (h : read text = .ok x)
    (plain : text.toList.head? ≠ some '-') (finite : x.isFinite = true) : 0.0 ≤ x := by
  refine Unsigned.zero_le ?_ finite
  unfold read at h
  split at h
  · cases h
  · rename_i cs _
    have sign : (splitSign text.toList).1 = false := by
      unfold splitSign
      split
      · rename_i same
        rw [same] at plain
        exact absurd rfl plain
      · rfl
      · rfl
    dsimp only at h
    split at h
    · cases h
    · rename_i magnitude
      rw [sign] at h
      cases h
      exact Unsigned.readMagnitude magnitude

end Stratagem
