import Mathlib.Algebra.Order.Field.Rat
import Mathlib.Tactic.FieldSimp
import Mathlib.Tactic.Ring
import Stratagem.Proofs.Decimal.Digits

/-!
# Written numbers

A double in a log is written as a numeral: digits, some of them behind a point, and perhaps a power
of ten (`Numeral`). Whatever layout is chosen, the numeral has the value of the decimal that was
found for the double (`exists_numeral`).
-/

namespace Stratagem.Decimal

/-- The exact value of a decimal. -/
def Scaled.value (s : Scaled) : ℚ := s.digits * 10 ^ s.place

/-- A number without a sign: the digits before the point, those behind it, and a power of ten. -/
structure Numeral where
  whole : List Char
  fraction : List Char
  exponent : Option Int

namespace Numeral

variable (n : Numeral)

/-- The digits behind the point, if there are any, with the point. -/
def fractionChars : List Char := if n.fraction = [] then [] else '.' :: n.fraction

/-- The power of ten, if it is given. -/
def exponentChars : List Char :=
  match n.exponent with
  | none => []
  | some e => 'e' :: (if e < 0 then '-' else '+') :: Nat.toDigits 10 e.natAbs

/-- The characters of the number. -/
def chars : List Char := n.whole ++ (n.fractionChars ++ n.exponentChars)

/-- The number without its point, and the power of ten that makes up for it. -/
def scaled : Scaled where
  digits := digitsValue (n.whole ++ n.fraction)
  place := n.exponent.getD 0 - n.fraction.length

/-- There is a digit before the point, and a zero in front is the only one. -/
structure Proper : Prop where
  whole : AreDigits n.whole
  nonempty : n.whole ≠ []
  front : n.whole.head? = some '0' → n.whole = ['0']
  fraction : AreDigits n.fraction

/-- The number has these characters and the value of the decimal, and with its point or its power of
ten it does not count as whole. -/
structure Shows (text : List Char) (s : Scaled) : Prop where
  proper : n.Proper
  chars : text = n.chars
  value : n.scaled.value = s.value
  notWhole : n.fraction ≠ [] ∨ n.exponent ≠ none
  few : n.scaled.digits ≤ max s.digits (10 ^ 17)
  leading : ∀ e ∈ n.exponent, (10 : ℚ) ^ e ≤ s.value ∧ s.value < 10 ^ (e + 1)

end Numeral

/-! ## Significant digits -/

/-- The digits of a number end in as many zeros as are dropped. -/
theorem significant_eq (s : Scaled) : ∃ zeros : Nat,
    Nat.toDigits 10 s.digits = s.significant.1 ++ List.replicate zeros '0' ∧
      s.significant.2 = s.place + zeros := by
  generalize hds : Nat.toDigits 10 s.digits = ds
  have split := List.takeWhile_append_dropWhile (p := (· == '0')) (l := ds.reverse)
  have zeros : ds.reverse.takeWhile (· == '0') =
      List.replicate (ds.reverse.takeWhile (· == '0')).length '0' := by
    refine List.eq_replicate_of_mem fun c hc => ?_
    have all := List.all_eq_true.1 (List.all_takeWhile (p := (· == '0')) (l := ds.reverse)) c hc
    simpa using all
  have whole : ds = s.significant.1 ++
      List.replicate (ds.reverse.takeWhile (· == '0')).length '0' := by
    rw [Scaled.significant, hds, ← List.reverse_replicate, ← zeros, ← List.reverse_append, split,
      List.reverse_reverse]
  refine ⟨_, whole, ?_⟩
  have length := congrArg List.length whole
  rw [List.length_append, List.length_replicate] at length
  show s.place + (((Nat.toDigits 10 s.digits).length : Int) - s.significant.1.length) = _
  rw [hds]
  omega

/-- What is kept of the digits: all digits of a number, none of them a zero in front. -/
structure Significant (s : Scaled) (ds : List Char) (place : Int) : Prop where
  digits : AreDigits ds
  nonempty : ds ≠ []
  front : ds.head? ≠ some '0'
  value : (digitsValue ds : ℚ) * 10 ^ place = s.value
  le : digitsValue ds ≤ s.digits

theorem significant_significant {s : Scaled} (h : s.digits ≠ 0) :
    Significant s s.significant.1 s.significant.2 := by
  obtain ⟨zeros, whole, place⟩ := significant_eq s
  have all := areDigits_toDigits s.digits
  have front := head_toDigits h
  have value := digitsValue_toDigits s.digits
  rw [whole] at all front value
  have nonempty : s.significant.1 ≠ [] := by
    intro none
    rw [none, List.nil_append, digitsValue_replicate] at value
    exact h value.symm
  rw [digitsValue_append, digitsValue_replicate, Nat.add_zero, List.length_replicate] at value
  refine ⟨fun c hc => all c (List.mem_append_left _ hc), nonempty, ?_, ?_, ?_⟩
  · rwa [List.head?_append_of_ne_nil _ nonempty] at front
  · rw [Scaled.value, place, ← value, zpow_add₀ (by norm_num), zpow_natCast]
    push_cast
    ring
  · exact value ▸ Nat.le_mul_of_pos_right _ (Nat.pow_pos (by decide))

/-! ## Layouts -/

theorem Numeral.value_scaled (n : Numeral) :
    n.scaled.value = (digitsValue (n.whole ++ n.fraction) : ℚ) *
      10 ^ (n.exponent.getD 0 - n.fraction.length) := rfl

variable {s : Scaled} {ds : List Char} {place : Int}

/-- Zeros between the point and the digits. -/
theorem shows_leading (h : Significant s ds place) {zeros : Nat}
    (hzeros : (zeros : Int) = -(ds.length + place)) :
    Numeral.Shows ⟨['0'], List.replicate zeros '0' ++ ds, none⟩
      ('0' :: '.' :: (List.replicate zeros '0' ++ ds)) s := by
  obtain ⟨digits, nonempty, -, value, le⟩ := h
  have same : digitsValue (['0'] ++ (List.replicate zeros '0' ++ ds)) = digitsValue ds := by
    rw [List.singleton_append, digitsValue_cons, Nat.sub_self, Nat.zero_mul, Nat.zero_add,
      digitsValue_append, digitsValue_replicate, Nat.zero_mul, Nat.zero_add]
  refine ⟨⟨areDigits_replicate 1, List.cons_ne_nil _ _, fun _ => rfl,
    (areDigits_replicate _).append digits⟩, ?_, ?_, .inl (by simp [nonempty]), ?_, nofun⟩
  · simp [Numeral.chars, Numeral.fractionChars, Numeral.exponentChars, nonempty]
  · rw [← value, Numeral.value_scaled, same]
    congr 2
    simp only [Option.getD_none, List.length_append, List.length_replicate]
    omega
  · exact same.trans_le (le.trans (le_max_left _ _))

/-- Zeros between the digits and the point. -/
theorem shows_trailing (h : Significant s ds place) {zeros : Nat} (hzeros : (zeros : Int) = place)
    (short : ds.length + zeros ≤ 16) :
    Numeral.Shows ⟨ds ++ List.replicate zeros '0', ['0'], none⟩
      (ds ++ List.replicate zeros '0' ++ ['.', '0']) s := by
  obtain ⟨digits, nonempty, front, value, le⟩ := h
  refine ⟨⟨digits.append (areDigits_replicate _), by simp [nonempty], ?_, areDigits_replicate 1⟩,
    ?_, ?_, .inl (List.cons_ne_nil _ _), ?_, nofun⟩
  · intro zero
    exact absurd ((List.head?_append_of_ne_nil _ nonempty).symm.trans zero) front
  · simp [Numeral.chars, Numeral.fractionChars, Numeral.exponentChars]
  · have ten : (10 : ℚ) ≠ 0 := by norm_num
    rw [← value, ← hzeros, Numeral.value_scaled, digitsValue_append, digitsValue_append,
      digitsValue_replicate, zpow_natCast]
    simp only [Option.getD_none, List.length_replicate, List.length_singleton]
    rw [show (0 : Int) - (1 : Nat) = -1 from rfl, zpow_neg_one,
      show digitsValue ['0'] = 0 from rfl]
    push_cast
    field_simp
    ring
  · have all := (digits.append (areDigits_replicate zeros)).append (areDigits_replicate 1)
    refine le_trans ((digitsValue_lt all).le.trans (Nat.pow_le_pow_right (by decide) ?_))
      (le_max_right _ _)
    simp only [List.length_append, List.length_replicate]
    omega

/-- The point among the digits. -/
theorem shows_split (h : Significant s ds place) {k : Nat} (pos : 0 < k) (lt : k < ds.length)
    (hk : (k : Int) = ds.length + place) :
    Numeral.Shows ⟨ds.take k, ds.drop k, none⟩ (ds.take k ++ '.' :: ds.drop k) s := by
  obtain ⟨digits, nonempty, front, value, le⟩ := h
  have rest : ds.drop k ≠ [] := by
    rw [ne_eq, List.drop_eq_nil_iff]
    omega
  refine ⟨⟨fun c hc => digits c (List.mem_of_mem_take hc), ?_, ?_,
    fun c hc => digits c (List.mem_of_mem_drop hc)⟩, ?_, ?_, .inl rest, ?_, nofun⟩
  · simp only [ne_eq, List.take_eq_nil_iff, nonempty, or_false]
    omega
  · intro zero
    rw [List.head?_take, if_neg pos.ne'] at zero
    exact absurd zero front
  · simp [Numeral.chars, Numeral.fractionChars, Numeral.exponentChars, rest]
  · rw [← value, Numeral.value_scaled]
    simp only [List.take_append_drop, Option.getD_none, List.length_drop]
    congr 2
    omega
  · show digitsValue (ds.take k ++ ds.drop k) ≤ _
    rw [List.take_append_drop]
    exact le.trans (le_max_left _ _)

/-- A number with a plain point. -/
theorem exists_positional (h : Significant s ds place) (short : ds.length + place ≤ 16) :
    ∃ n : Numeral, n.Shows (positionalText ['.', '0'] ds (ds.length + place)) s := by
  unfold positionalText
  split
  · exact ⟨_, shows_leading h (by omega)⟩
  · split
    · exact ⟨_, shows_trailing h (by omega) (by omega)⟩
    · exact ⟨_, shows_split h (by omega) (by omega) (by omega)⟩

/-- The first digit tells how large a number is. -/
theorem Significant.bounds (h : Significant s ds place) :
    (10 : ℚ) ^ (ds.length + place - 1) ≤ s.value ∧ s.value < 10 ^ (ds.length + place) := by
  obtain ⟨digits, nonempty, front, value, -⟩ := h
  have unit : (0 : ℚ) < 10 ^ place := zpow_pos (by norm_num) place
  rw [← value]
  constructor
  · obtain ⟨d, ds, rfl⟩ := List.exists_cons_of_ne_nil nonempty
    have least : 10 ^ ds.length ≤ digitsValue (d :: ds) := by
      have first : 1 ≤ d.toNat - '0'.toNat := by
        have digit := digits d List.mem_cons_self
        simp only [Char.isDigit, Bool.and_eq_true, decide_eq_true_eq] at digit
        have low : 48 ≤ d.toNat := UInt32.le_iff_toNat_le.1 digit.1
        have other : d.toNat ≠ 48 := fun same => front (congrArg some (Char.toNat_inj.1 same))
        show 1 ≤ d.toNat - 48
        omega
      rw [digitsValue_cons]
      exact (Nat.le_mul_of_pos_left _ first).trans (Nat.le_add_right _ _)
    have least : (10 ^ ds.length : ℚ) ≤ digitsValue (d :: ds) := by exact_mod_cast least
    have exponent : ((ds.length + 1 : Nat) : Int) + place - 1 = ds.length + place := by omega
    rw [List.length_cons, exponent, zpow_add₀ (by norm_num), zpow_natCast]
    exact mul_le_mul_of_nonneg_right least unit.le
  · have most : (digitsValue ds : ℚ) < 10 ^ ds.length := by exact_mod_cast digitsValue_lt digits
    rw [zpow_add₀ (by norm_num), zpow_natCast]
    exact mul_lt_mul_of_pos_right most unit

/-- A number with a power of ten. -/
theorem exists_scientific (h : Significant s ds place) :
    ∃ n : Numeral, n.Shows (scientificText ds (ds.length + place - 1)) s := by
  have bounds := h.bounds
  obtain ⟨digits, nonempty, front, value, le⟩ := h
  obtain ⟨d, ds, rfl⟩ := List.exists_cons_of_ne_nil nonempty
  refine ⟨⟨[d], ds, some ((d :: ds).length + place - 1)⟩,
    ⟨?_, List.cons_ne_nil _ _, fun zero => absurd zero front,
      fun c hc => digits c (List.mem_cons_of_mem d hc)⟩, ?_, ?_, .inr nofun,
    le.trans (le_max_left _ _), ?_⟩
  · rintro c hc
    obtain rfl := List.mem_singleton.1 hc
    exact digits c List.mem_cons_self
  · unfold scientificText
    cases ds <;> simp [Numeral.chars, Numeral.fractionChars, Numeral.exponentChars]
  · rw [← value, Numeral.value_scaled, List.singleton_append]
    simp only [Option.getD_some, List.length_cons]
    congr 2
    omega
  · rintro e he
    obtain rfl := Option.mem_some.1 he
    rwa [sub_add_cancel]

/-- What a log holds for a positive double is a numeral with the value of its shortest decimal. -/
theorem exists_numeral {significand : Nat} {exponent : Int} (h : significand ≠ 0)
    (pos : (shortest .even significand exponent).digits ≠ 0) :
    ∃ n : Numeral, n.Shows (loggedLayout.magnitude significand exponent)
      (shortest .even significand exponent) := by
  have significant := significant_significant pos
  rw [Layout.magnitude, if_neg h]
  dsimp only
  split
  · rename_i plain
    have below := decide_eq_true_iff.1 (Bool.and_eq_true_iff.1 plain).2
    exact exists_positional significant (by omega)
  · exact exists_scientific significant

end Stratagem.Decimal
