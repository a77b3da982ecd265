import Mathlib.Algebra.Group.Nat.Defs
import Stratagem.Decimal.Layout
import Stratagem.Decimal.Reading

/-!
# Digits

The digits of a number stand for it, with zeros in front as well (`digitsValue_padded`). They are
taken off a text up to the first character that is no digit (`takeWhile_digits`).
-/

namespace Stratagem.Decimal

/-- All characters are digits. -/
def AreDigits (ds : List Char) : Prop := ∀ c ∈ ds, c.isDigit = true

/-- What follows digits and does not go on with them. -/
def EndsDigits (rest : List Char) : Prop := ∀ c ∈ rest.head?, c.isDigit = false

variable {ds rest : List Char}

theorem AreDigits.append {es : List Char} (hds : AreDigits ds) (hes : AreDigits es) :
    AreDigits (ds ++ es) :=
  List.forall_mem_append.2 ⟨hds, hes⟩

theorem areDigits_replicate (n : Nat) : AreDigits (List.replicate n '0') := by
  intro c hc
  rw [(List.mem_replicate.1 hc).2]
  rfl

theorem areDigits_toDigits (n : Nat) : AreDigits (Nat.toDigits 10 n) := fun _ =>
  Nat.isDigit_of_mem_toDigits (by decide) (by decide)

theorem endsDigits_nil : EndsDigits [] := nofun

theorem endsDigits_cons {c : Char} (h : c.isDigit = false) (cs : List Char) :
    EndsDigits (c :: cs) := by
  rintro _ ⟨⟩
  exact h

theorem takeWhile_of_ends (ends : EndsDigits rest) : rest.takeWhile Char.isDigit = [] := by
  cases rest with
  | nil => rfl
  | cons c rest => exact List.takeWhile_cons_of_neg (by simp [ends c rfl])

theorem dropWhile_of_ends (ends : EndsDigits rest) : rest.dropWhile Char.isDigit = rest := by
  cases rest with
  | nil => rfl
  | cons c rest => exact List.dropWhile_cons_of_neg (by simp [ends c rfl])

theorem takeWhile_digits (digits : AreDigits ds) (ends : EndsDigits rest) :
    (ds ++ rest).takeWhile Char.isDigit = ds := by
  rw [List.takeWhile_append_of_pos digits, takeWhile_of_ends ends, List.append_nil]

theorem dropWhile_digits (digits : AreDigits ds) (ends : EndsDigits rest) :
    (ds ++ rest).dropWhile Char.isDigit = rest := by
  rw [List.dropWhile_append_of_pos digits, dropWhile_of_ends ends]

/-! ## Values -/

theorem digitsValue_append (ds es : List Char) :
    digitsValue (ds ++ es) = digitsValue ds * 10 ^ es.length + digitsValue es := by
  rw [digitsValue, Nat.ofDigitChars_append, Nat.ofDigitChars_eq_ofDigitChars_zero, Nat.mul_comm]
  rfl

theorem digitsValue_replicate (n : Nat) : digitsValue (List.replicate n '0') = 0 :=
  Nat.ofDigitChars_replicate_zero.trans (Nat.mul_zero _)

theorem digitsValue_toDigits (n : Nat) : digitsValue (Nat.toDigits 10 n) = n :=
  Nat.ofDigitChars_ten_toDigits

theorem digitsValue_cons (c : Char) (ds : List Char) :
    digitsValue (c :: ds) = (c.toNat - '0'.toNat) * 10 ^ ds.length + digitsValue ds := by
  rw [digitsValue, Nat.ofDigitChars_cons, Nat.ofDigitChars_eq_ofDigitChars_zero, Nat.mul_zero,
    Nat.zero_add, Nat.mul_comm]
  rfl

theorem digitsValue_lt (digits : AreDigits ds) : digitsValue ds < 10 ^ ds.length := by
  induction ds with
  | nil => decide
  | cons c ds ih =>
    obtain ⟨digit, digits⟩ := List.forall_mem_cons.1 digits
    have below := ih digits
    have nine : c.toNat - '0'.toNat ≤ 9 := by
      simp only [Char.isDigit, Bool.and_eq_true, decide_eq_true_eq] at digit
      have : c.toNat ≤ 57 := UInt32.le_iff_toNat_le.1 digit.2
      show c.toNat - 48 ≤ 9
      omega
    have product := Nat.mul_le_mul_right (10 ^ ds.length) nine
    rw [digitsValue_cons, List.length_cons, Nat.pow_succ]
    omega

/-- A number that is not zero has no zero in front. -/
theorem head_toDigits {n : Nat} (h : n ≠ 0) : (Nat.toDigits 10 n).head? ≠ some '0' := by
  intro front
  have value := digitsValue_toDigits n
  have digits := areDigits_toDigits n
  have shorter := fun k pos => (@Nat.length_toDigits_le_iff 10 n k (by decide) pos).2
  generalize Nat.toDigits 10 n = ds at *
  cases ds with
  | nil => cases front
  | cons c ds =>
    cases front
    have below := digitsValue_lt (List.forall_mem_cons.1 digits).2
    rw [digitsValue_cons, Nat.sub_self, Nat.zero_mul, Nat.zero_add] at value
    rw [value] at below
    cases ds with
    | nil => exact h (by simpa using below)
    | cons d ds =>
      have := shorter _ (Nat.succ_pos _) below
      simp only [List.length_cons] at this
      omega

theorem areDigits_padded (width n : Nat) : AreDigits (padded width n) :=
  (areDigits_replicate _).append (areDigits_toDigits n)

theorem digitsValue_padded (width n : Nat) : digitsValue (padded width n) = n := by
  rw [padded, digitsValue_append, digitsValue_replicate, digitsValue_toDigits, Nat.zero_mul,
    Nat.zero_add]

theorem le_length_padded (width n : Nat) : width ≤ (padded width n).length := by
  rw [padded, List.length_append, List.length_replicate]
  omega

theorem length_padded {width n : Nat} (pos : 0 < width) (h : n < 10 ^ width) :
    (padded width n).length = width := by
  have short := (Nat.length_toDigits_le_iff (by decide) pos).2 h
  rw [padded, List.length_append, List.length_replicate]
  omega

end Stratagem.Decimal
