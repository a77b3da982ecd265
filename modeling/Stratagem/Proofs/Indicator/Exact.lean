import Mathlib.Algebra.BigOperators.Group.List.Basic
import Mathlib.Algebra.Order.BigOperators.Group.List
import Mathlib.Algebra.Order.Field.Rat
import Mathlib.Data.Nat.Sqrt
import Mathlib.Tactic.FieldSimp
import Mathlib.Tactic.Linarith
import Mathlib.Tactic.Positivity
import Stratagem.Proofs.Indicator.Averages

/-!
# Averages without rounding

Fractions are numbers that prices can be given in, but for the square root, which most of them do
not have. `Root` stands for any function in its place that is nowhere negative. Over fractions the
operations of indicators are those of arithmetic (`Scalar.sum_eq`, `Scalar.mean_eq`), and Wilder's
mean behaves like a mean: of numbers that are not negative it is not negative
(`Average.wilderMean_nonneg`), and it vanishes only if all of them do
(`Average.wilderMean_eq_zero_iff`).
-/

namespace Stratagem

/-- What is taken for the square root of a fraction. -/
class Root where
  root : ℚ → ℚ
  root_nonneg : ∀ x, 0 ≤ root x

/-- The root of numerator and denominator, both rounded down: that of a square is exact. -/
abbrev Root.floor : Root where
  root x := Nat.sqrt x.num.toNat / Nat.sqrt x.den
  root_nonneg x := by positivity

instance [Root] : Scalar ℚ where
  ofNat n := n
  sumStart := 0
  sqrt := Root.root
  abs := abs
  max := max
  lt a b := decide (a < b)
  isZero a := decide (a = 0)

variable [Root]

namespace Scalar

@[simp] theorem ofNat_eq (n : Nat) : (ofNat n : ℚ) = n := rfl

@[simp] theorem zero_eq : (zero : ℚ) = 0 := Nat.cast_zero

@[simp] theorem one_eq : (one : ℚ) = 1 := Nat.cast_one

@[simp] theorem sumStart_eq : (sumStart : ℚ) = 0 := rfl

@[simp] theorem lt_iff {a b : ℚ} : lt a b = true ↔ a < b := decide_eq_true_iff

@[simp] theorem isZero_iff {a : ℚ} : isZero a = true ↔ a = 0 := decide_eq_true_iff

omit [Root] in
theorem foldl_add_eq (start : ℚ) (xs : List ℚ) : xs.foldl (· + ·) start = start + xs.sum := by
  induction xs generalizing start with
  | nil => simp
  | cons x xs ih => rw [List.foldl_cons, ih, List.sum_cons, add_assoc]

theorem sum_eq (xs : List ℚ) : sum xs = xs.sum := by
  rw [sum, foldl_add_eq, sumStart_eq, zero_add]

theorem mean_eq (count : Nat) (xs : List ℚ) : mean count xs = xs.sum / count := by
  rw [mean, sum_eq, ofNat_eq]

end Scalar

namespace Average

variable {period : Nat} {mean : ℚ} {xs : List ℚ}

theorem wilderNext_eq (period : Nat) (mean x : ℚ) :
    wilderNext period mean x = (mean * (period - 1 : Nat) + x) / period := rfl

theorem wilderMean_eq (period : Nat) (xs : List ℚ) :
    wilderMean period 0 xs =
      (xs.drop period).foldl (wilderNext period) ((xs.take period).sum / period) := by
  rw [wilderMean, Scalar.foldl_add_eq, zero_add, Scalar.ofNat_eq]

theorem wilderNext_nonneg {x : ℚ} (hmean : 0 ≤ mean) (hx : 0 ≤ x) :
    0 ≤ wilderNext period mean x := by
  rw [wilderNext_eq]
  positivity

/-- With a period of two or more, the mean so far keeps a share in the next one. -/
theorem wilderNext_eq_zero_iff (long : 2 ≤ period) {x : ℚ} (hmean : 0 ≤ mean) (hx : 0 ≤ x) :
    wilderNext period mean x = 0 ↔ mean = 0 ∧ x = 0 := by
  have share : ((period - 1 : Nat) : ℚ) ≠ 0 := Nat.cast_ne_zero.2 (by omega)
  have whole : (period : ℚ) ≠ 0 := Nat.cast_ne_zero.2 (by omega)
  rw [wilderNext_eq, div_eq_zero_iff, or_iff_left whole,
    add_eq_zero_iff_of_nonneg (by positivity) hx, mul_eq_zero, or_iff_left share]

theorem foldl_wilderNext_nonneg (hmean : 0 ≤ mean) (nonneg : ∀ x ∈ xs, 0 ≤ x) :
    0 ≤ xs.foldl (wilderNext period) mean := by
  induction xs generalizing mean with
  | nil => exact hmean
  | cons x xs ih =>
    obtain ⟨hx, later⟩ := List.forall_mem_cons.1 nonneg
    exact ih (wilderNext_nonneg hmean hx) later

theorem foldl_wilderNext_eq_zero_iff (long : 2 ≤ period) (hmean : 0 ≤ mean)
    (nonneg : ∀ x ∈ xs, 0 ≤ x) :
    xs.foldl (wilderNext period) mean = 0 ↔ mean = 0 ∧ ∀ x ∈ xs, x = 0 := by
  induction xs generalizing mean with
  | nil => simp
  | cons x xs ih =>
    obtain ⟨hx, later⟩ := List.forall_mem_cons.1 nonneg
    rw [List.foldl_cons, ih (wilderNext_nonneg hmean hx) later,
      wilderNext_eq_zero_iff long hmean hx, List.forall_mem_cons, and_assoc]

theorem wilderMean_nonneg (nonneg : ∀ x ∈ xs, 0 ≤ x) : 0 ≤ wilderMean period 0 xs := by
  have early : 0 ≤ (xs.take period).sum :=
    List.sum_nonneg fun x hx => nonneg x (List.mem_of_mem_take hx)
  rw [wilderMean_eq]
  exact foldl_wilderNext_nonneg (by positivity) fun x hx => nonneg x (List.mem_of_mem_drop hx)

theorem wilderMean_eq_zero_iff (long : 2 ≤ period) (nonneg : ∀ x ∈ xs, 0 ≤ x) :
    wilderMean period 0 xs = 0 ↔ ∀ x ∈ xs, x = 0 := by
  have early : ∀ x ∈ xs.take period, 0 ≤ x := fun x hx => nonneg x (List.mem_of_mem_take hx)
  have late : ∀ x ∈ xs.drop period, 0 ≤ x := fun x hx => nonneg x (List.mem_of_mem_drop hx)
  have whole : (period : ℚ) ≠ 0 := Nat.cast_ne_zero.2 (by omega)
  have first : (xs.take period).sum / period = 0 ↔ ∀ x ∈ xs.take period, x = 0 := by
    rw [div_eq_zero_iff, or_iff_left whole]
    exact ⟨List.all_zero_of_le_zero_le_of_sum_eq_zero early, List.sum_eq_zero⟩
  have start : 0 ≤ (xs.take period).sum / (period : ℚ) :=
    div_nonneg (List.sum_nonneg early) (Nat.cast_nonneg period)
  rw [wilderMean_eq, foldl_wilderNext_eq_zero_iff long start late, first,
    ← List.forall_mem_append, List.take_append_drop]

end Average

end Stratagem
