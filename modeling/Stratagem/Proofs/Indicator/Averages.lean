import Mathlib.Data.List.DropRight
import Stratagem.Indicator.Average
import Stratagem.Market.Bar
import Stratagem.Proofs.Indicator.Scans

/-!
# What the averages come to

A smoothed average is fed number by number. Here is what it comes to after all of them, as a formula
over the numbers.

* The exponential average (`Average.fed`) is the mean of the numbers up to the period
  (`value_exponential_early`). From then on it moves towards each further number by its weight
  (`value_exponential_late`).
* Wilder's average is the mean of the first numbers, and every number after that counts as one of
  as many as the period has (`wilderMean`).
* What the sum starts from plays no part once it has been added to a number
  (`fed_exponential_congr`).
-/

namespace Stratagem

/-! ## Neighbours -/

section

variable {β γ : Type}

/-- What `f` makes of every element and the one behind it. -/
def neighbours (f : β → β → γ) (xs : List β) : List γ := List.zipWith f xs xs.tail

@[simp] theorem length_neighbours (f : β → β → γ) (xs : List β) :
    (neighbours f xs).length = xs.length - 1 := by
  simp [neighbours]

theorem neighbours_concat (f : β → β → γ) {xs : List β} {last : β} (h : xs.getLast? = some last)
    (x : β) : neighbours f (xs ++ [x]) = neighbours f xs ++ [f last x] := by
  induction xs with
  | nil => cases h
  | cons y ys ih =>
    cases ys with
    | nil =>
      cases h
      rfl
    | cons z zs =>
      rw [List.getLast?_cons_cons] at h
      exact congrArg (f y z :: ·) (ih h)

theorem exists_of_mem_neighbours {f : β → β → γ} {xs : List β} {y : γ} (h : y ∈ neighbours f xs) :
    ∃ a b, f a b = y := by
  rw [neighbours, ← List.map_uncurry_zip_eq_zipWith] at h
  obtain ⟨⟨a, b⟩, -, same⟩ := List.mem_map.1 h
  exact ⟨a, b, same⟩

end

variable {α : Type} [Scalar α]

/-! ## The numbers -/

namespace PriceSource

@[simp] theorem length_column (source : PriceSource) (bars : List (Bar α)) :
    (source.column bars).length = bars.length :=
  List.length_map _

theorem column_take (source : PriceSource) (n : Nat) (bars : List (Bar α)) :
    source.column (bars.take n) = (source.column bars).take n :=
  List.map_take

theorem column_concat (source : PriceSource) (bars : List (Bar α)) (bar : Bar α) :
    source.column (bars ++ [bar]) = source.column bars ++ [bar.price source] := by
  simp [column]

end PriceSource

namespace Average

@[simp] theorem count_exponential (period : Nat) (a : Average α) (x : α) :
    (a.exponential period x).count = a.count + 1 := by
  unfold exponential
  extract_lets count
  split <;> rfl

/-- The exponential average after some numbers, whose sum starts from `start`. -/
def fed (period : Nat) (start : α) (xs : List α) : Average α :=
  xs.foldl (exponential period) (empty start)

variable {period : Nat} {start start' : α} {xs : List α}

theorem fed_concat (period : Nat) (start : α) (xs : List α) (x : α) :
    fed period start (xs ++ [x]) = (fed period start xs).exponential period x := by
  simp [fed]

/-! ## The exponential average -/

@[simp] theorem count_fed (period : Nat) (start : α) (xs : List α) :
    (fed period start xs).count = xs.length := by
  induction xs using List.reverseRecOn with
  | nil => rfl
  | append_singleton xs x ih =>
    rw [fed_concat, count_exponential, ih, List.length_append, List.length_singleton]

theorem values_take (period n : Nat) (xs : List α) :
    values period (xs.take n) = (values period xs).take n :=
  scan_take _ _ n xs

theorem values_concat (period : Nat) (xs : List α) (x : α) :
    values period (xs ++ [x]) =
      values period xs ++ [(fed period Scalar.zero (xs ++ [x])).value] := by
  rw [values, scan_concat, fed_concat]
  rfl

theorem sum_fed (few : xs.length ≤ period) :
    (fed period start xs).sum = xs.foldl (· + ·) start := by
  induction xs using List.reverseRecOn with
  | nil => rfl
  | append_singleton xs x ih =>
    have few' : xs.length + 1 ≤ period := by simpa using few
    rw [fed_concat, exponential, count_fed, if_pos few', ih (Nat.le_of_succ_le few'),
      List.foldl_append]
    rfl

/-- Up to the period the exponential average is the mean of the numbers. -/
theorem value_exponential_early (some : xs ≠ []) (few : xs.length ≤ period) :
    (fed period start xs).value = xs.foldl (· + ·) start / Scalar.ofNat xs.length := by
  rcases List.eq_nil_or_concat' xs with rfl | ⟨before, x, rfl⟩
  · exact absurd rfl some
  · have few' : before.length + 1 ≤ period := by simpa using few
    rw [fed_concat, exponential, count_fed, if_pos few', sum_fed (Nat.le_of_succ_le few'),
      List.foldl_append, List.length_append]
    rfl

/-- Behind the period the exponential average gives a further number its weight. -/
theorem value_exponential_late (many : period ≤ xs.length) (x : α) :
    (fed period start (xs ++ [x])).value =
      x * weight period + (fed period start xs).value * (Scalar.one - weight period) := by
  have late : ¬ xs.length + 1 ≤ period := Nat.not_le.2 (Nat.lt_succ_of_le many)
  rw [fed_concat, exponential, count_fed, if_neg late]

/-- The first number decides what the sum is, so two starts that it is added to alike give the same
average. -/
theorem fed_exponential_congr (pos : 0 < period) {x : α} (same : start + x = start' + x)
    (xs : List α) : fed period start (x :: xs) = fed period start' (x :: xs) := by
  have first : (empty start).exponential period x = (empty start').exponential period x := by
    have within : (empty start).count + 1 ≤ period ∧ (empty start').count + 1 ≤ period := ⟨pos, pos⟩
    rw [exponential, exponential, if_pos within.1, if_pos within.2]
    simp only [empty, same]
  rw [fed, fed, List.foldl_cons, List.foldl_cons, first]

/-! ## Wilder's average -/

/-- The mean of `period` numbers, all but one of which have a given mean. -/
def wilderNext (period : Nat) (mean x : α) : α :=
  (mean * Scalar.ofNat (period - 1) + x) / Scalar.ofNat period

/-- Wilder's mean: that of the first `period` numbers, moved by every further number. -/
def wilderMean (period : Nat) (start : α) (xs : List α) : α :=
  (xs.drop period).foldl (wilderNext period)
    ((xs.take period).foldl (· + ·) start / Scalar.ofNat period)

theorem wilderMean_first (complete : xs.length = period) :
    wilderMean period start xs = xs.foldl (· + ·) start / Scalar.ofNat period := by
  rw [wilderMean, List.drop_of_length_le (Nat.le_of_eq complete),
    List.take_of_length_le (Nat.le_of_eq complete), List.foldl_nil]

theorem wilderMean_concat (many : period ≤ xs.length) (x : α) :
    wilderMean period start (xs ++ [x]) = wilderNext period (wilderMean period start xs) x := by
  rw [wilderMean, List.drop_append_of_le_length many, List.take_append_of_le_length many,
    List.foldl_append]
  rfl

end Average

end Stratagem
