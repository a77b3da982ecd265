import Mathlib.Algebra.BigOperators.Ring.List
import Mathlib.Data.List.MinMax
import Mathlib.Tactic.Ring
import Stratagem.Proofs.Indicator.Exact
import Stratagem.Proofs.Indicator.Shown

/-!
# Averages lie between what they average

In exact numbers an average is neither less than all of the prices that it is taken over nor greater
than all of them (`Within`). A weighted mean is so (`within_weighted`), and so is a step from one
average towards another number (`Within.blend`); the indicators are made of these two.

* The exponential average is a mean first and is blended from then on (`within_exponential`).
* A volume-weighted average weighs the prices of its span by their volumes (`reading_of_vwap`).
* The middle band is the mean of the window, and the bands stand to either side of it at a distance
  that is not negative (`reading_of_bollinger`).
* The average true range is Wilder's mean of the true ranges, none of which is negative unless the
  first bar stands on its head (`reading_of_atr`).
-/

namespace Stratagem

/-! ## Between the least and the greatest -/

/-- A number is at least the least and at most the greatest of some numbers. -/
structure Within (xs : List ℚ) (x : ℚ) : Prop where
  least : ∃ y ∈ xs, y ≤ x
  greatest : ∃ y ∈ xs, x ≤ y

section

variable {xs ys : List ℚ} {x y k : ℚ}

theorem Within.mono (h : Within xs x) (sub : xs ⊆ ys) : Within ys x where
  least := by
    obtain ⟨y, hy, le⟩ := h.least
    exact ⟨y, sub hy, le⟩
  greatest := by
    obtain ⟨y, hy, le⟩ := h.greatest
    exact ⟨y, sub hy, le⟩

theorem within_of_mem (h : x ∈ xs) : Within xs x := ⟨⟨x, h, le_refl x⟩, ⟨x, h, le_refl x⟩⟩

/-- What keeps within all bounds of some numbers is within the numbers. -/
theorem within_of_bounds (some : xs ≠ []) (low : ∀ lo, (∀ y ∈ xs, lo ≤ y) → lo ≤ x)
    (high : ∀ hi, (∀ y ∈ xs, y ≤ hi) → x ≤ hi) : Within xs x := by
  have pos : 0 < xs.length := List.length_pos_iff.2 some
  refine ⟨⟨_, List.minimum_of_length_pos_mem pos, low _ fun y hy => ?_⟩,
    ⟨_, List.maximum_of_length_pos_mem pos, high _ fun y hy => ?_⟩⟩
  · exact List.minimum_of_length_pos_le_of_mem hy pos
  · exact List.le_maximum_of_length_pos_of_mem hy pos

/-- A number on the way from one to another. -/
theorem Within.blend (hx : Within xs x) (hy : Within xs y) (low : 0 ≤ k) (high : k ≤ 1) :
    Within xs (x * k + y * (1 - k)) := by
  have rest : 0 ≤ 1 - k := sub_nonneg.2 high
  rcases le_total x y with le | le
  · have inside : x ≤ x * k + y * (1 - k) ∧ x * k + y * (1 - k) ≤ y := by
      constructor <;> nlinarith
    obtain ⟨a, ha, below⟩ := hx.least
    obtain ⟨b, hb, above⟩ := hy.greatest
    exact ⟨⟨a, ha, below.trans inside.1⟩, ⟨b, hb, inside.2.trans above⟩⟩
  · have inside : y ≤ x * k + y * (1 - k) ∧ x * k + y * (1 - k) ≤ x := by
      constructor <;> nlinarith
    obtain ⟨a, ha, below⟩ := hy.least
    obtain ⟨b, hb, above⟩ := hx.greatest
    exact ⟨⟨a, ha, below.trans inside.1⟩, ⟨b, hb, inside.2.trans above⟩⟩

/-- A mean with weights that are not negative. -/
theorem within_weighted {β : Type} {items : List β} {value weight : β → ℚ}
    (nonneg : ∀ b ∈ items, 0 ≤ weight b) (pos : 0 < (items.map weight).sum) :
    Within (items.map value)
      ((items.map fun b => value b * weight b).sum / (items.map weight).sum) := by
  have some : items.map value ≠ [] := by
    intro none
    rw [List.map_eq_nil_iff.1 none] at pos
    exact lt_irrefl _ pos
  refine within_of_bounds some (fun lo bound => ?_) (fun hi bound => ?_)
  · rw [le_div_iff₀ pos, ← List.sum_map_mul_left]
    refine List.sum_le_sum fun b hb => ?_
    exact mul_le_mul_of_nonneg_right (bound _ (List.mem_map_of_mem hb)) (nonneg b hb)
  · rw [div_le_iff₀ pos, ← List.sum_map_mul_left]
    refine List.sum_le_sum fun b hb => ?_
    exact mul_le_mul_of_nonneg_right (bound _ (List.mem_map_of_mem hb)) (nonneg b hb)

theorem within_mean (some : xs ≠ []) : Within xs (xs.sum / xs.length) := by
  have pos : (0 : ℚ) < xs.length := Nat.cast_pos.2 (List.length_pos_iff.2 some)
  have ones : (xs.map fun _ => (1 : ℚ)).sum = xs.length := by simp
  have mean : Within (xs.map fun x => x) ((xs.map fun x => x * 1).sum / (xs.map fun _ => 1).sum) :=
    within_weighted (fun _ _ => zero_le_one) (by rwa [ones])
  simpa [ones] using mean

end

variable [Root] {source : PriceSource} {bars : List (Bar ℚ)} {i : Nat} {p : Point ℚ}

/-! ## Exponential averages -/

theorem Average.weight_eq (period : Nat) : (Average.weight period : ℚ) = 2 / (period + 1) := by
  rw [weight, Scalar.ofNat_eq, Scalar.ofNat_eq, Scalar.one_eq, Nat.cast_ofNat]

theorem Average.weight_bounds {period : Nat} (pos : 0 < period) :
    0 ≤ (weight period : ℚ) ∧ (weight period : ℚ) ≤ 1 := by
  have long : (1 : ℚ) ≤ period := Nat.one_le_cast.2 pos
  rw [weight_eq, div_le_one (by positivity)]
  exact ⟨by positivity, by linarith⟩

/-- The exponential average lies between the numbers fed, from the first one on. -/
theorem within_exponential {period : Nat} (pos : 0 < period) {xs : List ℚ} (some : xs ≠ []) :
    Within xs (Average.fed period 0 xs).value := by
  induction xs using List.reverseRecOn with
  | nil => exact absurd rfl some
  | append_singleton xs x ih =>
    rcases Nat.lt_or_ge xs.length period with early | late
    · have few : (xs ++ [x]).length ≤ period := by
        rw [List.length_append]
        exact early
      rw [Average.value_exponential_early some few, Scalar.foldl_add_eq, zero_add]
      exact within_mean some
    · have before : xs ≠ [] := List.length_pos_iff.1 (Nat.lt_of_lt_of_le pos late)
      have ⟨low, high⟩ := Average.weight_bounds pos
      have new : Within (xs ++ [x]) x := within_of_mem (List.mem_append_right xs (by simp))
      have old := (ih before).mono (List.subset_append_left xs [x])
      rw [Average.value_exponential_late late, Scalar.one_eq]
      exact new.blend old low high

/-- A point of the exponential average shows what it comes to over the prices so far. -/
theorem reading_of_ema {period : Nat} (h : (ema period source bars)[i]? = some p) :
    let prices := source.column (bars.take (i + 1))
    0 < period ∧ prices ≠ [] ∧
      p.reading = .single (Average.fed period 0 prices).value := by
  obtain ⟨pos, bar, row, rfl⟩ := Indicator.point_of_series (i := .ema period) h
  refine ⟨pos, ?_, ?_⟩
  · have inside := (List.getElem?_eq_some_iff.1 row).1
    rw [← List.length_pos_iff, PriceSource.length_column, List.length_take_of_le inside]
    exact Nat.succ_pos i
  · rw [← Scalar.zero_eq]
    rfl

/-! ## Volume-weighted averages -/

theorem Span.start_eq (span : Span) : (span.start : ℚ) = 0 := by
  cases span <;> simp [Span.start]

theorem Span.volume_eq (span : Span) (seen : List (Bar ℚ)) :
    span.volume seen = ((span.reach seen).map Bar.volume).sum := by
  have sum := Scalar.foldl_add_eq 0 ((span.reach seen).map Bar.volume)
  rw [List.foldl_map, zero_add] at sum
  rw [Span.volume, Span.start_eq]
  exact sum

theorem Span.weighted_eq (span : Span) (source : PriceSource) (seen : List (Bar ℚ)) :
    span.weighted source seen =
      ((span.reach seen).map fun bar => bar.price source * bar.volume).sum := by
  have sum := Scalar.foldl_add_eq 0
    ((span.reach seen).map fun bar => bar.price source * bar.volume)
  rw [List.foldl_map, zero_add] at sum
  rw [Span.weighted, Span.start_eq]
  exact sum

/-- A valid point divides the weighted prices of a span by their volume, of which there is some. -/
theorem reading_of_vwap {span : Span} (h : (vwap span source bars)[i]? = some p)
    (valid : p.valid = true) :
    let seen := bars.take (i + 1)
    0 < span.volume seen ∧ p.reading = .single (span.weighted source seen / span.volume seen) := by
  obtain ⟨-, bar, -, rfl⟩ := Indicator.point_of_series (i := .vwap span) h
  have positive := (Bool.and_eq_true_iff.1 valid).2
  rw [Scalar.lt_iff, Scalar.zero_eq] at positive
  refine ⟨positive, ?_⟩
  simp only [Indicator.after, vwapAfter, vwapPoint] at valid ⊢
  rw [if_pos valid]

theorem within_vwap {span : Span} {seen : List (Bar ℚ)} (pos : 0 < span.volume seen)
    (nonneg : ∀ bar ∈ span.reach seen, 0 ≤ bar.volume) :
    Within (source.column (span.reach seen)) (span.weighted source seen / span.volume seen) := by
  rw [Span.volume_eq] at pos ⊢
  rw [Span.weighted_eq]
  exact within_weighted nonneg pos

/-! ## Bollinger bands -/

/-- The sample variance of some numbers. -/
def variance (xs : List ℚ) : ℚ :=
  (xs.map fun x => (x - xs.sum / xs.length) * (x - xs.sum / xs.length)).sum / (xs.length - 1 : Nat)

omit [Root] in
theorem variance_nonneg (xs : List ℚ) : 0 ≤ variance xs := by
  refine div_nonneg (List.sum_nonneg fun y hy => ?_) (Nat.cast_nonneg _)
  obtain ⟨x, -, rfl⟩ := List.mem_map.1 hy
  exact mul_self_nonneg _

/-- The bands of a window stand on either side of its mean. -/
theorem bandsOf_eq (deviations : ℚ) (window : List ℚ) :
    bandsOf window.length deviations window =
      .bands (window.sum / window.length + deviations * Root.root (variance window))
        (window.sum / window.length)
        (window.sum / window.length - deviations * Root.root (variance window)) := by
  simp only [bandsOf, Scalar.mean_eq, variance]
  rfl

/-- A valid point of the bands is made of a full window. -/
theorem reading_of_bollinger {period hundredths : Nat}
    (h : (bollinger period hundredths source bars)[i]? = some p) (valid : p.valid = true) :
    let window := lastOf period (source.column (bars.take (i + 1)))
    2 ≤ period ∧ window.length = period ∧
      p.reading = bandsOf window.length ((hundredths : ℚ) / 100) window := by
  intro window
  obtain ⟨long, bar, -, rfl⟩ := Indicator.point_of_series (i := .bollinger period hundredths) h
  have full : period ≤ (bars.take (i + 1)).length := of_decide_eq_true valid
  have length : window.length = period := by
    rw [length_lastOf, PriceSource.length_column, Nat.min_eq_left full]
  refine ⟨long, length, ?_⟩
  rw [length]
  simp only [Indicator.after, bollingerAfter, full, if_true]
  rfl

/-! ## Average true range -/

theorem Bar.trueRange_nonneg (bar : Bar ℚ) (close : ℚ) : 0 ≤ bar.trueRange close := by
  refine le_trans (abs_nonneg (bar.low - close)) ?_
  exact le_max_right _ _

/-- Only the first bar could make a negative range. -/
theorem rangesOf_nonneg (upright : ∀ bar ∈ bars.head?, bar.low ≤ bar.high) :
    ∀ x ∈ rangesOf bars, 0 ≤ x := by
  intro x hx
  rcases List.mem_append.1 hx with first | later
  · obtain ⟨bar, hbar, rfl⟩ := List.mem_map.1 first
    rw [List.take_one, Option.mem_toList] at hbar
    exact sub_nonneg.2 (upright bar hbar)
  · obtain ⟨before, bar, rfl⟩ := exists_of_mem_neighbours later
    exact bar.trueRange_nonneg before.close

/-- A valid average true range is Wilder's mean of the true ranges so far. -/
theorem reading_of_atr {period : Nat} (h : (atr period bars)[i]? = some p)
    (valid : p.valid = true) :
    p.reading = .single (Average.wilderMean period 0 (rangesOf (bars.take (i + 1)))) := by
  have point : (Indicator.series (.atr period) .close bars)[i]? = some p := h
  obtain ⟨-, bar, -, rfl⟩ := Indicator.point_of_series point
  have many : period ≤ (bars.take (i + 1)).length := of_decide_eq_true valid
  simp only [Indicator.after, atrAfter, many, if_true]
  rfl

/-! ## All averages -/

/-- In exact numbers, with any root that is nowhere negative: every exponential average lies between
the least and the greatest of the prices so far, also before it is valid; a valid volume-weighted
average lies between those of its span if no volume of the span is negative; in valid bands the
middle lies between those of the window, and the other two lie on either side of it, as many
deviations away as the bands are asked for, the variance not being negative; and a valid average
true range is not negative if the first bar is not higher at its low than at its high. -/
theorem averages_within (source : PriceSource) (bars : List (Bar ℚ)) (i : Nat) (p : Point ℚ) :
    (∀ period, (ema period source bars)[i]? = some p →
      ∃ x, p.reading = .single x ∧ Within (source.column (bars.take (i + 1))) x) ∧
    (∀ span, (vwap span source bars)[i]? = some p → p.valid = true →
      (∀ bar ∈ span.reach (bars.take (i + 1)), 0 ≤ bar.volume) →
        ∃ x, p.reading = .single x ∧ Within (source.column (span.reach (bars.take (i + 1)))) x) ∧
    (∀ period hundredths, (bollinger period hundredths source bars)[i]? = some p →
      p.valid = true →
        let window := lastOf period (source.column (bars.take (i + 1)))
        ∃ upper middle lower, p.reading = .bands upper middle lower ∧
          upper = middle + hundredths / 100 * Root.root (variance window) ∧
          lower = middle - hundredths / 100 * Root.root (variance window) ∧
          Within window middle ∧ 0 ≤ variance window ∧ lower ≤ middle ∧ middle ≤ upper) ∧
    (∀ period, (atr period bars)[i]? = some p → p.valid = true →
      (∀ bar ∈ bars.head?, bar.low ≤ bar.high) → ∃ x, p.reading = .single x ∧ 0 ≤ x) := by
  refine ⟨fun period h => ?_, fun span h valid volumes => ?_, fun period hundredths h valid => ?_,
    fun period h valid upright => ?_⟩
  · obtain ⟨pos, some, reading⟩ := reading_of_ema h
    exact ⟨_, reading, within_exponential pos some⟩
  · obtain ⟨pos, reading⟩ := reading_of_vwap h valid
    exact ⟨_, reading, within_vwap pos volumes⟩
  · obtain ⟨long, full, reading⟩ := reading_of_bollinger h valid
    intro window
    have some : window ≠ [] := by
      rw [← List.length_pos_iff, show window.length = period from full]
      omega
    have width : 0 ≤ (hundredths : ℚ) / 100 * Root.root (variance window) :=
      mul_nonneg (by positivity) (Root.root_nonneg _)
    refine ⟨_, _, _, reading.trans (bandsOf_eq _ window), rfl, rfl, within_mean some,
      variance_nonneg window, ?_, ?_⟩
    · exact sub_le_self _ width
    · exact le_add_of_nonneg_right width
  · refine ⟨_, reading_of_atr h valid, Average.wilderMean_nonneg (rangesOf_nonneg ?_)⟩
    rwa [List.head?_take, if_neg (Nat.succ_ne_zero i)]

omit [Root] in
/-- Two bars on either side of midnight. The last three closes have variance 1. -/
theorem averages_within_two_days :
    letI : Root := Root.floor
    let bars : List (Bar ℚ) :=
      [⟨⟨86280, 0⟩, 6, 8, 5, 7, 5⟩, ⟨⟨86340, 0⟩, 7, 9, 7, 9, 0⟩, ⟨⟨86400, 0⟩, 9, 10, 8, 10, 3⟩,
        ⟨⟨86460, 0⟩, 10, 12, 9, 11, 1⟩]
    (∃ p : Point ℚ, (ema 3 .close bars)[3]? = some p ∧
      ∃ x, p.reading = .single x ∧ Within (PriceSource.close.column (bars.take 4)) x) ∧
    (∃ p : Point ℚ, (vwap .session .close bars)[3]? = some p ∧ p.valid = true ∧
      (∀ bar ∈ Span.session.reach (bars.take 4), 0 ≤ bar.volume) ∧
        ∃ x, p.reading = .single x ∧
          Within (PriceSource.close.column (Span.session.reach (bars.take 4))) x) ∧
    (∃ p : Point ℚ, (bollinger 3 200 .close bars)[3]? = some p ∧ p.valid = true ∧
      let window := lastOf 3 (PriceSource.close.column (bars.take 4))
      ∃ upper middle lower, p.reading = .bands upper middle lower ∧
        upper = middle + (200 : Nat) / 100 * Root.root (variance window) ∧
        lower = middle - (200 : Nat) / 100 * Root.root (variance window) ∧
        Within window middle ∧ 0 ≤ variance window ∧ lower ≤ middle ∧ middle ≤ upper) ∧
    ∃ p : Point ℚ, (atr 2 bars)[3]? = some p ∧ p.valid = true ∧
      (∀ bar ∈ bars.head?, bar.low ≤ bar.high) ∧ ∃ x, p.reading = .single x ∧ 0 ≤ x := by
  let _ : Root := Root.floor
  intro bars
  have volumes : ∀ bar ∈ Span.session.reach (bars.take 4), 0 ≤ bar.volume := by decide +kernel
  have upright : ∀ bar ∈ bars.head?, bar.low ≤ bar.high := by decide +kernel
  have sold : ((vwap .session .close bars)[3]?).map Point.valid = some true := by decide +kernel
  obtain ⟨p, shown, valid⟩ := Option.map_eq_some_iff.1 sold
  exact ⟨⟨_, rfl, (averages_within .close bars 3 _).1 3 rfl⟩,
    ⟨p, shown, valid, volumes, (averages_within .close bars 3 p).2.1 .session shown valid volumes⟩,
    ⟨_, rfl, rfl, (averages_within .close bars 3 _).2.2.1 3 200 rfl rfl⟩,
    ⟨_, rfl, rfl, upright, (averages_within .close bars 3 _).2.2.2 2 rfl rfl upright⟩⟩

end Stratagem
