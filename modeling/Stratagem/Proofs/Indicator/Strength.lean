import Mathlib.Tactic.Ring
import Stratagem.Proofs.Indicator.Exact
import Stratagem.Proofs.Indicator.Smoothed

/-!
# The relative strength index in exact numbers

Over fractions the relative strength index says what share of the movement was upwards. With `G` and
`L` for Wilder's means of the gains and the losses it is `100 G / (G + L)`, and 100 if there were no
losses; so it lies between 0 and 100 by itself, and the clamp behind it has nothing to do
(`strength_of_changes`).

The loop goes through pairs of bars, and what it takes from them are the changes of the prices
(`priceChanges_eq`).
-/

namespace Stratagem

/-! ## Changes -/

/-- How much every number differs from the one before. -/
def changes (xs : List ℚ) : List ℚ := neighbours (fun last next => next - last) xs

/-- The upward part of every change. -/
def gains (cs : List ℚ) : List ℚ := cs.map fun c => max c 0

/-- The downward part of every change. -/
def losses (cs : List ℚ) : List ℚ := cs.map fun c => max (-c) 0

section

variable {cs : List ℚ}

theorem gains_nonneg (cs : List ℚ) : ∀ x ∈ gains cs, 0 ≤ x := by
  intro x hx
  obtain ⟨c, -, rfl⟩ := List.mem_map.1 hx
  exact le_max_right c 0

theorem losses_nonneg (cs : List ℚ) : ∀ x ∈ losses cs, 0 ≤ x := by
  intro x hx
  obtain ⟨c, -, rfl⟩ := List.mem_map.1 hx
  exact le_max_right (-c) 0

theorem losses_eq_zero_iff : (∀ x ∈ losses cs, x = 0) ↔ ∀ c ∈ cs, 0 ≤ c := by
  simp [losses]

end

variable [Root]

/-! ## The index -/

theorem relativeStrength_zero (gain : ℚ) : relativeStrength gain 0 = 100 := by
  simp [relativeStrength]

theorem relativeStrength_of_pos {gain loss : ℚ} (hgain : 0 ≤ gain) (hloss : 0 < loss) :
    relativeStrength gain loss = 100 * gain / (gain + loss) := by
  have flag : ¬ Scalar.isZero loss = true := by simpa using hloss.ne'
  have one : 1 + gain / loss = (gain + loss) / loss := by
    field_simp
    ring
  have whole : gain + loss ≠ 0 := by positivity
  rw [relativeStrength, if_neg flag, Scalar.ofNat_eq, Scalar.one_eq]
  change 100 - 100 / (1 + gain / loss) = _
  rw [one]
  field_simp
  ring

/-- The index lies between 0 and 100, and only without losses at 100. -/
theorem relativeStrength_bounds {gain loss : ℚ} (hgain : 0 ≤ gain) (hloss : 0 ≤ loss) :
    0 ≤ relativeStrength gain loss ∧ relativeStrength gain loss ≤ 100 ∧
      (relativeStrength gain loss = 100 ↔ loss = 0) := by
  rcases hloss.eq_or_lt with rfl | hloss
  · simp [relativeStrength_zero]
  · have whole : 0 < gain + loss := by positivity
    rw [relativeStrength_of_pos hgain hloss, div_le_iff₀ whole, div_eq_iff whole.ne']
    refine ⟨by positivity, by linarith, fun h => ?_, fun h => absurd h hloss.ne'⟩
    linarith

theorem clampPercent_of_bounds {x : ℚ} (low : 0 ≤ x) (high : x ≤ 100) : clampPercent x = x := by
  simp [clampPercent, not_lt.2 low, not_lt.2 high]

/-! ## The loop -/

theorem map_upward (cs : List ℚ) : cs.map upward = gains cs := by
  refine List.map_congr_left fun c _ => ?_
  rw [upward, max_comm, max_def_lt]
  simp

theorem map_downward (cs : List ℚ) : cs.map downward = losses cs := by
  refine List.map_congr_left fun c _ => ?_
  rw [downward, max_comm, max_def_lt]
  simp

/-- What the loop takes from neighbouring bars are the changes of the prices. -/
theorem priceChanges_eq (source : PriceSource) (bars : List (Bar ℚ)) :
    priceChanges source bars = changes (source.column bars) := by
  rw [priceChanges, changes, neighbours, neighbours, PriceSource.column, ← List.map_tail,
    List.zipWith_map]

/-- Wilder's mean of the gains over some prices. -/
def averageGain (period : Nat) (prices : List ℚ) : ℚ :=
  Average.wilderMean period 0 (gains (changes prices))

/-- Wilder's mean of the losses over some prices. -/
def averageLoss (period : Nat) (prices : List ℚ) : ℚ :=
  Average.wilderMean period 0 (losses (changes prices))

theorem averageGain_nonneg (period : Nat) (prices : List ℚ) : 0 ≤ averageGain period prices :=
  Average.wilderMean_nonneg (gains_nonneg _)

theorem averageLoss_nonneg (period : Nat) (prices : List ℚ) : 0 ≤ averageLoss period prices :=
  Average.wilderMean_nonneg (losses_nonneg _)

/-- With a period of two or more, no loss is ever forgotten. -/
theorem averageLoss_eq_zero_iff {period : Nat} (long : 2 ≤ period) (prices : List ℚ) :
    averageLoss period prices = 0 ↔ ∀ change ∈ changes prices, 0 ≤ change :=
  (Average.wilderMean_eq_zero_iff long (losses_nonneg _)).trans losses_eq_zero_iff

/-- A valid point shows the clamped index of Wilder's means. -/
theorem reading_of_rsi {period : Nat} {source : PriceSource} {bars : List (Bar ℚ)} {i : Nat}
    {p : Point ℚ} (h : (rsi period source bars)[i]? = some p) (valid : p.valid = true) :
    let prices := source.column (bars.take (i + 1))
    0 < period ∧ period ≤ (changes prices).length ∧ p.reading = .single (clampPercent
      (relativeStrength (averageGain period prices) (averageLoss period prices))) := by
  intro prices
  rw [rsi_eq_along, getElem?_along, Option.map_eq_some_iff] at h
  obtain ⟨bar, -, rfl⟩ := h
  have many : 0 < period ∧ period < (bars.take (i + 1)).length := of_decide_eq_true valid
  have count : (changes prices).length = (bars.take (i + 1)).length - 1 := by
    simp [changes, prices]
  refine ⟨many.1, by omega, ?_⟩
  simp only [rsiAfter, many, and_self, if_true, priceChanges_eq, map_upward, map_downward,
    Scalar.zero_eq]
  rfl

/-- The relative strength index at a valid point, which has at least as many changes behind it as
the period asks for. Before it is clamped it lies between 0 and 100, so that the clamp changes
nothing. It is the share of the gains if there are losses, and 100 exactly if Wilder's mean of the
losses is zero; with a period of two or more that is so exactly if no price has fallen. -/
theorem strength_of_changes {period : Nat} {source : PriceSource} {bars : List (Bar ℚ)} {i : Nat}
    {p : Point ℚ} (h : (rsi period source bars)[i]? = some p) (valid : p.valid = true) :
    let prices := source.column (bars.take (i + 1))
    let gain := averageGain period prices
    let loss := averageLoss period prices
    let strength := relativeStrength gain loss
    (0 < period ∧ period ≤ (changes prices).length) ∧
      (p.reading = .single (clampPercent strength) ∧ clampPercent strength = strength) ∧
      (0 ≤ strength ∧ strength ≤ 100) ∧
      (0 ≤ gain ∧ 0 ≤ loss) ∧ (0 < loss → strength = 100 * gain / (gain + loss)) ∧
      (strength = 100 ↔ loss = 0) ∧
      (2 ≤ period → (loss = 0 ↔ ∀ change ∈ changes prices, 0 ≤ change)) := by
  intro prices gain loss strength
  obtain ⟨pos, many, reading⟩ := reading_of_rsi h valid
  have hgain : 0 ≤ gain := averageGain_nonneg period prices
  have hloss : 0 ≤ loss := averageLoss_nonneg period prices
  obtain ⟨low, high, top⟩ := relativeStrength_bounds hgain hloss
  exact ⟨⟨pos, many⟩, ⟨reading, clampPercent_of_bounds low high⟩, ⟨low, high⟩, ⟨hgain, hloss⟩,
    relativeStrength_of_pos hgain, top, fun long => averageLoss_eq_zero_iff long prices⟩

omit [Root] in
/-- The price has risen by 2, fallen by 1 and risen by 3. -/
theorem strength_of_changes_fallen_once :
    letI : Root := Root.floor
    let bars : List (Bar ℚ) :=
      [⟨⟨0, 0⟩, 10, 10, 10, 10, 5⟩, ⟨⟨60, 0⟩, 12, 12, 12, 12, 5⟩, ⟨⟨120, 0⟩, 11, 11, 11, 11, 5⟩,
        ⟨⟨180, 0⟩, 14, 14, 14, 14, 5⟩]
    ∃ p : Point ℚ, ((rsi 2 .close bars)[3]? = some p ∧ p.valid = true) ∧
      let prices := PriceSource.close.column (bars.take 4)
      let gain := averageGain 2 prices
      let loss := averageLoss 2 prices
      let strength := relativeStrength gain loss
      (0 < 2 ∧ 2 ≤ (changes prices).length) ∧
        (p.reading = .single (clampPercent strength) ∧ clampPercent strength = strength) ∧
        (0 ≤ strength ∧ strength ≤ 100) ∧
        (0 ≤ gain ∧ 0 ≤ loss) ∧ (0 < loss → strength = 100 * gain / (gain + loss)) ∧
        (strength = 100 ↔ loss = 0) ∧
        (2 ≤ 2 → (loss = 0 ↔ ∀ change ∈ changes prices, 0 ≤ change)) := by
  let _ : Root := Root.floor
  exact ⟨_, ⟨rfl, rfl⟩, strength_of_changes rfl rfl⟩

end Stratagem
