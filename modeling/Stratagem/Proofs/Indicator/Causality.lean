import Stratagem.Proofs.Indicator.Shown

/-!
# Causality of indicators

Some indicators compute whole vectors before they make a point, look slices up, or ask how many bars
there are. Still a point is made of the bars up to its own, whatever its family
(`Indicator.series_of_runs`), so later bars have no say in earlier points
(`Indicator.compute_take`). Nothing is assumed of the arithmetic: this holds of doubles with their
roundings and of what is no number.
-/

namespace Stratagem

namespace Indicator

variable {α : Type} [Scalar α] {i : Indicator} {source : PriceSource} {bars : List (Bar α)}

theorem compute_of_enough (sound : i.Sound) (enough : i.minBars ≤ bars.length) :
    i.compute source bars = .ok (i.series source bars) := by
  simp [compute, sound.hasZero, Nat.not_lt.2 enough]

theorem compute_of_few (sound : i.Sound) (few : bars.length < i.minBars) :
    i.compute source bars = .error (.tooFewBars i bars.length i.minBars) := by
  simp [compute, sound.hasZero, few]

theorem length_series (sound : i.Sound) (source : PriceSource) (enough : i.minBars ≤ bars.length) :
    (i.series source bars).length = bars.length := by
  rw [series_of_runs source (sound.runs enough), length_along]

/-- The points over the first bars, if they are enough, are the first of the points over all. -/
theorem series_take (sound : i.Sound) (source : PriceSource) {n : Nat} (enough : i.minBars ≤ n)
    (within : n ≤ bars.length) :
    i.series source (bars.take n) = (i.series source bars).take n := by
  have first : i.minBars ≤ (bars.take n).length := by rwa [List.length_take_of_le within]
  rw [series_of_runs source (sound.runs (Nat.le_trans enough within)),
    series_of_runs source (sound.runs first), along_take]

/-- A configured indicator has a point for every bar. Its points over the first bars are the first
of its points over all bars: what comes later changes no earlier time, validity or value. -/
theorem compute_take {k : Kind} {p : Params} (configured : k.configure p = .ok i)
    (source : PriceSource) (bars : List (Bar α)) {n : Nat} (enough : i.minBars ≤ n)
    (within : n ≤ bars.length) :
    ∃ points : List (Point α), i.compute source bars = .ok points ∧
      points.length = bars.length ∧
      i.compute source (bars.take n) = .ok (points.take n) := by
  have sound : i.Sound := Kind.sound_configure configured
  have all : i.minBars ≤ bars.length := Nat.le_trans enough within
  have first : i.minBars ≤ (bars.take n).length := by rwa [List.length_take_of_le within]
  refine ⟨i.series source bars, compute_of_enough sound all, length_series sound source all, ?_⟩
  rw [compute_of_enough sound first, series_take sound source enough within]

/-- The fourth bar has no say in the line and the signal of the first three, though the whole line
is computed before the signal. -/
theorem compute_take_macd :
    let p : Params := { fast := some 1, slow := some 2, signal := some 2 }
    let bars : List Bar := [⟨⟨0, 0⟩, 1, 2, 1, 2, 5⟩, ⟨⟨60, 0⟩, 2, 4, 2, 3, 5⟩,
      ⟨⟨120, 0⟩, 3, 9, 3, 9, 5⟩, ⟨⟨180, 0⟩, 9, 9, 7, 8, 5⟩]
    Kind.configure .macd p = .ok (.macd 1 2 2) ∧ (Indicator.macd 1 2 2).minBars ≤ 3 ∧
      3 ≤ bars.length ∧
      ∃ points, (Indicator.macd 1 2 2).compute .close bars = .ok points ∧ points.length = 4 ∧
        (Indicator.macd 1 2 2).compute .close (bars.take 3) = .ok (points.take 3) := by
  intro p bars
  have configured : Kind.configure .macd p = .ok (.macd 1 2 2) := rfl
  have enough : (Indicator.macd 1 2 2).minBars ≤ 3 := by decide
  have within : 3 ≤ bars.length := by decide
  exact ⟨configured, enough, within, compute_take configured .close bars enough within⟩

end Indicator

end Stratagem
