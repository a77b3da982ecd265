import Stratagem.Failure
import Stratagem.Proofs.Indicator.Bindings
import Stratagem.Proofs.Indicator.Causality
import Stratagem.Proofs.Indicator.Stamps

/-!
# When an indicator is valid

Six indicators are computed by loops of six kinds, and each of them warms up in its own way: one
counts the numbers fed, others compare the place with the period, the pairs with the period less
one, or the place with the end of two periods. They agree with one number, `Indicator.minBars`: a
point is valid if there are that many bars up to it (`Indicator.Ready`, `valid_series`). A
volume-weighted average needs a volume as well, namely that of the bars which it is taken over
(`Span.reach`).

`compute_of_configure` puts everything together that is known of an indicator whose parameters have
been checked.
-/

namespace Stratagem

variable {α : Type} [Scalar α]

/-- Whether an indicator is to be valid at the last of the bars so far: they are enough, and a
volume-weighted average has a volume to divide by. -/
def Indicator.Ready (i : Indicator) (seen : List (Bar α)) : Prop :=
  i.minBars ≤ seen.length ∧
    ∀ span, i = .vwap span → Scalar.lt Scalar.zero (span.volume seen) = true

theorem ready_vwap {span : Span} {seen : List (Bar α)} :
    (Indicator.vwap span).Ready seen ↔ (Indicator.vwap span).minBars ≤ seen.length ∧
      Scalar.lt Scalar.zero (span.volume seen) = true := by
  unfold Indicator.Ready
  refine and_congr_right fun _ => ⟨fun h => h span rfl, ?_⟩
  rintro volume _ ⟨⟩
  exact volume

namespace Indicator

/-- The formula of an indicator says that the point is valid if the indicator is ready there. -/
theorem valid_after {i : Indicator} (sound : i.Sound) (source : PriceSource) (bar : Bar α)
    (seen : List (Bar α)) : (i.after source bar seen).valid = true ↔ i.Ready seen := by
  cases i with
  | vwap span =>
    rw [ready_vwap]
    simp only [after, vwapAfter, vwapPoint, Bool.and_eq_true, decide_eq_true_eq]
  | rsi period =>
    have pos : 0 < period := sound
    simp [after, rsiAfter, Ready, minBars, pos, Nat.succ_le_iff]
  | ema period => simp [after, emaAfter, Ready, minBars]
  | atr period => simp [after, atrAfter, Ready, minBars]
  | macd fast slow signal => simp [after, macdAfter, Ready, minBars]
  | bollinger period hundredths => simp [after, bollingerAfter, Ready, minBars]

/-- A point of an indicator is valid if the indicator is ready at its bar. -/
theorem valid_series {i : Indicator} (sound : i.Sound) {source : PriceSource} {bars : List (Bar α)}
    {n : Nat} {p : Point α} (h : (i.series source bars)[n]? = some p) :
    p.valid = true ↔ i.Ready (bars.take (n + 1)) := by
  obtain ⟨-, bar, -, rfl⟩ := point_of_series h
  exact valid_after sound source bar _

theorem times_of_enough {i : Indicator} (sound : i.Sound) (source : PriceSource)
    {bars : List (Bar α)} (enough : i.minBars ≤ bars.length) :
    (i.series source bars).map Point.time = bars.map Bar.time := by
  rcases i.times_series source bars with none | times
  · have length := length_series sound source enough
    rw [none, List.length_nil] at length
    rw [none, List.length_eq_zero_iff.1 length.symm, List.map_nil, List.map_nil]
  · exact times

/-- What is known of a configured indicator. The bars that it needs are a number of 64 bits, and
fewer bars are the only thing that keeps it from being computed. Otherwise it has a point for every
bar, which carries the time of the bar, binds the names that the family binds, has a component for
every column, and is valid if there are enough bars up to it; a volume-weighted average needs a
volume as well. -/
theorem compute_of_configure {k : Kind} {p : Params} {i : Indicator} (fits : p.Fits)
    (configured : k.configure p = .ok i) (source : PriceSource) (bars : List (Bar α)) :
    i.minBars < UInt64.size ∧
    ((∃ cause, i.compute source bars = .error cause) ↔ bars.length < i.minBars) ∧
    (bars.length < i.minBars → (i.compute source bars).mapError StrategyError.ofShortage =
      .error (.insufficient i.label bars.length i.minBars)) ∧
    (i.minBars ≤ bars.length → ∃ points : List (Point α), i.compute source bars = .ok points ∧
      points.length = bars.length ∧
      points.map Point.time = bars.map Bar.time ∧
      ∀ (n : Nat) (point : Point α), points[n]? = some point →
        (∀ target, (point.reading.bindings target).map Prod.fst = k.boundNames target) ∧
        point.reading.components.length = i.fieldNames.length ∧
        (point.valid = true ↔ i.minBars ≤ n + 1 ∧ ∀ span, i = .vwap span →
          Scalar.lt Scalar.zero (span.volume (bars.take (n + 1))) = true)) := by
  have sound : i.Sound := Kind.sound_configure configured
  refine ⟨minBars_lt_of_configure fits configured, ⟨?_, ?_⟩, ?_, ?_⟩
  · rintro ⟨cause, h⟩
    by_contra enough
    rw [compute_of_enough sound (Nat.not_lt.1 enough)] at h
    cases h
  · intro few
    exact ⟨_, compute_of_few sound few⟩
  · intro few
    rw [compute_of_few sound few]
    rfl
  · intro enough
    have length := length_series sound source enough
    refine ⟨_, compute_of_enough sound enough, length, times_of_enough sound source enough, ?_⟩
    intro n point h
    have shape : i.kind.Shapes point.reading :=
      i.shapes_series source bars point (List.mem_of_getElem? h)
    have inside : n < bars.length := by
      rw [← length]
      exact (List.getElem?_eq_some_iff.1 h).1
    have seen : (bars.take (n + 1)).length = n + 1 := List.length_take_of_le inside
    refine ⟨?_, length_components shape, ?_⟩
    · rw [← Kind.kind_configure configured]
      exact shape.names_bindings
    · rw [valid_series sound h, Ready, seen]

/-- With periods of 2, 3 and 2 bars, the fourth of four bars is the first to have a valid point. -/
theorem compute_of_configure_macd :
    let p : Params := { fast := some 2, slow := some 3, signal := some 2 }
    let bars : List Bar := [⟨⟨0, 0⟩, 1, 2, 1, 2, 5⟩, ⟨⟨60, 0⟩, 2, 4, 2, 3, 5⟩,
      ⟨⟨120, 0⟩, 3, 9, 3, 9, 5⟩, ⟨⟨180, 0⟩, 9, 9, 7, 8, 5⟩]
    p.Fits ∧ Kind.configure .macd p = .ok (.macd 2 3 2) ∧
      ∃ points, (Indicator.macd 2 3 2).compute .close bars = .ok points ∧ points.length = 4 ∧
        ∀ (n : Nat) (point : Point), points[n]? = some point →
          (point.valid = true ↔ 4 ≤ n + 1) := by
  intro p bars
  have fits : p.Fits := by
    unfold Params.Fits
    decide
  have configured : Kind.configure .macd p = .ok (.macd 2 3 2) := rfl
  obtain ⟨points, computed, length, -, all⟩ :=
    (compute_of_configure fits configured .close bars).2.2.2 (by decide)
  refine ⟨fits, configured, points, computed, length, fun n point h => ?_⟩
  have valid := (all n point h).2.2
  simpa [minBars] using valid

end Indicator

end Stratagem
