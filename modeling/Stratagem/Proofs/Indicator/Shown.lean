import Stratagem.Proofs.Indicator.Configured
import Stratagem.Proofs.Indicator.Crossing
import Stratagem.Proofs.Indicator.Smoothed
import Stratagem.Proofs.Indicator.Spans

/-!
# What an indicator shows at a bar

One formula for each family says what its indicators show at the last of some bars
(`Indicator.after`). The loops put out nothing else: an indicator has a point at every bar, made by
the formula of the bars up to it (`Indicator.series_of_runs`), unless its parameters or the bars are
such that it has no points at all. From here on it is enough to look at the formulas.
-/

namespace Stratagem

namespace Indicator

variable {α : Type} [Scalar α] {i : Indicator}

/-- The point of an indicator at the last of some bars. -/
def after (i : Indicator) (source : PriceSource) (bar : Bar α) (seen : List (Bar α)) : Point α :=
  match i with
  | ema period => emaAfter period source bar seen
  | rsi period => rsiAfter period source bar seen
  | atr period => atrAfter period bar seen
  | vwap span => vwapAfter span source bar seen
  | macd fast slow signal => macdAfter fast slow signal source bar seen
  | bollinger period hundredths => bollingerAfter period hundredths source bar seen

@[simp] theorem time_after (i : Indicator) (source : PriceSource) (bar : Bar α)
    (seen : List (Bar α)) : (i.after source bar seen).time = bar.time := by
  cases i <;> rfl

omit [Scalar α] in
/-- Whether an indicator has points over that many bars. -/
def Runs (i : Indicator) (bars : Nat) : Prop :=
  match i with
  | ema period => 0 < period
  | rsi _ => True
  | atr period => 0 < period ∧ period ≤ bars
  | vwap span => span ≠ .rolling 0
  | macd fast slow signal => 0 < fast ∧ 0 < slow ∧ 0 < signal
  | bollinger period _ => 2 ≤ period

/-- An indicator whose parameters make sense has points over the bars that it asks for. -/
theorem Sound.runs (sound : i.Sound) {bars : Nat} (enough : i.minBars ≤ bars) : i.Runs bars := by
  cases i with
  | ema period => exact sound
  | rsi period => trivial
  | atr period => exact ⟨sound, enough⟩
  | vwap span =>
    rintro rfl
    exact Nat.lt_irrefl 0 sound
  | macd fast slow signal =>
    obtain ⟨hfast, shorter, hsignal⟩ := sound
    exact ⟨hfast, Nat.lt_trans hfast shorter, hsignal⟩
  | bollinger period hundredths => exact sound.1

theorem series_of_runs (source : PriceSource) {bars : List (Bar α)} (runs : i.Runs bars.length) :
    i.series source bars = along (i.after source) bars := by
  cases i with
  | ema period => exact ema_eq_along runs
  | rsi period => exact rsi_eq_along period source bars
  | atr period => exact atr_eq_along runs.1 runs.2
  | vwap span => exact vwap_eq_along runs source bars
  | macd fast slow signal => exact macd_eq_along runs.1 runs.2.1 runs.2.2 source bars
  | bollinger period hundredths => exact bollinger_eq_along runs hundredths source bars

theorem series_of_not_runs (source : PriceSource) {bars : List (Bar α)}
    (idle : ¬ i.Runs bars.length) : i.series source bars = [] := by
  cases i with
  | ema period =>
    have none : period = 0 := Nat.eq_zero_of_not_pos idle
    simp [series, Stratagem.ema, none]
  | rsi period => exact absurd trivial idle
  | atr period =>
    have none : bars.length < period ∨ period = 0 := by
      simp only [Runs] at idle
      omega
    simp only [series, Stratagem.atr, none, if_true]
  | vwap span =>
    have none : span = .rolling 0 := not_not.1 idle
    simp only [series, Stratagem.vwap, none, if_true]
  | macd fast slow signal =>
    have none : bars.isEmpty = true ∨ fast = 0 ∨ slow = 0 ∨ signal = 0 := by
      simp only [Runs] at idle
      omega
    simp only [series, Stratagem.macd, none, if_true]
  | bollinger period hundredths =>
    have short : period < 2 := Nat.not_le.1 idle
    simp only [series, Stratagem.bollinger, short, if_true]

/-- An indicator has no points at all, or it has one at every bar. -/
theorem series_cases (i : Indicator) (source : PriceSource) (bars : List (Bar α)) :
    i.series source bars = [] ∨ i.series source bars = along (i.after source) bars := by
  by_cases runs : i.Runs bars.length
  · exact .inr (series_of_runs source runs)
  · exact .inl (series_of_not_runs source runs)

/-- A point is made of its bar and the bars up to it. -/
theorem point_of_series {source : PriceSource} {bars : List (Bar α)} {n : Nat} {p : Point α}
    (h : (i.series source bars)[n]? = some p) :
    i.Runs bars.length ∧ ∃ bar, bars[n]? = some bar ∧
      p = i.after source bar (bars.take (n + 1)) := by
  by_cases runs : i.Runs bars.length
  · rw [series_of_runs source runs, getElem?_along, Option.map_eq_some_iff] at h
    obtain ⟨bar, row, rfl⟩ := h
    exact ⟨runs, bar, row, rfl⟩
  · rw [series_of_not_runs source runs] at h
    cases h

end Indicator

end Stratagem
