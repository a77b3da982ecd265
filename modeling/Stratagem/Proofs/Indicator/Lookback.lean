import Stratagem.Proofs.Indicator.Shown

/-!
# What a windowed indicator looks back at

The bands, the average over a window and the average over the day look at a stretch of bars at the
end (`Indicator.reach`). Nothing older has a say: their point at a bar is the last of their points
over this stretch alone (`Windowed.getElem?_series`), so that no sum leaves a residue of a bar that
has fallen out of it.

The formula of such an indicator asks only for the bars of the stretch (`Windowed.after_reach`), and
the stretch of the stretch is the stretch itself.
-/

namespace Stratagem

section

variable {α : Type} {seen : List (Bar α)}

/-- The last day ends with the last bar. -/
theorem getLast?_lastDay (seen : List (Bar α)) : (lastDay seen).getLast? = seen.getLast? := by
  rcases List.eq_nil_or_concat' seen with rfl | ⟨before, bar, rfl⟩
  · rfl
  · rw [lastDay_concat, List.getLast?_concat]
    split
    · exact List.getLast?_concat
    · rfl

theorem lastDay_lastDay (seen : List (Bar α)) : lastDay (lastDay seen) = lastDay seen := by
  rw [lastDay, getLast?_lastDay]
  exact List.rtakeWhile_idempotent _ seen

theorem getLast?_lastOf {size : Nat} (pos : 0 < size) (seen : List (Bar α)) :
    (lastOf size seen).getLast? = seen.getLast? := by
  rcases List.eq_nil_or_concat' seen with rfl | ⟨before, bar, rfl⟩
  · simp [lastOf]
  · rw [lastOf_concat pos, List.getLast?_concat, List.getLast?_concat]

theorem Span.reach_reach (span : Span) (seen : List (Bar α)) :
    span.reach (span.reach seen) = span.reach seen := by
  cases span with
  | cumulative => rfl
  | session => exact lastDay_lastDay seen
  | rolling size => exact lastOf_lastOf (Nat.le_refl size) seen

end

variable {α : Type} [Scalar α] {source : PriceSource}

theorem Span.weighted_reach (span : Span) (source : PriceSource) (seen : List (Bar α)) :
    span.weighted source (span.reach seen) = span.weighted source seen := by
  rw [weighted, reach_reach]
  rfl

theorem Span.volume_reach (span : Span) (seen : List (Bar α)) :
    span.volume (span.reach seen) = span.volume seen := by
  rw [volume, reach_reach]
  rfl

namespace Indicator

/-- The indicators that look at a stretch of bars at the end. -/
inductive Windowed : Indicator → Prop
  | bollinger (period hundredths : Nat) : Windowed (.bollinger period hundredths)
  | rolling (size : Nat) : Windowed (.vwap (.rolling size))
  | session : Windowed (.vwap .session)

omit [Scalar α] in
/-- The bars that an indicator is computed from at the last of the bars so far: those of its window,
or those since the last change of the day. -/
def reach (i : Indicator) (seen : List (Bar α)) : List (Bar α) :=
  match i with
  | bollinger period _ => lastOf period seen
  | vwap span => span.reach seen
  | ema _ | rsi _ | atr _ | macd _ _ _ => seen

variable {i : Indicator}

/-- How many bars there are does not decide whether a windowed indicator has points. -/
theorem Windowed.runs_iff (h : i.Windowed) (m n : Nat) : i.Runs m ↔ i.Runs n := by
  cases h <;> rfl

omit [Scalar α] in
/-- The stretch ends with the last bar. -/
theorem Windowed.getLast?_reach (h : i.Windowed) {n : Nat} (runs : i.Runs n)
    (seen : List (Bar α)) : (i.reach seen).getLast? = seen.getLast? := by
  cases h with
  | bollinger period hundredths =>
    exact getLast?_lastOf (Nat.lt_of_lt_of_le Nat.zero_lt_two runs) seen
  | rolling size =>
    exact getLast?_lastOf (Nat.pos_of_ne_zero fun none => runs (congrArg _ none)) seen
  | session => exact getLast?_lastDay seen

/-- The formula of a windowed indicator asks for the bars of the stretch alone. -/
theorem Windowed.after_reach (h : i.Windowed) (source : PriceSource) (bar : Bar α)
    (seen : List (Bar α)) : i.after source bar (i.reach seen) = i.after source bar seen := by
  cases h with
  | bollinger period hundredths =>
    have full : period ≤ (lastOf period seen).length ↔ period ≤ seen.length := by
      rw [length_lastOf]
      omega
    have window : lastOf period (source.column (lastOf period seen)) =
        lastOf period (source.column seen) := by
      rw [PriceSource.column, map_lastOf, lastOf_lastOf (Nat.le_refl period)]
      rfl
    simp only [after, bollingerAfter, reach, full, window]
  | rolling size =>
    have full : size ≤ (lastOf size seen).length ↔ size ≤ seen.length := by
      rw [length_lastOf]
      omega
    simp only [after, reach, vwapAfter, Span.weighted_reach, Span.volume_reach]
    exact congrArg (vwapPoint bar.time · _ _) (decide_eq_decide.2 full)
  | session =>
    have some : 1 ≤ (lastDay seen).length ↔ 1 ≤ seen.length := by
      rw [Nat.one_le_iff_ne_zero, Nat.one_le_iff_ne_zero, Ne, Ne, List.length_eq_zero_iff,
        List.length_eq_zero_iff, ← List.getLast?_eq_none_iff, getLast?_lastDay,
        List.getLast?_eq_none_iff]
    simp only [after, reach, vwapAfter, Span.weighted_reach, Span.volume_reach]
    exact congrArg (vwapPoint bar.time · _ _) (decide_eq_decide.2 some)

/-- The last point of a windowed indicator is that over its stretch alone. -/
theorem Windowed.getLast?_series (h : i.Windowed) (source : PriceSource) (seen : List (Bar α)) :
    (i.series source seen).getLast? = (i.series source (i.reach seen)).getLast? := by
  by_cases runs : i.Runs seen.length
  · have runs' : i.Runs (i.reach seen).length := (h.runs_iff _ _).1 runs
    rw [series_of_runs source runs, series_of_runs source runs', getLast?_along, getLast?_along,
      h.getLast?_reach runs]
    exact congrArg (Option.map · _) (funext fun bar => (h.after_reach source bar seen).symm)
  · have idle : ¬ i.Runs (i.reach seen).length := fun runs' => runs ((h.runs_iff _ _).1 runs')
    rw [series_of_not_runs source runs, series_of_not_runs source idle]

/-- The point of a windowed indicator at a bar is the last one over its stretch alone. -/
theorem Windowed.getElem?_series (h : i.Windowed) (source : PriceSource) {bars : List (Bar α)}
    {n : Nat} (inside : n < bars.length) :
    (i.series source bars)[n]? = (i.series source (i.reach (bars.take (n + 1)))).getLast? := by
  have last : (i.series source bars)[n]? = (i.series source (bars.take (n + 1))).getLast? := by
    by_cases runs : i.Runs bars.length
    · have runs' : i.Runs (bars.take (n + 1)).length := (h.runs_iff _ _).1 runs
      rw [series_of_runs source runs, series_of_runs source runs', along_take,
        List.getLast?_take, if_neg (Nat.succ_ne_zero n), Nat.add_sub_cancel,
        List.getElem?_eq_getElem (by simpa using inside)]
      rfl
    · have idle : ¬ i.Runs (bars.take (n + 1)).length :=
        fun runs' => runs ((h.runs_iff _ _).1 runs')
      rw [series_of_not_runs source runs, series_of_not_runs source idle]
      rfl
  rw [last, h.getLast?_series]

/-- A windowed indicator whose parameter makes sense has a point at every bar. -/
theorem Windowed.isSome_getElem?_series (h : i.Windowed) (sound : i.Sound) (source : PriceSource)
    {bars : List (Bar α)} {n : Nat} (inside : n < bars.length) :
    ((i.series source bars)[n]?).isSome = true := by
  have runs : i.Runs bars.length := (h.runs_iff _ _).1 (sound.runs (Nat.le_refl _))
  rw [series_of_runs source runs, getElem?_along, List.getElem?_eq_getElem inside]
  rfl

end Indicator

end Stratagem
