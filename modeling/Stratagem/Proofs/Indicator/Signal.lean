import Stratagem.Proofs.Indicator.Configured
import Stratagem.Proofs.Indicator.Crossing

/-!
# The signal of two averages

The line of `macd` is the difference of two exponential averages. Its signal is computed by a loop
of its own, with a seed that is the mean of a slice and a recursion behind it. It comes to the
exponential average of the line, fed from the bar on at which the longer of the two is complete
(`signal_of_line`). What a sum starts from is the one difference between the two: it goes away with
the first value of the line.

The loop adds the periods up in words of 64 bits. If the sum is no word, the program ends there
(`macd?_eq`); a configured indicator never gets that far (`fits_of_configure`).
-/

namespace Stratagem

variable {α : Type} [Scalar α] {fast slow signal : Nat}

/-- The program makes the points unless the sum of the periods is no word. -/
theorem macd?_eq (hfast : 0 < fast) (hslow : 0 < slow) (hsignal : 0 < signal) (source : PriceSource)
    (bars : List (Bar α)) :
    macd? fast slow signal source bars =
      if bars = [] ∨ max fast slow - 1 + signal < UInt64.size then
        some (macd fast slow signal source bars)
      else none := by
  cases bars with
  | nil => simp [macd?, macd]
  | cons bar bars =>
    have runs : ¬ ((bar :: bars).isEmpty = true ∨ fast = 0 ∨ slow = 0 ∨ signal = 0) := by
      simp
      omega
    rw [macd?, macd, if_neg runs, if_neg runs]
    by_cases fits : max fast slow - 1 + signal < UInt64.size
    · rw [if_pos (.inr fits), signalPlace?, if_pos fits]
      rfl
    · rw [if_neg (by simpa using fits), signalPlace?, if_neg fits]
      rfl

/-- The periods of a configured indicator have few enough bits to be added up. -/
theorem fits_of_configure {params : Params} (fits : params.Fits)
    (h : Kind.configure .macd params = .ok (.macd fast slow signal)) :
    max fast slow - 1 + signal < UInt64.size := by
  have bars : max fast slow + (signal - 1) < UInt64.size := minBars_lt_of_configure fits h
  obtain ⟨hfast, -, hsignal⟩ := Kind.sound_configure h
  omega

/-- Once a first value has been fed, it does not matter what the sum started from. -/
theorem signalUpTo_eq (hsignal : 0 < signal) {gaps : List α} {first k : Nat} (before : first < k)
    (inside : first < gaps.length)
    (start : ∀ x ∈ gaps[first]?, Scalar.zero + x = Scalar.sumStart + x) :
    signalUpTo signal first gaps k =
      (Average.fed signal Scalar.zero ((gaps.take k).drop first)).value := by
  have here : first < (gaps.take k).length := by
    rw [List.length_take]
    omega
  have same := start _ (List.getElem?_eq_getElem inside)
  rw [signalUpTo, List.drop_eq_getElem_cons here, List.getElem_take]
  exact congrArg _ (Average.fed_exponential_congr hsignal same.symm _)

/-- With positive periods, `macd` has a point at every bar, whose histogram is what the line is
above the signal. From the bar `max fast slow + signal - 2` on, the point is valid and the signal is
what the exponential average shows that has been fed the line since the bar at which the longer
average was complete; before, the point is not valid. That the first value fed is the same added to
zero as to what a sum starts from is all that is asked of the arithmetic. The program makes these
points, unless there are bars and the sum of the periods has more than 64 bits, which no configured
indicator can bring about. -/
theorem signal_of_line (hfast : 0 < fast) (hslow : 0 < slow) (hsignal : 0 < signal)
    (source : PriceSource) (bars : List (Bar α))
    (start : ∀ x ∈ (crossingLine fast slow (source.column bars))[max fast slow - 1]?,
      Scalar.zero + x = Scalar.sumStart + x) :
    (macd? fast slow signal source bars =
      if bars = [] ∨ max fast slow - 1 + signal < UInt64.size then
        some (macd fast slow signal source bars)
      else none) ∧
    (∀ params : Params, params.Fits →
      Kind.configure .macd params = .ok (.macd fast slow signal) →
        max fast slow - 1 + signal < UInt64.size) ∧
    (macd fast slow signal source bars).length = bars.length ∧
    ∀ (i : Nat) (p : Point α), (macd fast slow signal source bars)[i]? = some p →
      ∃ line shown : α, (crossingLine fast slow (source.column bars))[i]? = some line ∧
        p.reading = .macd line shown (line - shown) ∧
        (max fast slow + signal - 2 ≤ i → p.valid = true ∧
          shown = (Average.fed signal Scalar.zero
            (((crossingLine fast slow (source.column bars)).take (i + 1)).drop
              (max fast slow - 1))).value) ∧
        (i < max fast slow + signal - 2 → p.valid = false) := by
  have all := macd_eq_along hfast hslow hsignal source bars
  refine ⟨macd?_eq hfast hslow hsignal source bars, fun _ => fits_of_configure,
    by rw [all, length_along], fun i p h => ?_⟩
  rw [all, getElem?_along, Option.map_eq_some_iff] at h
  obtain ⟨bar, row, rfl⟩ := h
  have inside : i < bars.length := (List.getElem?_eq_some_iff.1 row).1
  have seen : (bars.take (i + 1)).length = i + 1 := List.length_take_of_le inside
  have inside' : i < (source.column bars).length := by simpa using inside
  have line := getElem?_crossingLine fast slow inside'
  rw [← PriceSource.column_take] at line
  refine ⟨_, _, line, rfl, fun late => ?_, fun early => ?_⟩
  · have complete : max fast slow + (signal - 1) ≤ (bars.take (i + 1)).length := by omega
    have value := signalUpTo_eq hsignal (k := i + 1) (by omega) (by simp; omega) start
    refine ⟨decide_eq_true complete, ?_⟩
    rw [if_pos complete, ← value, signalUpTo, PriceSource.column_take, crossingLine_take]
  · exact decide_eq_false (by omega)

/-- The first average is the longer one here. The signal is complete at the fourth bar. -/
theorem signal_of_line_longer_first :
    let bars : List Bar :=
      [⟨⟨0, 0⟩, 1, 1, 1, 1, 5⟩, ⟨⟨60, 0⟩, 2, 2, 2, 2, 5⟩, ⟨⟨120, 0⟩, 4, 4, 4, 4, 5⟩,
        ⟨⟨180, 0⟩, 8, 8, 8, 8, 5⟩, ⟨⟨240, 0⟩, 6, 6, 6, 6, 5⟩]
    let lines := crossingLine 3 2 (PriceSource.close.column bars)
    (0 < 3 ∧ 0 < 2 ∧ ∀ x ∈ lines[max 3 2 - 1]?, Scalar.zero + x = Scalar.sumStart + x) ∧
      macd? 3 2 2 .close bars = some (macd 3 2 2 .close bars) ∧
      (macd 3 2 2 .close bars).length = bars.length ∧
      ∀ (i : Nat) (p : Point), (macd 3 2 2 .close bars)[i]? = some p →
        ∃ line shown : Float, lines[i]? = some line ∧
          p.reading = .macd line shown (line - shown) ∧
          (max 3 2 + 2 - 2 ≤ i → p.valid = true ∧
            shown = (Average.fed 2 Scalar.zero
              ((lines.take (i + 1)).drop (max 3 2 - 1))).value) ∧
          (i < max 3 2 + 2 - 2 → p.valid = false) := by
  intro bars lines
  have start : ∀ x ∈ lines[max 3 2 - 1]?, Scalar.zero + x = Scalar.sumStart + x := by
    decide +kernel
  obtain ⟨made, -, points⟩ :=
    signal_of_line (by decide : 0 < 3) (by decide : 0 < 2) (by decide : 0 < 2) .close bars start
  have fits : bars = [] ∨ max 3 2 - 1 + 2 < UInt64.size := .inr (by decide)
  exact ⟨⟨by decide, by decide, start⟩, made.trans (if_pos fits), points⟩

end Stratagem
