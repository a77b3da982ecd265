import Stratagem.Indicator.Momentum
import Stratagem.Proofs.Indicator.Averages

/-!
# What the loop of two averages puts out

The line of `macd` is computed as a whole before its signal is, and the signal is written into a
vector: nothing but zeros unless the line is long enough, otherwise the mean of a slice at the place
where the signal is complete, and a smoothed value at every place behind it.

This is the exponential average once more. At a place from `complete` on the vector holds what the
average shows that has been fed the line from the place `first` on (`getElem_signalLine`). The
invariant of the loop says so of all places so far and of the value that the loop carries
(`Signalled`). So a point is a matter of the bars up to its own (`crossing_eq_along`).
-/

namespace Stratagem

variable {α : Type} [Scalar α]

/-! ## The line -/

theorem crossingLine_take (fast slow n : Nat) (xs : List α) :
    crossingLine fast slow (xs.take n) = (crossingLine fast slow xs).take n := by
  rw [crossingLine, Average.values_take, Average.values_take, ← List.take_zipWith]
  rfl

theorem crossingLine_concat (fast slow : Nat) (xs : List α) (x : α) :
    crossingLine fast slow (xs ++ [x]) = crossingLine fast slow xs ++
      [(Average.fed fast Scalar.zero (xs ++ [x])).value -
        (Average.fed slow Scalar.zero (xs ++ [x])).value] := by
  have even : (Average.values fast xs).length = (Average.values slow xs).length := by
    rw [Average.values, Average.values, length_scan, length_scan]
  rw [crossingLine, Average.values_concat, Average.values_concat, List.zipWith_append even]
  rfl

/-- The line at a place is made by the averages of the numbers up to it. -/
theorem getElem?_crossingLine (fast slow : Nat) {xs : List α} {i : Nat} (inside : i < xs.length) :
    (crossingLine fast slow xs)[i]? =
      some ((Average.fed fast Scalar.zero (xs.take (i + 1))).value -
        (Average.fed slow Scalar.zero (xs.take (i + 1))).value) := by
  have length : (crossingLine fast slow (xs.take i)).length = i := by
    rw [length_crossingLine, List.length_take_of_le (Nat.le_of_lt inside)]
  rw [← List.getElem?_take_of_lt (Nat.lt_succ_self i), ← crossingLine_take, List.take_add_one,
    List.getElem?_eq_getElem inside, Option.toList_some, crossingLine_concat,
    List.getElem?_append_right (Nat.le_of_eq length), length, Nat.sub_self]
  rfl

/-! ## The signal -/

section

variable {n : Nat} {gaps : Vector α n} {signal first complete : Nat}

/-- The exponential average of the line from the place `first` on, up to a place. -/
def signalUpTo (signal first : Nat) (gaps : List α) (k : Nat) : α :=
  (Average.fed signal Scalar.sumStart ((gaps.take k).drop first)).value

/-- What has been written of a signal before the place `k`, and the value that is carried on. -/
structure Signalled (signal first complete : Nat) (gaps : Vector α n) (k : Nat)
    (s : Vector α n × α) : Prop where
  behind : complete < k
  value : s.2 = signalUpTo signal first gaps.toList k
  written : ∀ i : Fin n, i.val < k → s.1[i] =
    if complete ≤ i.val then signalUpTo signal first gaps.toList (i + 1) else Scalar.zero

theorem signalled_seed (pos : 0 < signal) (place : complete = first + signal - 1)
    (inside : complete < n) :
    Signalled signal first complete gaps (complete + 1)
      ((Vector.replicate n Scalar.zero).set complete
          (Scalar.mean signal (slice gaps first (complete + 1))) inside,
        Scalar.mean signal (slice gaps first (complete + 1))) := by
  have seed : Scalar.mean signal (slice gaps first (complete + 1)) =
      signalUpTo signal first gaps.toList (complete + 1) := by
    have length : ((gaps.toList.take (complete + 1)).drop first).length = signal := by
      rw [List.length_drop, List.length_take, Vector.length_toList]
      omega
    have some : (gaps.toList.take (complete + 1)).drop first ≠ [] := by
      rw [← List.length_pos_iff, length]
      exact pos
    rw [signalUpTo, Average.value_exponential_early some (Nat.le_of_eq length), length, slice_eq]
    rfl
  refine ⟨Nat.lt_succ_self complete, seed, fun i before => ?_⟩
  rw [Fin.getElem_fin, Vector.getElem_set, seed, Vector.getElem_replicate]
  by_cases last : complete = i.val
  · rw [if_pos last, if_pos (Nat.le_of_eq last), last]
  · rw [if_neg last, if_neg (by omega)]

theorem Signalled.step {k : Fin n} {s : Vector α n × α}
    (h : Signalled signal first complete gaps k s) (place : complete = first + signal - 1) :
    Signalled signal first complete gaps (k + 1) (signalStep signal gaps s k) := by
  have behind := h.behind
  have many : signal ≤ ((gaps.toList.take k).drop first).length := by
    rw [List.length_drop, List.length_take, Vector.length_toList]
    omega
  have short : first ≤ (gaps.toList.take k).length := by
    rw [List.length_take, Vector.length_toList]
    omega
  have value : (signalStep signal gaps s k).2 = signalUpTo signal first gaps.toList (k + 1) := by
    have here : gaps.toList[k.val]? = some gaps[k] := by
      rw [List.getElem?_eq_getElem (by simp)]
      rfl
    rw [signalUpTo, List.take_add_one, here, Option.toList_some,
      List.drop_append_of_le_length short, Average.value_exponential_late many]
    have carried := h.value
    unfold signalUpTo at carried
    rw [← carried]
    rfl
  refine ⟨Nat.lt_succ_of_lt behind, value, fun i before => ?_⟩
  change (s.1.set k (signalStep signal gaps s k).2)[i] = _
  rw [Fin.getElem_fin, Vector.getElem_set]
  by_cases last : k.val = i.val
  · rw [if_pos last, if_pos (by omega), value, last]
  · rw [if_neg last]
    exact h.written i (by omega)

/-- The signal is zero before the place `complete`. From there on it is the exponential average of
the line from the place `first` on. -/
theorem getElem_signalLine (pos : 0 < signal) (place : complete = first + signal - 1) (i : Fin n) :
    (signalLine signal first complete gaps)[i] =
      if complete ≤ i.val then signalUpTo signal first gaps.toList (i + 1) else Scalar.zero := by
  by_cases inside : complete < n
  · have all := foldl_drop_finRange (Signalled signal first complete gaps) inside
      (signalled_seed pos place inside) fun k s h => h.step place
    simp only [signalLine, dif_pos inside]
    exact all.written i i.isLt
  · have early : ¬ complete ≤ i.val := by omega
    simp [signalLine, inside, early]

end

/-! ## The points -/

/-- The line, the signal and their difference at the last of some bars. -/
def macdAfter (fast slow signal : Nat) (source : PriceSource) (bar : Bar α) (seen : List (Bar α)) :
    Point α :=
  let prices := source.column seen
  let line :=
    (Average.fed fast Scalar.zero prices).value - (Average.fed slow Scalar.zero prices).value
  let valid := max fast slow + (signal - 1) ≤ seen.length
  let shown := if valid then
      (Average.fed signal Scalar.sumStart
        ((crossingLine fast slow prices).drop (max fast slow - 1))).value
    else Scalar.zero
  ⟨bar.time, valid, .macd line shown (line - shown)⟩

theorem crossing_eq_along {fast slow signal complete : Nat} (hfast : 0 < fast)
    (hsignal : 0 < signal) (place : complete = max fast slow - 1 + signal - 1)
    (source : PriceSource) (bars : List (Bar α)) :
    crossing fast slow signal complete source bars =
      along (macdAfter fast slow signal source) bars := by
  unfold crossing along
  refine List.map_congr_left fun i _ => ?_
  have inside : i.val < (source.column bars).length := by simp
  have line := getElem?_crossingLine fast slow inside
  rw [List.getElem?_eq_getElem (by simp), Option.some_inj] at line
  have valid : max fast slow + (signal - 1) ≤ (bars.take (i + 1)).length ↔ complete ≤ i.val := by
    rw [List.length_take_of_le i.isLt]
    omega
  simp only [macdAfter, getElem_signalLine hsignal place, signalUpTo, valid,
    PriceSource.column_take, crossingLine_take, ← line]
  rfl

theorem macd_eq_along {fast slow signal : Nat} (hfast : 0 < fast) (hslow : 0 < slow)
    (hsignal : 0 < signal) (source : PriceSource) (bars : List (Bar α)) :
    macd fast slow signal source bars = along (macdAfter fast slow signal source) bars := by
  cases bars with
  | nil => simp [macd, along]
  | cons bar bars =>
    have runs : ¬ ((bar :: bars).isEmpty = true ∨ fast = 0 ∨ slow = 0 ∨ signal = 0) := by
      simp
      omega
    rw [macd, if_neg runs]
    exact crossing_eq_along hfast hsignal rfl source _

end Stratagem
