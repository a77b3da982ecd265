import Stratagem.Indicator.Momentum
import Stratagem.Proofs.Indicator.Averages

/-!
# What the loops of smoothed averages put out

The exponential average is fed bar by bar. The other three indicators of smoothed averages look
things up: the average true range goes back to the close before and starts with a slice of a vector
that is computed beforehand, and the relative strength index goes through pairs of bars. Each is
brought into a form that shows what it puts out at a bar as a formula over the bars up to it
(`ema_eq_along`, `rsi_eq_along`, `atr_eq_along`).

The invariant of a loop is what its variables come to over the numbers so far: a sum before the
period is complete, Wilder's mean from then on (`Wilder`).
-/

namespace Stratagem

variable {α : Type} [Scalar α] {source : PriceSource} {bars : List (Bar α)}

/-! ## The exponential average -/

/-- The exponential average at the last of some bars. -/
def emaAfter (period : Nat) (source : PriceSource) (bar : Bar α) (seen : List (Bar α)) : Point α :=
  ⟨bar.time, period ≤ seen.length,
    .single (Average.fed period Scalar.zero (source.column seen)).value⟩

theorem scanState_ema (period : Nat) (source : PriceSource) (seen : List (Bar α)) :
    scanState (emaStep period source) (Average.empty Scalar.zero) seen =
      Average.fed period Scalar.zero (source.column seen) := by
  induction seen using List.reverseRecOn with
  | nil => rfl
  | append_singleton seen bar ih =>
    rw [scanState_concat, ih, PriceSource.column_concat, Average.fed_concat]
    rfl

theorem ema_eq_along {period : Nat} (pos : 0 < period) :
    ema period source bars = along (emaAfter period source) bars := by
  cases bars with
  | nil => simp [ema, along]
  | cons bar bars =>
    have runs : ¬ (period = 0 ∨ (bar :: bars).isEmpty = true) := by simp; omega
    rw [ema, if_neg runs]
    refine scan_eq_along (fun seen bar => ?_) _
    rw [scanState_ema, emaAfter, PriceSource.column_concat, Average.fed_concat, emaStep]
    simp

/-! ## Wilder's averages -/

/-- What the sum and the average of Wilder's method come to over some numbers. -/
structure Wilder (period : Nat) (xs : List α) (sum average : α) : Prop where
  early : xs.length < period → sum = xs.foldl (· + ·) Scalar.zero
  late : period ≤ xs.length → average = Average.wilderMean period Scalar.zero xs

namespace Wilder

variable {period : Nat} {xs : List α} {sum average : α}

theorem start (pos : 0 < period) (average : α) : Wilder period [] Scalar.zero average where
  early _ := rfl
  late none := absurd pos (Nat.not_lt.2 none)

theorem add (h : Wilder period xs sum average) (early : xs.length + 1 < period) (x : α) :
    Wilder period (xs ++ [x]) (sum + x) average where
  early _ := by
    rw [List.foldl_append, ← h.early (Nat.lt_of_succ_lt early)]
    rfl
  late complete := absurd early (Nat.not_lt.2 (by simpa using complete))

theorem complete (h : Wilder period xs sum average) (last : xs.length + 1 = period) (x : α) :
    Wilder period (xs ++ [x]) sum ((sum + x) / Scalar.ofNat period) where
  early short := absurd last (Nat.ne_of_lt (by simpa using short))
  late _ := by
    rw [Average.wilderMean_first (by simpa using last), List.foldl_append, ← h.early (by omega)]
    rfl

theorem move (h : Wilder period xs sum average) (behind : period ≤ xs.length) (x : α) :
    Wilder period (xs ++ [x]) sum (Average.wilderNext period average x) where
  early short := absurd behind (Nat.not_le.2 (Nat.lt_of_succ_lt (by simpa using short)))
  late _ := by
    rw [Average.wilderMean_concat behind, ← h.late behind]

end Wilder

/-! ## Relative strength -/

/-- How much every price differs from the one before. -/
def priceChanges (source : PriceSource) (bars : List (Bar α)) : List α :=
  neighbours (fun last bar => bar.price source - last.price source) bars

/-- The relative strength index at the last of some bars. -/
def rsiAfter (period : Nat) (source : PriceSource) (bar : Bar α) (seen : List (Bar α)) : Point α :=
  let changes := priceChanges source seen
  let gain := Average.wilderMean period Scalar.zero (changes.map upward)
  let loss := Average.wilderMean period Scalar.zero (changes.map downward)
  let valid := 0 < period ∧ period < seen.length
  ⟨bar.time, valid,
    .single (if valid then clampPercent (relativeStrength gain loss) else Scalar.zero)⟩

namespace Swings

variable {period : Nat} {s : Swings α} {changes : List α}

/-- Sums and averages that belong to some changes. -/
structure Over (period : Nat) (changes : List α) (s : Swings α) : Prop where
  gains : Wilder period (changes.map upward) s.sumGain s.gain
  losses : Wilder period (changes.map downward) s.sumLoss s.loss

theorem over_none (pos : 0 < period) : Over period [] (none : Swings α) :=
  ⟨.start pos _, .start pos _⟩

theorem Over.feed (h : Over period changes s) (pos : 0 < period) (change : α) :
    Over period (changes ++ [change]) (s.feed period changes.length change) := by
  have gains : (changes.map upward).length = changes.length := List.length_map _
  have losses : (changes.map downward).length = changes.length := List.length_map _
  unfold Swings.feed
  dsimp only
  split
  · refine ⟨?_, ?_⟩
    · simpa using h.gains.add (by omega) (upward change)
    · simpa using h.losses.add (by omega) (downward change)
  · split
    · refine ⟨?_, ?_⟩
      · simpa using h.gains.complete (by omega) (upward change)
      · simpa using h.losses.complete (by omega) (downward change)
    · refine ⟨?_, ?_⟩
      · simpa [Average.wilderNext] using h.gains.move (by omega) (upward change)
      · simpa [Average.wilderNext] using h.losses.move (by omega) (downward change)

end Swings

/-- The state behind a pair of bars is that of one more change, and the point shows it. -/
theorem rsiPair_eq {period : Nat} (pos : 0 < period) {s : Swings α} {seen : List (Bar α)}
    {last : Bar α} (before : seen.getLast? = some last)
    (h : Swings.Over period (priceChanges source seen) s) (bar : Bar α) :
    let r := rsiPair period source s ((last, bar), seen.length - 1)
    Swings.Over period (priceChanges source (seen ++ [bar])) r.1 ∧
      r.2 = rsiAfter period source bar (seen ++ [bar]) := by
  intro r
  have count : (priceChanges source seen).length = seen.length - 1 := length_neighbours _ _
  have more : priceChanges source (seen ++ [bar]) =
      priceChanges source seen ++ [bar.price source - last.price source] :=
    neighbours_concat _ before bar
  have some_seen : 0 < seen.length := List.length_pos_iff.2 fun none => by simp [none] at before
  have fed : Swings.Over period (priceChanges source (seen ++ [bar])) r.1 := by
    rw [more]
    have next := h.feed pos (bar.price source - last.price source)
    rwa [count] at next
  have length : (priceChanges source (seen ++ [bar])).length = seen.length := by
    rw [more, List.length_append, count, List.length_singleton]
    omega
  refine ⟨fed, ?_⟩
  by_cases early : seen.length - 1 < period - 1
  · have invalid : ¬ (0 < period ∧ period < (seen ++ [bar]).length) := by simp; omega
    simp only [r, rsiPair, rsiAfter, if_pos early, invalid, decide_false, if_false, blankPoint]
  · have valid : 0 < period ∧ period < (seen ++ [bar]).length := by simp; omega
    simp only [rsiAfter, valid, and_self, decide_true, if_true]
    rw [← fed.gains.late (by simp [length]; omega), ← fed.losses.late (by simp [length]; omega)]
    simp only [r, rsiPair, if_neg early]

/-- The relative strength index goes through the pairs of a list of bars, of which it has seen some
already. -/
theorem scan_rsiPair {period : Nat} (pos : 0 < period) {s : Swings α} {seen : List (Bar α)}
    {last : Bar α} (before : seen.getLast? = some last)
    (h : Swings.Over period (priceChanges source seen) s) (rest : List (Bar α)) :
    scan (rsiPair period source) s (((last :: rest).zip rest).zipIdx (seen.length - 1)) =
      (along (rsiAfter period source) (seen ++ rest)).drop seen.length := by
  induction rest generalizing s seen last with
  | nil =>
    rw [List.append_nil, List.drop_of_length_le (by simp)]
    rfl
  | cons bar rest ih =>
    obtain ⟨covers, shown⟩ := rsiPair_eq pos before h bar
    have some_seen : 0 < seen.length := List.length_pos_iff.2 fun none => by simp [none] at before
    have next : seen.length - 1 + 1 = (seen ++ [bar]).length - 1 := by simp; omega
    have inside : seen.length < (along (rsiAfter period source) (seen ++ bar :: rest)).length := by
      simp
    have first : (along (rsiAfter period source) (seen ++ bar :: rest))[seen.length]? =
        some (rsiAfter period source bar (seen ++ [bar])) := by
      rw [getElem?_along]
      simp [List.take_append, List.take_of_length_le]
    rw [List.getElem?_eq_getElem inside, Option.some_inj] at first
    rw [List.zip_cons_cons, List.zipIdx_cons, scan, List.drop_eq_getElem_cons inside, first, shown,
      next, ih List.getLast?_concat covers]
    simp

theorem rsi_eq_along (period : Nat) (source : PriceSource) (bars : List (Bar α)) :
    rsi period source bars = along (rsiAfter period source) bars := by
  have blank : ∀ (bar : Bar α) seen, ¬ (0 < period ∧ period < seen.length) →
      rsiAfter period source bar seen = blankPoint bar := by
    intro bar seen invalid
    simp only [rsiAfter, invalid, decide_false, if_false, blankPoint]
  match bars with
  | [] => rfl
  | [bar] => exact (congrArg ([·]) (blank bar [bar] (by simp; omega))).symm
  | first :: second :: rest =>
    rw [rsi]
    split
    · rename_i none
      refine List.ext_getElem? fun i => ?_
      rw [getElem?_along, List.getElem?_map]
      refine congrArg (Option.map · _) (funext fun bar => (blank bar _ ?_).symm)
      omega
    · rename_i some
      have pos : 0 < period := Nat.pos_of_ne_zero some
      have start : Swings.Over period (priceChanges source [first]) (Swings.none : Swings α) :=
        Swings.over_none pos
      have later := scan_rsiPair pos List.getLast?_singleton start (second :: rest)
      rw [along_cons, blank first [first] (by simp; omega)]
      exact congrArg (blankPoint first :: ·) later

/-! ## Average true range -/

/-- The true range of every bar; that of the first one is its height. -/
def rangesOf (bars : List (Bar α)) : List α :=
  (bars.take 1).map (fun bar => bar.high - bar.low) ++
    neighbours (fun before bar => bar.trueRange before.close) bars

theorem rangesOf_concat {seen : List (Bar α)} {last : Bar α} (h : seen.getLast? = some last)
    (bar : Bar α) : rangesOf (seen ++ [bar]) = rangesOf seen ++ [bar.trueRange last.close] := by
  have some : 1 ≤ seen.length := by
    cases seen with
    | nil => cases h
    | cons => exact Nat.succ_pos _
  rw [rangesOf, neighbours_concat _ h, List.take_append_of_le_length some, ← List.append_assoc]
  rfl

@[simp] theorem length_rangesOf (bars : List (Bar α)) : (rangesOf bars).length = bars.length := by
  cases bars <;> simp [rangesOf]

/-- The vector of true ranges holds those of the bars up to a place before the others. -/
theorem rangesOf_take_succ (bars : List (Bar α)) (i : Fin bars.length) :
    rangesOf (bars.take (i + 1)) =
      rangesOf (bars.take i) ++ [(trueRanges (placed bars)).get i] := by
  rw [take_succ]
  cases h : (bars.take i).getLast? with
  | none =>
    have first : (trueRanges (placed bars)).get i = bars[i].high - bars[i].low := by
      simp [trueRanges, before?_placed, h]
    rw [first, List.getLast?_eq_none_iff.1 h]
    rfl
  | some last =>
    have later : (trueRanges (placed bars)).get i = bars[i].trueRange last.close := by
      simp [trueRanges, before?_placed, h]
    rw [later]
    exact rangesOf_concat h _

theorem toList_trueRanges_take (bars : List (Bar α)) {k : Nat} (inside : k ≤ bars.length) :
    (trueRanges (placed bars)).toList.take k = rangesOf (bars.take k) := by
  induction k with
  | zero => simp [rangesOf, neighbours]
  | succ k ih =>
    rw [rangesOf_take_succ bars ⟨k, inside⟩, ← ih (Nat.le_of_succ_le inside), List.take_add_one]
    congr 1
    rw [Vector.getElem?_toList, Vector.getElem?_eq_getElem inside]
    rfl

/-- The average true range at the last of some bars. -/
def atrAfter (period : Nat) (bar : Bar α) (seen : List (Bar α)) : Point α :=
  let valid := period ≤ seen.length
  ⟨bar.time, valid, .single
    (if valid then Average.wilderMean period Scalar.sumStart (rangesOf seen) else Scalar.zero)⟩

/-- Behind a place the variable of the loop holds Wilder's mean of the true ranges so far. -/
theorem fst_atrAt {period : Nat} {average : α} {i : Fin bars.length}
    (kept : period ≤ i →
      average = Average.wilderMean period Scalar.sumStart (rangesOf (bars.take i)))
    (complete : period ≤ i.val + 1) :
    (atrAt period (placed bars) (trueRanges (placed bars)) average i).1 =
      Average.wilderMean period Scalar.sumStart (rangesOf (bars.take (i + 1))) := by
  have length : (rangesOf (bars.take i)).length = i := by simp
  by_cases first : i.val + 1 = period
  · have all : (rangesOf (bars.take (i + 1))).length = period := by simp; omega
    simp only [atrAt, if_pos first]
    rw [Average.wilderMean_first all, Scalar.mean, slice_eq, List.drop_zero,
      toList_trueRanges_take bars i.isLt]
    rfl
  · have many : period ≤ i := by omega
    simp only [atrAt, if_neg first, if_pos complete]
    rw [rangesOf_take_succ, Average.wilderMean_concat (by omega), kept many]
    rfl

theorem atr_eq_along {period : Nat} (pos : 0 < period) (long : period ≤ bars.length) :
    atr period bars = along (atrAfter period) bars := by
  have runs : ¬ (bars.length < period ∨ period = 0) := by omega
  rw [atr, if_neg runs]
  refine sweep_eq_map (fun k average => period ≤ k →
    average = Average.wilderMean period Scalar.sumStart (rangesOf (bars.take k)))
    (fun none => absurd pos (Nat.not_lt.2 none)) fun i average kept => ?_
  have next := fst_atrAt kept
  refine ⟨next, ?_⟩
  have length : (bars.take (i + 1)).length = i + 1 := List.length_take_of_le i.isLt
  have shown : (atrAt period (placed bars) (trueRanges (placed bars)) average i).2 =
      ⟨bars[i].time, period ≤ i.val + 1, .single (if period ≤ i.val + 1 then
        (atrAt period (placed bars) (trueRanges (placed bars)) average i).1
        else Scalar.zero)⟩ := rfl
  rw [shown, atrAfter, length]
  by_cases complete : period ≤ i.val + 1
  · rw [if_pos complete, if_pos complete, next complete]
  · rw [if_neg complete, if_neg complete]

end Stratagem
