import Mathlib.Data.List.DropRight
import Stratagem.Indicator.Basic
import Stratagem.Market.Feed
import Stratagem.Proofs.Indicator.Averages

/-!
# What the loops over a span put out

The bands and the volume-weighted average price look at some of the last bars (`Span.reach`): those
of a window, those of the UTC day, or all. The loops find a window by its places and take a slice;
for the day and for all bars they keep running sums, which start anew when the day of a bar is
another than that of the bar before. Either way a point is made of the bars of the span alone
(`bollinger_eq_along`, `vwap_eq_along`).
-/

namespace Stratagem

/-! ## The end of a list -/

section

variable {β γ : Type}

theorem length_lastOf (size : Nat) (seen : List β) :
    (lastOf size seen).length = min size seen.length := by
  rw [lastOf, List.length_drop]
  omega

/-- The last elements with one more behind them, if there is room for it. -/
theorem lastOf_concat {size : Nat} (pos : 0 < size) (seen : List β) (x : β) :
    lastOf size (seen ++ [x]) = lastOf (size - 1) seen ++ [x] := by
  have short : seen.length + 1 - size ≤ seen.length := by omega
  have same : seen.length + 1 - size = seen.length - (size - 1) := by omega
  rw [lastOf, List.length_append, List.length_singleton, List.drop_append_of_le_length short, same]
  rfl

/-- Of the last elements, as many of the last as there may be at most. -/
theorem lastOf_lastOf {m n : Nat} (h : m ≤ n) (xs : List β) :
    lastOf m (lastOf n xs) = lastOf m xs := by
  unfold lastOf
  rw [List.drop_drop, List.length_drop]
  congr 1
  omega

theorem lastOf_of_length_le {n : Nat} {xs : List β} (h : xs.length ≤ n) : lastOf n xs = xs := by
  rw [lastOf, Nat.sub_eq_zero_of_le h, List.drop_zero]

theorem map_lastOf (f : β → γ) (n : Nat) (xs : List β) :
    (lastOf n xs).map f = lastOf n (xs.map f) := by
  rw [lastOf, lastOf, List.map_drop, List.length_map]

/-- The slice that ends with a place and has room for `size` elements. -/
theorem slice_eq_lastOf {n : Nat} (xs : Vector β n) (size : Nat) (i : Fin n) :
    slice xs (i.val + 1 - size) (i.val + 1) = lastOf size (xs.toList.take (i + 1)) := by
  have inside : i.val + 1 ≤ xs.toList.length := by
    rw [Vector.length_toList]
    exact i.isLt
  rw [slice_eq, lastOf, List.length_take_of_le inside]

end

/-! ## The bars of a span -/

section

variable {α : Type}

/-- The bars at the end that fall on the UTC day of the last one. -/
def lastDay (seen : List (Bar α)) : List (Bar α) :=
  seen.rtakeWhile fun bar => seen.getLast?.map (fun last => last.time.day) == some bar.time.day

/-- The bars that a volume-weighted average is taken over, of the bars so far. -/
def Span.reach (span : Span) (seen : List (Bar α)) : List (Bar α) :=
  match span with
  | .cumulative => seen
  | .session => lastDay seen
  | .rolling size => lastOf size seen

/-- The spans without a window, whose sums are kept running. -/
inductive Span.Running : Span → Prop
  | cumulative : Running .cumulative
  | session : Running .session

/-- One more bar on the same day belongs to the last day; on another day it is alone. -/
theorem lastDay_concat (seen : List (Bar α)) (bar : Bar α) :
    lastDay (seen ++ [bar]) =
      if seen.getLast?.map (fun last => last.time.day) = some bar.time.day then
        lastDay seen ++ [bar]
      else [bar] := by
  have own : (seen ++ [bar]).getLast? = some bar := List.getLast?_concat
  unfold lastDay
  rw [own, List.rtakeWhile_concat_pos _ _ _ (by simp)]
  split
  · rename_i same
    rw [same, Option.map_some]
  · rename_i other
    rcases List.eq_nil_or_concat' seen with rfl | ⟨before, last, rfl⟩
    · rfl
    · rw [List.getLast?_concat, Option.map_some, Option.some_inj] at other
      refine List.append_left_eq_self.2 (List.rtakeWhile_concat_neg _ _ _ ?_)
      simpa using fun same => other (Eq.symm same)

/-- A bar opens a day unless the bar before it falls on the same. -/
theorem opensDay_iff (bars : List (Bar α)) (i : Fin bars.length) :
    opensDay (placed bars) i = true ↔
      (bars.take i).getLast?.map (fun last => last.time.day) ≠ some (bars.get i).time.day := by
  unfold opensDay
  rw [before?_placed]
  cases (bars.take i).getLast? <;> simp

end

variable {α : Type} [Scalar α] {source : PriceSource} {bars : List (Bar α)}

namespace Span

/-- What the sums of a span start from. -/
def start : Span → α
  | .cumulative | .session => Scalar.zero
  | .rolling _ => Scalar.sumStart

/-- The volume of a span, of the bars so far. -/
def volume (span : Span) (seen : List (Bar α)) : α :=
  (span.reach seen).foldl (fun volume bar => volume + bar.volume) span.start

/-- The prices of a span, weighted by their volumes. -/
def weighted (span : Span) (source : PriceSource) (seen : List (Bar α)) : α :=
  (span.reach seen).foldl (fun sum bar => sum + bar.price source * bar.volume) span.start

end Span

/-! ## The bands -/

/-- The bands at the last of some bars. -/
def bollingerAfter (period hundredths : Nat) (source : PriceSource) (bar : Bar α)
    (seen : List (Bar α)) : Point α :=
  let valid := period ≤ seen.length
  let window := lastOf period (source.column seen)
  ⟨bar.time, valid,
    if valid then bandsOf period (Scalar.ofNat hundredths / Scalar.ofNat 100) window
    else .bands Scalar.zero Scalar.zero Scalar.zero⟩

theorem bollinger_eq_along {period : Nat} (long : 2 ≤ period) (hundredths : Nat)
    (source : PriceSource) (bars : List (Bar α)) :
    bollinger period hundredths source bars =
      along (bollingerAfter period hundredths source) bars := by
  rw [bollinger, if_neg (Nat.not_lt.2 long)]
  refine List.map_congr_left fun i _ => ?_
  have prices : (Vector.ofFn fun i => ((placed bars).get i).price source).toList =
      source.column bars := toList_ofFn_map bars fun bar => bar.price source
  have valid : period ≤ (bars.take (i + 1)).length ↔ period - 1 ≤ i.val := by
    rw [List.length_take_of_le i.isLt]
    omega
  simp only [bollingerAfter, bollingerAt, slice_eq_lastOf, prices, valid, PriceSource.column_take]
  rfl

/-! ## The average -/

/-- The volume-weighted average at the last of some bars. -/
def vwapAfter (span : Span) (source : PriceSource) (bar : Bar α) (seen : List (Bar α)) : Point α :=
  vwapPoint bar.time ((Indicator.vwap span).minBars ≤ seen.length) (span.weighted source seen)
    (span.volume seen)

/-- The running sums of a loop are those of the bars of a span. -/
structure Turnover.Over (span : Span) (source : PriceSource) (seen : List (Bar α))
    (s : Turnover α) : Prop where
  weighted : s.weighted = span.weighted source seen
  volume : s.volume = span.volume seen

omit [Scalar α] in
/-- A span without a window grows by a bar, unless the bar opens a day that the span is about. -/
theorem Span.reach_take_succ {span : Span} (running : span.Running)
    (i : Fin bars.length) :
    span.reach (bars.take (i + 1)) =
      (if span = .session ∧ opensDay (placed bars) i then [] else span.reach (bars.take i)) ++
        [bars.get i] := by
  rw [take_succ]
  cases running with
  | cumulative => rfl
  | session =>
    rw [Span.reach, Span.reach, lastDay_concat]
    by_cases opens : opensDay (placed bars) i = true
    · rw [if_neg ((opensDay_iff bars i).1 opens), if_pos ⟨rfl, opens⟩, List.nil_append]
    · have same := not_not.1 (mt (opensDay_iff bars i).2 opens)
      rw [if_pos same, if_neg fun h => opens h.2]

/-- The sums behind a place. -/
theorem Turnover.Over.step {span : Span} (running : span.Running) {s : Turnover α}
    {i : Fin bars.length} (h : s.Over span source (bars.take i)) {weighted : Vector α bars.length}
    (place : weighted.get i = (bars.get i).price source * (bars.get i).volume) :
    (vwapAt span (placed bars) weighted s i).1.Over span source (bars.take (i + 1)) := by
  have start : (span.start : α) = Scalar.zero := by
    cases running <;> rfl
  have sums : (vwapAt span (placed bars) weighted s i).1 =
      let s := if span = .session ∧ opensDay (placed bars) i then Turnover.empty else s
      ⟨s.weighted + (bars.get i).price source * (bars.get i).volume,
        s.volume + (bars.get i).volume⟩ := by
    rw [← place]
    cases running <;> rfl
  have grown := Span.reach_take_succ running i
  rw [sums]
  by_cases opens : span = .session ∧ opensDay (placed bars) i = true
  · rw [if_pos opens] at grown
    refine ⟨?_, ?_⟩
    · rw [Span.weighted, grown, start, if_pos opens]
      rfl
    · rw [Span.volume, grown, start, if_pos opens]
      rfl
  · rw [if_neg opens] at grown
    refine ⟨?_, ?_⟩
    · rw [Span.weighted, grown, List.foldl_append, if_neg opens]
      exact congrArg (· + _) h.weighted
    · rw [Span.volume, grown, List.foldl_append, if_neg opens]
      exact congrArg (· + _) h.volume

theorem vwap_running {span : Span} (running : span.Running) (source : PriceSource)
    (bars : List (Bar α)) : vwap span source bars = along (vwapAfter span source) bars := by
  rw [vwap, if_neg (by cases running <;> simp)]
  have none : Turnover.empty.Over span source (bars.take 0) := by
    cases running <;> exact ⟨rfl, rfl⟩
  refine sweep_eq_map (fun k s => s.Over span source (bars.take k)) none fun i s covers => ?_
  have place : (Vector.ofFn fun i => ((placed bars).get i).price source *
      ((placed bars).get i).volume).get i = (bars.get i).price source * (bars.get i).volume := by
    simp
  have behind := covers.step running place
  refine ⟨behind, ?_⟩
  have enough : (Indicator.vwap span).minBars ≤ (bars.take (i + 1)).length := by
    rw [List.length_take_of_le i.isLt]
    cases running <;> exact Nat.succ_pos _
  rw [vwapAfter, ← behind.weighted, ← behind.volume, decide_eq_true enough]
  cases running <;> rfl

theorem vwap_rolling {size : Nat} (pos : 0 < size) (source : PriceSource) (bars : List (Bar α)) :
    vwap (.rolling size) source bars = along (vwapAfter (.rolling size) source) bars := by
  have some : Span.rolling size ≠ .rolling 0 := fun h => pos.ne' (Span.rolling.inj h)
  rw [vwap, if_neg some]
  refine sweep_eq_map (fun _ _ => True) trivial fun i s _ => ⟨trivial, ?_⟩
  have weighted : (Vector.ofFn fun i => ((placed bars).get i).price source *
      ((placed bars).get i).volume).toList = bars.map fun bar => bar.price source * bar.volume :=
    toList_ofFn_map bars fun bar => bar.price source * bar.volume
  have length : (bars.take (i + 1)).length = i + 1 := List.length_take_of_le i.isLt
  simp only [vwapAt, vwapAfter, slice_eq_lastOf, weighted, ← List.map_take, ← map_lastOf,
    Scalar.sum, List.foldl_map, length, toList_placed]
  rfl

theorem vwap_eq_along {span : Span} (some : span ≠ .rolling 0) (source : PriceSource)
    (bars : List (Bar α)) : vwap span source bars = along (vwapAfter span source) bars := by
  cases span with
  | cumulative => exact vwap_running .cumulative source bars
  | session => exact vwap_running .session source bars
  | rolling size =>
    exact vwap_rolling (Nat.pos_of_ne_zero fun none => some (congrArg _ none)) source bars

end Stratagem
