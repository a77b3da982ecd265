import Stratagem.Proofs.Indicator.Columns

/-!
# Frames to which indicators are added

Indicators are added to a frame one after the other. Each is computed over bars of its own, so there
may be another number of points than the frame has bars; then the frame refuses them and stays as it
is (`Frame.offer`).

What a frame shows under a name after any additions is the column of the last one that it took and
that has a column of this name (`column?_offerAll`). Indicators of one family have the same names
for their columns, so a later one may take the place of an earlier one in some columns or in all.
-/

namespace Stratagem

/-- An indicator that is added to a frame, and the bars that it is computed over. -/
structure Addition where
  indicator : Indicator
  source : PriceSource
  bars : List Bar

namespace Addition

/-- The points that are added. -/
def points (a : Addition) : List Point := a.indicator.series a.source a.bars

theorem shapes_points (a : Addition) : ∀ p ∈ a.points, a.indicator.kind.Shapes p.reading :=
  a.indicator.shapes_series a.source a.bars

/-- The column that the indicator has under one of its names. -/
def column (a : Addition) (name : String) : List (Option Float) :=
  Frame.cells a.points (a.indicator.fieldNames.idxOf name)

/-- Whether there is a point for each of `n` bars, and a column of a name. -/
def Fills (n : Nat) (name : String) (a : Addition) : Prop :=
  a.points.length = n ∧ name ∈ a.indicator.fieldNames

instance (n : Nat) (name : String) (a : Addition) : Decidable (a.Fills n name) :=
  inferInstanceAs (Decidable (_ ∧ _))

/-- The last of the additions that fill a column of a name. -/
def holder (n : Nat) (name : String) (as : List Addition) : Option Addition :=
  (as.filter fun a => a.Fills n name).getLast?

theorem holder_concat (n : Nat) (name : String) (as : List Addition) (a : Addition) :
    holder n name (as ++ [a]) = if a.Fills n name then some a else holder n name as := by
  unfold holder
  by_cases h : a.Fills n name
  · simp [h]
  · simp [h]

/-- The last addition that fills a column is the one that no later one follows. -/
theorem holder_of_last {n : Nat} {name : String} {before after : List Addition} {a : Addition}
    (fills : a.Fills n name) (later : ∀ b ∈ after, ¬ b.Fills n name) :
    holder n name (before ++ a :: after) = some a := by
  have none : after.filter (fun b => b.Fills n name) = [] := by
    rw [List.filter_eq_nil_iff]
    simpa using later
  unfold holder
  rw [List.filter_append, List.filter_cons_of_pos (by simpa using fills), none]
  exact List.getLast?_concat

theorem isSome_holder_iff {n : Nat} {name : String} {as : List Addition} :
    (holder n name as).isSome = true ↔ ∃ a ∈ as, a.Fills n name := by
  rw [holder, Option.isSome_iff_ne_none, Ne, List.getLast?_eq_none_iff, List.filter_eq_nil_iff]
  simp

theorem length_column {n : Nat} {name : String} {a : Addition} (h : a.Fills n name) :
    (a.column name).length = n := by
  rw [column, Frame.cells, List.length_map, h.1]

/-- The cells of a column are the components of the valid points under its name. -/
theorem cell_column (a : Addition) {name : String} {j : Nat}
    (hj : a.indicator.fieldNames[j]? = some name) {k : Nat} {p : Point}
    (hp : a.points[k]? = some p) :
    ∃ x, p.reading.components[j]? = some x ∧
      (a.column name)[k]? = some (if p.valid then some x else none) := by
  obtain ⟨inside, same⟩ := List.getElem?_eq_some_iff.1 hj
  have place : a.indicator.fieldNames.idxOf name = j := by
    rw [← same]
    exact a.indicator.nodup_fieldNames.idxOf_getElem j inside
  have component : j < p.reading.components.length := by
    rwa [Indicator.length_components (a.shapes_points p (List.mem_of_getElem? hp))]
  refine ⟨_, List.getElem?_eq_getElem component, ?_⟩
  rw [column, place, Frame.cells, List.getElem?_map, hp, Option.map_some,
    List.getElem?_eq_getElem component]

end Addition

namespace Frame

/-- Why an indicator that is offered to a frame is refused, if it is, and what the frame is then. -/
def offer (f : Frame) (a : Addition) : Except FrameFault Unit × Frame :=
  (augment a.indicator a.points).run.run f

/-- The frame after several indicators have been offered to it. -/
def offerAll (f : Frame) (as : List Addition) : Frame := as.foldl (fun f a => (f.offer a).2) f

theorem offerAll_concat (f : Frame) (as : List Addition) (a : Addition) :
    f.offerAll (as ++ [a]) = ((f.offerAll as).offer a).2 := by
  simp [offerAll]

/-! ## One addition -/

theorem offer_of_aligned {f : Frame} {a : Addition} (h : a.points.length = f.bars.length) :
    f.offer a = (.ok (), f.extended a.indicator a.points) := by
  rw [offer, run_augment, if_neg (not_not_intro h)]

theorem offer_of_misaligned {f : Frame} {a : Addition} (h : a.points.length ≠ f.bars.length) :
    f.offer a = (.error (.misaligned a.indicator a.points.length f.bars.length), f) := by
  rw [offer, run_augment, if_pos h]

theorem bars_offer (f : Frame) (a : Addition) : (f.offer a).2.bars = f.bars := by
  by_cases h : a.points.length = f.bars.length
  · rw [offer_of_aligned h, extended]
  · rw [offer_of_misaligned h]

theorem column?_offer (f : Frame) (a : Addition) (name : String) :
    (f.offer a).2.column? name =
      if a.Fills f.bars.length name then some (a.column name) else f.column? name := by
  by_cases h : a.points.length = f.bars.length
  · have attached := attach_of_aligned (i := a.indicator) h
    rw [offer_of_aligned h]
    by_cases mem : name ∈ a.indicator.fieldNames
    · have column : a.indicator.fieldNames[a.indicator.fieldNames.idxOf name]? = some name :=
        List.getElem?_idxOf mem
      rw [if_pos ⟨h, mem⟩, column?_of_attach attached a.shapes_points column]
      rfl
    · rw [if_neg fun fills => mem fills.2, column?_of_attach_of_notMem attached mem]
  · rw [offer_of_misaligned h, if_neg fun fills => h fills.1]

theorem pairwise_keys_offer {f : Frame} (h : (Keyed.keys f.columns).Pairwise (· < ·))
    (a : Addition) : (Keyed.keys (f.offer a).2.columns).Pairwise (· < ·) := by
  by_cases aligned : a.points.length = f.bars.length
  · rw [offer_of_aligned aligned, extended]
    exact Keyed.pairwise_keys_insertAll h _
  · rwa [offer_of_misaligned aligned]

/-! ## Any additions -/

variable (bars : List Bar) (as : List Addition)

theorem bars_offerAll : ((ofBars bars).offerAll as).bars = bars := by
  induction as using List.reverseRecOn with
  | nil => rfl
  | append_singleton as a ih => rw [offerAll_concat, bars_offer, ih]

theorem pairwise_keys_offerAll :
    (Keyed.keys ((ofBars bars).offerAll as).columns).Pairwise (· < ·) := by
  induction as using List.reverseRecOn with
  | nil => exact .nil
  | append_singleton as a ih =>
    rw [offerAll_concat]
    exact pairwise_keys_offer ih a

/-- Under a name a frame shows the column of the last addition that fills it. -/
theorem column?_offerAll (name : String) :
    ((ofBars bars).offerAll as).column? name =
      (Addition.holder bars.length name as).map fun a => a.column name := by
  induction as using List.reverseRecOn with
  | nil => rfl
  | append_singleton as a ih =>
    rw [offerAll_concat, column?_offer, bars_offerAll, Addition.holder_concat, ih]
    split <;> rfl

/-- A frame takes the points of an indicator if there is one for every bar, and is left as it is
otherwise. After any additions every column has a cell for every bar. The columns are those of the
indicators that were taken, and each shows what the last indicator that has it says where it is
valid. -/
theorem columns_offerAll :
    (∀ before a after, as = before ++ a :: after →
      ((((ofBars bars).offerAll before).offer a).1 = .ok () ↔ a.points.length = bars.length) ∧
        ∀ fault, (((ofBars bars).offerAll before).offer a).1 = .error fault →
          fault = .misaligned a.indicator a.points.length bars.length ∧
            (((ofBars bars).offerAll before).offer a).2 = (ofBars bars).offerAll before) ∧
    (∀ name cells, ((ofBars bars).offerAll as).column? name = some cells →
      cells.length = bars.length) ∧
    (Keyed.keys ((ofBars bars).offerAll as).columns).Pairwise (· < ·) ∧
    (∀ name, name ∈ Keyed.keys ((ofBars bars).offerAll as).columns ↔
      ∃ a ∈ as, a.points.length = bars.length ∧ name ∈ a.indicator.fieldNames) ∧
    ∀ before a after, as = before ++ a :: after → a.points.length = bars.length →
      ∀ (j : Nat) (name : String), a.indicator.fieldNames[j]? = some name →
      (∀ b ∈ after, b.points.length = bars.length → name ∉ b.indicator.fieldNames) →
      ∃ cells, ((ofBars bars).offerAll as).column? name = some cells ∧
        ∀ (k : Nat) (p : Point), a.points[k]? = some p →
          ∃ x : Float, p.reading.components[j]? = some x ∧
            cells[k]? = some (if p.valid then some x else none) := by
  refine ⟨?_, ?_, pairwise_keys_offerAll bars as, ?_, ?_⟩
  · rintro before a after -
    have same : ((ofBars bars).offerAll before).bars = bars := bars_offerAll bars before
    by_cases h : a.points.length = bars.length
    · rw [offer_of_aligned (h.trans (congrArg _ same.symm))]
      exact ⟨iff_of_true rfl h, fun fault refused => nomatch refused⟩
    · rw [offer_of_misaligned (same.symm ▸ h), same]
      refine ⟨iff_of_false (fun taken => nomatch taken) h, ?_⟩
      rintro fault ⟨⟩
      exact ⟨rfl, rfl⟩
  · intro name cells shown
    rw [column?_offerAll, Option.map_eq_some_iff] at shown
    obtain ⟨a, held, rfl⟩ := shown
    have mem := List.mem_of_getLast? held
    rw [List.mem_filter, decide_eq_true_eq] at mem
    exact Addition.length_column mem.2
  · intro name
    rw [Keyed.mem_keys_iff]
    show (((ofBars bars).offerAll as).column? name).isSome = true ↔
      ∃ a ∈ as, a.Fills bars.length name
    rw [column?_offerAll, Option.isSome_map, Addition.isSome_holder_iff]
  · rintro before a after rfl aligned j name column later
    have fills : a.Fills bars.length name := ⟨aligned, List.mem_of_getElem? column⟩
    have last : ∀ b ∈ after, ¬ b.Fills bars.length name := fun b hb h => later b hb h.1 h.2
    refine ⟨a.column name, ?_, fun k p hp => a.cell_column column hp⟩
    rw [column?_offerAll, Addition.holder_of_last fills last]
    rfl

/-- Of three indices of relative strength the last one has too few points for the frame, so the
column shows the second. The average that is added in between has a column of its own. -/
theorem columns_offerAll_replaced :
    let bars : List Bar := [⟨⟨0, 0⟩, 1, 2, 1, 2, 5⟩, ⟨⟨60, 0⟩, 2, 4, 2, 3, 5⟩,
      ⟨⟨120, 0⟩, 3, 9, 3, 9, 5⟩]
    let first : Addition := ⟨.rsi 1, .close, bars⟩
    let second : Addition := ⟨.rsi 2, .close, bars⟩
    let later : List Addition := [⟨.ema 2, .close, bars⟩, ⟨.rsi 1, .close, bars.take 2⟩]
    let f := (ofBars bars).offerAll (first :: second :: later)
    second.points.length = bars.length ∧ second.indicator.fieldNames[0]? = some "RSI" ∧
      (∀ b ∈ later, b.points.length = bars.length → "RSI" ∉ b.indicator.fieldNames) ∧
      ∃ cells, f.column? "RSI" = some cells ∧ cells.length = 3 ∧
        ∀ (k : Nat) (p : Point), second.points[k]? = some p → ∃ x : Float,
          p.reading.components[0]? = some x ∧
            cells[k]? = some (if p.valid then some x else none) := by
  intro bars first second later f
  have aligned : second.points.length = bars.length := by decide
  have column : second.indicator.fieldNames[0]? = some "RSI" := rfl
  have last : ∀ b ∈ later, b.points.length = bars.length → "RSI" ∉ b.indicator.fieldNames := by
    decide +kernel
  obtain ⟨-, lengths, -, -, shows⟩ := columns_offerAll bars (first :: second :: later)
  obtain ⟨cells, shown, row⟩ := shows [first] second later rfl aligned 0 "RSI" column last
  exact ⟨aligned, column, last, cells, shown, lengths "RSI" cells shown, row⟩

end Frame

end Stratagem
