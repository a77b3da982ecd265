import Mathlib.Data.List.Forall2
import Stratagem.Indicator.Frame
import Stratagem.Proofs.Indicator.Bindings
import Stratagem.Proofs.Indicator.Warmup
import Stratagem.Proofs.Keyed

/-!
# Columns and current points

A frame shows an indicator at every bar of a history at once. A session looks at one bar after the
other and reads the last point over the bars up to it (`Indicator.current?`). Both see the same
(`Frame.Shows.row`).

* Over the first bars the current point is the point of the last of them in the series over all
  bars, if it is valid (`current?_take`): fewer bars than the indicator needs have no valid point
  there either.
* A row has the components of a point in the columns of the indicator (`Shows.cell?_eq`), which a
  session binds in another order. `Indicator.boundColumns` pairs the two.
-/

namespace Stratagem

namespace Indicator

section

variable {α : Type} [Scalar α] {i : Indicator}

/-- The current point of an indicator over bars; none if they are too few, or if the last point is
not valid. -/
def current? (i : Indicator) (source : PriceSource) (bars : List (Bar α)) : Option (Point α) :=
  (i.compute source bars).toOption.bind currentPoint?

/-- The current point over the first bars is a point of the series over all bars. -/
theorem current?_take (sound : i.Sound) {source : PriceSource} {bars : List (Bar α)}
    (enough : i.minBars ≤ bars.length) {n : Nat} {p : Point α}
    (row : (i.series source bars)[n]? = some p) :
    i.current? source (bars.take (n + 1)) = if p.valid then some p else none := by
  have within : n < bars.length := by
    rw [← length_series sound source enough]
    exact (List.getElem?_eq_some_iff.1 row).1
  have length : (bars.take (n + 1)).length = n + 1 := List.length_take_of_le within
  unfold current?
  by_cases warm : i.minBars ≤ n + 1
  · have last : (i.series source (bars.take (n + 1))).getLast? = some p := by
      rw [series_take sound source warm within, List.take_add_one, row]
      exact List.getLast?_concat
    rw [compute_of_enough sound (length.symm ▸ warm)]
    simp only [Except.toOption, Option.bind_some, currentPoint?, last, Option.filter_some]
  · have invalid : ¬ p.valid = true := by
      intro valid
      have ready := ((valid_series sound row).1 valid).1
      rw [length] at ready
      exact warm ready
    rw [compute_of_few sound (by omega), if_neg invalid]
    rfl

end

/-- The endings of the names that an indicator binds, each with the column of the same value. -/
def boundColumns : Indicator → List (String × String)
  | ema n => [("", s!"EMA_{toString n}")]
  | rsi _ => [("", "RSI")]
  | atr _ => [("", "ATR")]
  | vwap _ => [("", "VWAP")]
  | macd _ _ _ => [("", "MACD"), ("_signal", "MACD_Signal"), ("_histogram", "MACD_Histogram")]
  | bollinger _ _ => [("", "Middle_Band"), ("_upper", "Upper_Band"), ("_lower", "Lower_Band"),
      ("_middle", "Middle_Band")]

theorem nodup_fieldNames (i : Indicator) : i.fieldNames.Nodup := by
  cases i <;> simp [fieldNames]

/-- A value that is bound under a name is the component that its column shows. -/
theorem bindings_components {i : Indicator} {r : Reading} (h : i.kind.Shapes r) (target : String) :
    List.Forall₂ (fun (x : String × String) (b : String × Float) => b.1 = target ++ x.1 ∧
        ∃ k : Nat, i.fieldNames[k]? = some x.2 ∧ r.components[k]? = some b.2)
      i.boundColumns (r.bindings target) := by
  cases i with
  | macd fast slow signal =>
    cases h with
    | macd line signal histogram =>
      exact .cons ⟨by simp, 0, rfl, rfl⟩ (.cons ⟨rfl, 1, rfl, rfl⟩ (.cons ⟨rfl, 2, rfl, rfl⟩ .nil))
  | bollinger period hundredths =>
    cases h with
    | bollinger upper middle lower =>
      exact .cons ⟨by simp, 2, rfl, rfl⟩ (.cons ⟨rfl, 0, rfl, rfl⟩
        (.cons ⟨rfl, 1, rfl, rfl⟩ (.cons ⟨rfl, 2, rfl, rfl⟩ .nil)))
  | _ =>
    cases h
    exact .cons ⟨by simp, 0, rfl, rfl⟩ .nil

end Indicator

namespace Frame

/-- The cell of a column at a bar. -/
def cell? (f : Frame) (name : String) (n : Nat) : Option Float :=
  (f.column? name).bind fun cells => cells[n]?.join

/-- No column has a value at a bar. -/
def EmptyAt (f : Frame) (n : Nat) : Prop := ∀ name, f.cell? name n = none

/-! ## Columns of one indicator -/

/-- The cells of one component of an indicator. -/
def cells (points : List Point) (component : Nat) : List (Option Float) :=
  points.map fun p => if p.valid then p.reading.components[component]? else none

theorem getElem?_pushCells (valid : Bool) {columns : List (List (Option Float))} {xs : List Float}
    (each : xs.length = columns.length) (k : Nat) :
    (pushCells valid columns xs)[k]? =
      columns[k]?.map fun cells => cells ++ [if valid then xs[k]? else none] := by
  induction columns generalizing xs k with
  | nil =>
    obtain rfl := List.length_eq_zero_iff.1 each
    rfl
  | cons cells columns ih =>
    cases xs with
    | nil => cases each
    | cons x xs =>
      cases k with
      | zero => rfl
      | succ k => exact ih (Nat.succ.inj each) k

theorem length_pushCells (valid : Bool) {columns : List (List (Option Float))} {xs : List Float}
    (each : xs.length = columns.length) : (pushCells valid columns xs).length = columns.length := by
  induction columns generalizing xs with
  | nil =>
    obtain rfl := List.length_eq_zero_iff.1 each
    rfl
  | cons cells columns ih =>
    cases xs with
    | nil => cases each
    | cons x xs => exact congrArg Nat.succ (ih (Nat.succ.inj each))

/-- Point by point, every column gets the cells of its component. -/
theorem getElem?_columnsOf {points : List Point} {width : Nat}
    (each : ∀ p ∈ points, p.reading.components.length = width) {k : Nat} (h : k < width) :
    (columnsOf width points)[k]? = some (cells points k) := by
  -- The columns that are there before a point are extended, whatever they hold.
  suffices ∀ columns : List (List (Option Float)), columns.length = width →
      (points.foldl (fun columns p => pushCells p.valid columns p.reading.components) columns)[k]? =
        columns[k]?.map fun before => before ++ cells points k by
    rw [columnsOf, this _ List.length_replicate, List.getElem?_replicate_of_lt h]
    rfl
  induction points with
  | nil =>
    intro columns _
    simp [cells]
  | cons p points ih =>
    intro columns length
    obtain ⟨first, later⟩ := List.forall_mem_cons.1 each
    have own : p.reading.components.length = columns.length := first.trans length.symm
    have next := ih later (pushCells p.valid columns p.reading.components)
      ((length_pushCells p.valid own).trans length)
    rw [List.foldl_cons, next, getElem?_pushCells p.valid own, Option.map_map]
    simp [cells, Function.comp_def]

/-- Columns that are put under their names are set in the columns that there are. -/
theorem run_setColumns (writes : List (String × List (Option Float))) (f : Frame) :
    (setColumns writes).run.run f = (.ok (), { f with columns := f.columns.insertAll writes }) := by
  induction writes generalizing f with
  | nil => rfl
  | cons w later ih => exact ih { f with columns := Keyed.insert w.1 w.2 f.columns }

/-- The frame with the columns of an indicator in it. -/
def extended (f : Frame) (i : Indicator) (points : List Point) : Frame :=
  let columns := columnsOf i.fieldNames.length points
  { f with columns := f.columns.insertAll (i.fieldNames.zip columns) }

section

variable {f g : Frame} {i : Indicator} {points : List Point}

/-- The points are counted before any column is put in, so a frame that refuses them stays as it
was. -/
theorem run_augment (f : Frame) (i : Indicator) (points : List Point) :
    (augment i points).run.run f =
      if points.length ≠ f.bars.length then
        (.error (.misaligned i points.length f.bars.length), f)
      else (.ok (), f.extended i points) := by
  rw [extended, ← run_setColumns]
  show (if points.length ≠ f.bars.length then _ else _ :
    ExceptT FrameFault (StateM Frame) Unit).run.run f = _
  split <;> rfl

theorem attach_of_aligned (aligned : points.length = f.bars.length) :
    f.attach i points = .ok (f.extended i points) := by
  rw [attach, run_augment, if_neg (not_not_intro aligned)]

theorem attach_of_misaligned (h : points.length ≠ f.bars.length) :
    f.attach i points = .error (.misaligned i points.length f.bars.length) := by
  rw [attach, run_augment, if_pos h]

theorem columns_of_attach (h : f.attach i points = .ok g) :
    g.columns =
      f.columns.insertAll (i.fieldNames.zip (columnsOf i.fieldNames.length points)) := by
  by_cases aligned : points.length = f.bars.length
  · rw [attach_of_aligned aligned] at h
    cases h
    rfl
  · rw [attach_of_misaligned aligned] at h
    cases h

/-- The columns of an indicator that has been added hold its components. -/
theorem column?_of_attach (h : f.attach i points = .ok g)
    (shapes : ∀ p ∈ points, i.kind.Shapes p.reading) {k : Nat} {name : String}
    (column : i.fieldNames[k]? = some name) : g.column? name = some (cells points k) := by
  have inside : k < i.fieldNames.length := (List.getElem?_eq_some_iff.1 column).1
  have each : ∀ p ∈ points, p.reading.components.length = i.fieldNames.length :=
    fun p hp => Indicator.length_components (shapes p hp)
  rw [column?, columns_of_attach h]
  exact Keyed.find?_insertAll_zip i.nodup_fieldNames column (getElem?_columnsOf each inside) _

/-- Columns of other names stay. -/
theorem column?_of_attach_of_notMem (h : f.attach i points = .ok g) {name : String}
    (other : name ∉ i.fieldNames) : g.column? name = f.column? name := by
  rw [column?, columns_of_attach h, Keyed.find?_insertAll_of_notMem other]
  rfl

end

/-- The frame shows the points of an indicator and nothing else. -/
structure Shows (f : Frame) (i : Indicator) (points : List Point) : Prop where
  attached : (ofBars f.bars).attach i points = .ok f
  shapes : ∀ p ∈ points, i.kind.Shapes p.reading

variable {f : Frame} {i : Indicator} {source : PriceSource} {bars : List Bar}

/-- Enough bars can be shown with an indicator. -/
theorem shows_ofIndicators (sound : i.Sound) (source : PriceSource)
    (enough : i.minBars ≤ bars.length) :
    ∃ f, ofIndicators bars [(i, source)] = .ok f ∧ f.bars = bars ∧
      f.Shows i (i.series source bars) := by
  have aligned : (i.series source bars).length = (ofBars bars).bars.length :=
    Indicator.length_series sound source enough
  have computed : i.compute source (ofBars bars).bars = .ok (i.series source bars) :=
    Indicator.compute_of_enough sound enough
  have attached := attach_of_aligned (i := i) aligned
  refine ⟨(ofBars bars).extended i (i.series source bars), ?_, rfl, attached,
    i.shapes_series source bars⟩
  rw [ofIndicators, attachAll, computed]
  show ((ofBars bars).attach i (i.series source bars) >>= fun f => f.attachAll []) = _
  rw [attached]
  rfl

theorem Shows.column?_isSome {points : List Point} (h : f.Shows i points) (name : String) :
    (f.column? name).isSome = true ↔ name ∈ i.fieldNames := by
  constructor
  · intro some
    by_contra other
    rw [column?_of_attach_of_notMem h.attached other] at some
    cases some
  · intro mem
    obtain ⟨j, hj⟩ := List.getElem?_of_mem mem
    rw [column?_of_attach h.attached h.shapes hj]
    rfl

/-- The cell of a column is the component of the point at the bar, if the point is valid. -/
theorem Shows.cell?_eq {points : List Point} (h : f.Shows i points) {n j : Nat} {name : String}
    {p : Point} (column : i.fieldNames[j]? = some name) (row : points[n]? = some p) :
    f.cell? name n = if p.valid then p.reading.components[j]? else none := by
  rw [cell?, column?_of_attach h.attached h.shapes column, Option.bind_some, cells,
    List.getElem?_map, row]
  rfl

/-- The row of a bar is empty if the point there is not valid, and only then. -/
theorem Shows.emptyAt_iff {points : List Point} (h : f.Shows i points) {n : Nat} {p : Point}
    (row : points[n]? = some p) (shape : i.kind.Shapes p.reading) :
    f.EmptyAt n ↔ p.valid = false := by
  constructor
  · intro empty
    have some_column : 0 < i.fieldNames.length := by cases i <;> simp [Indicator.fieldNames]
    have column := List.getElem?_eq_getElem some_column
    have cell := h.cell?_eq column row
    have component : 0 < p.reading.components.length := by
      rwa [Indicator.length_components shape]
    rw [empty, List.getElem?_eq_getElem component] at cell
    simpa using cell
  · intro invalid name
    by_cases mem : name ∈ i.fieldNames
    · obtain ⟨j, column⟩ := List.getElem?_of_mem mem
      rw [h.cell?_eq column row, invalid]
      rfl
    · have missing : f.column? name = none := by
        rw [← Option.not_isSome_iff_eq_none, h.column?_isSome]
        exact mem
      rw [cell?, missing]
      rfl

/-- The row of a bar is empty if the indicator has no current point over the bars up to it.
Otherwise the values that the point binds are those of the row. -/
theorem Shows.row (h : f.Shows i (i.series source bars)) (sound : i.Sound)
    (enough : i.minBars ≤ bars.length) {n : Nat} (within : n < bars.length) :
    (f.EmptyAt n ↔ i.current? source (bars.take (n + 1)) = none) ∧
      ∀ p, i.current? source (bars.take (n + 1)) = some p → ∀ target,
        List.Forall₂ (fun x b => b.1 = target ++ x.1 ∧ f.cell? x.2 n = some b.2)
          i.boundColumns (p.reading.bindings target) := by
  have inside : n < (i.series source bars).length := by
    rwa [Indicator.length_series sound source enough]
  obtain ⟨p, row⟩ : ∃ p, (i.series source bars)[n]? = some p :=
    ⟨_, List.getElem?_eq_getElem inside⟩
  have shape := i.shapes_series source bars p (List.mem_of_getElem? row)
  rw [h.emptyAt_iff row shape, Indicator.current?_take sound enough row]
  refine ⟨by simp, ?_⟩
  intro q current target
  split at current
  · rename_i valid
    cases current
    refine (Indicator.bindings_components shape target).imp ?_
    rintro x b ⟨name, k, column, component⟩
    refine ⟨name, ?_⟩
    rw [h.cell?_eq column row, if_pos valid, component]
  · cases current

end Frame

end Stratagem
