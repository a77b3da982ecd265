import Stratagem.Proofs.Indicator.Shown

/-!
# What an indicator binds

The names that an indicator is known to bind before it is computed (`Kind.boundNames`) are those
that its points bind (`Kind.Shapes.names_bindings`): every point of an indicator has a reading of
the shape that belongs to its family (`Indicator.shapes_series`). A reading of that shape has a
component for every column of the indicator (`Indicator.length_components`).
-/

namespace Stratagem

variable {α : Type}

namespace Kind

/-- The readings of a family. -/
inductive Shapes : Kind → Reading α → Prop
  | atr (x : α) : Shapes .atr (.single x)
  | ema (x : α) : Shapes .ema (.single x)
  | rsi (x : α) : Shapes .rsi (.single x)
  | vwap (x : α) : Shapes .vwap (.single x)
  | macd (line signal histogram : α) : Shapes .macd (.macd line signal histogram)
  | bollinger (upper middle lower : α) : Shapes .bollinger (.bands upper middle lower)

/-- A reading of a family binds the names that the family binds. -/
theorem Shapes.names_bindings {k : Kind} {r : Reading α} (h : k.Shapes r) (target : String) :
    (r.bindings target).map Prod.fst = k.boundNames target := by
  cases h <;> simp [Reading.bindings, boundNames, endings]

end Kind

namespace Indicator

/-- A reading of the family of an indicator has a component for every column. -/
theorem length_components {i : Indicator} {r : Reading α} (h : i.kind.Shapes r) :
    r.components.length = i.fieldNames.length := by
  cases i <;> cases h <;> rfl

variable [Scalar α]

theorem shapes_after (i : Indicator) (source : PriceSource) (bar : Bar α) (seen : List (Bar α)) :
    i.kind.Shapes (i.after source bar seen).reading := by
  cases i with
  | ema period => exact .ema _
  | rsi period => exact .rsi _
  | atr period => exact .atr _
  | vwap span => exact .vwap _
  | macd fast slow signal => exact .macd _ _ _
  | bollinger period hundredths =>
    simp only [after, bollingerAfter]
    split <;> exact .bollinger _ _ _

/-- The points of an indicator have readings of its family. -/
theorem shapes_series (i : Indicator) (source : PriceSource) (bars : List (Bar α)) :
    ∀ p ∈ i.series source bars, i.kind.Shapes p.reading := by
  intro p hp
  obtain ⟨n, h⟩ := List.getElem?_of_mem hp
  obtain ⟨-, bar, -, rfl⟩ := point_of_series h
  exact i.shapes_after source bar _

/-- The points that an indicator is computed to have readings of its family. -/
theorem shapes_compute {i : Indicator} {source : PriceSource} {bars : List (Bar α)}
    {points : List (Point α)} (h : i.compute source bars = .ok points) :
    ∀ p ∈ points, i.kind.Shapes p.reading := by
  unfold compute at h
  split at h
  · cases h
  · split at h
    · cases h
    · cases h
      exact i.shapes_series source bars

end Indicator

/-- The current point of a configured indicator has a reading of the family. -/
theorem Kind.shapes_current {k : Kind} {p : Params} {i : Indicator}
    (configured : k.configure p = .ok i) {points : List (Point α)}
    (shapes : ∀ point ∈ points, i.kind.Shapes point.reading) {point : Point α}
    (current : currentPoint? points = some point) : k.Shapes point.reading := by
  have last : points.getLast? = some point := (Option.filter_eq_some_iff.1 current).1
  rw [← Kind.kind_configure configured]
  exact shapes point (List.mem_of_getLast? last)

end Stratagem
