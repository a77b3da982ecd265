import Stratagem.Indicator.Basic
import Stratagem.Keyed

/-!
# Frames

Bars with columns of indicator values next to them. Every column has a cell for every bar, empty
where the indicator is not valid: `augment` refuses points of another number than the bars. A column
takes the place of an earlier one of its name.

A frame is changed in place. What is left of it by a step that fails is part of the step's result,
so that it is to be proved that there is nothing new in it.
-/

namespace Stratagem

/-- Bars and named columns. -/
structure Frame where
  bars : List Bar
  columns : Keyed (List (Option Float))

/-- Why a frame cannot be built. -/
inductive FrameFault
  | shortage (cause : Shortage)
  /-- The points of an indicator are not as many as the bars. -/
  | misaligned (indicator : Indicator) (points bars : Nat)

namespace Frame

/-- Bars without columns. -/
def ofBars (bars : List Bar) : Frame := ⟨bars, []⟩

/-- Columns with a further cell each, which is empty if a point is not valid. Columns that the point
has no value for stay as they are. -/
def pushCells (valid : Bool) :
    List (List (Option Float)) → List Float → List (List (Option Float))
  | cells :: columns, x :: xs =>
    (cells ++ [if valid then some x else none]) :: pushCells valid columns xs
  | columns, _ => columns

/-- The columns of points, filled point by point. -/
def columnsOf (width : Nat) (points : List Point) : List (List (Option Float)) :=
  points.foldl (fun columns p => pushCells p.valid columns p.reading.components)
    (List.replicate width [])

/-- Puts columns under their names, one after the other. -/
def setColumns : List (String × List (Option Float)) → ExceptT FrameFault (StateM Frame) Unit
  | [] => return
  | (name, cells) :: later => do
    modify fun f => { f with columns := Keyed.insert name cells f.columns }
    setColumns later

/-- Adds the columns of an indicator to the frame. -/
def augment (i : Indicator) (points : List Point) : ExceptT FrameFault (StateM Frame) Unit := do
  let bars := (← get).bars
  if points.length ≠ bars.length then
    throw (.misaligned i points.length bars.length)
  setColumns (i.fieldNames.zip (columnsOf i.fieldNames.length points))

/-- The frame with the columns of an indicator. -/
def attach (f : Frame) (i : Indicator) (points : List Point) : Except FrameFault Frame :=
  match (augment i points).run.run f with
  | (.ok (), g) => .ok g
  | (.error fault, _) => .error fault

/-- The frame with the columns of several indicators computed over its bars. -/
def attachAll (f : Frame) : List (Indicator × PriceSource) → Except FrameFault Frame
  | [] => .ok f
  | (i, source) :: rest => do
    let points ← (i.compute source f.bars).mapError .shortage
    let f ← f.attach i points
    f.attachAll rest

/-- Bars with the columns of several indicators. -/
def ofIndicators (bars : List Bar) (indicators : List (Indicator × PriceSource)) :
    Except FrameFault Frame :=
  (ofBars bars).attachAll indicators

/-- The column of a name. -/
def column? (f : Frame) (name : String) : Option (List (Option Float)) :=
  Keyed.find? name f.columns

/-- The cell of a column at the last bar. -/
def latest? (f : Frame) (name : String) : Option Float :=
  (f.column? name).bind fun cells => cells.getLast?.bind id

end Frame

end Stratagem
