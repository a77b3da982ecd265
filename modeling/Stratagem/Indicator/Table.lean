import Stratagem.Decimal.Layout
import Stratagem.Indicator.Frame
import Stratagem.Market.Feed
import Stratagem.Time.Stamp

/-!
# Tables

A frame as lines of text with commas between the cells: the time and the closing price of every bar,
then the columns in the order of their names. Cells have six decimal places and are empty where an
indicator is not valid. Neither names nor numbers hold commas, so nothing is quoted.
-/

namespace Stratagem

namespace Frame

/-- The number of decimal places of a cell. -/
def cellPlaces : Nat := 6

/-- A line of a table. -/
def line (cells : List String) : String := ",".intercalate cells ++ "\n"

/-- A cell of a column. -/
def cellText : Option Float → String
  | some x => Decimal.fixed cellPlaces x
  | none => ""

/-- The names of the columns of the table. -/
def header (f : Frame) : List String := "timestamp" :: "close" :: f.columns.map Prod.fst

/-- The cells of a bar and of the columns next to it. -/
def row (bar : Bar) (cells : List (Option Float)) : List String :=
  bar.time.offsetStamp :: Decimal.plain bar.close :: cells.map cellText

/-- The rows of bars next to columns. -/
def rows : List Bar → List (List (Option Float)) → List (List String)
  | [], _ => []
  | bar :: bars, columns =>
    row bar (columns.map fun c => c.head?.join) :: rows bars (columns.map List.tail)

/-- The table of a frame with its last rows, or all if no number is given. -/
def table (f : Frame) (tail : Option Nat) : String :=
  let all := rows f.bars (f.columns.map Prod.snd)
  let shown :=
    match tail with
    | some n => lastOf n all
    | none => all
  line f.header ++ String.join (shown.map line)

end Frame

end Stratagem
