import Stratagem.Proofs.Indicator.Shown

/-!
# Times of points

An indicator stamps every point with the time of its bar (`times_series`), so the point that a
strategy binds carries the time of the last bar that the indicator was computed over
(`time_currentPoint?`).
-/

namespace Stratagem

variable {α : Type}

/-- The time of the last of some bars. -/
def lastTime (bars : List (Bar α)) : Option Instant := bars.getLast?.map Bar.time

namespace Indicator

variable [Scalar α]

/-- An indicator has no points, or it has one for every bar, stamped with the time of the bar. -/
theorem times_series (i : Indicator) (source : PriceSource) (bars : List (Bar α)) :
    i.series source bars = [] ∨ (i.series source bars).map Point.time = bars.map Bar.time := by
  refine (i.series_cases source bars).imp_right fun shown => List.ext_getElem? fun n => ?_
  rw [shown, List.getElem?_map, getElem?_along, List.getElem?_map, Option.map_map]
  exact congrArg (Option.map · _) (funext fun bar => i.time_after source bar _)

/-- The current point of an indicator carries the time of the last bar. -/
theorem time_currentPoint? {i : Indicator} {source : PriceSource} {bars : List (Bar α)}
    {points : List (Point α)} {point : Point α} (made : i.compute source bars = .ok points)
    (current : currentPoint? points = some point) : lastTime bars = some point.time := by
  have last : points.getLast? = some point := (Option.filter_eq_some_iff.1 current).1
  unfold compute at made
  split at made
  · cases made
  · split at made
    · cases made
    · cases made
      rcases i.times_series source bars with none | times
      · rw [none] at last
        cases last
      · rw [lastTime, ← List.getLast?_map, ← times, List.getLast?_map, last, Option.map_some]

end Indicator

end Stratagem
