import Stratagem.Indicator.Point
import Stratagem.Indicator.Scan

/-!
# Indicators over a span

Bollinger bands and the volume-weighted average price. The bands and the rolling average are
computed from a slice for every bar; the cumulative average sums on from the first bar, and the
session average starts anew where the UTC day changes.
-/

namespace Stratagem

variable {α : Type} [Scalar α] {n : Nat}

/-! ## Bollinger bands -/

/-- The bands of a window of `period` prices: their mean, and that many standard deviations to
either side. -/
def bandsOf (period : Nat) (deviations : α) (window : List α) : Reading α :=
  let middle := Scalar.mean period window
  let squares := window.map fun x => (x - middle) * (x - middle)
  let deviation := Scalar.sqrt (Scalar.mean (period - 1) squares)
  .bands (middle + deviations * deviation) middle (middle - deviations * deviation)

/-- The bands at a place. -/
def bollingerAt (period : Nat) (deviations : α) (bars : Vector (Bar α) n) (prices : Vector α n)
    (i : Fin n) : Point α :=
  let valid := period - 1 ≤ i.val
  let bands :=
    if valid then bandsOf period deviations (slice prices (i.val + 1 - period) (i.val + 1))
    else .bands Scalar.zero Scalar.zero Scalar.zero
  ⟨(bars.get i).time, valid, bands⟩

/-- Bollinger bands, `hundredths` being a hundred times the number of standard deviations; with a
period below 2 they have no points. -/
def bollinger (period hundredths : Nat) (source : PriceSource) (bars : List (Bar α)) :
    List (Point α) :=
  if period < 2 then []
  else
    let places := placed bars
    let prices := Vector.ofFn fun i => (places.get i).price source
    let deviations := Scalar.ofNat hundredths / Scalar.ofNat 100
    (List.finRange bars.length).map (bollingerAt period deviations places prices)

/-! ## Volume-weighted average price -/

/-- The bars that a volume-weighted average is taken over. -/
inductive Span
  /-- All bars so far. -/
  | cumulative
  /-- The bars of the UTC day so far. -/
  | session
  /-- The last bars. -/
  | rolling (size : Nat)
  deriving DecidableEq, Repr

/-- A point from the weighted sum of prices and the sum of volumes. -/
def vwapPoint (time : Instant) (full : Bool) (weighted volume : α) : Point α :=
  let valid := full && Scalar.lt Scalar.zero volume
  ⟨time, valid, .single (if valid then weighted / volume else Scalar.zero)⟩

/-- The sum of weighted prices and that of volumes. -/
structure Turnover (α : Type) where
  weighted : α
  volume : α

/-- The sums before any bar. -/
def Turnover.empty : Turnover α := ⟨Scalar.zero, Scalar.zero⟩

/-- Whether a bar is the first of its UTC day, or the first of all. -/
def opensDay (bars : Vector (Bar α) n) (i : Fin n) : Bool :=
  match before? bars i with
  | none => true
  | some last => last.time.day != (bars.get i).time.day

/-- One place of the volume-weighted average. The sums of a window are taken anew for every bar, so
that nothing is left of a volume that has fallen out of it. -/
def vwapAt (span : Span) (bars : Vector (Bar α) n) (weighted : Vector α n) (s : Turnover α)
    (i : Fin n) : Turnover α × Point α :=
  match span with
  | .rolling size =>
    let start := i.val + 1 - size
    let volumes := (slice bars start (i.val + 1)).map Bar.volume
    (s, vwapPoint (bars.get i).time (size ≤ i.val + 1)
      (Scalar.sum (slice weighted start (i.val + 1))) (Scalar.sum volumes))
  | .cumulative | .session =>
    let s := if span = .session ∧ opensDay bars i then Turnover.empty else s
    let s : Turnover α := ⟨s.weighted + weighted.get i, s.volume + (bars.get i).volume⟩
    (s, vwapPoint (bars.get i).time true s.weighted s.volume)

/-- The volume-weighted average price; over a window of no bars it has no points. -/
def vwap (span : Span) (source : PriceSource) (bars : List (Bar α)) : List (Point α) :=
  if span = .rolling 0 then []
  else
    let places := placed bars
    let weighted := Vector.ofFn fun i => (places.get i).price source * (places.get i).volume
    sweep (vwapAt span places weighted) Turnover.empty

end Stratagem
