import Stratagem.Indicator.Average
import Stratagem.Indicator.Point

/-!
# Indicators of smoothed averages

The exponential average (`ema`), the difference of two of them with its own average (`macd`), the
relative strength index (`rsi`) and the average true range (`atr`).

* The exponential average is fed bar by bar.
* The line of `macd` is computed as a whole first. Its signal starts at one of its places with the
  mean of a slice of the line, and is smoothed from there on; before it is zero.
* The relative strength index goes through the pairs of neighbouring bars. It compares Wilder's
  averages of gains and losses; without losses it is 100.
* The true ranges are computed as a whole first. That of the first bar is its height.
-/

namespace Stratagem

variable {α : Type} [Scalar α] {n : Nat}

/-! ## Exponential averages -/

/-- One bar of the exponential average. -/
def emaStep (period : Nat) (source : PriceSource) (a : Average α) (bar : Bar α) :
    Average α × Point α :=
  let a := a.exponential period (bar.price source)
  (a, ⟨bar.time, period ≤ a.count, .single a.value⟩)

/-- The exponential average; without a period it has no points. -/
def ema (period : Nat) (source : PriceSource) (bars : List (Bar α)) : List (Point α) :=
  if period = 0 ∨ bars.isEmpty then []
  else scan (emaStep period source) (Average.empty Scalar.zero) bars

/-! ## The difference of two averages -/

/-- The difference of two exponential averages after each of some numbers. -/
def crossingLine (fast slow : Nat) (xs : List α) : List α :=
  List.zipWith (· - ·) (Average.values fast xs) (Average.values slow xs)

@[simp] theorem length_crossingLine (fast slow : Nat) (xs : List α) :
    (crossingLine fast slow xs).length = xs.length := by
  simp [crossingLine, Average.values, length_scan]

/-- One further place of a signal, which is written there. The state is what has been written and
what the signal comes to. -/
def signalStep (signal : Nat) (gaps : Vector α n) (s : Vector α n × α) (i : Fin n) :
    Vector α n × α :=
  let weight := Scalar.ofNat 2 / (Scalar.ofNat signal + Scalar.one)
  let value := gaps[i] * weight + s.2 * (Scalar.one - weight)
  (s.1.set i value, value)

/-- The signal of a line. It is zero before the place `complete`, where it is the mean of `signal`
values of the line, those from the place `first` on. -/
def signalLine (signal first complete : Nat) (gaps : Vector α n) : Vector α n :=
  let blank := Vector.replicate n Scalar.zero
  if h : complete < n then
    let seed := Scalar.mean signal (slice gaps first (complete + 1))
    let later := (List.finRange n).drop (complete + 1)
    (later.foldl (signalStep signal gaps) (blank.set complete seed, seed)).1
  else blank

/-- The line, its signal and their difference at every bar; the signal is valid from the place
`complete` on. -/
def crossing (fast slow signal complete : Nat) (source : PriceSource) (bars : List (Bar α)) :
    List (Point α) :=
  let gaps : Vector α bars.length :=
    ⟨(crossingLine fast slow (source.column bars)).toArray, by simp [PriceSource.column]⟩
  let shown := signalLine signal (max fast slow - 1) complete gaps
  let places := placed bars
  (List.finRange bars.length).map fun i =>
    ⟨places[i].time, complete ≤ i.val, .macd gaps[i] shown[i] (gaps[i] - shown[i])⟩

/-- The place at which the signal is complete. -/
def signalPlace (fast slow signal : Nat) : Nat := max fast slow - 1 + signal - 1

/-- The difference of two exponential averages, its average, and the difference of these; without
bars or without one of the periods it has no points. -/
def macd (fast slow signal : Nat) (source : PriceSource) (bars : List (Bar α)) : List (Point α) :=
  if bars.isEmpty ∨ fast = 0 ∨ slow = 0 ∨ signal = 0 then []
  else crossing fast slow signal (signalPlace fast slow signal) source bars

/-- The place at which the signal is complete, in words of 64 bits: none if the sum of the periods
on the way to it is no word. -/
def signalPlace? (fast slow signal : Nat) : Option Nat :=
  let sum := max fast slow - 1 + signal
  if sum < UInt64.size then some (sum - 1) else none

/-- The points of `macd` for periods that are words of 64 bits. There are none if the sum of the
periods overflows, which ends the program. -/
def macd? (fast slow signal : Nat) (source : PriceSource) (bars : List (Bar α)) :
    Option (List (Point α)) :=
  if bars.isEmpty ∨ fast = 0 ∨ slow = 0 ∨ signal = 0 then some []
  else (signalPlace? fast slow signal).map fun complete =>
    crossing fast slow signal complete source bars

/-! ## Relative strength -/

/-- A number moved into the range from 0 to 100. -/
def clampPercent (x : α) : α :=
  let x := if Scalar.lt x (Scalar.zero : α) then Scalar.zero else x
  if Scalar.lt (Scalar.ofNat 100) x then Scalar.ofNat 100 else x

/-- The relative strength index of an average gain and an average loss. -/
def relativeStrength (gain loss : α) : α :=
  if Scalar.isZero loss then Scalar.ofNat 100
  else Scalar.ofNat 100 - Scalar.ofNat 100 / (Scalar.one + gain / loss)

/-- The sums of the first gains and losses, and the averages of all. -/
structure Swings (α : Type) where
  sumGain : α
  sumLoss : α
  gain : α
  loss : α

/-- The sums and averages before any change. -/
def Swings.none : Swings α := ⟨Scalar.zero, Scalar.zero, Scalar.zero, Scalar.zero⟩

/-- A point that is not valid and shows zero. -/
def blankPoint (bar : Bar α) : Point α := ⟨bar.time, false, .single Scalar.zero⟩

/-- How far a change goes up. -/
def upward (change : α) : α := if Scalar.lt Scalar.zero change then change else Scalar.zero

/-- How far a change goes down. -/
def downward (change : α) : α := if Scalar.lt change Scalar.zero then -change else Scalar.zero

/-- One further change, with the number of changes before it. The first averages are the means of as
many changes as the period has. -/
def Swings.feed (period : Nat) (s : Swings α) (before : Nat) (change : α) : Swings α :=
  let gain := upward change
  let loss := downward change
  if before < period - 1 then
    { s with sumGain := s.sumGain + gain, sumLoss := s.sumLoss + loss }
  else if before = period - 1 then
    { s with
      gain := (s.sumGain + gain) / Scalar.ofNat period
      loss := (s.sumLoss + loss) / Scalar.ofNat period }
  else
    { s with
      gain := (s.gain * Scalar.ofNat (period - 1) + gain) / Scalar.ofNat period
      loss := (s.loss * Scalar.ofNat (period - 1) + loss) / Scalar.ofNat period }

/-- Two neighbouring bars of the relative strength index, with the number of pairs before them. -/
def rsiPair (period : Nat) (source : PriceSource) (s : Swings α) (pair : (Bar α × Bar α) × Nat) :
    Swings α × Point α :=
  let ((last, bar), before) := pair
  let s := s.feed period before (bar.price source - last.price source)
  let strength := clampPercent (relativeStrength s.gain s.loss)
  (s, if before < period - 1 then blankPoint bar else ⟨bar.time, true, .single strength⟩)

/-- The relative strength index; without a period no point is valid. -/
def rsi (period : Nat) (source : PriceSource) (bars : List (Bar α)) : List (Point α) :=
  match bars with
  | first :: second :: rest =>
    if period = 0 then bars.map blankPoint
    else
      let pairs := List.zip bars (second :: rest)
      blankPoint first :: scan (rsiPair period source) Swings.none pairs.zipIdx
  | _ => bars.map blankPoint

/-! ## Average true range -/

/-- The true range of every bar: the height of the first, and of a later one how far the price moved
since the close before. -/
def trueRanges (bars : Vector (Bar α) n) : Vector α n :=
  .ofFn fun i =>
    match before? bars i with
    | none => bars[i].high - bars[i].low
    | some last => bars[i].trueRange last.close

/-- One place of the average true range, whose state is the average. It starts with the mean of a
slice of the true ranges. -/
def atrAt (period : Nat) (bars : Vector (Bar α) n) (ranges : Vector α n) (average : α)
    (i : Fin n) : α × Point α :=
  let valid := period ≤ i.val + 1
  let average :=
    if i.val + 1 = period then Scalar.mean period (slice ranges 0 (i.val + 1))
    else if valid then
      (average * Scalar.ofNat (period - 1) + ranges[i]) / Scalar.ofNat period
    else average
  (average, ⟨bars[i].time, valid, .single (if valid then average else Scalar.zero)⟩)

/-- The average true range; without a period, or with fewer bars, it has no points. -/
def atr (period : Nat) (bars : List (Bar α)) : List (Point α) :=
  if bars.length < period ∨ period = 0 then []
  else
    let places := placed bars
    sweep (atrAt period places (trueRanges places)) Scalar.zero

end Stratagem
