import Stratagem.Market.Feed

/-!
# Replays

A replay is a feed over a stored history that shows the bars up to a cursor, as if they were
arriving one by one. The cursor stays inside the history: `seek` stops at the last bar and `advance`
refuses to pass it.
-/

namespace Stratagem

/-- A history of one market, oldest bar first, and the place of the newest bar that shows. -/
structure Replay where
  symbol : String
  interval : String
  bars : List Bar
  cursor : Nat

namespace Replay

/-- A history that shows its first bar. -/
def ofBars (symbol interval : String) (bars : List Bar) : Replay := ⟨symbol, interval, bars, 0⟩

/-- The replay moved to a place, or to the last bar if the place lies behind it. -/
def seek (r : Replay) (index : Nat) : Replay :=
  { r with cursor := min index (r.bars.length - 1) }

/-- The replay moved to the next bar, if there is one. -/
def next? (r : Replay) : Option Replay :=
  if r.cursor + 1 < r.bars.length then some { r with cursor := r.cursor + 1 } else none

/-- The replay at the next bar, or at the last one. -/
def advance (r : Replay) : Replay := r.next?.getD r

/-- The newest bar that shows. -/
def current? (r : Replay) : Option Bar := r.bars[r.cursor]?

/-- The bars that show. -/
def visible (r : Replay) : List Bar := r.bars.take (r.cursor + 1)

/-- The answer to a request. Symbols are compared without regard to case, intervals exactly. -/
def answer (r : Replay) (symbol interval : String) (count : Nat) : Except FeedError (List Bar) :=
  if Text.asciiLower symbol = Text.asciiLower r.symbol ∧ interval = r.interval then
    if r.bars.isEmpty then
      .error (.unavailable s!"no bars loaded for {r.symbol} {r.interval}")
    else .ok (lastOf count r.visible)
  else .error (.unknownSymbol symbol interval)

/-- The replay as a feed; requests do not move it. -/
def feed : Feed Replay := fun symbol interval count r => (r.answer symbol interval count, r)

end Replay

end Stratagem
