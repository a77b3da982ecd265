import Stratagem.Market.Bar

/-!
# Feeds

A feed answers requests for the latest bars of a symbol at an interval, oldest first, or says why it
cannot. A feed may change between requests, so it takes a state and gives it back.
-/

namespace Stratagem

/-- Why a feed gives no bars. -/
inductive FeedError
  | network (reason : String)
  | auth (reason : String)
  | timeout (seconds : Nat)
  | unknownSymbol (symbol interval : String)
  | malformed (reason : String)
  | unavailable (reason : String)
  deriving DecidableEq, Repr

/-- Answers a request for a number of the latest bars. -/
abbrev Feed (σ : Type) :=
  (symbol interval : String) → (count : Nat) → σ → Except FeedError (List Bar) × σ

namespace FeedError

/-- Why there are no bars, in words. -/
def describe : FeedError → String
  | network reason => s!"network error: {reason}"
  | auth reason => s!"authentication failed: {reason}"
  | timeout seconds => s!"request timed out after {toString seconds}s"
  | unknownSymbol symbol interval => s!"unknown symbol '{symbol}' at interval '{interval}'"
  | malformed reason => s!"malformed data: {reason}"
  | unavailable reason => s!"no data available: {reason}"

end FeedError

/-- The last elements of a list, up to a given number. -/
def lastOf {α : Type} (count : Nat) (xs : List α) : List α := xs.drop (xs.length - count)

end Stratagem
