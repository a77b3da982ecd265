import Stratagem.Text.Blank
import Stratagem.Text.Case

/-!
# Engines

The settings that a strategy runs under: the market it sees, how many bars of it, how many
instructions a tick may take, and whether variables outlive a cycle.
-/

namespace Stratagem

/-- Whether variables survive from one completed cycle to the next. -/
inductive Policy
  | persist
  | reset
  deriving DecidableEq, Repr

/-- The settings of a session. -/
structure Engine where
  symbol : String
  interval : String
  /-- The number of bars of the snapshot. -/
  historyBars : Nat
  /-- The most instructions that one tick may enter. -/
  maxSteps : Nat
  policy : Policy
  deriving DecidableEq, Repr

namespace Policy

/-- The name of a policy. -/
def name : Policy → String
  | persist => "persist"
  | reset => "reset"

/-- The policy that a word names, whatever its case. -/
def ofWord? (word : String) : Option Policy :=
  match Text.asciiLower (Text.trim word) with
  | "persist" => some persist
  | "reset" | "reset_each_cycle" => some reset
  | _ => none

/-- What is wrong with a word that names no policy. -/
def unknown (word : String) : String :=
  let w := Text.asciiLower (Text.trim word)
  s!"unknown context policy '{w}' (expected persist or reset)"

end Policy

namespace Engine

/-- The usual number of bars of the snapshot. -/
def defaultHistoryBars : Nat := 500

/-- The usual limit of instructions. -/
def defaultMaxSteps : Nat := 10000

/-- The usual settings for a market. -/
def ofMarket (symbol interval : String) : Engine :=
  { symbol, interval, historyBars := defaultHistoryBars, maxSteps := defaultMaxSteps,
    policy := .persist }

end Engine

end Stratagem
