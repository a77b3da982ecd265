import Stratagem.Formula.Expr
import Stratagem.Indicator.Kind
import Stratagem.Plan.Path
import Stratagem.Time.Instant

/-!
# Instructions

A strategy is a tree of instructions. Blocks and branches order the others; an indicator binds the
latest values of an indicator, an assignment the value of an expression, an order makes a trade
decision, and a wait suspends the run. Trees do not change; what a run remembers is in its context.
-/

namespace Stratagem

/-- What a suspended run waits for. -/
inductive Wait
  /-- A number of further ticks. -/
  | ticks (count : Int)
  /-- A span of time on the clock of the market. -/
  | elapsed (span : TimeSpan)
  /-- The first tick at which an expression holds. -/
  | condition (e : Expr)

/-- A trade as a strategy gives it. -/
structure Order where
  symbol : String
  side : String
  size : Expr
  price : Option Expr
  stop : Option Expr

/-- An instruction. -/
inductive Node
  | block (children : List Node)
  | branch (condition : Expr) (yes : Node) (no : Option Node)
  | indicator (name : String) (params : Params) (target : String)
  | assign (target : String) (value : Expr)
  | order (order : Order)
  | wait (wait : Wait)

/-- A strategy with its description. -/
structure Strategy where
  name : String
  description : String
  /-- The symbol that the strategy was written for. -/
  symbol : Option String
  interval : Option String
  definition : Node

namespace Wait

/-- The seconds of a span that are named to a user. -/
def wholeSeconds (span : TimeSpan) : Int := span.seconds

end Wait

namespace Node

/-- What an instruction is called. -/
def kindName : Node → String
  | block _ => "compound"
  | branch _ _ _ => "if"
  | indicator _ _ _ => "indicator"
  | assign _ _ => "operation"
  | order _ => "trade"
  | wait _ => "wait"

/-- The instruction at the end of a step. -/
def step? : Node → Segment → Option Node
  | block children, .child i => children[i]?
  | branch _ yes _, .yes => some yes
  | branch _ _ no, .no => no
  | _, _ => none

/-- The instruction at the end of a path. -/
def at? (n : Node) : Path → Option Node
  | [] => some n
  | s :: rest => (n.step? s).bind fun m => m.at? rest

mutual
/-- The number of instructions of a tree. -/
def count : Node → Nat
  | block children => 1 + countAll children
  | branch _ yes no => 1 + count yes + countOptional no
  | indicator _ _ _ | assign _ _ | order _ | wait _ => 1

/-- The number of instructions of several trees. -/
def countAll : List Node → Nat
  | [] => 0
  | n :: ns => count n + countAll ns

/-- The number of instructions of a tree that may be missing. -/
def countOptional : Option Node → Nat
  | none => 0
  | some n => count n
end

end Node

end Stratagem
