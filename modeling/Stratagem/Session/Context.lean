import Stratagem.Formula.Value
import Stratagem.Keyed
import Stratagem.Market.Bar
import Stratagem.Plan.Path

/-!
# Contexts

What a session remembers from one tick to the next: the variables, the latest bars (`Snapshot`),
and, while it is paused, the wait it is paused at (`Suspension`). Expressions read variables through
`Context.lookup`, which also gives the fields of the latest bar, unless a variable hides them.
-/

namespace Stratagem

/-- The latest bars of a market, oldest first. -/
structure Snapshot where
  symbol : String
  interval : String
  bars : List Bar

/-- What is left of a wait. -/
inductive Pending
  | ticks (remaining : Nat)
  | deadline (time : Instant)
  | condition
  deriving DecidableEq, Repr

/-- A wait that a session is paused at. -/
structure Suspension where
  path : Path
  pending : Pending
  deriving DecidableEq, Repr

/-- The memory of a session. -/
structure Context where
  vars : Keyed Value
  snapshot : Option Snapshot
  suspension : Option Suspension

namespace Context

/-- The context of a new session. -/
def empty : Context := ⟨[], none, none⟩

/-- The latest bar. -/
def latestBar? (c : Context) : Option Bar := c.snapshot.bind fun s => s.bars.getLast?

/-- The value of a name in expressions. -/
def lookup (c : Context) (name : String) : Option Value :=
  match Keyed.find? name c.vars with
  | some v => some v
  | none => (c.latestBar?.bind fun b => b.field? name).map .number

/-- The context with a variable set. -/
def bind (c : Context) (name : String) (v : Value) : Context :=
  { c with vars := c.vars.insert name v }

/-- The context with several variables set to numbers. -/
def bindAll (c : Context) (numbers : List (String × Float)) : Context :=
  numbers.foldl (fun c p => c.bind p.1 (.number p.2)) c

/-- The context without variables. -/
def clearVariables (c : Context) : Context := { c with vars := [] }

/-- The context paused at a wait. -/
def suspend (c : Context) (s : Suspension) : Context := { c with suspension := some s }

/-- The context that is not paused. -/
def wake (c : Context) : Context := { c with suspension := none }

/-- The context with other latest bars. -/
def install (c : Context) (s : Snapshot) : Context := { c with snapshot := some s }

end Context

end Stratagem
