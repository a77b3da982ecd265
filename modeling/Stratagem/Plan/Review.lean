import Stratagem.Plan.Node
import Stratagem.Trade.Decision

/-!
# Review

A strategy is reviewed before it runs, and every problem is reported: variables that are read
before they are bound, unknown indicators, parameters and trades that cannot be right, empty blocks
and branches without effect. Nothing is executed.

A branch starts from the names bound before it, and after it those names are bound that are bound on
either side. Issues are listed in the order of the document: those of an instruction, then those of
its parts.
-/

namespace Stratagem

/-- The classes of issues. -/
inductive Concern
  | unboundVariable
  | unknownIndicator
  | invalidParameter
  | invalidTrade
  | invalidNesting
  deriving DecidableEq, Repr

/-- What is wrong with an instruction. -/
inductive IssueCause
  | unbound (name : String)
  | unknownIndicator (name : String)
  | parameter (fault : ParameterFault)
  | waitTicks (count : Int)
  | waitElapsed (span : TimeSpan)
  | trade (fault : TradeFault)
  /-- A quantity is a constant that is not positive. -/
  | constantQuantity (quantity : Quantity) (value : Float)
  | emptyBlock
  /-- A branch that can do nothing but wait. -/
  | idleBranch

/-- A problem of a strategy, and the instruction that has it. -/
structure Issue where
  path : Path
  cause : IssueCause

namespace Concern

/-- The name of a class of issues. -/
def name : Concern → String
  | unboundVariable => "unbound variable"
  | unknownIndicator => "unknown indicator"
  | invalidParameter => "invalid parameter"
  | invalidTrade => "invalid trade"
  | invalidNesting => "invalid nesting"

end Concern

namespace IssueCause

/-- The class of an issue. -/
def concern : IssueCause → Concern
  | unbound _ => .unboundVariable
  | unknownIndicator _ => .unknownIndicator
  | parameter _ | waitTicks _ | waitElapsed _ => .invalidParameter
  | trade _ | constantQuantity _ _ => .invalidTrade
  | emptyBlock | idleBranch => .invalidNesting

/-- What is wrong, in words. -/
def describe : IssueCause → String
  | unbound name => s!"'{name}' is read before it is bound"
  | unknownIndicator name => s!"unknown indicator '{name}'"
  | parameter fault => fault.describe
  | waitTicks count => s!"wait bars must be positive, got {toString count}"
  | waitElapsed span =>
    s!"wait duration must be positive, got {toString (Wait.wholeSeconds span)}s"
  | trade fault => fault.describe
  | constantQuantity quantity value =>
    s!"{quantity.name} must be positive, got {Decimal.plain value}"
  | emptyBlock => "empty block"
  | idleBranch => "conditional whose only effect is a wait"

end IssueCause

namespace Issue

/-- An issue in messages. -/
def render (i : Issue) : String :=
  i.path.render ++ ": " ++ i.cause.concern.name ++ ": " ++ i.cause.describe

/-- A list of issues in messages. -/
def renderAll (issues : List Issue) : String :=
  toString issues.length ++ " issue(s)" ++
    String.join (issues.map fun i => "\n  " ++ i.render)

end Issue

namespace Review

/-- The names that are bound at some place. -/
abbrev Names := List String

/-- The variables of an expression that are not bound. -/
def reads (e : Expr) (path : Path) (bound : Names) : List Issue :=
  (e.vars.filter fun name => !bound.contains name).map fun name => ⟨path, .unbound name⟩

/-- A quantity of an order, which may be missing. -/
def quantity (q : Quantity) (e : Option Expr) (path : Path) (bound : Names) : List Issue :=
  match e with
  | none => []
  | some e =>
    reads e path bound ++
      match e.constant? with
      | some x => if x ≤ 0.0 then [⟨path, .constantQuantity q x⟩] else []
      | none => []

/-- The issues of an order. -/
def order (o : Order) (path : Path) (bound : Names) : List Issue :=
  (if Text.isBlankText o.symbol then [⟨path, .trade .emptySymbol⟩] else []) ++
    (match Side.ofWord o.side with
      | .ok _ => []
      | .error fault => [⟨path, .trade fault⟩]) ++
    quantity .size (some o.size) path bound ++ quantity .price o.price path bound ++
    quantity .stop o.stop path bound

/-- The issues of a wait. -/
def wait (w : Wait) (path : Path) (bound : Names) : List Issue :=
  match w with
  | .ticks count => if count ≤ 0 then [⟨path, .waitTicks count⟩] else []
  | .elapsed span => if span.nanos ≤ 0 then [⟨path, .waitElapsed span⟩] else []
  | .condition e => reads e path bound

/-- The issues of an indicator, and the names bound after it. -/
def indicator (name : String) (params : Params) (target : String) (path : Path) (bound : Names) :
    List Issue × Names :=
  match Kind.ofName? name with
  | none => ([⟨path, .unknownIndicator name⟩], target :: bound)
  | some kind =>
    let issues :=
      match kind.configure params with
      | .ok _ => []
      | .error fault => [⟨path, .parameter fault⟩]
    (issues, kind.boundNames target ++ bound)

mutual
/-- Whether an instruction consists of waits. -/
def onlyWaits : Node → Bool
  | .wait _ => true
  | .block children => !children.isEmpty && allOnlyWaits children
  | .branch _ _ _ | .indicator _ _ _ | .assign _ _ | .order _ => false

/-- Whether several instructions consist of waits. -/
def allOnlyWaits : List Node → Bool
  | [] => true
  | n :: ns => onlyWaits n && allOnlyWaits ns
end

mutual
/-- The issues of a tree at a place where some names are bound, and the names bound after it. -/
def node : Node → Path → Names → List Issue × Names
  | .block children, path, bound =>
    let r := nodes children 0 path bound
    ((if children.isEmpty then [⟨path, .emptyBlock⟩] else []) ++ r.1, r.2)
  | .branch condition yes no, path, bound =>
    let idle := onlyWaits yes && no.all onlyWaits
    let y := node yes path.yes bound
    let n := optionalNode no path.no bound
    (reads condition path bound ++ (if idle then [⟨path, .idleBranch⟩] else []) ++ y.1 ++ n.1,
      y.2.filter fun name => n.2.contains name)
  | .indicator name params target, path, bound => indicator name params target path bound
  | .assign target value, path, bound => (reads value path bound, target :: bound)
  | .order o, path, bound => (order o path bound, bound)
  | .wait w, path, bound => (wait w path bound, bound)

/-- The issues of children of a block, the first of which has a given index. -/
def nodes : List Node → (index : Nat) → Path → Names → List Issue × Names
  | [], _, _, bound => ([], bound)
  | n :: ns, index, path, bound =>
    let r := node n (path.child index) bound
    let rs := nodes ns (index + 1) path r.2
    (r.1 ++ rs.1, rs.2)

/-- The issues of a side of a branch that may be missing. -/
def optionalNode : Option Node → Path → Names → List Issue × Names
  | none, _, bound => ([], bound)
  | some n, path, bound => node n path bound
end

end Review

/-- The issues of a strategy. -/
def Node.review (tree : Node) : List Issue := (Review.node tree [] marketFields).1

end Stratagem
