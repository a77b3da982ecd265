import Stratagem.Failure
import Stratagem.Session.Context
import Stratagem.Session.Engine

/-!
# Runs

One run of a strategy within a tick. A run walks the tree of instructions from left to right and
changes its state: the context, the decisions so far, the number of instructions entered, the
indicators computed in this tick (`studies`), and the feed. An error ends the run; the state at that
point stays.

* `exec` runs an instruction and tells whether it ran through or paused at a wait.
* `resume` looks at the wait that the context was paused at. If it is over, `continueAfter` runs
  what follows it: the later children of every block on the way up. Conditions on the way are not
  evaluated again.
-/

namespace Stratagem

/-- The state of a run. -/
structure Run (σ : Type) where
  context : Context
  /-- The decisions so far, in order. -/
  decisions : List Decision
  /-- The number of instructions entered. -/
  steps : Nat
  /-- The points of the indicators that have been computed. -/
  studies : List ((Indicator × PriceSource) × List Point)
  feed : σ

/-- A step of a run: it may fail, and the state stays. -/
abbrev Exec (σ α : Type) := ExceptT StrategyError (StateM (Run σ)) α

/-- How an instruction ended. -/
inductive Flow
  | proceed
  | pause (path : Path)
  deriving DecidableEq, Repr

namespace Exec

variable {σ : Type}

/-- Changes the context. -/
def updateContext (f : Context → Context) : Exec σ Unit :=
  modify fun r => { r with context := f r.context }

/-- An error of the engine. -/
def refuse {α : Type} (fault : EngineFault) : Exec σ α := throw (.evaluation fault)

/-- The result of an expression, where an error ends the run. -/
def ofFormula {α : Type} (result : Except Fault α) : Exec σ α :=
  match result with
  | .ok v => pure v
  | .error fault => throw (.ofFault fault)

/-- The result of a trade, where an error ends the run. -/
def ofTrade {α : Type} (result : Except TradeFault α) : Exec σ α :=
  match result with
  | .ok v => pure v
  | .error fault => throw (.trade fault)

/-- The value of an expression. -/
def value (e : Expr) : Exec σ Value := do ofFormula (e.evaluate (← get).context.lookup)

/-- The truth value of a condition. -/
def condition (e : Expr) : Exec σ Bool := do ofFormula (e.evaluateBool (← get).context.lookup)

/-- The number that an expression stands for. -/
def number (e : Expr) : Exec σ Float := do ofFormula (e.evaluateNumber (← get).context.lookup)

/-- The number that an expression stands for, if there is one. -/
def optionalNumber : Option Expr → Exec σ (Option Float)
  | none => pure none
  | some e => do return some (← number e)

section

variable (engine : Engine)

/-- Counts an instruction. -/
def step : Exec σ Unit := do
  modify fun r => { r with steps := r.steps + 1 }
  if engine.maxSteps < (← get).steps then throw (.stepLimit engine.maxSteps)

variable (feed : Feed σ)

/-- The latest bars of the feed. -/
def fetch (count : Nat) : Exec σ (List Bar) := do
  let r ← get
  let answer := feed engine.symbol engine.interval count r.feed
  set { r with feed := answer.2 }
  match answer.1 with
  | .ok bars => return bars
  | .error e => refuse (.feed engine.symbol engine.interval e)

/-- The bars that an indicator is computed over: the snapshot, or as many as it needs if the
snapshot is too short by design. -/
def studyBars (i : Indicator) : Exec σ (List Bar) := do
  if engine.historyBars < i.minBars then fetch engine feed i.minBars
  else
    match (← get).context.snapshot with
    | some s => return s.bars
    | none => return []

/-- The points of an indicator, computed once in a tick. -/
def study (i : Indicator) (source : PriceSource) : Exec σ (List Point) := do
  match (← get).studies.lookup (i, source) with
  | some points => return points
  | none =>
    match i.compute source (← studyBars engine feed i) with
    | .error cause => throw (.ofShortage cause)
    | .ok points =>
      modify fun r => { r with studies := ((i, source), points) :: r.studies }
      return points

/-- Binds the values of an indicator at the latest bar. -/
def indicator (name : String) (params : Params) (target : String) : Exec σ Unit := do
  match Kind.ofName? name with
  | none => throw (.unknownIndicator name)
  | some kind =>
    match kind.configure params with
    | .error fault => refuse (.parameter name fault)
    | .ok i =>
      match currentPoint? (← study engine feed i params.source) with
      | none => refuse (.noCurrentValue i)
      | some point => updateContext fun c => c.bindAll (point.reading.bindings target)

end

/-- Makes a decision. -/
def order (o : Order) : Exec σ Unit := do
  match (← get).context.latestBar? with
  | none => throw (.trade .noMarketData)
  | some bar =>
    let side ← ofTrade (Side.ofWord o.side)
    let size ← number o.size
    let price ← optionalNumber o.price
    let stop ← optionalNumber o.stop
    let decision ← ofTrade (Decision.make o.symbol side size price stop bar.time)
    modify fun r => { r with decisions := r.decisions ++ [decision] }

/-- Pauses at a path. -/
def pause (path : Path) (pending : Pending) : Exec σ Flow := do
  updateContext fun c => c.suspend ⟨path, pending⟩
  return .pause path

/-- Begins a wait. A condition that holds is no reason to pause. -/
def enterWait (w : Wait) (path : Path) : Exec σ Flow := do
  match w with
  | .ticks count =>
    if 0 < count then pause path (.ticks count.toNat) else refuse (.waitTicks count)
  | .elapsed span =>
    if 0 < span.nanos then
      match (← get).context.latestBar? with
      | none => refuse .waitWithoutData
      | some bar =>
        match bar.time.addNanos? span.nanos.toNat with
        | none => refuse .deadlineOutOfRange
        | some time => pause path (.deadline time)
    else refuse (.waitElapsed span)
  | .condition e =>
    if ← condition e then return .proceed else pause path .condition

section

variable (engine : Engine) (feed : Feed σ)

mutual
/-- Runs an instruction. -/
def exec : Node → Path → Exec σ Flow
  | .block children, path => do
    step engine
    execFrom children 0 path
  | .branch e yes no, path => do
    step engine
    if ← condition e then exec yes path.yes else execOptional no path.no
  | .indicator name params target, _ => do
    step engine
    indicator engine feed name params target
    return .proceed
  | .assign target e, _ => do
    step engine
    let v ← value e
    updateContext fun c => c.bind target v
    return .proceed
  | .order o, _ => do
    step engine
    order o
    return .proceed
  | .wait w, path => do
    step engine
    enterWait w path

/-- Runs children of a block, the first of which has a given index, up to a pause. -/
def execFrom : List Node → (index : Nat) → Path → Exec σ Flow
  | [], _, _ => return .proceed
  | n :: ns, index, path => do
    match ← exec n (path.child index) with
    | .pause p => return .pause p
    | .proceed => execFrom ns (index + 1) path

/-- Runs a side of a branch that may be missing. -/
def execOptional : Option Node → Path → Exec σ Flow
  | none, _ => return .proceed
  | some n, path => exec n path
end

/-- Runs what follows the instruction at the end of a path: `rest` leads to it from `node`, which
stands at `path`. -/
def continueAfter : (rest : Path) → (node : Node) → (path : Path) → Exec σ Flow
  | [], _, _ => return .proceed
  | .child i :: rest, .block children, path =>
    match children[i]? with
    | none => refuse (.stalePath path)
    | some n => do
      match ← continueAfter rest n (path.child i) with
      | .pause p => return .pause p
      | .proceed => execFrom engine feed (children.drop (i + 1)) (i + 1) path
  | .yes :: rest, .branch _ yes _, path => continueAfter rest yes path.yes
  | .no :: rest, .branch _ _ no, path =>
    match no with
    | none => refuse (.stalePath path)
    | some n => continueAfter rest n path.no
  | _, _, path => refuse (.stalePath path)

/-- What is left of a wait at a further tick, or nothing if it is over. -/
def stillPending (w : Wait) (s : Suspension) : Exec σ (Option Pending) := do
  match s.pending with
  | .ticks remaining => return if 1 < remaining then some (.ticks (remaining - 1)) else none
  | .deadline time =>
    match (← get).context.latestBar? with
    | some bar => return if time ≤ bar.time then none else some (.deadline time)
    | none => return some (.deadline time)
  | .condition =>
    match w with
    | .condition e => return if ← condition e then none else some .condition
    | _ => refuse (.noCondition s.path)

/-- Goes on with a tree that was paused at a wait. -/
def resume (tree : Node) (s : Suspension) : Exec σ Flow := do
  match tree.at? s.path with
  | some (.wait w) =>
    step engine
    match ← stillPending w s with
    | some pending => pause s.path pending
    | none => continueAfter engine feed s.path tree []
  | _ => refuse (.notAWait s.path)

end

end Exec

end Stratagem
