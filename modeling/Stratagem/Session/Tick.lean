import Stratagem.Session.Run

/-!
# Ticks

A tick fetches the latest bars, goes on where the last tick paused or starts a new cycle at the
root, and gives the decisions made. If anything fails, the decisions of the tick are dropped and the
next tick starts a new cycle; variables that were set stay.
-/

namespace Stratagem

/-- What a tick led to. -/
structure Outcome where
  decisions : List Decision
  /-- The wait that the strategy is paused at; none if the cycle is complete. -/
  pausedAt : Option Path

/-- The result of a tick with the context and the feed after it. -/
structure Ticked (σ : Type) where
  result : Except StrategyError Outcome
  context : Context
  feed : σ

namespace Engine

variable {σ : Type}

/-- The instructions of a tick: the pending wait and what follows it, or the whole tree. -/
def runTree (engine : Engine) (feed : Feed σ) (tree : Node) : Exec σ Flow := do
  let bars ← Exec.fetch engine feed engine.historyBars
  Exec.updateContext fun c => c.install ⟨engine.symbol, engine.interval, bars⟩
  match (← get).context.suspension with
  | some s =>
    Exec.updateContext Context.wake
    Exec.resume engine feed tree s
  | none =>
    if engine.policy = .reset then Exec.updateContext Context.clearVariables
    Exec.exec engine feed tree []

/-- One tick of a strategy. -/
def tick (engine : Engine) (feed : Feed σ) (tree : Node) (context : Context) (state : σ) :
    Ticked σ :=
  let (flow, run) := (engine.runTree feed tree).run ⟨context, [], 0, [], state⟩
  match flow with
  | .ok .proceed => ⟨.ok ⟨run.decisions, none⟩, run.context, run.feed⟩
  | .ok (.pause path) => ⟨.ok ⟨run.decisions, some path⟩, run.context, run.feed⟩
  | .error e => ⟨.error e, run.context.wake, run.feed⟩

end Engine

end Stratagem
