import Stratagem.Market.Replay
import Stratagem.Session.Tick

/-!
# Backtests

A backtest runs a strategy once for every bar of a history, oldest first, in one session. A tick
that fails is noted and skipped.
-/

namespace Stratagem

/-- What a backtest led to. -/
structure Report where
  ticks : Nat
  decisions : List Decision
  /-- The ticks that failed, with the time of their bar. -/
  failures : List (Instant × StrategyError)
  /-- Whether the strategy was paused after the last tick. -/
  endedPaused : Bool

namespace Report

/-- The report of no ticks. -/
def empty : Report := ⟨0, [], [], false⟩

/-- The report with one more tick. -/
def add (r : Report) (time : Instant) (result : Except StrategyError Outcome) : Report :=
  match result with
  | .ok outcome =>
    { ticks := r.ticks + 1, decisions := r.decisions ++ outcome.decisions, failures := r.failures,
      endedPaused := outcome.pausedAt.isSome }
  | .error e =>
    { ticks := r.ticks + 1, decisions := r.decisions, failures := r.failures ++ [(time, e)],
      endedPaused := false }

end Report

namespace Engine

/-- Ticks from the current bar of a replay on, at most `budget` of them, added to a report. -/
def backtestFrom (engine : Engine) (tree : Node) :
    (budget : Nat) → Replay → Context → Report → Report × Replay
  | 0, replay, _, report => (report, replay)
  | budget + 1, replay, context, report =>
    match replay.current? with
    | none => (report, replay)
    | some bar =>
      let t := engine.tick Replay.feed tree context replay
      let report := report.add bar.time t.result
      match t.feed.next? with
      | none => (report, t.feed)
      | some next => engine.backtestFrom tree budget next t.context report

/-- The report of a strategy over a history, and the history at its last bar. -/
def backtest (engine : Engine) (tree : Node) (replay : Replay) : Report × Replay :=
  if replay.bars.isEmpty then (.empty, replay)
  else engine.backtestFrom tree replay.bars.length (replay.seek 0) .empty .empty

end Engine

end Stratagem
