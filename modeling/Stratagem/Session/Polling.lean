import Stratagem.Session.Tick

/-!
# Polling

Running a strategy against a feed that moves by itself. Each poll asks the feed for its latest bar
and runs the strategy only if that bar is newer than the one seen before. Between polls the session
pauses. Decisions are recorded as they are made; a record that fails ends the session, while a feed
or a tick that fails only costs the poll.
-/

namespace Stratagem

/-- What a session works with: a feed, a pause, and a log of decisions, over one state. -/
structure Desk (σ : Type) where
  feed : Feed σ
  pause : σ → σ
  record : Decision → σ → Except Failure Unit × σ
  flush : σ → Except Failure Unit × σ

/-- Where a polling session stands. -/
structure Polling where
  /-- The number of polls so far. -/
  done : Nat
  /-- The time of the newest bar that the strategy has run on. -/
  lastSeen : Option Instant
  context : Context

namespace Polling

/-- A session before its first poll. -/
def start : Polling := ⟨0, none, .empty⟩

/-- Whether a bar is no newer than the one seen before. -/
def isStale (p : Polling) (latest : Option Instant) : Bool :=
  match latest, p.lastSeen with
  | some t, some seen => t ≤ seen
  | _, _ => false

end Polling

namespace Desk

variable {σ : Type}

/-- Records decisions one after the other and flushes the log. -/
def recordAll (desk : Desk σ) : List Decision → σ → Except Failure Unit × σ
  | [], s => desk.flush s
  | d :: ds, s =>
    match desk.record d s with
    | (.error e, s) => (.error e, s)
    | (.ok (), s) => desk.recordAll ds s

/-- Runs the strategy in a poll that found a new bar. -/
def runStrategy (desk : Desk σ) (engine : Engine) (tree : Node) (p : Polling) (s : σ) :
    Except Failure Polling × σ :=
  let t := engine.tick desk.feed tree p.context s
  let p := { p with context := t.context }
  match t.result with
  | .error _ => (.ok p, t.feed)
  | .ok outcome =>
    match desk.recordAll outcome.decisions t.feed with
    | (.ok (), s) => (.ok p, s)
    | (.error e, s) => (.error e, s)

/-- One poll. -/
def poll (desk : Desk σ) (engine : Engine) (tree : Node) (p : Polling) (s : σ) :
    Except Failure Polling × σ :=
  let s := if 0 < p.done then desk.pause s else s
  let p := { p with done := p.done + 1 }
  match desk.feed engine.symbol engine.interval 1 s with
  | (.error _, s) => (.ok p, s)
  | (.ok bars, s) =>
    let latest := bars.getLast?.map Bar.time
    if p.isStale latest then (.ok p, s)
    else desk.runStrategy engine tree { p with lastSeen := latest.or p.lastSeen } s

/-- A number of polls. -/
def polls (desk : Desk σ) (engine : Engine) (tree : Node) :
    (limit : Nat) → Polling → σ → Except Failure Polling × σ
  | 0, p, s => (.ok p, s)
  | limit + 1, p, s =>
    match desk.poll engine tree p s with
    | (.ok p, s) => desk.polls engine tree limit p s
    | (.error e, s) => (.error e, s)

/-- A session of a number of polls; its result is their number. -/
def run (desk : Desk σ) (engine : Engine) (tree : Node) (limit : Nat) (s : σ) :
    Except Failure Nat × σ :=
  match desk.polls engine tree limit .start s with
  | (.ok p, s) => (.ok p.done, s)
  | (.error e, s) => (.error e, s)

end Desk

end Stratagem
