import Stratagem.Proofs.Session.Writes

/-!
# What a failed tick leaves behind

A tick that fails drops its decisions and its place in the strategy. It keeps the bars that it got
and the variables that it set, up to the instruction that failed.

* `Engine.FailsAfter` lists the ways in which a tick fails that got its bars, with the instructions
  that it completed before: it does not get past the wait that the session is paused at, or an
  instruction fails in the run that the tick opens. There are no others (`failsAfter_of_tick`).
* `left_by_failure` says what is left then, and that the next tick starts at the root.
-/

namespace Stratagem

variable {σ : Type}

namespace Engine

variable (engine : Engine) (feed : Feed σ) (tree : Node)

/-- The variables that the instructions of a tick find first: those of the context, or none if a new
cycle starts and the engine resets them. -/
def opening (c : Context) : Keyed Value :=
  if c.suspension = none ∧ engine.policy = .reset then [] else c.vars

/-- A tick that starts in the context `c` and gets the given bars fails with an error, after it has
completed some instructions. -/
inductive FailsAfter (c : Context) (s : σ) (bars : List Bar) :
    List Exec.Deed → StrategyError → Prop
  /-- The session is paused at a place where no wait stands. -/
  | elsewhere {path : Path} {pending : Pending} (paused : c.suspension = some ⟨path, pending⟩)
      (elsewhere : ∀ w, tree.at? path ≠ some (.wait w)) :
      FailsAfter c s bars [] (.evaluation (.notAWait path))
  /-- The wait that the session is paused at is one instruction too many. -/
  | limit {path : Path} {pending : Pending} {w : Wait}
      (paused : c.suspension = some ⟨path, pending⟩) (here : tree.at? path = some (.wait w))
      (none : engine.maxSteps = 0) : FailsAfter c s bars [] (.stepLimit engine.maxSteps)
  /-- The wait that the session is paused at does not tell whether it is over. -/
  | wait {path : Path} {pending : Pending} {w : Wait} {e : StrategyError}
      (paused : c.suspension = some ⟨path, pending⟩) (here : tree.at? path = some (.wait w))
      (fails : (engine.supplied bars c).stillPending w ⟨path, pending⟩ = .error e) :
      FailsAfter c s bars [] e
  /-- An instruction of the tree fails. -/
  | instruction {a rest : Agenda} {r t u : Run σ} {deeds : List Exec.Deed} {n : Node} {path : Path}
      {e : StrategyError} (opens : Opens engine feed tree c s bars a r)
      (completes : Exec.Completes engine feed a r deeds ((n, path) :: rest) t)
      (stands : tree.at? path = some n)
      (fails : (Exec.enter engine feed n path).after t = (.error e, u)) :
      FailsAfter c s bars deeds e

variable {engine feed tree} {c : Context} {s t : σ} {bars : List Bar} {e : StrategyError}

theorem opening_of_paused {suspension : Suspension} (h : c.suspension = some suspension) :
    engine.opening c = c.vars := by
  simp [opening, h]

theorem opening_of_awake (h : c.suspension = none) :
    engine.opening c = (engine.renewed (engine.supplied bars c)).vars := by
  unfold opening renewed
  by_cases reset : engine.policy = .reset
  · simp only [h, reset, and_self, if_true]
    rfl
  · simp only [reset, and_false, if_false]
    rfl

/-- What is known of the run that a tick opens. -/
theorem Opens.begins {a : Agenda} {r : Run σ} (h : Opens engine feed tree c s bars a r) :
    a.Placed tree ∧ r.Shaped ∧ r.context.suspension = none ∧ r.context.vars = engine.opening c := by
  have shaped : r.Shaped := by
    intro x hx
    rw [h.start.2.1] at hx
    cases hx
  cases h with
  | cycle answer awake =>
    refine ⟨Agenda.placed_root tree, shaped, ?_, (opening_of_awake awake).symm⟩
    rw [Run.start_context, renewed_suspension]
    exact awake
  | goesOn answer paused here within passed =>
    exact ⟨Agenda.placed_follow here, shaped, rfl, (opening_of_paused paused).symm⟩

/-- The result of a tick that fails, read off its run. -/
theorem failed_ofRun {x : Except StrategyError Flow × Run σ}
    (h : (Ticked.ofRun x).result = .error e) :
    ∃ r, x = (.error e, r) ∧ (Ticked.ofRun x).context = r.context.wake := by
  obtain ⟨_ | _ | _, r⟩ := x
  · cases h
    exact ⟨r, rfl, rfl⟩
  · cases h
  · cases h

/-- A tick that opens a run fails in an instruction of the tree. -/
theorem Opens.failsAfter {a : Agenda} {r : Run σ} (opens : Opens engine feed tree c s bars a r)
    (failed : (engine.tick feed tree c s).result = .error e) :
    ∃ deeds, FailsAfter engine feed tree c s bars deeds e ∧
      (∀ d ∈ deeds, tree.at? d.path = some d.node ∧ d.writes.map Prod.fst = d.node.binds) ∧
      (engine.tick feed tree c s).context.vars =
        Keyed.insertAll (engine.opening c) (deeds.flatMap Exec.Deed.writes) := by
  obtain ⟨placed, shaped, -, vars⟩ := opens.begins
  rw [tick_eq, opens.runTree, Exec.after_bind] at failed ⊢
  rcases run : (Exec.perform engine feed a).after r with ⟨e' | left, u⟩
  · rw [run] at failed
    cases failed
    obtain ⟨deeds, n, path, rest, t, completes, fails⟩ := Exec.completes_of_perform run
    obtain ⟨front, stand⟩ := completes.deeds_stand placed shaped
    refine ⟨deeds, .instruction opens completes front.1 fails, stand, ?_⟩
    have kept : u.context = t.context := ((Exec.ensures_enter n path t).error fails).context_eq
    show u.context.vars = _
    rw [kept, completes.vars, vars]
  · rw [run] at failed
    obtain ⟨_, h, -⟩ := failed_ofRun failed
    cases h

/-- The ways in which a tick fails that got its bars. -/
theorem failsAfter_of_tick
    (answer : feed engine.symbol engine.interval engine.historyBars s = (.ok bars, t))
    (failed : (engine.tick feed tree c s).result = .error e) :
    ∃ deeds, FailsAfter engine feed tree c s bars deeds e ∧
      (∀ d ∈ deeds, tree.at? d.path = some d.node ∧ d.writes.map Prod.fst = d.node.binds) ∧
      (engine.tick feed tree c s).context.vars =
        Keyed.insertAll (engine.opening c) (deeds.flatMap Exec.Deed.writes) := by
  cases paused : c.suspension with
  | none => exact Opens.failsAfter (.cycle answer paused) failed
  | some suspension =>
    obtain ⟨path, pending⟩ := suspension
    have kept := @opening_of_paused engine c _ paused
    have rechecks := @rechecks_of_tick σ engine feed tree c s bars t path pending paused answer
    -- Until the wait is over nothing has been run.
    generalize tick : engine.tick feed tree c s = ticked at rechecks failed ⊢
    cases rechecks with
    | elsewhere elsewhere =>
      cases failed
      exact ⟨[], .elsewhere paused elsewhere, by simp, kept.symm⟩
    | limit here none =>
      cases failed
      exact ⟨[], .limit paused here none, by simp, kept.symm⟩
    | fails here looks =>
      cases failed
      exact ⟨[], .wait paused here looks, by simp, kept.symm⟩
    | stays here looks => cases failed
    | goesOn here within looks =>
      rw [← tick] at failed ⊢
      exact Opens.failsAfter (.goesOn answer paused here within looks) failed

/-- A tick in a context that is not paused starts at the root, once it has got its bars. -/
theorem tick_of_awake (awake : c.suspension = none)
    (answer : feed engine.symbol engine.interval engine.historyBars s = (.ok bars, t)) :
    engine.tick feed tree c s = .ofRun ((Exec.exec engine feed tree []).after
      (.start (engine.renewed (engine.supplied bars c)) t)) := by
  rw [tick_eq, after_runTree]
  simp only [Run.start, answer, awake]

/-- A tick that fails leaves a context that is not paused; its result is the error, and no decision
comes with it. If it got no bars, variables and snapshot are those from before. Otherwise the
snapshot holds the bars that it got, and the variables are those that it found first, updated by the
writes of the instructions that it completed, one after the other: all names that such an
instruction binds, and none of the instruction that failed. The next tick that gets bars starts a
new cycle at the root. -/
theorem left_by_failure (failed : (engine.tick feed tree c s).result = .error e) :
    let left := (engine.tick feed tree c s).context
    left.suspension = none ∧
    (∀ error t, feed engine.symbol engine.interval engine.historyBars s = (.error error, t) →
      left.vars = c.vars ∧ left.snapshot = c.snapshot) ∧
    (∀ bars t, feed engine.symbol engine.interval engine.historyBars s = (.ok bars, t) →
      left.snapshot = some ⟨engine.symbol, engine.interval, bars⟩ ∧
      ∃ deeds, FailsAfter engine feed tree c s bars deeds e ∧
        (∀ d ∈ deeds, tree.at? d.path = some d.node ∧ d.writes.map Prod.fst = d.node.binds) ∧
        left.vars = Keyed.insertAll (engine.opening c) (deeds.flatMap Exec.Deed.writes)) ∧
    ∀ s' bars t, feed engine.symbol engine.interval engine.historyBars s' = (.ok bars, t) →
      engine.tick feed tree left s' = .ofRun ((Exec.exec engine feed tree []).after
        (.start (engine.renewed (engine.supplied bars left)) t)) := by
  intro left
  have awake : left.suspension = none := by
    show (engine.tick feed tree c s).context.suspension = none
    rw [tick_eq] at failed ⊢
    obtain ⟨r, -, context⟩ := failed_ofRun failed
    rw [context]
    rfl
  refine ⟨awake, ?_, ?_, fun s' bars t answer => tick_of_awake awake answer⟩
  · intro error t answer
    have tick := @tick_eq σ engine feed tree c s
    rw [after_runTree] at tick
    simp only [Run.start, answer] at tick
    show (engine.tick feed tree c s).context.vars = _ ∧
      (engine.tick feed tree c s).context.snapshot = _
    rw [tick]
    exact ⟨rfl, rfl⟩
  · intro bars t answer
    exact ⟨snapshot_tick c answer, failsAfter_of_tick answer failed⟩

/-- A new cycle drops an old variable, sets one variable and the four of an indicator, and fails at
an order. -/
theorem left_by_failure_order :
    let tree : Node := .block [.assign "x" (.bool true),
      .indicator "bb" { period := some 2 } "band", .order ⟨"BTC", "buy", .var "y", none, none⟩]
    let engine := { Engine.ofMarket "BTCUSDT" "1m" with policy := .reset }
    let bars : List Bar := [⟨⟨0, 0⟩, 1, 2, 1, 2, 5⟩, ⟨⟨60, 0⟩, 2, 4, 2, 3, 5⟩]
    let feed : Feed Unit := fun _ _ _ s => (.ok bars, s)
    let c : Context := { Context.empty with vars := [("old", .bool false)] }
    let t := engine.tick feed tree c ()
    t.result = .error (.unknownVariable "y") ∧ t.context.suspension = none ∧
      t.context.vars.keys = ["band", "band_lower", "band_middle", "band_upper", "x"] ∧
      ∃ deeds, FailsAfter engine feed tree c () bars deeds (.unknownVariable "y") ∧
        t.context.vars = Keyed.insertAll [] (deeds.flatMap Exec.Deed.writes) := by
  intro tree engine bars feed c
  have name : (match (engine.tick feed tree c ()).result with
      | .error (.unknownVariable name) => some name
      | _ => none) = some "y" := by decide +kernel
  have names : (engine.tick feed tree c ()).context.vars.keys =
      ["band", "band_lower", "band_middle", "band_upper", "x"] := by decide +kernel
  have failed : (engine.tick feed tree c ()).result = .error (.unknownVariable "y") := by
    split at name
    · rename_i unknown result
      rw [result, Option.some.inj name]
    · cases name
  obtain ⟨awake, -, kept, -⟩ := @left_by_failure Unit engine feed tree c () _ failed
  obtain ⟨-, deeds, fails, -, vars⟩ := kept bars () rfl
  exact ⟨failed, awake, names, deeds, fails, vars⟩

end Engine

end Stratagem
