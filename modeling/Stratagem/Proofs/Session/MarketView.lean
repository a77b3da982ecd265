import Stratagem.Proofs.Session.Requests

/-!
# The market that a tick sees

A tick looks at the market through the bars of its snapshot: conditions, expressions and orders read
the latest of them. An indicator that needs more bars than the snapshot holds by design asks the
feed again, and what it sees then may be newer.

* `Exec.ComesBy` follows a run instruction by instruction. It goes through the states of the run and
  no others (`ComesBy.perform`). `Engine.Opens` is where the instructions of a tick begin; a tick
  that does not get there sets no variable (`opens_or_vars_eq`).
* `Engine.Rechecks` lists what a tick of a session can do that is paused (`rechecks_of_tick`).
* `Exec.Binds` tells how an indicator came by the values that it binds.
* `binds_within_view` is what the windows of indicators have to do with the snapshot, and
  `indicator_ahead_of_snapshot` that they need not end with the same bar.
-/

namespace Stratagem

variable {σ : Type}

namespace Exec

/-! ## The course of a run -/

/-- A run that works off the agenda `a` from the state `r` on comes by the agenda `b` in the state
`t`: on the way, the instruction in front is entered and its parts take its place. -/
inductive ComesBy (engine : Engine) (feed : Feed σ) : Agenda → Run σ → Agenda → Run σ → Prop
  | here (a : Agenda) (r : Run σ) : ComesBy engine feed a r a r
  | enter {n : Node} {path : Path} {rest more b : Agenda} {r s t : Run σ}
      (enters : (enter engine feed n path).after r = (.ok (.expand more), s))
      (later : ComesBy engine feed (more ++ rest) s b t) :
      ComesBy engine feed ((n, path) :: rest) r b t

variable {engine : Engine} {feed : Feed σ} {a b : Agenda} {r t : Run σ}

/-- The run goes on as from the place that it comes by. -/
theorem ComesBy.perform (h : ComesBy engine feed a r b t) :
    (perform engine feed a).after r = (perform engine feed b).after t := by
  induction h with
  | here a r => rfl
  | enter enters later ih => rw [perform_cons, after_bind, enters, ← ih]

theorem ComesBy.onward (h : ComesBy engine feed a r b t) : r.Onward engine feed t := by
  induction h with
  | here a r => exact .refl r
  | @enter n path rest more b r s t enters later ih =>
    have first := @onward_enter σ engine feed n path r
    rw [enters] at first
    exact first.trans ih

/-- From `t` to `u` an indicator with given parameters bound its target: it was configured to `i`,
computed over the bars `window`, and had `point` as its current point. -/
structure Binds (name : String) (params : Params) (target : String) (t u : Run σ) (i : Indicator)
    (window : List Bar) (point : Point) : Prop where
  configured : ∃ kind, Kind.ofName? name = some kind ∧ kind.configure params = .ok i
  computed : ∃ points, i.compute params.source window = .ok points ∧
    currentPoint? points = some point
  bound : u.context = t.context.bindAll (point.reading.bindings target)

/-- An indicator that is entered and does not fail binds its target, and its window is one of the
run. -/
theorem binds_of_enter {name : String} {params : Params} {target : String} {path : Path}
    {entry : Entry} {u : Run σ}
    (known : ∀ x ∈ t.studies, ∃ bars, x.1.1.Window engine feed r bars ∧
      x.1.1.compute x.1.2 bars = .ok x.2)
    (onward : r.Onward engine feed t)
    (enters : (Exec.enter engine feed (.indicator name params target) path).after t =
      (.ok entry, u)) :
    ∃ i window point, Binds name params target t u i window point ∧
      i.Window engine feed r window := by
  cases enters_of_after enters with
  | @indicator _ _ _ _ _ s kind i points point named configured studied current =>
    have context : s.context = t.context := by
      cases studied with
      | known found => rfl
      | computed missing supplied made => rfl
    have bound : ∀ {window}, i.compute params.source window = .ok points →
        Binds name params target t
          { s with context := s.context.bindAll (point.reading.bindings target) } i window point :=
      fun made => ⟨⟨kind, named, configured⟩, ⟨points, made, current⟩, by rw [context]⟩
    cases studied with
    | known found =>
      obtain ⟨front, back, studies, -⟩ := List.lookup_eq_some_iff.1 found
      have mem : ((i, params.source), points) ∈ t.studies := by
        show _ ∈ t.counted.studies
        rw [studies]
        exact List.mem_append_right _ List.mem_cons_self
      obtain ⟨window, hwindow, made⟩ := known _ mem
      exact ⟨i, window, point, bound made, hwindow⟩
    | @computed window state _ missing supplied made =>
      refine ⟨i, window, point, bound made, onward.window ?_⟩
      cases supplied with
      | fetched short answer => exact .fetched short .refl answer
      | snapshot long => exact .snapshot long

end Exec

/-! ## Where a tick begins -/

/-- A further look at a wait of the tree: it fails, it goes on, or what follows it runs. -/
theorem Exec.after_resume {engine : Engine} {feed : Feed σ} {tree : Node} {w : Wait}
    {s : Suspension} (here : tree.at? s.path = some (.wait w)) (r : Run σ) :
    (resume engine feed tree s).after r =
      if engine.maxSteps < r.steps + 1 then (.error (.stepLimit engine.maxSteps), r.counted)
      else
        match r.context.stillPending w s with
        | .error e => (.error e, r.counted)
        | .ok (some pending) =>
          (.ok (.pause s.path), { r.counted with context := r.context.suspend ⟨s.path, pending⟩ })
        | .ok none => (execEach engine feed (tree.follow s.path)).after r.counted := by
  unfold resume
  simp only [here, after_bind, after_step]
  by_cases limit : engine.maxSteps < r.steps + 1
  · simp only [if_pos limit]
  · simp only [if_neg limit, after_stillPending, Run.counted_context]
    rcases r.context.stillPending w s with e | _ | pending
    · rfl
    · simp only [continueAfter_eq here]
    · rfl

/-- A further look at a place where no wait stands. -/
theorem Exec.after_resume_elsewhere {engine : Engine} {feed : Feed σ} {tree : Node} {s : Suspension}
    (elsewhere : ∀ w, tree.at? s.path ≠ some (.wait w)) (r : Run σ) :
    (resume engine feed tree s).after r = (.error (.evaluation (.notAWait s.path)), r) := by
  unfold resume
  split
  · rename_i w here
    exact absurd here (elsewhere w)
  · rfl

namespace Engine

variable (engine : Engine) (feed : Feed σ) (tree : Node)

/-- The tick gets bars for its snapshot, and it runs the instructions of an agenda from a state of
its run on: those of a new cycle, or those that follow a wait that is over. -/
inductive Opens (c : Context) (s : σ) : List Bar → Agenda → Run σ → Prop
  | cycle {bars : List Bar} {t : σ}
      (answer : feed engine.symbol engine.interval engine.historyBars s = (.ok bars, t))
      (awake : c.suspension = none) :
      Opens c s bars [(tree, [])] (.start (engine.renewed (engine.supplied bars c)) t)
  | goesOn {bars : List Bar} {t : σ} {path : Path} {pending : Pending} {w : Wait}
      (answer : feed engine.symbol engine.interval engine.historyBars s = (.ok bars, t))
      (paused : c.suspension = some ⟨path, pending⟩) (here : tree.at? path = some (.wait w))
      (within : 1 ≤ engine.maxSteps)
      (passed : (engine.supplied bars c).wake.stillPending w ⟨path, pending⟩ = .ok none) :
      Opens c s bars (tree.follow path) (Run.start (engine.supplied bars c).wake t).counted

/-- The ways in which a tick goes, once it has got its bars, of a session that is paused at a path
with something left of a wait. -/
inductive Rechecks (c : Context) (path : Path) (pending : Pending) (bars : List Bar) (t : σ) :
    Ticked σ → Prop
  | elsewhere (elsewhere : ∀ w, tree.at? path ≠ some (.wait w)) :
      Rechecks c path pending bars t
        ⟨.error (.evaluation (.notAWait path)), (engine.supplied bars c).wake, t⟩
  | limit {w : Wait} (here : tree.at? path = some (.wait w)) (none : engine.maxSteps = 0) :
      Rechecks c path pending bars t
        ⟨.error (.stepLimit engine.maxSteps), (engine.supplied bars c).wake, t⟩
  | fails {w : Wait} {e : StrategyError} (here : tree.at? path = some (.wait w))
      (looks : (engine.supplied bars c).wake.stillPending w ⟨path, pending⟩ = .error e) :
      Rechecks c path pending bars t ⟨.error e, (engine.supplied bars c).wake, t⟩
  | stays {w : Wait} {next : Pending} (here : tree.at? path = some (.wait w))
      (looks : (engine.supplied bars c).wake.stillPending w ⟨path, pending⟩ = .ok (some next)) :
      Rechecks c path pending bars t
        ⟨.ok ⟨[], some path⟩, (engine.supplied bars c).wake.suspend ⟨path, next⟩, t⟩
  | goesOn {w : Wait} (here : tree.at? path = some (.wait w)) (within : 1 ≤ engine.maxSteps)
      (looks : (engine.supplied bars c).wake.stillPending w ⟨path, pending⟩ = .ok none) :
      Rechecks c path pending bars t
        (.ofRun ((Exec.execEach engine feed (tree.follow path)).after
          (Run.start (engine.supplied bars c).wake t).counted))

variable {engine feed tree} {c : Context} {s : σ} {bars : List Bar} {a : Agenda} {r : Run σ}

theorem rechecks_of_tick {t : σ} {path : Path} {pending : Pending}
    (paused : c.suspension = some ⟨path, pending⟩)
    (answer : feed engine.symbol engine.interval engine.historyBars s = (.ok bars, t)) :
    Rechecks engine feed tree c path pending bars t (engine.tick feed tree c s) := by
  rw [tick_eq, after_runTree]
  simp only [Run.start, answer, paused]
  by_cases wait : ∃ w, tree.at? path = some (.wait w)
  · obtain ⟨w, here⟩ := wait
    rw [Exec.after_resume here]
    by_cases limit : engine.maxSteps < 0 + 1
    · rw [if_pos limit]
      exact .limit here (by omega)
    · rw [if_neg limit]
      rcases looks : (engine.supplied bars c).wake.stillPending w ⟨path, pending⟩ with e | _ | next
      · exact .fails here looks
      · exact .goesOn here (by omega) looks
      · exact .stays here looks
  · have elsewhere : ∀ w, tree.at? path ≠ some (.wait w) := fun w here => wait ⟨w, here⟩
    rw [Exec.after_resume_elsewhere elsewhere]
    exact .elsewhere elsewhere

/-- The tick is the run of the agenda that it opens. -/
theorem Opens.runTree (h : Opens engine feed tree c s bars a r) :
    (engine.runTree feed tree).after (.start c s) =
      (do return (← Exec.perform engine feed a).flow : Exec σ Flow).after r := by
  rw [Exec.flow_perform, after_runTree]
  cases h with
  | cycle answer awake =>
    simp only [Run.start, answer, awake]
    rw [Exec.execEach_singleton]
  | goesOn answer paused here within passed =>
    simp only [Run.start, answer, paused]
    rw [Exec.after_resume here, if_neg (Nat.not_lt.2 within)]
    simp only [passed]

/-- A tick that opens no agenda sets no variable. -/
theorem opens_or_vars_eq (c : Context) (s : σ) :
    (∃ bars a r, Opens engine feed tree c s bars a r) ∨
      (engine.tick feed tree c s).context.vars = c.vars := by
  rcases answer : feed engine.symbol engine.interval engine.historyBars s with ⟨e | bars, t⟩
  · right
    rw [tick_of_refused c answer]
    rfl
  cases paused : c.suspension with
  | none => exact .inl ⟨bars, _, _, .cycle answer paused⟩
  | some suspension =>
    obtain ⟨path, pending⟩ := suspension
    have rechecks := @rechecks_of_tick σ engine feed tree c s bars t path pending paused answer
    generalize engine.tick feed tree c s = ticked at rechecks ⊢
    cases rechecks with
    | goesOn here within looks =>
      exact .inl ⟨bars, _, _, .goesOn answer paused here within looks⟩
    | _ => exact .inr rfl

/-- What a tick has found out when its instructions begin. -/
theorem Opens.start (h : Opens engine feed tree c s bars a r) :
    r.context.snapshot = some ⟨engine.symbol, engine.interval, bars⟩ ∧ r.studies = [] ∧
      feed engine.symbol engine.interval engine.historyBars s = (.ok bars, r.feed) := by
  cases h with
  | cycle answer awake => exact ⟨renewed_snapshot _, rfl, answer⟩
  | goesOn answer paused here within passed => exact ⟨rfl, rfl, answer⟩

end Engine

/-! ## Windows and snapshots -/

/-- The feed shows the same last bar whenever it is asked from `state` on. -/
def Feed.Stands (feed : Feed σ) (symbol interval : String) (time : Option Instant) (state : σ) :
    Prop :=
  ∀ n s bars t, feed.Leads symbol interval state s → feed symbol interval n s = (.ok bars, t) →
    lastTime bars = time

/-- How the window of an indicator and its current point stand to the bars of the snapshot, in a
tick whose first request finds the feed in the state `s`. -/
structure Indicator.WithinView (engine : Engine) (feed : Feed σ) (s : σ) (bars : List Bar)
    (i : Indicator) (window : List Bar) (point : Point) : Prop where
  /-- The point is that of the last bar of the window. -/
  stamped : lastTime window = some point.time
  snapshot : i.minBars ≤ engine.historyBars → window = bars
  fetched : engine.historyBars < i.minBars → ∃ x y,
    feed.Leads engine.symbol engine.interval
        (feed engine.symbol engine.interval engine.historyBars s).2 x ∧
      feed engine.symbol engine.interval i.minBars x = (.ok window, y)
  agrees : i.minBars ≤ engine.historyBars ∨
      feed.Stands engine.symbol engine.interval (lastTime bars)
        (feed engine.symbol engine.interval engine.historyBars s).2 →
    lastTime bars = some point.time
  notOlder : feed.Ascends engine.symbol engine.interval
      (feed.Asks engine.symbol engine.interval) s →
    ∀ time ∈ lastTime bars, time ≤ point.time

namespace Engine

variable {engine : Engine} {feed : Feed σ} {tree : Node} {c : Context} {s : σ} {bars : List Bar}
  {a : Agenda} {r : Run σ}

/-- The windows of a run that a tick opens are within the view of the tick. -/
theorem Opens.withinView (h : Opens engine feed tree c s bars a r) {i : Indicator}
    {source : PriceSource} {window : List Bar} {points : List Point} {point : Point}
    (hwindow : i.Window engine feed r window) (made : i.compute source window = .ok points)
    (current : currentPoint? points = some point) :
    i.WithinView engine feed s bars window point := by
  obtain ⟨snapshot, -, answer⟩ := h.start
  have stamped : lastTime window = some point.time := Indicator.time_currentPoint? made current
  have state : (feed engine.symbol engine.interval engine.historyBars s).2 = r.feed :=
    congrArg Prod.snd answer
  cases hwindow with
  | snapshot long =>
    rw [snapshot] at made stamped ⊢
    refine ⟨stamped, fun _ => rfl, fun short => absurd long (by omega), fun _ => stamped, ?_⟩
    intro _ time htime
    obtain rfl : time = point.time := Option.some.inj (htime.symm.trans stamped)
    exact Instant.le_refl _
  | @fetched x y _ short later answer' =>
    refine ⟨stamped, fun long => absurd short (by omega), fun _ => ⟨x, y, state ▸ later, answer'⟩,
      ?_, ?_⟩
    · rintro (long | stands)
      · exact absurd short (by omega)
      · rw [← stands _ x _ y (state ▸ later) answer', stamped]
    · intro ascends time htime
      exact ascends s _ bars r.feed x _ window y .refl answer later answer' time htime point.time
        stamped

/-- In a tick, every decision carries the time of the last bar of the snapshot, and an indicator
binds the values that it has at the last bar of its window. The window is the snapshot, unless the
snapshot is too short for the indicator by design; then it is the answer to a request of its own,
made in the same tick after the snapshot. So the times agree if the snapshot is long enough, or if
the feed shows the same last bar all through the tick; otherwise the window may end with a newer bar
than the snapshot, but not with an older one. A tick that runs no instructions binds nothing. -/
theorem binds_within_view (engine : Engine) (feed : Feed σ) (tree : Node) (c : Context) (s : σ) :
    ((∃ bars a r, Opens engine feed tree c s bars a r) ∨
      (engine.tick feed tree c s).context.vars = c.vars) ∧
    ∀ bars a r, Opens engine feed tree c s bars a r →
      (∀ outcome, (engine.tick feed tree c s).result = .ok outcome →
        ∀ d ∈ outcome.decisions, lastTime bars = some d.time) ∧
      ∀ name params target path rest t entry u,
        Exec.ComesBy engine feed a r ((.indicator name params target, path) :: rest) t →
        (Exec.enter engine feed (.indicator name params target) path).after t = (.ok entry, u) →
        t.context.snapshot = some ⟨engine.symbol, engine.interval, bars⟩ ∧
          ∃ i window point, Exec.Binds name params target t u i window point ∧
            i.WithinView engine feed s bars window point := by
  refine ⟨opens_or_vars_eq c s, fun bars a r opens => ?_⟩
  obtain ⟨snapshot, fresh, answer⟩ := opens.start
  refine ⟨fun outcome h => time_of_tick answer h, ?_⟩
  intro name params target path rest t entry u comes enters
  have onward := comes.onward
  refine ⟨onward.snapshot.trans snapshot, ?_⟩
  have known : ∀ x ∈ t.studies, ∃ bars, x.1.1.Window engine feed r bars ∧
      x.1.1.compute x.1.2 bars = .ok x.2 := by
    intro x hx
    rcases onward.studies x hx with none | made
    · rw [fresh] at none
      cases none
    · exact made
  obtain ⟨i, window, point, binds, hwindow⟩ := Exec.binds_of_enter known onward enters
  obtain ⟨points, made, current⟩ := binds.computed
  exact ⟨i, window, point, binds, opens.withinView hwindow made current⟩

/-- A tick over a market that moves: the snapshot holds one bar, and an average of two bars is bound
at a bar that came in after it, while the order of the same tick carries the time of the snapshot.
If the snapshot is to hold no bars, a market that stands still is enough: the average is bound at a
bar, and the snapshot has none. -/
theorem indicator_ahead_of_snapshot :
    let average : Nat → Node := fun n => .indicator "ema" { period := some n } "average"
    let o : Order := ⟨"BTC", "buy", .number 1, none, none⟩
    let tree : Node := .block [average 2, .order o]
    let engine := { Engine.ofMarket "BTCUSDT" "1m" with historyBars := 1 }
    let opening := Run.start (engine.supplied [Feed.minuteBar 0] .empty) 1
    let before := opening.counted
    let after := ((Exec.enter engine Feed.arriving (average 2) [.child 0]).after before).2
    let standing : Feed Unit := fun _ _ count s => (.ok (lastOf count [Feed.minuteBar 0]), s)
    let blind := ({ engine with historyBars := 0 }).tick standing (average 1) .empty ()
    (Feed.arriving.Ascends "BTCUSDT" "1m" (Feed.arriving.Asks "BTCUSDT" "1m") 0 ∧
      Opens engine Feed.arriving tree .empty 0 [Feed.minuteBar 0] [(tree, [])] opening ∧
      Exec.ComesBy engine Feed.arriving [(tree, [])] opening
        [(average 2, [.child 0]), (.order o, [.child 1])] before ∧
      (Exec.enter engine Feed.arriving (average 2) [.child 0]).after before =
        (.ok (.expand []), after) ∧
      before.studies = [] ∧
      (after.studies.map fun x => (currentPoint? x.2).map Point.time) = [some ⟨60, 0⟩] ∧
      lastTime [Feed.minuteBar 0] = some ⟨0, 0⟩ ∧
      (engine.tick Feed.arriving tree .empty 0).result.toOption.map
        (fun outcome => outcome.decisions.map Decision.time) = some [⟨0, 0⟩]) ∧
    (blind.context.latestBar?.isSome = false ∧
      (blind.context.lookup "average").isSome = true) := by
  intro average o tree engine opening before after standing blind
  have entered : (Exec.enter engine Feed.arriving (average 2) [.child 0]).after before =
      (.ok (.expand []), after) := rfl
  refine ⟨⟨?_, ?_, ?_, entered, rfl, ?_, rfl, ?_⟩, ?_, ?_⟩
  · refine Feed.ascends_of_clock Feed.arrivingClock ?_ ?_ 0
    · rintro s t ⟨count, rfl⟩
      exact Feed.arrivingClock_mono (Nat.le_succ s)
    · intro s n bars t answer time htime
      obtain ⟨rfl, told⟩ := Feed.told_arriving _ _ answer
      rw [told time htime]
      exact ⟨Instant.le_refl _, Feed.arrivingClock_mono (Nat.le_succ s)⟩
  · exact .cycle rfl rfl
  · exact .enter rfl (.here _ _)
  · decide +kernel
  · decide +kernel
  · decide +kernel
  · decide +kernel

end Engine

end Stratagem
