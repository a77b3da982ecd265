import Stratagem.Proofs.Session.Aftermath

/-!
# When a wait ends

A session that enters a wait pauses, and its further ticks look at the wait again until one of them
finds that it is over. What is left of the wait is worked out anew in every one of these ticks.

* `Engine.tick_of_paused` is a tick of a session that is paused at a wait of the tree: it fails,
  stays paused, or runs what follows the wait. It never comes back to the wait in the same tick
  (`ne_paused_of_follow`), since what is left to be run only gets lighter.
* `Engine.PausesUntil` is what the further ticks of such a session do up to the end of the wait, one
  after the other; `pausesUntil_of_looks` gets it from what a single look at the wait tells.
* `Engine.StopsAt` adds the tick that enters the wait (`Opens.stopsAt`), unless the wait is over at
  once (`Opens.passes`). `Engine.Awaits` says so for each kind of wait, and `Engine.Stays` what a
  tick leaves as it was. `wait_ends_on_time` puts this together.
-/

namespace Stratagem

variable {σ : Type} {engine : Engine} {feed : Feed σ} {tree n : Node} {path : Path}

/-! ## What follows a wait -/

namespace Exec

theorem ComesBy.trans {a b d : Agenda} {r s t : Run σ} (h : ComesBy engine feed a r b s)
    (h' : ComesBy engine feed b s d t) : ComesBy engine feed a r d t := by
  induction h with
  | here a r => exact h'
  | enter enters later ih => exact .enter enters (ih h')

theorem ComesBy.placed {a b : Agenda} {r t : Run σ} (h : ComesBy engine feed a r b t)
    (placed : a.Placed tree) : b.Placed tree := by
  induction h with
  | here a r => exact placed
  | enter enters later ih => exact ih ((enters_of_after enters).placed placed)

/-- Entering a wait within the limit of instructions. -/
theorem after_enter_wait {w : Wait} {r : Run σ} (within : r.steps < engine.maxSteps) :
    (enter engine feed (.wait w) path).after r =
      match r.context.beginWait w with
      | .ok (some pending) => (.ok (.pause path),
          { r.counted with context := r.context.suspend ⟨path, pending⟩ })
      | .ok none => (.ok (.expand []), r.counted)
      | .error e => (.error e, r.counted) := by
  rw [enter, after_bind, after_step, if_neg (by omega)]
  simp only [after_bind, after_enterWait, Run.counted_context]
  rcases r.context.beginWait w with e | _ | pending <;> rfl

/-- A run of what follows an instruction does not pause at this instruction: it would have to be as
heavy again as the instruction with all that follows it. -/
theorem ensures_perform_elsewhere (here : tree.at? path = some n) (r : Run σ) :
    (perform engine feed (tree.follow path)).Ensures r (fun left _ => left.flow ≠ .pause path)
      fun _ _ => True := by
  refine ensures_perform
    (fun a _ => a.Placed tree ∧ a.weight ≤ (tree.follow path).weight) ?_ ?_ ?_ ?_ _ r
    ⟨Agenda.placed_follow here, Nat.le_refl _⟩
  · rintro m q rest r more s ⟨placed, light⟩ enters
    have lighter := enters.weight_lt
    simp only [Agenda.weight_cons] at light
    refine ⟨enters.placed placed, ?_⟩
    rw [Agenda.weight_append]
    omega
  · rintro w q rest r pending ⟨⟨-, follows, -⟩, light⟩ - same
    obtain rfl : q = path := Flow.pause.inj same
    rw [Agenda.weight_cons, ← follows, Node.count] at light
    omega
  · exact fun _ _ => trivial
  · rintro r - same
    cases same

/-- A tick that runs what follows an instruction does not pause at it. -/
theorem ne_paused_of_follow (here : tree.at? path = some n) (r : Run σ)
    (decisions : List Decision) :
    (Ticked.ofRun ((execEach engine feed (tree.follow path)).after r)).result ≠
      .ok ⟨decisions, some path⟩ := by
  have elsewhere := @ensures_perform_elsewhere σ engine feed tree n path here r
  rw [← flow_perform, after_bind]
  rcases run : (perform engine feed (tree.follow path)).after r with ⟨e | left, s⟩
  · exact fun h => by cases h
  · have flow := elsewhere.ok run
    simp only [after_pure]
    cases paused : left.flow with
    | proceed => exact fun h => by cases h
    | pause q =>
      rw [paused] at flow
      intro h
      cases h
      exact flow rfl

end Exec

/-! ## Looks at a wait -/

namespace Context

variable {w : Wait}

theorem stillPending_ticks (c : Context) (n : Int) (k : Nat) :
    c.stillPending w ⟨path, .ticks (n.toNat - k)⟩ =
      (Except.ok (decide (n ≤ k + 1))).map fun passed =>
        if passed then none else some (.ticks (n.toNat - (k + 1))) := by
  by_cases passed : n ≤ k + 1
  · have last : ¬ 1 < n.toNat - k := by omega
    simp [stillPending, Except.map, passed, last]
  · have more : 1 < n.toNat - k := by omega
    simp [stillPending, Except.map, passed, more, Nat.sub_sub]

theorem stillPending_deadline (c : Context) (deadline : Instant) :
    c.stillPending w ⟨path, .deadline deadline⟩ =
      (Except.ok (c.latestBar?.any fun bar => deadline ≤ bar.time)).map fun passed =>
        if passed then none else some (.deadline deadline) := by
  unfold stillPending
  cases c.latestBar? with
  | none => rfl
  | some bar => simp [Except.map]

theorem deadline_of_stillPending {c : Context} {deadline : Instant} {next : Pending}
    (h : c.stillPending w ⟨path, .deadline deadline⟩ = .ok (some next)) :
    next = .deadline deadline := by
  rw [stillPending_deadline] at h
  cases passed : c.latestBar?.any fun bar => decide (deadline ≤ bar.time) with
  | true =>
    rw [passed] at h
    cases h
  | false =>
    rw [passed] at h
    cases h
    rfl

end Context

namespace Engine

variable {c : Context} {s t : σ} {bars : List Bar} {w : Wait} {pending : Pending}

/-- A tick of a session that is paused at a wait of the tree. -/
theorem tick_of_paused (paused : c.suspension = some ⟨path, pending⟩)
    (here : tree.at? path = some (.wait w)) (within : 1 ≤ engine.maxSteps)
    (answer : feed engine.symbol engine.interval engine.historyBars s = (.ok bars, t)) :
    engine.tick feed tree c s =
      match (engine.supplied bars c).wake.stillPending w ⟨path, pending⟩ with
      | .error e => ⟨.error e, (engine.supplied bars c).wake, t⟩
      | .ok (some next) =>
        ⟨.ok ⟨[], some path⟩, (engine.supplied bars c).wake.suspend ⟨path, next⟩, t⟩
      | .ok none =>
        .ofRun ((Exec.continueAfter engine feed path tree []).after
          (Run.start (engine.supplied bars c).wake t).counted) := by
  rw [tick_eq, after_runTree]
  simp only [Run.start, answer, paused]
  rw [Exec.after_resume here, if_neg (Nat.not_lt.2 within), Exec.continueAfter_eq here]
  simp only
  rcases (engine.supplied bars c).wake.stillPending w ⟨path, pending⟩ with e | _ | next <;> rfl

/-- A tick that pauses where the session was paused before has found that the wait goes on. -/
theorem stays_of_tick {decisions : List Decision} (paused : c.suspension = some ⟨path, pending⟩)
    (stayed : (engine.tick feed tree c s).result = .ok ⟨decisions, some path⟩) :
    ∃ w bars t next,
      (engine.supplied bars c).wake.stillPending w ⟨path, pending⟩ = .ok (some next) ∧
      engine.tick feed tree c s =
        ⟨.ok ⟨[], some path⟩, (engine.supplied bars c).wake.suspend ⟨path, next⟩, t⟩ := by
  rcases answer : feed engine.symbol engine.interval engine.historyBars s with ⟨e | bars, t⟩
  · rw [(refused_tick c answer).1] at stayed
    cases stayed
  have rechecks := @rechecks_of_tick σ engine feed tree c s bars t path pending paused answer
  generalize engine.tick feed tree c s = ticked at rechecks stayed ⊢
  cases rechecks with
  | @stays w next here looks => exact ⟨w, bars, t, next, looks, rfl⟩
  | goesOn here within looks => exact absurd stayed (Exec.ne_paused_of_follow here _ decisions)
  | _ => cases stayed

/-! ## Further ticks -/

section

variable (engine feed tree)

/-- A tick of a session that paused in the context `c`, with the feed in the state `s`, gets bars
and is told by them that the wait is not over. -/
def FindsOngoing (c : Context) (tells : Context → Except StrategyError Bool) (s : σ) : Prop :=
  ∃ bars t, feed engine.symbol engine.interval engine.historyBars s = (.ok bars, t) ∧
    tells (engine.supplied bars c).wake = .ok false

/-- A session that paused in the context `c` stays paused at `path` until a tick is told that the
wait is over. Before the further tick `k`, counted from 0, what is left of the wait is `pending k`.
In the context of the pause, with the bars that the tick gets, `tells k` says whether the wait is
over, or why this cannot be said. -/
structure PausesUntil (path : Path) (pending : Nat → Pending)
    (tells : Nat → Context → Except StrategyError Bool) (c : Context) : Prop where
  paused : c.suspension = some ⟨path, pending 0⟩
  /-- The first tick that is told anything else than that the wait goes on fails, or it runs what
  follows the wait and does not pause at it again. The ticks before make no decision and change
  nothing but the bars and what is left of the wait. -/
  further : ∀ (states : List σ) (k : Nat) {s t : σ} {bars : List Bar} {ticked : Ticked σ},
    (∀ j < k, ∀ s ∈ states[j]?, engine.FindsOngoing feed c (tells j) s) →
    states[k]? = some s → (engine.session feed tree c states)[k]? = some ticked →
    feed engine.symbol engine.interval engine.historyBars s = (.ok bars, t) →
    match tells k (engine.supplied bars c).wake with
    | .error e => ticked.result = .error e
    | .ok false =>
      ticked = ⟨.ok ⟨[], some path⟩, (engine.supplied bars c).suspend ⟨path, pending (k + 1)⟩, t⟩
    | .ok true =>
      ticked = .ofRun ((Exec.continueAfter engine feed path tree []).after
        (Run.start (engine.supplied bars c).wake t).counted) ∧
      ∀ decisions, ticked.result ≠ .ok ⟨decisions, some path⟩

end

/-- The context in which a further tick starts, if the ticks before were told that the wait goes
on: that of the pause, but for the bars and what is left of the wait. -/
theorem start_while_ongoing (here : tree.at? path = some (.wait w)) (within : 1 ≤ engine.maxSteps)
    {k : Nat} {c : Context} {pending : Nat → Pending}
    {tells : Nat → Context → Except StrategyError Bool}
    (paused : c.suspension = some ⟨path, pending 0⟩)
    (looks : ∀ k c, c.stillPending w ⟨path, pending k⟩ =
      (tells k c).map fun passed => if passed then none else some (pending (k + 1)))
    {states : List σ} {s : σ} (ongoing : ∀ j < k, ∀ s ∈ states[j]?,
      engine.FindsOngoing feed c (tells j) s) (state : states[k]? = some s) :
    ∃ d, (engine.starts feed tree c states)[k]? = some (d, s) ∧
      d.suspension = some ⟨path, pending k⟩ ∧ d.vars = c.vars := by
  induction k generalizing c pending tells states with
  | zero =>
    cases states with
    | nil => cases state
    | cons first states =>
      cases state
      exact ⟨c, rfl, paused, rfl⟩
  | succ k ih =>
    cases states with
    | nil => cases state
    | cons first states =>
      obtain ⟨bars, t, answer, told⟩ := ongoing 0 (Nat.succ_pos k) first rfl
      have tick := tick_of_paused paused here within answer
      rw [looks, told] at tick
      -- The second tick finds what the first one left of the wait, and so on.
      have later : ∀ j < k, ∀ s ∈ states[j]?, engine.FindsOngoing feed
          ((engine.supplied bars c).suspend ⟨path, pending 1⟩) (tells (j + 1)) s :=
        fun j hj => ongoing (j + 1) (Nat.succ_lt_succ hj)
      have shifted : ∀ k c, c.stillPending w ⟨path, pending (k + 1)⟩ =
          (tells (k + 1) c).map fun passed => if passed then none else some (pending (k + 2)) :=
        fun k => looks (k + 1)
      obtain ⟨d, start, left, vars⟩ := ih rfl shifted later state
      refine ⟨d, ?_, left, vars⟩
      rw [starts, List.getElem?_cons_succ, tick]
      exact start

theorem pausesUntil_of_looks (here : tree.at? path = some (.wait w))
    (within : 1 ≤ engine.maxSteps) {pending : Nat → Pending}
    {tells : Nat → Context → Except StrategyError Bool}
    (paused : c.suspension = some ⟨path, pending 0⟩)
    (looks : ∀ k c, c.stillPending w ⟨path, pending k⟩ =
      (tells k c).map fun passed => if passed then none else some (pending (k + 1))) :
    engine.PausesUntil feed tree path pending tells c := by
  refine ⟨paused, ?_⟩
  intro states k s t bars ticked ongoing state ran answer
  obtain ⟨d, start, left, vars⟩ := start_while_ongoing here within paused looks ongoing state
  rw [getElem?_session, start] at ran
  obtain rfl : engine.tick feed tree d s = ticked := Option.some.inj ran
  have seen : (engine.supplied bars d).wake = (engine.supplied bars c).wake := by
    rw [supplied, supplied, Context.install, Context.install, vars]
    rfl
  have tick := tick_of_paused left here within answer
  rw [seen, looks] at tick
  cases told : tells k (engine.supplied bars c).wake with
  | error e =>
    rw [told] at tick
    rw [tick]
    rfl
  | ok passed =>
    rw [told] at tick
    cases passed with
    | false => exact tick
    | true =>
      have goesOn : engine.tick feed tree d s =
          .ofRun ((Exec.continueAfter engine feed path tree []).after
            (Run.start (engine.supplied bars c).wake t).counted) := tick
      refine ⟨goesOn, fun decisions => ?_⟩
      rw [goesOn, Exec.continueAfter_eq here]
      exact Exec.ne_paused_of_follow here _ decisions

/-! ## The tick that enters a wait -/

/-- A tick goes on as from every place that its run comes by. -/
theorem Opens.tick_of_comesBy {a b : Agenda} {r u : Run σ}
    (opens : Opens engine feed tree c s bars a r) (comes : Exec.ComesBy engine feed a r b u) :
    engine.tick feed tree c s =
      .ofRun ((do return (← Exec.perform engine feed b).flow : Exec σ Flow).after u) := by
  rw [tick_eq, opens.runTree, Exec.after_bind, Exec.after_bind, comes.perform]

/-- A wait that is entered and does not fail is not one instruction too many, and it begins. -/
theorem begins_of_enter {r u : Run σ} {entry : Exec.Entry}
    (enters : (Exec.enter engine feed (.wait w) path).after r = (.ok entry, u)) :
    r.steps < engine.maxSteps ∧ ∃ next, r.context.beginWait w = .ok next := by
  have within : r.steps < engine.maxSteps := by
    by_contra limit
    rw [Exec.enter, Exec.after_bind, Exec.after_step, if_pos (by omega)] at enters
    cases enters
  cases Exec.enters_of_after enters with
  | pause path begins => exact ⟨within, _, begins⟩
  | skip path begins => exact ⟨within, _, begins⟩

/-- A tick that starts in the context `c`, with the feed in the state `s`, pauses at a wait that its
run came by in the state `r`, in the context of this state. Then the session stays paused until a
tick is told that the wait is over. -/
structure StopsAt (engine : Engine) (feed : Feed σ) (tree : Node) (c : Context) (s : σ) (r : Run σ)
    (path : Path) (pending : Nat → Pending) (tells : Nat → Context → Except StrategyError Bool) :
    Prop where
  result : (engine.tick feed tree c s).result = .ok ⟨r.decisions, some path⟩
  context : (engine.tick feed tree c s).context = r.context.suspend ⟨path, pending 0⟩
  pauses : engine.PausesUntil feed tree path pending tells (engine.tick feed tree c s).context

section

variable {a rest : Agenda} {r u : Run σ}

/-- A wait that begins with something to wait for stops the tick. -/
theorem Opens.stopsAt (opens : Opens engine feed tree c s bars a r)
    (comes : Exec.ComesBy engine feed a r ((.wait w, path) :: rest) u)
    (within : u.steps < engine.maxSteps) {pending : Nat → Pending}
    {tells : Nat → Context → Except StrategyError Bool}
    (begins : u.context.beginWait w = .ok (some (pending 0)))
    (looks : ∀ k c, c.stillPending w ⟨path, pending k⟩ =
      (tells k c).map fun passed => if passed then none else some (pending (k + 1))) :
    StopsAt engine feed tree c s u path pending tells := by
  obtain ⟨here, -⟩ := comes.placed opens.begins.1
  have ended : engine.tick feed tree c s =
      ⟨.ok ⟨u.decisions, some path⟩, u.context.suspend ⟨path, pending 0⟩, u.feed⟩ := by
    rw [opens.tick_of_comesBy comes, Exec.after_bind, Exec.perform_cons, Exec.after_bind,
      Exec.after_enter_wait within, begins]
    rfl
  have paused : (engine.tick feed tree c s).context.suspension = some ⟨path, pending 0⟩ := by
    rw [ended]
    rfl
  exact ⟨by rw [ended], by rw [ended], pausesUntil_of_looks here (by omega) paused looks⟩

/-- A wait that is over at once does not stop the tick. -/
theorem Opens.passes (opens : Opens engine feed tree c s bars a r)
    (comes : Exec.ComesBy engine feed a r ((.wait w, path) :: rest) u)
    (within : u.steps < engine.maxSteps) (begins : u.context.beginWait w = .ok none) :
    Exec.ComesBy engine feed a r rest u.counted ∧
      ∀ decisions, (engine.tick feed tree c s).result ≠ .ok ⟨decisions, some path⟩ := by
  obtain ⟨here, follows, -⟩ := comes.placed opens.begins.1
  have entered : (Exec.enter engine feed (.wait w) path).after u =
      (.ok (.expand []), u.counted) := by
    rw [Exec.after_enter_wait within, begins]
  have passed : Exec.ComesBy engine feed a r rest u.counted :=
    comes.trans (.enter entered (.here rest u.counted))
  refine ⟨passed, fun decisions => ?_⟩
  rw [opens.tick_of_comesBy passed, Exec.flow_perform, follows]
  exact Exec.ne_paused_of_follow here _ decisions

end

/-- What comes of a wait that a run came by in the state `t`, with `rest` left to do behind it, in a
tick that starts in the context `c`, with the feed in the state `s`: the session stays paused

* for a number of ticks: until the further tick of that number, the first one counting as one;
* for a span of time: until a tick whose latest bar is not older than the deadline, which is fixed
  when the wait is entered, by the latest bar of then;
* for a condition: until a tick in which it holds, with the variables of the pause and the bars of
  that tick. If it holds already, the run goes on at once and the tick does not pause there. -/
def Awaits (engine : Engine) (feed : Feed σ) (tree : Node) (c : Context) (s : σ) (bars : List Bar)
    (a rest : Agenda) (r t : Run σ) (path : Path) : Wait → Prop
  | .ticks n =>
    StopsAt engine feed tree c s t path (fun k => .ticks (n.toNat - k)) fun k _ => .ok (n ≤ k + 1)
  | .elapsed span => ∃ now deadline, lastTime bars = some now ∧
      now.addNanos? span.nanos.toNat = some deadline ∧
      StopsAt engine feed tree c s t path (fun _ => .deadline deadline)
        fun _ c => .ok (c.latestBar?.any fun bar => deadline ≤ bar.time)
  | .condition e =>
    e.evaluateBool t.context.lookup = .ok true ∧ Exec.ComesBy engine feed a r rest t.counted ∧
        (∀ decisions, (engine.tick feed tree c s).result ≠ .ok ⟨decisions, some path⟩) ∨
      e.evaluateBool t.context.lookup = .ok false ∧
        StopsAt engine feed tree c s t path (fun _ => .condition)
          fun _ c => (e.evaluateBool c.lookup).mapError .ofFault

theorem Opens.awaits {w : Wait} {a rest : Agenda} {r t u : Run σ} {entry : Exec.Entry}
    (opens : Opens engine feed tree c s bars a r)
    (comes : Exec.ComesBy engine feed a r ((.wait w, path) :: rest) t)
    (done : (Exec.enter engine feed (.wait w) path).after t = (.ok entry, u)) :
    Awaits engine feed tree c s bars a rest r t path w := by
  obtain ⟨within, next, begins⟩ := begins_of_enter done
  cases Context.begins_of_beginWait begins with
  | @ticks n pos => exact opens.stopsAt comes within begins fun k c => c.stillPending_ticks n k
  | @elapsed span bar deadline pos latest later =>
    have now : lastTime bars = some bar.time := by
      rw [Context.latestBar?, comes.onward.snapshot, opens.start.1] at latest
      exact congrArg (Option.map Bar.time) latest
    exact ⟨bar.time, deadline, now, later,
      opens.stopsAt comes within begins fun _ c => c.stillPending_deadline deadline⟩
  | holds value => exact .inl ⟨value, opens.passes comes within begins⟩
  | fails value => exact .inr ⟨value, opens.stopsAt comes within begins fun _ _ => rfl⟩

/-- A tick from the context `c`, which is paused at a place, leaves the session there as it was: it
makes no decision, changes no variable and keeps the path, and the deadline if there is one. -/
structure Stays (c : Context) (path : Path) (pending : Pending) (decisions : List Decision)
    (ticked : Ticked σ) : Prop where
  silent : decisions = []
  vars : ticked.context.vars = c.vars
  paused : ∃ next, ticked.context.suspension = some ⟨path, next⟩ ∧
    ∀ time, pending = .deadline time → next = .deadline time

theorem stays_of_paused {pending : Pending} {decisions : List Decision}
    (paused : c.suspension = some ⟨path, pending⟩)
    (stayed : (engine.tick feed tree c s).result = .ok ⟨decisions, some path⟩) :
    Stays c path pending decisions (engine.tick feed tree c s) := by
  obtain ⟨w, bars, t, next, left, tick⟩ := stays_of_tick paused stayed
  have ended : engine.tick feed tree c s =
      ⟨.ok ⟨[], some path⟩, (engine.supplied bars c).wake.suspend ⟨path, next⟩, t⟩ := tick
  rw [ended] at stayed ⊢
  cases stayed
  refine ⟨rfl, rfl, next, rfl, ?_⟩
  rintro time rfl
  exact Context.deadline_of_stillPending left

/-- A wait ends on time. If a wait that is entered fails, it is one instruction too many, or it
cannot begin. If it does not fail, the tick pauses at it, in the context as it is, and the session
stays paused as the kind of the wait says (`Awaits`). A tick that stays paused where the session was
paused before changes nothing there, whatever the bars are (`Stays`). -/
theorem wait_ends_on_time (engine : Engine) (feed : Feed σ) (tree : Node) :
    (∀ {c s bars a r w path rest t}, Opens engine feed tree c s bars a r →
      Exec.ComesBy engine feed a r ((.wait w, path) :: rest) t →
      let entered := (Exec.enter engine feed (.wait w) path).after t
      (∀ e u, entered = (.error e, u) → engine.maxSteps ≤ t.steps ∨ t.context.Hinders w e) ∧
      ∀ entry u, entered = (.ok entry, u) →
        Awaits engine feed tree c s bars a rest r t path w) ∧
    ∀ {c s path pending decisions}, c.suspension = some ⟨path, pending⟩ →
      (engine.tick feed tree c s).result = .ok ⟨decisions, some path⟩ →
      Stays c path pending decisions (engine.tick feed tree c s) := by
  refine ⟨?_, stays_of_paused⟩
  intro c s bars a r w path rest t opens comes entered
  refine ⟨?_, fun entry u => opens.awaits comes⟩
  intro e u failed
  cases (Exec.ensures_enter (.wait w) path t).error failed with
  | limit n passed => exact .inl (Nat.le_of_lt_succ passed)
  | wait refused => exact .inr (Context.hinders_of_beginWait refused)

/-- A wait of two ticks, with an assignment behind it: the first further tick stays paused, and the
second one sets the variable. -/
theorem wait_ends_on_time_two_ticks :
    let wait : Node := .wait (.ticks 2)
    let later : Node := .assign "x" (.bool true)
    let tree : Node := .block [wait, later]
    let engine := Engine.ofMarket "BTCUSDT" "1m"
    let feed : Feed Unit := fun _ _ _ s => (.ok [], s)
    let first := engine.tick feed tree .empty ()
    let second := engine.tick feed tree first.context ()
    first.result = .ok ⟨[], some [.child 0]⟩ ∧
      engine.PausesUntil feed tree [.child 0] (fun k => .ticks (2 - k))
        (fun k _ => .ok ((2 : Int) ≤ k + 1)) first.context ∧
      second.result = .ok ⟨[], some [.child 0]⟩ ∧ second.context.vars = first.context.vars ∧
      engine.tick feed tree second.context () =
        .ofRun ((Exec.continueAfter engine feed [.child 0] tree []).after
          (Run.start (engine.supplied [] first.context).wake ()).counted) ∧
      (engine.tick feed tree second.context ()).context.vars.keys = ["x"] := by
  intro wait later tree engine feed first second
  have opens : Opens engine feed tree .empty () [] [(tree, [])]
      (.start (engine.renewed (engine.supplied [] .empty)) ()) := .cycle rfl rfl
  have comes : Exec.ComesBy engine feed [(tree, [])]
      (.start (engine.renewed (engine.supplied [] .empty)) ())
      [(wait, [.child 0]), (later, [.child 1])]
      (Run.start (engine.renewed (engine.supplied [] .empty)) ()).counted :=
    .enter rfl (.here _ _)
  obtain ⟨begins, stays⟩ := wait_ends_on_time engine feed tree
  obtain ⟨result, -, pauses⟩ := (begins opens comes).2 _ _ rfl
  have stayed : second.result = .ok ⟨[], some [.child 0]⟩ :=
    congrArg Ticked.result
      (pauses.further [(), ()] 0 (fun j hj => absurd hj (Nat.not_lt_zero j)) rfl rfl rfl)
  have last := pauses.further [(), ()] 1 (fun j hj s _ => by
    obtain rfl : j = 0 := by omega
    exact ⟨[], (), rfl, rfl⟩) rfl rfl rfl
  exact ⟨result, pauses, stayed, (stays pauses.paused stayed).vars, last.1, by decide +kernel⟩

end Engine

end Stratagem
