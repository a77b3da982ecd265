import Mathlib.Logic.Relation
import Stratagem.Proofs.Indicator.Stamps
import Stratagem.Proofs.Session.Ticks
import Stratagem.Proofs.Trade.Decisions

/-!
# What a run asks for

A tick asks the feed for its snapshot, and the run may ask for more: for each indicator that needs
more bars than the snapshot holds. In between the feed may move.

* `Run.Onward` says what a run does to its state from some place on: the snapshot stays, the feed
  moves by requests only, decisions carry the time of the snapshot, and indicators are computed over
  the snapshot or over the answer to a request of this run (`Indicator.Window`). Every instruction
  keeps to that, even one that fails (`onward_enter`), and so does every run (`onward_perform`).
* A tick installs the answer to its first request and goes on from there (`onward_tick`), so its
  decisions carry the time of the last bar of that answer (`time_of_tick`).
-/

namespace Stratagem

variable {σ α β : Type}

namespace Feed

/-- A request of bars of a market takes the feed from one state to another. -/
def Asks (feed : Feed σ) (symbol interval : String) (s t : σ) : Prop :=
  ∃ count, (feed symbol interval count s).2 = t

/-- Requests take the feed from one state to another. -/
abbrev Leads (feed : Feed σ) (symbol interval : String) : σ → σ → Prop :=
  Relation.ReflTransGen (feed.Asks symbol interval)

/-- From a state on, with moves of some kind between the requests, the answers of a feed do not go
back in time: the last bar of an answer is not newer than that of a later answer. -/
def Ascends (feed : Feed σ) (symbol interval : String) (moves : σ → σ → Prop) (start : σ) : Prop :=
  ∀ s n bars t u m later v, Relation.ReflTransGen moves start s →
    feed symbol interval n s = (.ok bars, t) → Relation.ReflTransGen moves t u →
    feed symbol interval m u = (.ok later, v) →
    ∀ time ∈ lastTime bars, ∀ time' ∈ lastTime later, time ≤ time'

/-- The answers of a feed do not go back if a clock that never does runs along with them. -/
theorem ascends_of_clock {feed : Feed σ} {symbol interval : String} {moves : σ → σ → Prop}
    (clock : σ → Instant) (kept : ∀ s t, moves s t → clock s ≤ clock t)
    (told : ∀ s n bars t, feed symbol interval n s = (.ok bars, t) →
      ∀ time ∈ lastTime bars, clock s ≤ time ∧ time ≤ clock t) (start : σ) :
    feed.Ascends symbol interval moves start := by
  have runs : ∀ {x y}, Relation.ReflTransGen moves x y → clock x ≤ clock y := by
    intro x y path
    induction path with
    | refl => exact Instant.le_refl _
    | tail _ move ih => exact Instant.le_trans ih (kept _ _ move)
  intro s n bars t u m later v _ answer path answer' time htime time' htime'
  have before : time ≤ clock t := (told _ _ _ _ answer _ htime).2
  have after : clock u ≤ time' := (told _ _ _ _ answer' _ htime').1
  exact Instant.le_trans before (Instant.le_trans (runs path) after)

/-! ## A feed that moves between two requests -/

/-- The bar of a minute, the price always being 1. -/
def minuteBar (minute : Nat) : Bar := ⟨⟨60 * minute, 0⟩, 1, 1, 1, 1, 1⟩

/-- A market of two minutes, of which the second comes in after the first request. The state counts
the requests. -/
def arriving : Feed Nat := fun _ _ count asked =>
  (.ok (lastOf count ((List.range (min asked 1 + 1)).map minuteBar)), asked + 1)

/-- The time of the last bar of the market, seen after some requests. -/
def arrivingClock (asked : Nat) : Instant := ⟨60 * min asked 1, 0⟩

theorem arrivingClock_mono {m n : Nat} (h : m ≤ n) : arrivingClock m ≤ arrivingClock n := by
  rw [Instant.le_iff]
  simp only [arrivingClock]
  omega

theorem told_arriving (symbol interval : String) {asked count next : Nat} {bars : List Bar}
    (answer : arriving symbol interval count asked = (.ok bars, next)) :
    next = asked + 1 ∧ ∀ time ∈ lastTime bars, time = arrivingClock asked := by
  cases answer
  refine ⟨rfl, fun time htime => ?_⟩
  rw [lastTime, lastOf, List.getLast?_drop, List.getLast?_map] at htime
  split at htime
  · cases htime
  · rw [List.getLast?_range, if_neg (by omega)] at htime
    simpa [minuteBar, arrivingClock] using htime.symm

end Feed

/-- The bars that an indicator is computed over in a run, seen from a place in the run: the snapshot
if it is long enough by design, or else the answer to a later request. -/
inductive Indicator.Window (engine : Engine) (feed : Feed σ) (r : Run σ) (i : Indicator) :
    List Bar → Prop
  | snapshot (long : i.minBars ≤ engine.historyBars) :
      Window engine feed r i ((r.context.snapshot.map Snapshot.bars).getD [])
  | fetched {s t : σ} {bars : List Bar} (short : engine.historyBars < i.minBars)
      (later : feed.Leads engine.symbol engine.interval r.feed s)
      (answer : feed engine.symbol engine.interval i.minBars s = (.ok bars, t)) :
      Window engine feed r i bars

/-- What lies between two places of a run. -/
structure Run.Onward (engine : Engine) (feed : Feed σ) (r s : Run σ) : Prop where
  snapshot : s.context.snapshot = r.context.snapshot
  moved : feed.Leads engine.symbol engine.interval r.feed s.feed
  decisions : ∀ d ∈ s.decisions, d ∈ r.decisions ∨ r.context.latestBar?.map Bar.time = some d.time
  studies : ∀ x ∈ s.studies, x ∈ r.studies ∨
    ∃ bars, x.1.1.Window engine feed r bars ∧ x.1.1.compute x.1.2 bars = .ok x.2

variable {engine : Engine} {feed : Feed σ}

theorem Context.latestBar?_congr {c c' : Context} (h : c.snapshot = c'.snapshot) :
    c.latestBar? = c'.latestBar? := by
  unfold latestBar?
  rw [h]

namespace Run

variable {r s t : Run σ}

/-- A step that leaves snapshot, feed, decisions and studies as they are. -/
theorem onward_of_still (snapshot : s.context.snapshot = r.context.snapshot)
    (still : s.feed = r.feed) (decisions : s.decisions = r.decisions)
    (studies : s.studies = r.studies) : Onward engine feed r s where
  snapshot := snapshot
  moved := by rw [still]
  decisions d hd := .inl (decisions ▸ hd)
  studies x hx := .inl (studies ▸ hx)

theorem Onward.refl (r : Run σ) : Onward engine feed r r := onward_of_still rfl rfl rfl rfl

theorem Onward.window {i : Indicator} {bars : List Bar} (h : Onward engine feed r s)
    (window : i.Window engine feed s bars) : i.Window engine feed r bars := by
  cases window with
  | snapshot long =>
    rw [h.snapshot]
    exact .snapshot long
  | fetched short later answer => exact .fetched short (h.moved.trans later) answer

theorem Onward.trans (h : Onward engine feed r s) (h' : Onward engine feed s t) :
    Onward engine feed r t where
  snapshot := h'.snapshot.trans h.snapshot
  moved := h.moved.trans h'.moved
  decisions d hd := by
    rcases h'.decisions d hd with hd | stamped
    · exact h.decisions d hd
    · rw [Context.latestBar?_congr h.snapshot] at stamped
      exact .inr stamped
  studies x hx := by
    rcases h'.studies x hx with hx | ⟨bars, window, made⟩
    · exact h.studies x hx
    · exact .inr ⟨bars, h.window window, made⟩

/-- A request moves the feed. -/
theorem onward_request (r : Run σ) (count : Nat) : Onward engine feed r
    { r with feed := (feed engine.symbol engine.interval count r.feed).2 } where
  snapshot := rfl
  moved := .single ⟨count, rfl⟩
  decisions _ hd := .inl hd
  studies _ hx := .inl hx

end Run

namespace Exec

/-! ## Steps -/

/-- The step goes on from wherever it starts, whether it fails or not. -/
def Onward (engine : Engine) (feed : Feed σ) (x : Exec σ α) : Prop :=
  ∀ r : Run σ, r.Onward engine feed (x.after r).2

theorem onward_pure (a : α) : (pure a : Exec σ α).Onward engine feed := Run.Onward.refl

theorem onward_throw (e : StrategyError) : (throw e : Exec σ α).Onward engine feed :=
  Run.Onward.refl

theorem onward_of_context {x : Exec σ α} (f : Context → Except StrategyError α)
    (h : ∀ r, x.after r = (f r.context, r)) : x.Onward engine feed := by
  intro r
  rw [h]
  exact .refl r

theorem onward_updateContext {f : Context → Context} (keeps : ∀ c, (f c).snapshot = c.snapshot) :
    (updateContext f : Exec σ Unit).Onward engine feed :=
  fun _ => Run.onward_of_still (keeps _) rfl rfl rfl

theorem onward_bind {x : Exec σ α} {f : α → Exec σ β} (hx : x.Onward engine feed)
    (hf : ∀ a, (f a).Onward engine feed) : (x >>= f).Onward engine feed := by
  intro r
  have first := hx r
  rw [after_bind]
  rcases hxr : x.after r with ⟨e | a, s⟩
  · rwa [hxr] at first
  · rw [hxr] at first
    exact first.trans (hf a s)

theorem onward_step : (step engine : Exec σ Unit).Onward engine feed := by
  intro r
  rw [after_step]
  split <;> exact Run.onward_of_still rfl rfl rfl rfl

theorem onward_condition (e : Expr) : (condition e : Exec σ Bool).Onward engine feed :=
  onward_of_context (fun c => (e.evaluateBool c.lookup).mapError .ofFault) (after_condition e)

theorem onward_value (e : Expr) : (value e : Exec σ Value).Onward engine feed :=
  onward_of_context (fun c => (e.evaluate c.lookup).mapError .ofFault) (after_value e)

theorem onward_stillPending (w : Wait) (s : Suspension) :
    (stillPending w s : Exec σ (Option Pending)).Onward engine feed :=
  onward_of_context (fun c => c.stillPending w s) (after_stillPending w s)

theorem onward_enterWait (w : Wait) (path : Path) :
    (enterWait w path : Exec σ Flow).Onward engine feed := by
  intro r
  rw [after_enterWait]
  rcases r.context.beginWait w with e | _ | pending
  · exact .refl r
  · exact .refl r
  · exact Run.onward_of_still rfl rfl rfl rfl

theorem onward_order (o : Order) : (order o : Exec σ Unit).Onward engine feed := by
  intro r
  rw [after_order]
  cases decides : r.context.decision o with
  | error e => exact .refl r
  | ok d =>
    refine ⟨rfl, .refl, fun d' hd' => ?_, fun _ hx => .inl hx⟩
    rcases List.mem_append.1 hd' with old | new
    · exact .inl old
    · rw [List.mem_singleton.1 new]
      exact .inr (Context.sound_of_decision decides).2

/-! ## Indicators -/

/-- An indicator gets its bars from its window or fails; either way only the feed moves. -/
theorem after_studyBars (i : Indicator) (r : Run σ) :
    ∃ t, r.Onward engine feed { r with feed := t } ∧
      ((∃ e, (studyBars engine feed i).after r = (.error e, { r with feed := t })) ∨
        ∃ bars, i.Window engine feed r bars ∧
          (studyBars engine feed i).after r = (.ok bars, { r with feed := t })) := by
  unfold studyBars
  split
  · rename_i short
    refine ⟨_, Run.onward_request r i.minBars, ?_⟩
    unfold fetch
    simp only [after_bind, after_get, after_set]
    cases answer : (feed engine.symbol engine.interval i.minBars r.feed).1 with
    | error e => exact .inl ⟨_, rfl⟩
    | ok bars => exact .inr ⟨bars, .fetched short .refl (Prod.ext answer rfl), rfl⟩
  · rename_i long
    have window : i.Window engine feed r ((r.context.snapshot.map Snapshot.bars).getD []) :=
      .snapshot (Nat.not_lt.1 long)
    refine ⟨r.feed, .refl r, .inr ⟨_, window, ?_⟩⟩
    rw [after_bind, after_get]
    cases snapshot : r.context.snapshot <;> simp [snapshot]

theorem onward_study (i : Indicator) (source : PriceSource) :
    (study engine feed i source).Onward engine feed := by
  intro r
  rw [study, after_bind, after_get]
  simp only
  cases r.studies.lookup (i, source) with
  | some points => exact .refl r
  | none =>
    obtain ⟨t, moved, ⟨e, failed⟩ | ⟨bars, window, supplied⟩⟩ :=
      @after_studyBars σ engine feed i r
    · simp only [after_bind, failed]
      exact moved
    · simp only [after_bind, supplied]
      cases made : i.compute source bars with
      | error cause => exact moved
      | ok points =>
        refine ⟨moved.snapshot, moved.moved, moved.decisions, fun x hx => ?_⟩
        rcases List.mem_cons.1 hx with rfl | hx
        · exact .inr ⟨bars, window, made⟩
        · exact .inl hx

theorem onward_indicator (name : String) (params : Params) (target : String) :
    (indicator engine feed name params target).Onward engine feed := by
  unfold indicator
  split
  · exact onward_throw _
  · split
    · exact onward_throw _
    · refine onward_bind (onward_study _ _) fun points => ?_
      split
      · exact onward_throw _
      · exact onward_updateContext fun c => c.bindAll_snapshot _

/-! ## Runs -/

theorem onward_enter (n : Node) (path : Path) : (enter engine feed n path).Onward engine feed := by
  cases n with
  | block children => exact onward_bind onward_step fun _ => onward_pure _
  | branch e y n =>
    refine onward_bind onward_step fun _ => onward_bind (onward_condition e) fun holds => ?_
    cases holds <;> exact onward_pure _
  | indicator name params target =>
    refine onward_bind onward_step fun _ => ?_
    exact onward_bind (onward_indicator name params target) fun _ => onward_pure _
  | assign target e =>
    refine onward_bind onward_step fun _ => onward_bind (onward_value e) fun v => ?_
    exact onward_bind (onward_updateContext fun _ => rfl) fun _ => onward_pure _
  | order o =>
    refine onward_bind onward_step fun _ => ?_
    exact onward_bind (onward_order o) fun _ => onward_pure _
  | wait w =>
    refine onward_bind onward_step fun _ => onward_bind (onward_enterWait w path) fun f => ?_
    cases f <;> exact onward_pure _

theorem onward_perform (a : Agenda) : (perform engine feed a).Onward engine feed := by
  induction a using Agenda.parts_induction with
  | nil =>
    rw [perform_nil]
    exact onward_pure _
  | cons n path rest ih =>
    intro r
    have first := @onward_enter σ engine feed n path r
    rw [perform_cons, after_bind]
    rcases hxr : (enter engine feed n path).after r with ⟨e | entry, s⟩
    · rwa [hxr] at first
    · rw [hxr] at first
      cases entry with
      | pause p => exact first
      | expand more => exact first.trans (ih more (enters_of_after hxr).weight_lt s)

theorem onward_execEach (a : Agenda) : (execEach engine feed a).Onward engine feed := by
  rw [← flow_perform]
  exact onward_bind (onward_perform a) fun _ => onward_pure _

theorem onward_resume (tree : Node) (s : Suspension) :
    (resume engine feed tree s).Onward engine feed := by
  unfold resume
  split
  · rename_i w here
    refine onward_bind onward_step fun _ => onward_bind (onward_stillPending w s) fun next => ?_
    cases next with
    | some pending =>
      exact onward_bind (onward_updateContext fun _ => rfl) fun _ => onward_pure _
    | none =>
      simp only [continueAfter_eq here]
      exact onward_execEach _
  · exact onward_throw _

end Exec

/-! ## Ticks -/

@[simp] theorem Ticked.feed_ofRun (x : Except StrategyError Flow × Run σ) :
    (ofRun x).feed = x.2.feed := by
  obtain ⟨_ | _ | _, _⟩ := x <;> rfl

@[simp] theorem Ticked.snapshot_ofRun (x : Except StrategyError Flow × Run σ) :
    (ofRun x).context.snapshot = x.2.context.snapshot := by
  obtain ⟨_ | _ | _, _⟩ := x <;> rfl

@[simp] theorem Ticked.vars_ofRun (x : Except StrategyError Flow × Run σ) :
    (ofRun x).context.vars = x.2.context.vars := by
  obtain ⟨_ | _ | _, _⟩ := x <;> rfl

namespace Engine

variable {tree : Node}

theorem renewed_snapshot (c : Context) : (engine.renewed c).snapshot = c.snapshot := by
  unfold renewed
  split <;> rfl

/-- A tick that gets bars installs them, and its run goes on from there. -/
theorem onward_tick (c : Context) {s t : σ} {bars : List Bar}
    (answer : feed engine.symbol engine.interval engine.historyBars s = (.ok bars, t)) :
    (Run.start (engine.supplied bars c) t).Onward engine feed
      ((engine.runTree feed tree).after (.start c s)).2 := by
  rw [after_runTree]
  simp only [Run.start, answer]
  cases c.suspension with
  | some w =>
    refine Run.Onward.trans ?_ (Exec.onward_resume tree w _)
    exact Run.onward_of_still rfl rfl rfl rfl
  | none =>
    rw [← Exec.execEach_singleton]
    refine Run.Onward.trans ?_ (Exec.onward_execEach _ _)
    exact Run.onward_of_still (renewed_snapshot _) rfl rfl rfl

/-- A tick that gets bars leaves them as the snapshot. -/
theorem snapshot_tick (c : Context) {s t : σ} {bars : List Bar}
    (answer : feed engine.symbol engine.interval engine.historyBars s = (.ok bars, t)) :
    (engine.tick feed tree c s).context.snapshot =
      some ⟨engine.symbol, engine.interval, bars⟩ := by
  rw [tick_eq, Ticked.snapshot_ofRun, (onward_tick c answer).snapshot]
  rfl

/-- A tick that gets no bars fails, and all it does is to end a pause. -/
theorem tick_of_refused (c : Context) {s t : σ} {e : FeedError}
    (answer : feed engine.symbol engine.interval engine.historyBars s = (.error e, t)) :
    engine.tick feed tree c s =
      ⟨.error (.evaluation (.feed engine.symbol engine.interval e)), c.wake, t⟩ := by
  rw [tick_eq, after_runTree]
  simp only [Run.start, answer]
  rfl

theorem refused_tick (c : Context) {s t : σ} {e : FeedError}
    (answer : feed engine.symbol engine.interval engine.historyBars s = (.error e, t)) :
    (engine.tick feed tree c s).result =
        .error (.evaluation (.feed engine.symbol engine.interval e)) ∧
      (engine.tick feed tree c s).feed = t := by
  rw [tick_of_refused c answer]
  exact ⟨rfl, rfl⟩

/-- After its first request, a tick only goes on to ask the feed. -/
theorem leads_tick (c : Context) (s : σ) :
    feed.Leads engine.symbol engine.interval
      (feed engine.symbol engine.interval engine.historyBars s).2
      (engine.tick feed tree c s).feed := by
  rcases answer : feed engine.symbol engine.interval engine.historyBars s with ⟨e | bars, t⟩
  · rw [(refused_tick c answer).2]
  · rw [tick_eq, Ticked.feed_ofRun]
    exact (onward_tick c answer).moved

/-- The decisions of a tick carry the time of the latest bar of its snapshot. -/
theorem time_of_tick {c : Context} {s t : σ} {bars : List Bar}
    (answer : feed engine.symbol engine.interval engine.historyBars s = (.ok bars, t))
    {outcome : Outcome} (h : (engine.tick feed tree c s).result = .ok outcome) :
    ∀ d ∈ outcome.decisions, lastTime bars = some d.time := by
  have onward := @onward_tick σ engine feed tree c _ _ _ answer
  rw [tick_eq] at h
  rcases hx : (engine.runTree feed tree).after (.start c s) with ⟨e | flow, r⟩
  · rw [hx] at h
    cases h
  · rw [hx] at h onward
    have made : outcome.decisions = r.decisions := by
      cases flow <;> cases h <;> rfl
    intro d hd
    rw [made] at hd
    rcases onward.decisions d hd with none | stamped
    · cases none
    · exact stamped

end Engine

end Stratagem
