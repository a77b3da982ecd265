import Stratagem.Market.Replay
import Stratagem.Proofs.Session.Looks

/-!
# Points that are computed once in a tick

A run keeps the points of an indicator and looks them up when it comes to the same indicator again.
That cannot be seen from outside as long as the feed gives the same answer to the same request
(`Feed.Steady`): a run that computes the points anew every time, and asks for the bars anew, has the
same result and the same context (`recompute_agrees`).

What it is good for is seen by watching the feed (`Feed.watched`): after the bars of the snapshot, a
tick asks once for each indicator that needs more bars, in the order in which it comes to them
(`Engine.requestsFor`, `noting_agrees`). `Engine.tick_transparent` puts both together.
-/

namespace Stratagem

variable {σ : Type}

namespace Feed

/-- From a state on, the answer to a request for bars of a market stays the same. -/
def Steady (feed : Feed σ) (symbol interval : String) (start : σ) : Prop :=
  ∀ count s, feed.Leads symbol interval start s →
    (feed symbol interval count s).1 = (feed symbol interval count start).1

/-- A feed that requests do not move is steady. -/
theorem steady_of_unmoved {feed : Feed σ} (unmoved : ∀ symbol interval count s,
    (feed symbol interval count s).2 = s) (symbol interval : String) (start : σ) :
    feed.Steady symbol interval start := by
  intro count s reached
  induction reached with
  | refl => rfl
  | tail _ asks ih =>
    obtain ⟨_, rfl⟩ := asks
    rwa [unmoved]

end Feed

/-! ## Computing anew -/

namespace Engine

variable (engine : Engine) (feed : Feed σ) (snapshot : List Bar) (start : σ)

/-- The bars that an indicator is computed over, as a steady feed gives them. -/
def steadyBars (i : Indicator) : Except StrategyError (List Bar) :=
  if engine.historyBars < i.minBars then
    (feed engine.symbol engine.interval i.minBars start).1.mapError fun e =>
      .evaluation (.feed engine.symbol engine.interval e)
  else .ok snapshot

/-- The points of an indicator, as a steady feed leads to them. -/
def steadyPoints (i : Indicator) (source : PriceSource) : Except StrategyError (List Point) := do
  (i.compute source (← engine.steadyBars feed snapshot start i)).mapError .ofShortage

end Engine

namespace Exec

/-- The points of an indicator, computed every time. -/
def recompute (engine : Engine) (feed : Feed σ) : Look σ := fun i source => do
  match i.compute source (← studyBars engine feed i) with
  | .error cause => throw (.ofShortage cause)
  | .ok points => return points

variable {engine : Engine} {feed : Feed σ} {snapshot : List Bar}

/-- Where the bars of an indicator come from, and where that leaves the feed. -/
theorem after_studyBars_eq (i : Indicator) {r : Run σ}
    (installed : r.context.snapshot = some ⟨engine.symbol, engine.interval, snapshot⟩) :
    (studyBars engine feed i).after r =
      if engine.historyBars < i.minBars then
        let answer := feed engine.symbol engine.interval i.minBars r.feed
        (answer.1.mapError fun e => .evaluation (.feed engine.symbol engine.interval e),
          { r with feed := answer.2 })
      else (.ok snapshot, r) := by
  unfold studyBars
  split
  · unfold fetch
    simp only [after_bind, after_get, after_set]
    cases (feed engine.symbol engine.interval i.minBars r.feed).1 <;> rfl
  · rw [after_bind, after_get]
    simp only [installed]
    rfl

/-- A run that finds no points computes them and keeps them. -/
theorem after_study (i : Indicator) (source : PriceSource) (r : Run σ) :
    (study engine feed i source).after r =
      match r.studies.lookup (i, source) with
      | some points => (.ok points, r)
      | none =>
        match (recompute engine feed i source).after r with
        | (.error e, s) => (.error e, s)
        | (.ok points, s) =>
          (.ok points, { s with studies := ((i, source), points) :: s.studies }) := by
  unfold study recompute
  rw [after_bind, after_get]
  simp only
  cases r.studies.lookup (i, source) with
  | some points => rfl
  | none =>
    simp only [after_bind]
    rcases (studyBars engine feed i).after r with ⟨e | bars, s⟩
    · rfl
    · simp only
      cases i.compute source bars <;> rfl

section

variable {start : σ} (steady : feed.Steady engine.symbol engine.interval start)
include steady

/-- Over a steady feed, the points do not depend on when they are computed. -/
theorem after_recompute (i : Indicator) (source : PriceSource) {r : Run σ}
    (installed : r.context.snapshot = some ⟨engine.symbol, engine.interval, snapshot⟩)
    (reached : feed.Leads engine.symbol engine.interval start r.feed) :
    ∃ u, feed.Leads engine.symbol engine.interval start u ∧
      (recompute engine feed i source).after r =
        (engine.steadyPoints feed snapshot start i source, { r with feed := u }) := by
  have bars : ∃ u, feed.Leads engine.symbol engine.interval start u ∧
      (studyBars engine feed i).after r =
        (engine.steadyBars feed snapshot start i, { r with feed := u }) := by
    rw [after_studyBars_eq i installed, Engine.steadyBars]
    split
    · have moved := reached.tail ⟨i.minBars, rfl⟩
      refine ⟨_, moved, ?_⟩
      rw [← steady i.minBars r.feed reached]
    · exact ⟨r.feed, reached, rfl⟩
  obtain ⟨u, reached', supplied⟩ := bars
  refine ⟨u, reached', ?_⟩
  unfold recompute Engine.steadyPoints
  rw [after_bind, supplied]
  cases engine.steadyBars feed snapshot start i with
  | error e => rfl
  | ok bars =>
    simp only
    cases made : i.compute source bars with
    | error cause => simp [bind, Except.bind, made, Except.mapError]
    | ok points => simp [bind, Except.bind, made, Except.mapError]

/-- Whatever is kept is what computing it anew gives, so looking it up makes no difference. -/
theorem recompute_agrees :
    Look.Agrees (some ⟨engine.symbol, engine.interval, snapshot⟩)
      (fun kept s _ t => feed.Leads engine.symbol engine.interval start s ∧
        feed.Leads engine.symbol engine.interval start t ∧
        ∀ i source points, kept.lookup (i, source) = some points →
          engine.steadyPoints feed snapshot start i source = .ok points)
      (fun _ _ _ _ => True) (study engine feed) (recompute engine feed) := by
  refine ⟨fun _ _ _ _ _ => trivial, fun i source r t twins => ?_⟩
  obtain ⟨reached, reached', faithful⟩ := twins.memory
  have installed' : t.context.snapshot = some ⟨engine.symbol, engine.interval, snapshot⟩ :=
    twins.context ▸ twins.snapshot
  obtain ⟨v, moved', right⟩ := after_recompute steady i source installed' reached'
  have left := @after_study _ engine feed i source r
  cases known : r.studies.lookup (i, source) with
  | some points =>
    rw [known] at left
    rw [faithful i source points known] at right
    exact .ok left right ⟨twins.context, twins.decisions, twins.steps, twins.snapshot, reached,
      moved', faithful⟩
  | none =>
    obtain ⟨u, moved, computed⟩ := after_recompute steady i source twins.snapshot reached
    rw [known, computed] at left
    cases points : engine.steadyPoints feed snapshot start i source with
    | error e =>
      rw [points] at left right
      exact .error left right ⟨twins.context, twins.decisions, twins.steps, twins.snapshot, trivial⟩
    | ok made =>
      rw [points] at left right
      refine .ok left right ⟨twins.context, twins.decisions, twins.steps, twins.snapshot, moved,
        moved', ?_⟩
      intro i' source' points' found
      by_cases same : (i', source') = (i, source)
      · obtain ⟨rfl, rfl⟩ := Prod.mk.inj same
        rw [List.lookup_cons_self] at found
        rw [points, Option.some.inj found]
      · have other : ((i', source') == (i, source)) = false := beq_false_of_ne same
        rw [List.lookup_cons, other] at found
        exact faithful i' source' points' found

end

end Exec

/-! ## Watching the feed -/

/-- A request of bars. -/
structure Request where
  symbol : String
  interval : String
  count : Nat
  deriving DecidableEq, Repr

/-- A feed that is being watched, with the indicators that a run has come to. -/
structure Watch (σ : Type) where
  feed : σ
  requests : List Request
  looks : List (Indicator × PriceSource)

/-- The feed, with each request noted. -/
def Feed.watched (feed : Feed σ) : Feed (Watch σ) := fun symbol interval count w =>
  let answer := feed symbol interval count w.feed
  (answer.1,
    { w with feed := answer.2, requests := w.requests ++ [⟨symbol, interval, count⟩] })

/-- The look, with the indicator noted each time. -/
def Exec.noting (look : Look (Watch σ)) : Look (Watch σ) := fun i source => do
  modify fun r => { r with feed := { r.feed with looks := r.feed.looks ++ [(i, source)] } }
  look i source

/-- The requests of a tick that comes to some indicators: one for the snapshot, then one for each
indicator that needs more bars when the tick comes to it for the first time. -/
def Engine.requestsFor (engine : Engine) (looks : List (Indicator × PriceSource)) :
    List Request :=
  ⟨engine.symbol, engine.interval, engine.historyBars⟩ ::
    (looks.eraseDups.filter fun k => engine.historyBars < k.1.minBars).map fun k =>
      ⟨engine.symbol, engine.interval, k.1.minBars⟩

namespace Engine

variable (engine : Engine) {looks : List (Indicator × PriceSource)} {k : Indicator × PriceSource}

theorem requestsFor_known (known : k ∈ looks) :
    engine.requestsFor (looks ++ [k]) = engine.requestsFor looks := by
  have none_new : [k].removeAll looks = [] := by simp [List.removeAll, known]
  rw [requestsFor, requestsFor, List.eraseDups_append, none_new, List.eraseDups_nil,
    List.append_nil]

theorem requestsFor_new (new : k ∉ looks) :
    engine.requestsFor (looks ++ [k]) = engine.requestsFor looks ++
      if engine.historyBars < k.1.minBars then
        [⟨engine.symbol, engine.interval, k.1.minBars⟩]
      else [] := by
  have one_new : ([k].removeAll looks).eraseDups = [k] := by
    simp [List.removeAll, List.eraseDups_cons, new]
  rw [requestsFor, requestsFor, List.eraseDups_append, one_new, List.filter_append,
    List.map_append, List.cons_append]
  split <;> simp [*]

end Engine

namespace Exec

variable {engine : Engine} {feed : Feed σ} {snapshot : List Bar}

/-- A watched feed gives the same points, and is asked for bars if the snapshot is too short. -/
theorem recompute_watched (i : Indicator) (source : PriceSource) {r : Run σ} {t : Run (Watch σ)}
    (installed : r.context.snapshot = some ⟨engine.symbol, engine.interval, snapshot⟩)
    (installed' : t.context.snapshot = some ⟨engine.symbol, engine.interval, snapshot⟩)
    (same : t.feed.feed = r.feed) :
    ∃ result u, (recompute engine feed i source).after r = (result, { r with feed := u }) ∧
      (recompute engine feed.watched i source).after t =
        (result, { t with feed := ⟨u, t.feed.requests ++
          if engine.historyBars < i.minBars then
            [⟨engine.symbol, engine.interval, i.minBars⟩]
          else [], t.feed.looks⟩ }) := by
  have left := @after_studyBars_eq _ engine feed snapshot i r installed
  have right := @after_studyBars_eq _ engine feed.watched snapshot i t installed'
  have computes : ∀ {ρ : Type} (f : Feed ρ) (q q' : Run ρ) (bars : Except StrategyError (List Bar)),
      (studyBars engine f i).after q = (bars, q') →
      (recompute engine f i source).after q =
        (bars.bind fun bars => (i.compute source bars).mapError .ofShortage, q') := by
    intro ρ f q q' bars supplied
    unfold recompute
    rw [after_bind, supplied]
    cases bars with
    | error e => rfl
    | ok bars =>
      simp only
      cases made : i.compute source bars <;> simp [Except.bind, made, Except.mapError]
  by_cases short : engine.historyBars < i.minBars
  · rw [if_pos short] at left right ⊢
    unfold Feed.watched at right
    simp only [same] at right
    exact ⟨_, _, computes _ _ _ _ left, computes _ _ _ _ right⟩
  · rw [if_neg short] at left right ⊢
    refine ⟨_, r.feed, computes _ _ _ _ left, ?_⟩
    rw [computes _ _ _ _ right, ← same, List.append_nil]

/-- Bars are asked for the first time that the run comes to an indicator that needs more of them, so
the requests are those for the indicators that it has come to. -/
theorem noting_agrees (engine : Engine) (feed : Feed σ) :
    Look.Agrees (some ⟨engine.symbol, engine.interval, snapshot⟩)
      (fun kept u kept' w => kept' = kept ∧ w.feed = u ∧
        w.requests = engine.requestsFor w.looks ∧ ∀ k, k ∈ w.looks ↔ (kept.lookup k).isSome)
      (fun _ u _ w => w.feed = u ∧ w.requests = engine.requestsFor w.looks)
      (study engine feed) (noting (study engine feed.watched)) := by
  refine ⟨fun _ _ _ _ h => ⟨h.2.1, h.2.2.1⟩, fun i source r t twins => ?_⟩
  obtain ⟨kept, same, requests, looks⟩ := twins.memory
  have installed' : t.context.snapshot = some ⟨engine.symbol, engine.interval, snapshot⟩ :=
    twins.context ▸ twins.snapshot
  have left := @after_study _ engine feed i source r
  -- the run that notes what it comes to, after the note
  let noted : Run (Watch σ) :=
    { t with feed := { t.feed with looks := t.feed.looks ++ [(i, source)] } }
  have right : (noting (study engine feed.watched) i source).after t = _ :=
    @after_study _ engine feed.watched i source noted
  have lookups : noted.studies.lookup (i, source) = r.studies.lookup (i, source) :=
    congrArg _ kept
  rw [lookups] at right
  cases known : r.studies.lookup (i, source) with
  | some points =>
    rw [known] at left right
    have seen : (i, source) ∈ t.feed.looks := (looks _).2 (by rw [known]; rfl)
    refine .ok left right ⟨twins.context, twins.decisions, twins.steps, twins.snapshot, kept, same,
      ?_, fun k => ?_⟩
    · exact requests.trans (engine.requestsFor_known seen).symm
    · refine Iff.trans ⟨fun hk => ?_, List.mem_append_left _⟩ (looks k)
      rcases List.mem_append.1 hk with hk | hk
      · exact hk
      · exact List.mem_singleton.1 hk ▸ seen
  | none =>
    have unseen : (i, source) ∉ t.feed.looks := fun h => by simpa [known] using (looks _).1 h
    have asked := (congrArg (· ++ _) requests).trans (engine.requestsFor_new unseen).symm
    obtain ⟨result, u, computed, computed'⟩ :=
      recompute_watched (t := noted) i source twins.snapshot installed' same
    rw [known, computed] at left
    rw [known, computed'] at right
    cases result with
    | error e =>
      exact .error left right ⟨twins.context, twins.decisions, twins.steps, twins.snapshot, rfl,
        asked⟩
    | ok points =>
      refine .ok left right ⟨twins.context, twins.decisions, twins.steps, twins.snapshot, ?_, rfl,
        asked, fun k => ?_⟩
      · exact congrArg _ kept
      · rw [List.lookup_cons]
        by_cases here : k = (i, source)
        · simp [noted, here]
        · have other : (k == (i, source)) = false := beq_false_of_ne here
          simp [noted, here, other, looks]

end Exec

/-! ## Ticks -/

namespace Engine

variable {engine : Engine} {feed : Feed σ}

/-- It makes no difference to a tick over a steady feed whether it keeps the points of indicators or
computes them every time. By keeping them, a tick asks for bars once for its snapshot and then once
for each indicator that needs more of them. -/
theorem tick_transparent (tree : Node) (c : Context) (s : σ) :
    let ticked := engine.tick feed tree c s
    let anew := engine.tickBy feed (Exec.recompute engine feed) tree c s
    let watched := engine.tickBy feed.watched (Exec.noting (Exec.study engine feed.watched)) tree c
      ⟨s, [], []⟩
    (feed.Steady engine.symbol engine.interval s →
      anew.result = ticked.result ∧ anew.context = ticked.context) ∧
    watched.result = ticked.result ∧ watched.context = ticked.context ∧
    watched.feed.feed = ticked.feed ∧
    watched.feed.requests = engine.requestsFor watched.feed.looks := by
  simp only
  rw [← tickBy_study c s]
  rcases answer : feed engine.symbol engine.interval engine.historyBars s with ⟨e | bars, s'⟩
  · have answer' : feed.watched engine.symbol engine.interval engine.historyBars ⟨s, [], []⟩ =
        (.error e, ⟨s', engine.requestsFor [], []⟩) := by
      rw [Feed.watched, answer]
      rfl
    rw [tickBy_of_refused c answer, tickBy_of_refused c answer, tickBy_of_refused c answer']
    exact ⟨fun _ => ⟨rfl, rfl⟩, rfl, rfl, rfl, rfl⟩
  · have answer' : feed.watched engine.symbol engine.interval engine.historyBars ⟨s, [], []⟩ =
        (.ok bars, ⟨s', engine.requestsFor [], []⟩) := by
      rw [Feed.watched, answer]
      rfl
    have reached : feed.Leads engine.symbol engine.interval s s' :=
      .single ⟨engine.historyBars, by rw [answer]⟩
    have watched := alike_tickBy tree c (Exec.noting_agrees engine feed) answer answer'
      ⟨rfl, rfl, rfl, fun k => by simp⟩
    obtain ⟨_, _, moved, requests⟩ := watched.feed
    refine ⟨fun steady => ?_, watched.result.symm, watched.context.symm, moved, requests⟩
    have anew := alike_tickBy tree c (Exec.recompute_agrees steady) answer answer
      ⟨reached, reached, fun _ _ _ known => by cases known⟩
    exact ⟨anew.result.symm, anew.context.symm⟩

/-- A strategy comes to the same two indicators twice. The longer one is asked for once. -/
theorem tick_transparent_repeated :
    let engine : Engine := ⟨"BTC", "1m", 2, 10, .persist⟩
    let replay : Replay := ⟨"BTC", "1m", (List.range 4).map Feed.minuteBar, 3⟩
    let short := Node.indicator "ema" { period := some 2 } "short"
    let long := Node.indicator "rsi" { period := some 2 } "long"
    let tree := Node.block [short, long, long, short]
    let ticked := engine.tick Replay.feed tree .empty replay
    let anew := engine.tickBy Replay.feed (Exec.recompute engine Replay.feed) tree .empty replay
    let watched := engine.tickBy Replay.feed.watched
      (Exec.noting (Exec.study engine Replay.feed.watched)) tree .empty ⟨replay, [], []⟩
    Replay.feed.Steady engine.symbol engine.interval replay ∧
      anew.result = ticked.result ∧ anew.context = ticked.context ∧
      ticked.result.toOption.isSome ∧ watched.feed.looks.length = 4 ∧
      watched.feed.requests = engine.requestsFor watched.feed.looks ∧
      engine.requestsFor watched.feed.looks = [⟨"BTC", "1m", 2⟩, ⟨"BTC", "1m", 3⟩] := by
  intro engine replay short long tree ticked anew watched
  have steady : Replay.feed.Steady engine.symbol engine.interval replay :=
    Feed.steady_of_unmoved (fun _ _ _ _ => rfl) _ _ _
  obtain ⟨same, -, -, -, requests⟩ := @tick_transparent _ engine Replay.feed tree .empty replay
  have runs : ticked.result.toOption.isSome := by decide +kernel
  have looks : watched.feed.looks.length = 4 := by decide +kernel
  have asked : engine.requestsFor watched.feed.looks =
      [⟨"BTC", "1m", 2⟩, ⟨"BTC", "1m", 3⟩] := by decide +kernel
  obtain ⟨result, context⟩ := same steady
  -- The ticks are the same terms. Only so are they not run to be compared.
  with_reducible exact ⟨steady, result, context, runs, looks, requests, asked⟩

end Engine

end Stratagem
