import Stratagem.Proofs.Indicator.Bindings
import Stratagem.Proofs.Session.Readings
import Stratagem.Session.Run

/-!
# Effects of a run

What the steps of a run do, as equations. `Exec.after x r` is the result of `x` together with the
state that it leaves behind when it starts in `r`; an error keeps its state too.

* `Exec.Ensures x r good bad` says that from `r` on `x` ends well with `good` or fails with `bad`.
  `ensures_bind` and its companions compute it, so a claim about a step becomes a claim about the
  functions it calls.
* Conditions, orders and waits read the context and nothing else; they do what `Context.decision`,
  `Context.beginWait` and `Context.stillPending` say (`after_order`, `after_enterWait`,
  `after_stillPending`).
* `ensures_indicator` says all that an indicator can do.
-/

namespace Stratagem

namespace Exec

variable {σ α β : Type}

/-! ## Results with states -/

/-- The result of a step and the state it leaves. -/
def after (x : Exec σ α) (r : Run σ) : Except StrategyError α × Run σ := x.run r

theorem ext_after {x y : Exec σ α} (h : ∀ r, x.after r = y.after r) : x = y := funext h

@[simp] theorem after_pure (a : α) (r : Run σ) : (pure a : Exec σ α).after r = (.ok a, r) := rfl

@[simp] theorem after_throw (e : StrategyError) (r : Run σ) :
    (throw e : Exec σ α).after r = (.error e, r) := rfl

@[simp] theorem after_get (r : Run σ) : (get : Exec σ (Run σ)).after r = (.ok r, r) := rfl

@[simp] theorem after_set (r s : Run σ) : (set s : Exec σ PUnit).after r = (.ok ⟨⟩, s) := rfl

@[simp] theorem after_modify (f : Run σ → Run σ) (r : Run σ) :
    (modify f : Exec σ PUnit).after r = (.ok ⟨⟩, f r) := rfl

@[simp] theorem after_updateContext (f : Context → Context) (r : Run σ) :
    (updateContext f).after r = (.ok (), { r with context := f r.context }) := rfl

theorem after_bind (x : Exec σ α) (f : α → Exec σ β) (r : Run σ) :
    (x >>= f).after r =
      match x.after r with
      | (.ok a, s) => (f a).after s
      | (.error e, s) => (.error e, s) := by
  simp only [after, ExceptT.run_bind]
  simp only [bind, StateT.bind]
  rcases x.run r with ⟨e | a, s⟩ <;> rfl

theorem after_ofFormula (result : Except Fault α) (r : Run σ) :
    (ofFormula result : Exec σ α).after r = (result.mapError .ofFault, r) := by
  cases result <;> rfl

theorem after_ofTrade (result : Except TradeFault α) (r : Run σ) :
    (ofTrade result : Exec σ α).after r = (result.mapError .trade, r) := by
  cases result <;> rfl

/-! ## Postconditions -/

/-- From `r` on, `x` ends with a result and a state that meet `good`, or fails with an error and a
state that meet `bad`. -/
structure Ensures (x : Exec σ α) (r : Run σ) (good : α → Run σ → Prop)
    (bad : StrategyError → Run σ → Prop) : Prop where
  ok : ∀ {a s}, x.after r = (.ok a, s) → good a s
  error : ∀ {e s}, x.after r = (.error e, s) → bad e s

section

variable {r : Run σ} {bad : StrategyError → Run σ → Prop}

theorem ensures_iff {x : Exec σ α} {good : α → Run σ → Prop} :
    x.Ensures r good bad ↔
      match x.after r with
      | (.ok a, s) => good a s
      | (.error e, s) => bad e s := by
  constructor
  · intro h
    rcases hx : x.after r with ⟨e | a, s⟩
    · exact h.error hx
    · exact h.ok hx
  · intro h
    refine ⟨fun hx => ?_, fun hx => ?_⟩
    · rwa [hx] at h
    · rwa [hx] at h

@[simp] theorem ensures_pure {a : α} {good : α → Run σ → Prop} :
    (pure a : Exec σ α).Ensures r good bad ↔ good a r := ensures_iff

@[simp] theorem ensures_throw {e : StrategyError} {good : α → Run σ → Prop} :
    (throw e : Exec σ α).Ensures r good bad ↔ bad e r := ensures_iff

@[simp] theorem ensures_refuse {fault : EngineFault} {good : α → Run σ → Prop} :
    (refuse fault : Exec σ α).Ensures r good bad ↔ bad (.evaluation fault) r := ensures_iff

@[simp] theorem ensures_get {good : Run σ → Run σ → Prop} :
    (get : Exec σ (Run σ)).Ensures r good bad ↔ good r r := ensures_iff

@[simp] theorem ensures_set {s : Run σ} {good : PUnit → Run σ → Prop} :
    (set s : Exec σ PUnit).Ensures r good bad ↔ good ⟨⟩ s := ensures_iff

@[simp] theorem ensures_modify {f : Run σ → Run σ} {good : PUnit → Run σ → Prop} :
    (modify f : Exec σ PUnit).Ensures r good bad ↔ good ⟨⟩ (f r) := ensures_iff

@[simp] theorem ensures_updateContext {f : Context → Context} {good : Unit → Run σ → Prop} :
    (updateContext f).Ensures r good bad ↔ good () { r with context := f r.context } := ensures_iff

@[simp] theorem ensures_bind {x : Exec σ α} {f : α → Exec σ β} {good : β → Run σ → Prop} :
    (x >>= f).Ensures r good bad ↔ x.Ensures r (fun a s => (f a).Ensures s good bad) bad := by
  rw [ensures_iff, ensures_iff, after_bind]
  rcases x.after r with ⟨e | a, s⟩
  · rfl
  · exact ensures_iff.symm

theorem Ensures.mono {x : Exec σ α} {good good' : α → Run σ → Prop}
    {bad' : StrategyError → Run σ → Prop} (h : x.Ensures r good bad)
    (hgood : ∀ a s, good a s → good' a s) (hbad : ∀ e s, bad e s → bad' e s) :
    x.Ensures r good' bad' :=
  ⟨fun hx => hgood _ _ (h.ok hx), fun hx => hbad _ _ (h.error hx)⟩

theorem Ensures.and {x : Exec σ α} {good good' : α → Run σ → Prop}
    {bad' : StrategyError → Run σ → Prop} (h : x.Ensures r good bad)
    (h' : x.Ensures r good' bad') :
    x.Ensures r (fun a s => good a s ∧ good' a s) fun e s => bad e s ∧ bad' e s :=
  ⟨fun hx => ⟨h.ok hx, h'.ok hx⟩, fun hx => ⟨h.error hx, h'.error hx⟩⟩

end

end Exec

/-- The points that a run keeps have readings of the families of their indicators. -/
def Run.Shaped {σ : Type} (r : Run σ) : Prop :=
  ∀ x ∈ r.studies, ∀ p ∈ x.2, x.1.1.kind.Shapes p.reading

namespace Exec

variable {σ : Type}

/-! ## Instructions that read the context -/

theorem after_value (e : Expr) (r : Run σ) :
    (value e).after r = ((e.evaluate r.context.lookup).mapError .ofFault, r) := by
  rw [value, after_bind, after_get]
  exact after_ofFormula _ r

theorem after_condition (e : Expr) (r : Run σ) :
    (condition e).after r = ((e.evaluateBool r.context.lookup).mapError .ofFault, r) := by
  rw [condition, after_bind, after_get]
  exact after_ofFormula _ r

theorem after_number (e : Expr) (r : Run σ) :
    (number e).after r = (r.context.number e, r) := by
  rw [number, after_bind, after_get]
  exact after_ofFormula _ r

theorem after_optionalNumber (e : Option Expr) (r : Run σ) :
    (optionalNumber e).after r = (r.context.optionalNumber e, r) := by
  cases e with
  | none => rfl
  | some e =>
    rw [optionalNumber, after_bind, after_number, Context.optionalNumber]
    cases r.context.number e <;> rfl

/-- An order adds its decision, or it fails and changes nothing. -/
theorem after_order (o : Order) (r : Run σ) :
    (order o).after r =
      match r.context.decision o with
      | .ok d => (.ok (), { r with decisions := r.decisions ++ [d] })
      | .error e => (.error e, r) := by
  rw [order, after_bind, after_get, Context.decision]
  simp only
  cases r.context.latestBar? with
  | none => rfl
  | some bar =>
    simp only [after_bind, after_ofTrade, after_number, after_optionalNumber]
    cases Side.ofWord o.side with
    | error fault => rfl
    | ok side =>
      simp only [mapError_ok, bind, Except.bind]
      cases r.context.number o.size with
      | error e => rfl
      | ok size =>
        simp only
        cases r.context.optionalNumber o.price with
        | error e => rfl
        | ok price =>
          simp only
          cases r.context.optionalNumber o.stop with
          | error e => rfl
          | ok stop =>
            simp only
            cases Decision.make o.symbol side size price stop bar.time <;> rfl

/-- A wait that begins pauses the context, is over at once, or fails and changes nothing. -/
theorem after_enterWait (w : Wait) (path : Path) (r : Run σ) :
    (enterWait w path).after r =
      match r.context.beginWait w with
      | .ok (some pending) =>
        (.ok (.pause path), { r with context := r.context.suspend ⟨path, pending⟩ })
      | .ok none => (.ok .proceed, r)
      | .error e => (.error e, r) := by
  cases w with
  | ticks count =>
    simp only [enterWait, Context.beginWait]
    split <;> rfl
  | elapsed span =>
    simp only [enterWait, Context.beginWait]
    split
    · rw [after_bind, after_get]
      simp only
      cases r.context.latestBar? with
      | none => rfl
      | some bar =>
        simp only
        cases bar.time.addNanos? span.nanos.toNat <;> rfl
    · rfl
  | condition e =>
    rw [enterWait, after_bind, after_condition, Context.beginWait]
    cases e.evaluateBool r.context.lookup with
    | error fault => rfl
    | ok holds => cases holds <;> rfl

theorem ensures_enterWait {w : Wait} {path : Path} {r : Run σ} {good : Flow → Run σ → Prop}
    {bad : StrategyError → Run σ → Prop}
    (pauses : ∀ pending, r.context.beginWait w = .ok (some pending) →
      good (.pause path) { r with context := r.context.suspend ⟨path, pending⟩ })
    (skips : r.context.beginWait w = .ok none → good .proceed r)
    (fails : ∀ e, r.context.beginWait w = .error e → bad e r) :
    (enterWait w path).Ensures r good bad := by
  rw [ensures_iff, after_enterWait]
  rcases h : r.context.beginWait w with e | _ | pending
  · exact fails e h
  · exact skips h
  · exact pauses pending h

theorem after_stillPending (w : Wait) (s : Suspension) (r : Run σ) :
    (stillPending w s).after r = (r.context.stillPending w s, r) := by
  unfold stillPending Context.stillPending
  cases s.pending with
  | ticks remaining => rfl
  | deadline time =>
    rw [after_bind, after_get]
    simp only
    cases r.context.latestBar? <;> rfl
  | condition =>
    cases w with
    | ticks count => rfl
    | elapsed span => rfl
    | condition e =>
      simp only [after_bind, after_condition]
      cases e.evaluateBool r.context.lookup with
      | error fault => rfl
      | ok holds => cases holds <;> rfl

/-! ## Instructions that change the run -/

variable {engine : Engine} {feed : Feed σ} {r : Run σ} {bad : StrategyError → Run σ → Prop}

/-- Entering an instruction counts it, and fails past the limit. -/
theorem ensures_step {good : Unit → Run σ → Prop} :
    (step engine).Ensures r good bad ↔
      if engine.maxSteps < r.steps + 1 then
        bad (.stepLimit engine.maxSteps) { r with steps := r.steps + 1 }
      else good () { r with steps := r.steps + 1 } := by
  simp only [step, ensures_bind, ensures_modify, ensures_get]
  split
  · exact ensures_throw
  · exact ensures_pure

/-- A request of bars changes the feed and nothing else. -/
theorem ensures_fetch {count : Nat} {good : List Bar → Run σ → Prop} :
    (fetch engine feed count).Ensures r good bad ↔
      match feed engine.symbol engine.interval count r.feed with
      | (.ok bars, s) => good bars { r with feed := s }
      | (.error e, s) =>
        bad (.evaluation (.feed engine.symbol engine.interval e)) { r with feed := s } := by
  simp only [fetch, ensures_bind, ensures_get, ensures_set]
  rcases feed engine.symbol engine.interval count r.feed with ⟨e | bars, s⟩
  · exact ensures_refuse
  · exact ensures_pure

/-- The bars that an indicator is computed over, and the feed after it got them: the bars of the
snapshot, or a longer stretch of the feed. -/
inductive Supplies (engine : Engine) (feed : Feed σ) (i : Indicator) (r : Run σ) :
    List Bar → σ → Prop
  | fetched {bars : List Bar} {s : σ} (short : engine.historyBars < i.minBars)
      (answer : feed engine.symbol engine.interval i.minBars r.feed = (.ok bars, s)) :
      Supplies engine feed i r bars s
  | snapshot (long : i.minBars ≤ engine.historyBars) :
      Supplies engine feed i r ((r.context.snapshot.map Snapshot.bars).getD []) r.feed

/-- All that the bars of an indicator can lead to. -/
theorem ensures_studyBars {i : Indicator} {good : List Bar → Run σ → Prop}
    (supplied : ∀ bars s, Supplies engine feed i r bars s → good bars { r with feed := s })
    (refused : ∀ e s, bad (.evaluation (.feed engine.symbol engine.interval e))
      { r with feed := s }) :
    (studyBars engine feed i).Ensures r good bad := by
  unfold studyBars
  split
  · rename_i short
    rw [ensures_fetch]
    rcases h : feed engine.symbol engine.interval i.minBars r.feed with ⟨e | bars, s⟩
    · exact refused e s
    · exact supplied bars s (.fetched short h)
  · rename_i long
    have snapshot := supplied _ _ (.snapshot (Nat.not_lt.1 long))
    rw [ensures_bind, ensures_get]
    cases h : r.context.snapshot with
    | none => simpa [h] using snapshot
    | some s => simpa [h] using snapshot

/-- The points of an indicator in a run, and the run that has them: they have been computed in this
tick, or they are computed now and kept. -/
inductive Studied (engine : Engine) (feed : Feed σ) (i : Indicator) (source : PriceSource)
    (r : Run σ) : List Point → Run σ → Prop
  | known {points : List Point} (found : r.studies.lookup (i, source) = some points) :
      Studied engine feed i source r points r
  | computed {bars : List Bar} {s : σ} {points : List Point}
      (missing : r.studies.lookup (i, source) = none) (supplied : Supplies engine feed i r bars s)
      (made : i.compute source bars = .ok points) :
      Studied engine feed i source r points
        { r with feed := s, studies := ((i, source), points) :: r.studies }

/-- The errors that come up while an indicator gets its points, and the feed after them. -/
inductive StudyFails (engine : Engine) (feed : Feed σ) (i : Indicator) (source : PriceSource)
    (r : Run σ) : StrategyError → σ → Prop
  | feed (error : FeedError) (s : σ) :
      StudyFails engine feed i source r (.evaluation (.feed engine.symbol engine.interval error)) s
  | short {bars : List Bar} {s : σ} {cause : Shortage} (supplied : Supplies engine feed i r bars s)
      (failed : i.compute source bars = .error cause) :
      StudyFails engine feed i source r (.ofShortage cause) s

/-- Points that an indicator has in a run have readings of its family. -/
theorem Studied.shaped {i : Indicator} {source : PriceSource} {points : List Point}
    {s : Run σ} (h : Studied engine feed i source r points s) (shaped : r.Shaped) :
    s.Shaped ∧ ∀ p ∈ points, i.kind.Shapes p.reading := by
  cases h with
  | known found =>
    obtain ⟨before, after, studies, -⟩ := List.lookup_eq_some_iff.1 found
    refine ⟨shaped, shaped ((i, source), points) ?_⟩
    rw [studies]
    exact List.mem_append_right _ List.mem_cons_self
  | computed missing supplied made =>
    have shapes := Indicator.shapes_compute made
    refine ⟨?_, shapes⟩
    intro x hx
    rcases List.mem_cons.1 hx with rfl | hx
    · exact shapes
    · exact shaped x hx

/-- All that the points of an indicator can lead to. -/
theorem ensures_study {i : Indicator} {source : PriceSource} {good : List Point → Run σ → Prop}
    (studied : ∀ points s, Studied engine feed i source r points s → good points s)
    (fails : ∀ e s, StudyFails engine feed i source r e s → bad e { r with feed := s }) :
    (study engine feed i source).Ensures r good bad := by
  rw [study, ensures_bind, ensures_get]
  cases found : r.studies.lookup (i, source) with
  | some points => exact ensures_pure.2 (studied points r (.known found))
  | none =>
    rw [ensures_bind]
    refine ensures_studyBars (fun bars s supplied => ?_) fun e s => fails _ s (.feed e s)
    cases made : i.compute source bars with
    | error cause => exact ensures_throw.2 (fails _ s (.short supplied made))
    | ok points =>
      simp only [ensures_bind, ensures_modify, ensures_pure]
      exact studied points _ (.computed found supplied made)

/-- All that an indicator can lead to: it binds the values of its last point, or it fails and binds
nothing. -/
theorem ensures_indicator {name : String} {params : Params} {target : String}
    {good : Unit → Run σ → Prop}
    (bound : ∀ kind i points s point, Kind.ofName? name = some kind →
      kind.configure params = .ok i → Studied engine feed i params.source r points s →
      currentPoint? points = some point →
      good () { s with context := s.context.bindAll (point.reading.bindings target) })
    (unknown : Kind.ofName? name = none → bad (.unknownIndicator name) r)
    (parameter : ∀ kind fault, Kind.ofName? name = some kind →
      kind.configure params = .error fault → bad (.evaluation (.parameter name fault)) r)
    (fails : ∀ kind i e s, Kind.ofName? name = some kind → kind.configure params = .ok i →
      StudyFails engine feed i params.source r e s → bad e { r with feed := s })
    (invalid : ∀ kind i points s, Kind.ofName? name = some kind → kind.configure params = .ok i →
      Studied engine feed i params.source r points s → currentPoint? points = none →
      bad (.evaluation (.noCurrentValue i)) s) :
    (indicator engine feed name params target).Ensures r good bad := by
  unfold indicator
  cases hkind : Kind.ofName? name with
  | none => exact ensures_throw.2 (unknown hkind)
  | some kind =>
    simp only
    cases hi : kind.configure params with
    | error fault => exact ensures_refuse.2 (parameter kind fault hkind hi)
    | ok i =>
      simp only [ensures_bind]
      refine ensures_study (fun points s studied => ?_) fun e s => fails kind i e s hkind hi
      cases hpoint : currentPoint? points with
      | none => exact ensures_refuse.2 (invalid kind i points s hkind hi studied hpoint)
      | some point =>
        exact ensures_updateContext.2 (bound kind i points s point hkind hi studied hpoint)

end Exec

end Stratagem
