import Stratagem.Proofs.Session.Coupling
import Stratagem.Proofs.Session.Requests

/-!
# Runs with other ways to the points of an indicator

A run gets the points of an indicator by looking them up (`Exec.study`). Here a run is given any
other way to get them (`Look`), with everything else as it is; with `Exec.study` it is the run of
the engine (`Engine.tickBy_study`).

Two runs with different looks go the same way if their looks give the same points
(`Engine.alike_tickBy`). They may keep different things in their feeds and studies, so what these
have to do with each other is left open (`Run.Abreast`).
-/

namespace Stratagem

/-- A way to get the points of an indicator. -/
abbrev Look (σ : Type) := Indicator → PriceSource → Exec σ (List Point)

/-- The points that a run keeps. -/
abbrev Studies := List ((Indicator × PriceSource) × List Point)

/-! ## Runs -/

namespace Exec

variable {σ τ : Type}

section

variable (engine : Engine) (look : Look σ)

/-- Binds the values of an indicator at the latest bar. -/
def indicatorBy (name : String) (params : Params) (target : String) : Exec σ Unit := do
  match Kind.ofName? name with
  | none => throw (.unknownIndicator name)
  | some kind =>
    match kind.configure params with
    | .error fault => refuse (.parameter name fault)
    | .ok i =>
      match currentPoint? (← look i params.source) with
      | none => refuse (.noCurrentValue i)
      | some point => updateContext fun c => c.bindAll (point.reading.bindings target)

mutual
/-- Runs an instruction. -/
def execBy : Node → Path → Exec σ Flow
  | .block children, path => do
    step engine
    execFromBy children 0 path
  | .branch e yes no, path => do
    step engine
    if ← condition e then execBy yes path.yes else execOptionalBy no path.no
  | .indicator name params target, _ => do
    step engine
    indicatorBy look name params target
    return .proceed
  | .assign target e, _ => do
    step engine
    let v ← value e
    updateContext fun c => c.bind target v
    return .proceed
  | .order o, _ => do
    step engine
    order o
    return .proceed
  | .wait w, path => do
    step engine
    enterWait w path

/-- Runs children of a block, the first of which has a given index, up to a pause. -/
def execFromBy : List Node → (index : Nat) → Path → Exec σ Flow
  | [], _, _ => return .proceed
  | n :: ns, index, path => do
    match ← execBy n (path.child index) with
    | .pause p => return .pause p
    | .proceed => execFromBy ns (index + 1) path

/-- Runs a side of a branch that may be missing. -/
def execOptionalBy : Option Node → Path → Exec σ Flow
  | none, _ => return .proceed
  | some n, path => execBy n path
end

/-- Runs what follows the instruction at the end of a path. -/
def continueAfterBy : (rest : Path) → (node : Node) → (path : Path) → Exec σ Flow
  | [], _, _ => return .proceed
  | .child i :: rest, .block children, path =>
    match children[i]? with
    | none => refuse (.stalePath path)
    | some n => do
      match ← continueAfterBy rest n (path.child i) with
      | .pause p => return .pause p
      | .proceed => execFromBy engine look (children.drop (i + 1)) (i + 1) path
  | .yes :: rest, .branch _ yes _, path => continueAfterBy rest yes path.yes
  | .no :: rest, .branch _ _ no, path =>
    match no with
    | none => refuse (.stalePath path)
    | some n => continueAfterBy rest n path.no
  | _, _, path => refuse (.stalePath path)

/-- Goes on with a tree that was paused at a wait. -/
def resumeBy (tree : Node) (s : Suspension) : Exec σ Flow := do
  match tree.at? s.path with
  | some (.wait w) =>
    step engine
    match ← stillPending w s with
    | some pending => pause s.path pending
    | none => continueAfterBy engine look s.path tree []
  | _ => refuse (.notAWait s.path)

end

/-! ## The look of the engine -/

section

variable {engine : Engine} {feed : Feed σ}

theorem indicatorBy_study (name : String) (params : Params) (target : String) :
    indicatorBy (study engine feed) name params target =
      indicator engine feed name params target := by
  unfold indicatorBy indicator
  cases Kind.ofName? name with
  | none => rfl
  | some kind => cases kind.configure params <;> rfl

mutual
theorem execBy_study (n : Node) (path : Path) :
    execBy engine (study engine feed) n path = exec engine feed n path := by
  cases n with
  | block children => rw [execBy, exec, execFromBy_study]
  | branch e yes no =>
    rw [execBy, exec, execBy_study yes]
    cases no with
    | none => rw [execOptionalBy, execOptional]
    | some no => rw [execOptionalBy, execOptional, execBy_study no]
  | indicator name params target => rw [execBy, exec, indicatorBy_study]
  | assign target e => rw [execBy, exec]
  | order o => rw [execBy, exec]
  | wait w => rw [execBy, exec]

theorem execFromBy_study (ns : List Node) (index : Nat) (path : Path) :
    execFromBy engine (study engine feed) ns index path = execFrom engine feed ns index path := by
  cases ns with
  | nil => rw [execFromBy, execFrom]
  | cons n ns =>
    rw [execFromBy, execFrom, execBy_study]
    refine bind_congr fun flow => ?_
    cases flow with
    | pause p => rfl
    | proceed => exact execFromBy_study ns (index + 1) path
end

theorem continueAfterBy_study (rest : Path) (node : Node) (path : Path) :
    continueAfterBy engine (study engine feed) rest node path =
      continueAfter engine feed rest node path := by
  induction rest generalizing node path with
  | nil => rw [continueAfterBy, continueAfter]
  | cons s rest ih =>
    cases s with
    | child i =>
      cases node with
      | block children =>
        rw [continueAfterBy, continueAfter]
        cases children[i]? with
        | none => rfl
        | some n =>
          refine (congrArg (· >>= _) (ih n (path.child i))).trans (bind_congr fun flow => ?_)
          cases flow with
          | pause p => rfl
          | proceed => exact execFromBy_study _ _ path
      | branch e yes no | indicator name params target | assign target e | order o | wait w => rfl
    | yes =>
      cases node with
      | branch e yes no => exact ih yes path.yes
      | block children | indicator name params target | assign target e | order o | wait w => rfl
    | no =>
      cases node with
      | branch e yes no =>
        cases no with
        | none => rfl
        | some n => exact ih n path.no
      | block children | indicator name params target | assign target e | order o | wait w => rfl

theorem resumeBy_study (tree : Node) (s : Suspension) :
    resumeBy engine (study engine feed) tree s = resume engine feed tree s := by
  unfold resumeBy resume
  rcases tree.at? s.path with _ | n
  · rfl
  · cases n with
    | wait w =>
      refine bind_congr fun _ => bind_congr fun pending => ?_
      cases pending with
      | some pending => rfl
      | none => exact continueAfterBy_study s.path tree []
    | block | branch | indicator | assign | order => rfl

end

end Exec

/-! ## Ticks -/

namespace Engine

section

variable {σ : Type} (engine : Engine) (feed : Feed σ) (look : Look σ)

/-- The instructions of a tick: the pending wait and what follows it, or the whole tree. -/
def runTreeBy (tree : Node) : Exec σ Flow := do
  let bars ← Exec.fetch engine feed engine.historyBars
  Exec.updateContext fun c => c.install ⟨engine.symbol, engine.interval, bars⟩
  match (← get).context.suspension with
  | some s =>
    Exec.updateContext Context.wake
    Exec.resumeBy engine look tree s
  | none =>
    if engine.policy = .reset then Exec.updateContext Context.clearVariables
    Exec.execBy engine look tree []

/-- One tick of a strategy. -/
def tickBy (tree : Node) (c : Context) (s : σ) : Ticked σ :=
  .ofRun ((engine.runTreeBy feed look tree).after (.start c s))

variable {engine feed look} {tree : Node}

/-- The tick of the engine looks points up. -/
theorem tickBy_study (c : Context) (s : σ) :
    engine.tickBy feed (Exec.study engine feed) tree c s = engine.tick feed tree c s := by
  rw [tickBy, tick_eq]
  congr 2
  unfold runTreeBy runTree
  refine bind_congr fun bars => bind_congr fun _ => bind_congr fun r => ?_
  cases r.context.suspension with
  | some s => exact bind_congr fun _ => Exec.resumeBy_study tree s
  | none => rw [Exec.execBy_study]

theorem after_runTreeBy (r : Run σ) :
    (engine.runTreeBy feed look tree).after r =
      match feed engine.symbol engine.interval engine.historyBars r.feed with
      | (.error e, s) =>
        (.error (.evaluation (.feed engine.symbol engine.interval e)), { r with feed := s })
      | (.ok bars, s) =>
        match r.context.suspension with
        | some w =>
          (Exec.resumeBy engine look tree w).after
            { r with feed := s, context := (engine.supplied bars r.context).wake }
        | none =>
          (Exec.execBy engine look tree []).after
            { r with feed := s, context := engine.renewed (engine.supplied bars r.context) } := by
  unfold runTreeBy Exec.fetch
  simp only [bind_assoc, Exec.after_bind, Exec.after_get, Exec.after_set]
  rcases feed engine.symbol engine.interval engine.historyBars r.feed with ⟨e | bars, s⟩
  · rfl
  · simp only [Exec.after_pure, Exec.after_updateContext, supplied, Context.install]
    cases hs : r.context.suspension with
    | some w => rfl
    | none =>
      unfold renewed
      by_cases reset : engine.policy = .reset
      · simp only [reset, if_true]
        rfl
      · simp only [reset, if_false]

end

end Engine

/-! ## Two runs with different looks -/

section

variable {σ τ α : Type} {snapshot : Option Snapshot} {M N : Studies → σ → Studies → τ → Prop}

/-- Two runs with the same snapshot that agree but for the points that they keep and their feeds,
and what these have to do with each other. -/
structure Run.Abreast (snapshot : Option Snapshot) (M : Studies → σ → Studies → τ → Prop)
    (r : Run σ) (t : Run τ) : Prop where
  context : r.context = t.context
  decisions : r.decisions = t.decisions
  steps : r.steps = t.steps
  snapshot : r.context.snapshot = snapshot
  memory : M r.studies r.feed t.studies t.feed

namespace Run

variable {r : Run σ} {t : Run τ}

theorem Abreast.mono (h : r.Abreast snapshot M t)
    (weaker : ∀ k s k' s', M k s k' s' → N k s k' s') : r.Abreast snapshot N t :=
  ⟨h.context, h.decisions, h.steps, h.snapshot, weaker _ _ _ _ h.memory⟩

theorem Abreast.counted (h : r.Abreast snapshot M t) : r.counted.Abreast snapshot M t.counted :=
  ⟨h.context, h.decisions, congrArg (· + 1) h.steps, h.snapshot, h.memory⟩

/-- Both runs change their contexts alike, and they keep their snapshots. -/
theorem Abreast.change (h : r.Abreast snapshot M t) (f : Context → Context)
    (keeps : ∀ c, (f c).snapshot = c.snapshot) :
    Abreast snapshot M { r with context := f r.context } { t with context := f t.context } :=
  ⟨congrArg f h.context, h.decisions, h.steps, (keeps _).trans h.snapshot, h.memory⟩

theorem Abreast.decide (h : r.Abreast snapshot M t) (d : Decision) :
    Abreast snapshot M { r with decisions := r.decisions ++ [d] }
      { t with decisions := t.decisions ++ [d] } :=
  ⟨h.context, congrArg (· ++ [d]) h.decisions, h.steps, h.snapshot, h.memory⟩

end Run

namespace Exec

/-- The steps keep two runs alike. They may fail alike and leave less behind. -/
def Agrees (snapshot : Option Snapshot) (M N : Studies → σ → Studies → τ → Prop) (x : Exec σ α)
    (y : Exec τ α) : Prop :=
  ∀ r t, r.Abreast snapshot M t →
    x.Coupled y r t (fun _ => Run.Abreast snapshot M) (Run.Abreast snapshot N)

/-! ### Steps -/

theorem Agrees.bind {β : Type} {x : Exec σ α} {y : Exec τ α} {f : α → Exec σ β} {g : α → Exec τ β}
    (first : x.Agrees snapshot M N y) (next : ∀ a, (f a).Agrees snapshot M N (g a)) :
    (x >>= f).Agrees snapshot M N (y >>= g) :=
  fun r t twins => (first r t twins).bind fun a r' t' => next a r' t'

theorem agrees_pure (a : α) : (pure a : Exec σ α).Agrees snapshot M N (pure a : Exec τ α) :=
  fun _ _ twins => coupled_pure twins

section

variable (weaker : ∀ k s k' s', M k s k' s' → N k s k' s')
include weaker

theorem agrees_throw (e : StrategyError) :
    (throw e : Exec σ α).Agrees snapshot M N (throw e : Exec τ α) :=
  fun _ _ twins => coupled_throw (twins.mono weaker)

theorem agrees_refuse (fault : EngineFault) :
    (refuse fault : Exec σ α).Agrees snapshot M N (refuse fault : Exec τ α) :=
  agrees_throw weaker _

/-- A step that reads the context and changes nothing. -/
theorem agrees_reading {x : Exec σ α} {y : Exec τ α} (f : Context → Except StrategyError α)
    (left : ∀ r, x.after r = (f r.context, r)) (right : ∀ t, y.after t = (f t.context, t)) :
    x.Agrees snapshot M N y := by
  intro r t twins
  refine coupled_result (left r) ?_ (fun _ _ => twins) (twins.mono weaker)
  rw [right, twins.context]

theorem agrees_condition (e : Expr) :
    (condition e : Exec σ Bool).Agrees snapshot M N (condition e : Exec τ Bool) :=
  agrees_reading weaker (fun c => (e.evaluateBool c.lookup).mapError .ofFault) (after_condition e)
    (after_condition e)

theorem agrees_value (e : Expr) :
    (value e : Exec σ Value).Agrees snapshot M N (value e : Exec τ Value) :=
  agrees_reading weaker (fun c => (e.evaluate c.lookup).mapError .ofFault) (after_value e)
    (after_value e)

theorem agrees_stillPending (w : Wait) (s : Suspension) :
    (stillPending w s : Exec σ (Option Pending)).Agrees snapshot M N (stillPending w s) :=
  agrees_reading weaker (fun c => c.stillPending w s) (after_stillPending w s)
    (after_stillPending w s)

omit weaker in
theorem agrees_updateContext {f : Context → Context} (keeps : ∀ c, (f c).snapshot = c.snapshot) :
    (updateContext f : Exec σ Unit).Agrees snapshot M N (updateContext f : Exec τ Unit) :=
  fun _ _ twins => coupled_modify (twins.change f keeps)

theorem agrees_step (engine : Engine) :
    (step engine : Exec σ Unit).Agrees snapshot M N (step engine : Exec τ Unit) := by
  intro r t twins
  have limit : (step engine : Exec τ Unit).after t =
      if engine.maxSteps < r.steps + 1 then (.error (.stepLimit engine.maxSteps), t.counted)
      else (.ok (), t.counted) := by
    rw [twins.steps, after_step]
  by_cases passed : engine.maxSteps < r.steps + 1
  · refine .error (e := .stepLimit engine.maxSteps) ?_ ?_ (twins.counted.mono weaker)
    · rw [after_step, if_pos passed]
    · rw [limit, if_pos passed]
  · refine .ok (a := ()) ?_ ?_ twins.counted
    · rw [after_step, if_neg passed]
    · rw [limit, if_neg passed]

theorem agrees_order (o : Order) :
    (order o : Exec σ Unit).Agrees snapshot M N (order o : Exec τ Unit) := by
  intro r t twins
  have left := after_order o r
  have right := after_order o t
  have same : t.context.decision o = r.context.decision o := by rw [twins.context]
  rw [same] at right
  cases decides : r.context.decision o with
  | error e =>
    rw [decides] at left right
    exact .error left right (twins.mono weaker)
  | ok d =>
    rw [decides] at left right
    exact .ok left right (twins.decide d)

theorem agrees_enterWait (w : Wait) (path : Path) :
    (enterWait w path : Exec σ Flow).Agrees snapshot M N (enterWait w path : Exec τ Flow) := by
  intro r t twins
  have left := after_enterWait w path r
  have right := after_enterWait w path t
  have same : t.context.beginWait w = r.context.beginWait w := by rw [twins.context]
  rw [same] at right
  rcases begins : r.context.beginWait w with e | _ | pending
  · rw [begins] at left right
    exact .error left right (twins.mono weaker)
  · rw [begins] at left right
    exact .ok left right twins
  · rw [begins] at left right
    exact .ok left right (twins.change (fun c => c.suspend ⟨path, pending⟩) fun _ => rfl)

end

end Exec

/-! ### Instructions -/

/-- Two looks give the same points to two runs that are alike. -/
structure Look.Agrees (snapshot : Option Snapshot) (M N : Studies → σ → Studies → τ → Prop)
    (look : Look σ) (look' : Look τ) : Prop where
  weaker : ∀ k s k' s', M k s k' s' → N k s k' s'
  points : ∀ i source, (look i source).Agrees snapshot M N (look' i source)

namespace Exec

section

variable {engine : Engine} {look : Look σ} {look' : Look τ}

theorem agrees_indicatorBy (looks : Look.Agrees snapshot M N look look') (name : String)
    (params : Params) (target : String) :
    (indicatorBy look name params target).Agrees snapshot M N
      (indicatorBy look' name params target) := by
  unfold indicatorBy
  cases Kind.ofName? name with
  | none => exact agrees_throw looks.weaker _
  | some kind =>
    simp only
    cases kind.configure params with
    | error fault => exact agrees_refuse looks.weaker _
    | ok i =>
      refine (looks.points i params.source).bind fun points => ?_
      cases currentPoint? points with
      | none => exact agrees_refuse looks.weaker _
      | some point => exact agrees_updateContext fun c => c.bindAll_snapshot _

mutual
theorem agrees_execBy (looks : Look.Agrees snapshot M N look look') (n : Node) (path : Path) :
    (execBy engine look n path).Agrees snapshot M N (execBy engine look' n path) := by
  have counts := @agrees_step _ _ snapshot M N looks.weaker engine
  cases n with
  | block children =>
    rw [execBy, execBy]
    exact counts.bind fun _ => agrees_execFromBy looks children 0 path
  | branch e yes no =>
    rw [execBy, execBy]
    refine counts.bind fun _ => (agrees_condition looks.weaker e).bind fun holds => ?_
    cases holds with
    | true => exact agrees_execBy looks yes path.yes
    | false =>
      cases no with
      | none =>
        rw [execOptionalBy, execOptionalBy]
        exact agrees_pure _
      | some no =>
        rw [execOptionalBy, execOptionalBy]
        exact agrees_execBy looks no path.no
  | indicator name params target =>
    rw [execBy, execBy]
    refine counts.bind fun _ => ?_
    exact (agrees_indicatorBy looks name params target).bind fun _ => agrees_pure _
  | assign target e =>
    rw [execBy, execBy]
    refine counts.bind fun _ => (agrees_value looks.weaker e).bind fun v => ?_
    have binds : ∀ c : Context, (c.bind target v).snapshot = c.snapshot := fun _ => rfl
    exact (agrees_updateContext binds).bind fun _ => agrees_pure _
  | order o =>
    rw [execBy, execBy]
    exact counts.bind fun _ => (agrees_order looks.weaker o).bind fun _ => agrees_pure _
  | wait w =>
    rw [execBy, execBy]
    exact counts.bind fun _ => agrees_enterWait looks.weaker w path

theorem agrees_execFromBy (looks : Look.Agrees snapshot M N look look') (ns : List Node)
    (index : Nat) (path : Path) :
    (execFromBy engine look ns index path).Agrees snapshot M N
      (execFromBy engine look' ns index path) := by
  cases ns with
  | nil =>
    rw [execFromBy, execFromBy]
    exact agrees_pure _
  | cons n ns =>
    rw [execFromBy, execFromBy]
    refine (agrees_execBy looks n (path.child index)).bind fun flow => ?_
    cases flow with
    | pause p => exact agrees_pure _
    | proceed => exact agrees_execFromBy looks ns (index + 1) path
end

theorem agrees_continueAfterBy (looks : Look.Agrees snapshot M N look look') (rest : Path)
    (node : Node) (path : Path) :
    (continueAfterBy engine look rest node path).Agrees snapshot M N
      (continueAfterBy engine look' rest node path) := by
  have stale : ∀ path, (refuse (.stalePath path) : Exec σ Flow).Agrees snapshot M N
      (refuse (.stalePath path)) := fun path => agrees_refuse looks.weaker _
  induction rest generalizing node path with
  | nil => exact agrees_pure _
  | cons s rest ih =>
    cases s with
    | child i =>
      cases node with
      | block children =>
        rw [continueAfterBy, continueAfterBy]
        cases children[i]? with
        | none => exact stale path
        | some n =>
          refine (ih n (path.child i)).bind fun flow => ?_
          cases flow with
          | pause p => exact agrees_pure _
          | proceed => exact agrees_execFromBy looks _ _ path
      | branch e yes no | indicator name params target | assign target e | order o | wait w =>
        exact stale path
    | yes =>
      cases node with
      | branch e yes no => exact ih yes path.yes
      | block children | indicator name params target | assign target e | order o | wait w =>
        exact stale path
    | no =>
      cases node with
      | branch e yes no =>
        cases no with
        | none => exact stale path
        | some n => exact ih n path.no
      | block children | indicator name params target | assign target e | order o | wait w =>
        exact stale path

theorem agrees_resumeBy (looks : Look.Agrees snapshot M N look look') (tree : Node)
    (s : Suspension) :
    (resumeBy engine look tree s).Agrees snapshot M N (resumeBy engine look' tree s) := by
  unfold resumeBy
  cases tree.at? s.path with
  | none => exact agrees_refuse looks.weaker _
  | some n =>
    cases n with
    | wait w =>
      refine (agrees_step looks.weaker engine).bind fun _ => ?_
      refine (agrees_stillPending looks.weaker w s).bind fun next => ?_
      cases next with
      | some pending =>
        have suspends : ∀ c : Context, (c.suspend ⟨s.path, pending⟩).snapshot = c.snapshot :=
          fun _ => rfl
        exact (agrees_updateContext suspends).bind fun _ => agrees_pure _
      | none => exact agrees_continueAfterBy looks s.path tree []
    | block children | branch e yes no | indicator name params target | assign target e | order o =>
      exact agrees_refuse looks.weaker _

end

end Exec

/-! ### Ticks -/

namespace Engine

variable {engine : Engine} {feed : Feed σ} {feed' : Feed τ} {look : Look σ} {look' : Look τ}
  {tree : Node}

theorem alike_ofRun {x : Exec σ Flow} {y : Exec τ Flow} {r : Run σ} {t : Run τ}
    (weaker : ∀ k s k' s', M k s k' s' → N k s k' s')
    (h : x.Coupled y r t (fun _ => Run.Abreast snapshot M) (Run.Abreast snapshot N)) :
    Ticked.Alike (· = ·) (fun s t => ∃ kept kept', N kept s kept' t) (.ofRun (x.after r))
      (.ofRun (y.after t)) := by
  cases h with
  | error left right twins =>
    rw [left, right]
    exact ⟨rfl, congrArg Context.wake twins.context, _, _, twins.memory⟩
  | @ok flow _ _ left right twins =>
    have memory := weaker _ _ _ _ twins.memory
    rw [left, right]
    cases flow with
    | proceed => exact ⟨by simp [Ticked.ofRun, twins.decisions], twins.context, _, _, memory⟩
    | pause path => exact ⟨by simp [Ticked.ofRun, twins.decisions], twins.context, _, _, memory⟩

/-- Two ticks go the same way if their looks give the same points. -/
theorem alike_tickBy (tree : Node) (c : Context) {s s' : σ} {t t' : τ} {bars : List Bar}
    (looks : Look.Agrees (some ⟨engine.symbol, engine.interval, bars⟩) M N look look')
    (answer : feed engine.symbol engine.interval engine.historyBars s = (.ok bars, s'))
    (answer' : feed' engine.symbol engine.interval engine.historyBars t = (.ok bars, t'))
    (memory : M [] s' [] t') :
    Ticked.Alike (· = ·) (fun s t => ∃ kept kept', N kept s kept' t)
      (engine.tickBy feed look tree c s) (engine.tickBy feed' look' tree c t) := by
  have left := @after_runTreeBy σ engine feed look tree (.start c s)
  have right := @after_runTreeBy τ engine feed' look' tree (.start c t)
  have starts : (Run.start c s).feed = s ∧ (Run.start c t).feed = t ∧
      (Run.start c s).context = c ∧ (Run.start c t).context = c := ⟨rfl, rfl, rfl, rfl⟩
  rw [starts.1, answer] at left
  rw [starts.2.1, answer'] at right
  simp only [starts.2.2.1, starts.2.2.2] at left right
  unfold tickBy
  rw [left, right]
  cases c.suspension with
  | some w =>
    refine alike_ofRun looks.weaker (Exec.agrees_resumeBy looks tree w _ _ ?_)
    exact ⟨rfl, rfl, rfl, rfl, memory⟩
  | none =>
    refine alike_ofRun looks.weaker (Exec.agrees_execBy looks tree [] _ _ ?_)
    exact ⟨rfl, rfl, rfl, renewed_snapshot _, memory⟩

/-- Without its first answer a tick ends, whatever the looks. -/
theorem tickBy_of_refused (c : Context) {s s' : σ} {e : FeedError}
    (answer : feed engine.symbol engine.interval engine.historyBars s = (.error e, s')) :
    engine.tickBy feed look tree c s =
      ⟨.error (.evaluation (.feed engine.symbol engine.interval e)), c.wake, s'⟩ := by
  unfold tickBy
  rw [after_runTreeBy]
  have start : (Run.start c s).feed = s := rfl
  rw [start, answer]
  rfl

end Engine

end

end Stratagem
