import Mathlib.Data.List.Forall2
import Stratagem.Proofs.Session.Suspension

/-!
# Two runs side by side

A strategy is run twice, over two feeds that answer alike (`Feed.Mirrors`) and in two contexts that
agree on what the strategy reads. Then the two runs go the same way.

* `Exec.Coupled` says of two steps that they have the same result, and what the states after them
  have to do with each other. `Coupled.bind` and its companions compute it.
* `coupled_enter` couples an instruction with itself: what it does is the same to both contexts, and
  it is one of the changes that this instruction can make (`Node.Changes`).
* `coupled_perform` is the rule for agendas, `alike_tick` the one for ticks, and `alike_session` the
  one for sessions.
-/

namespace Stratagem

variable {σ τ α β : Type} {R : σ → τ → Prop}

/-- Related states of two feeds give the same answer, and related states come after them. -/
structure Feed.Mirrors (R : σ → τ → Prop) (f : Feed σ) (g : Feed τ) : Prop where
  answer : ∀ symbol interval count {s t}, R s t →
    (f symbol interval count s).1 = (g symbol interval count t).1
  state : ∀ symbol interval count {s t}, R s t →
    R (f symbol interval count s).2 (g symbol interval count t).2

namespace Exec

/-- From `r` and `t` on, two steps end well with the same result and with states that meet `P`,
or they fail with the same error and with states that meet `Q`. -/
inductive Coupled (x : Exec σ α) (y : Exec τ α) (r : Run σ) (t : Run τ)
    (P : α → Run σ → Run τ → Prop) (Q : Run σ → Run τ → Prop) : Prop
  | ok {a : α} {r' : Run σ} {t' : Run τ} (left : x.after r = (.ok a, r'))
      (right : y.after t = (.ok a, t')) (meets : P a r' t') : Coupled x y r t P Q
  | error {e : StrategyError} {r' : Run σ} {t' : Run τ} (left : x.after r = (.error e, r'))
      (right : y.after t = (.error e, t')) (meets : Q r' t') : Coupled x y r t P Q

section

variable {r : Run σ} {t : Run τ} {Q : Run σ → Run τ → Prop}

/-! ## Steps that are put together -/

/-- What two steps do is all that counts, not how they are written. -/
theorem Coupled.congr {x x' : Exec σ α} {y y' : Exec τ α} {P : α → Run σ → Run τ → Prop}
    {r' : Run σ} {t' : Run τ} (h : x'.Coupled y' r' t' P Q) (left : x.after r = x'.after r')
    (right : y.after t = y'.after t') : x.Coupled y r t P Q := by
  cases h with
  | ok left' right' meets => exact .ok (left.trans left') (right.trans right') meets
  | error left' right' meets => exact .error (left.trans left') (right.trans right') meets

theorem Coupled.bind {x : Exec σ α} {y : Exec τ α} {f : α → Exec σ β} {g : α → Exec τ β}
    {M : α → Run σ → Run τ → Prop} {P : β → Run σ → Run τ → Prop}
    (h : x.Coupled y r t M Q)
    (next : ∀ a r' t', M a r' t' → (f a).Coupled (g a) r' t' P Q) :
    (x >>= f).Coupled (y >>= g) r t P Q := by
  cases h with
  | ok left right meets =>
    refine (next _ _ _ meets).congr ?_ ?_
    · rw [after_bind, left]
    · rw [after_bind, right]
  | error left right meets =>
    refine .error (e := ‹StrategyError›) ?_ ?_ meets
    · rw [after_bind, left]
    · rw [after_bind, right]

/-- What is known of one of the two steps may be used, too. -/
theorem Coupled.mono {x : Exec σ α} {y : Exec τ α} {P M : α → Run σ → Run τ → Prop}
    {N : Run σ → Run τ → Prop} (h : x.Coupled y r t P Q)
    (hP : ∀ a r' t', x.after r = (.ok a, r') → P a r' t' → M a r' t')
    (hQ : ∀ r' t', Q r' t' → N r' t') : x.Coupled y r t M N := by
  cases h with
  | ok left right meets => exact .ok left right (hP _ _ _ left meets)
  | error left right meets => exact .error left right (hQ _ _ meets)

theorem coupled_pure {a : α} {P : α → Run σ → Run τ → Prop} (h : P a r t) :
    (pure a : Exec σ α).Coupled (pure a : Exec τ α) r t P Q :=
  .ok (after_pure a r) (after_pure a t) h

theorem coupled_throw {e : StrategyError} {P : α → Run σ → Run τ → Prop} (h : Q r t) :
    (throw e : Exec σ α).Coupled (throw e : Exec τ α) r t P Q :=
  .error (after_throw e r) (after_throw e t) h

theorem coupled_get {f : Run σ → Exec σ α} {g : Run τ → Exec τ α}
    {P : α → Run σ → Run τ → Prop} (h : (f r).Coupled (g t) r t P Q) :
    (get >>= f).Coupled (get >>= g) r t P Q :=
  h.congr rfl rfl

theorem coupled_modify {f : Run σ → Run σ} {g : Run τ → Run τ}
    {P : PUnit → Run σ → Run τ → Prop} (h : P ⟨⟩ (f r) (g t)) :
    (modify f : Exec σ PUnit).Coupled (modify g : Exec τ PUnit) r t P Q :=
  .ok (after_modify f r) (after_modify g t) h

/-- Steps that give a result and change nothing, when the result is the same. -/
theorem coupled_result {x : Exec σ α} {y : Exec τ α} {P : α → Run σ → Run τ → Prop}
    {result : Except StrategyError α} (left : x.after r = (result, r))
    (right : y.after t = (result, t)) (hP : ∀ a, result = .ok a → P a r t)
    (hQ : Q r t) : x.Coupled y r t P Q := by
  cases result with
  | ok a => exact .ok left right (hP a rfl)
  | error e => exact .error left right hQ

end

end Exec

/-! ## Runs that differ in their contexts and feeds -/

/-- Two runs that agree but for their variables and feeds, which are related. -/
structure Run.Beside (R : σ → τ → Prop) (r : Run σ) (t : Run τ) : Prop where
  decisions : r.decisions = t.decisions
  steps : r.steps = t.steps
  studies : r.studies = t.studies
  shaped : r.Shaped
  snapshot : r.context.snapshot = t.context.snapshot
  feed : R r.feed t.feed

/-- Two runs side by side that have left the contexts of two earlier ones alone. -/
structure Run.Stays (R : σ → τ → Prop) (r : Run σ) (t : Run τ) (r' : Run σ) (t' : Run τ) :
    Prop where
  beside : r'.Beside R t'
  left : r'.context = r.context
  right : t'.context = t.context

namespace Run

variable {r : Run σ} {t : Run τ}

theorem Beside.counted (h : r.Beside R t) : r.counted.Beside R t.counted :=
  ⟨h.decisions, congrArg (· + 1) h.steps, h.studies, h.shaped, h.snapshot, h.feed⟩

theorem Beside.stays (h : r.Beside R t) : Stays R r t r t := ⟨h, rfl, rfl⟩

theorem Beside.withFeed (h : r.Beside R t) {s : σ} {s' : τ} (related : R s s') :
    Beside R { r with feed := s } { t with feed := s' } :=
  ⟨h.decisions, h.steps, h.studies, h.shaped, h.snapshot, related⟩

theorem Beside.withContext (h : r.Beside R t) {c d : Context} (snapshot : c.snapshot = d.snapshot) :
    Beside R { r with context := c } { t with context := d } :=
  ⟨h.decisions, h.steps, h.studies, h.shaped, snapshot, h.feed⟩

theorem Beside.withDecision (h : r.Beside R t) (d : Decision) :
    Beside R { r with decisions := r.decisions ++ [d] }
      { t with decisions := t.decisions ++ [d] } :=
  ⟨congrArg (· ++ [d]) h.decisions, h.steps, h.studies, h.shaped, h.snapshot, h.feed⟩

/-- Both runs keep the points of an indicator. -/
theorem Beside.withStudy (h : r.Beside R t) {i : Indicator} (source : PriceSource)
    {points : List Point} (shapes : ∀ p ∈ points, i.kind.Shapes p.reading) :
    Beside R { r with studies := ((i, source), points) :: r.studies }
      { t with studies := ((i, source), points) :: t.studies } := by
  refine ⟨h.decisions, h.steps, congrArg _ h.studies, ?_, h.snapshot, h.feed⟩
  intro x hx
  rcases List.mem_cons.1 hx with rfl | hx
  · exact shapes
  · exact h.shaped x hx

/-- Two runs that a tick starts with. -/
theorem beside_start {c d : Context} (snapshot : c.snapshot = d.snapshot) {s : σ} {t : τ}
    (related : R s t) : (start c s).Beside R (start d t) := by
  refine ⟨rfl, rfl, rfl, ?_, snapshot, related⟩
  intro x hx
  cases hx

end Run

namespace Exec

variable {engine : Engine} {f : Feed σ} {g : Feed τ} {r : Run σ} {t : Run τ}
  {Q : Run σ → Run τ → Prop}

/-- An instruction is counted in both runs, or it is one too many in both. -/
theorem coupled_counted {x : Exec σ α} {y : Exec τ α} {P : α → Run σ → Run τ → Prop}
    (steps : r.steps = t.steps) (limit : Q r.counted t.counted)
    (h : x.Coupled y r.counted t.counted P Q) :
    (step engine >>= fun _ => x).Coupled (step engine >>= fun _ => y) r t P Q := by
  have counts : (step engine : Exec τ Unit).after t =
      if engine.maxSteps < r.steps + 1 then (.error (.stepLimit engine.maxSteps), t.counted)
      else (.ok (), t.counted) := by
    rw [steps, after_step]
  by_cases passed : engine.maxSteps < r.steps + 1
  · refine .error (e := .stepLimit engine.maxSteps) ?_ ?_ limit
    · rw [after_bind, after_step, if_pos passed]
    · rw [after_bind, counts, if_pos passed]
  · refine h.congr ?_ ?_
    · rw [after_bind, after_step, if_neg passed]
    · rw [after_bind, counts, if_neg passed]

/-! ## Requests and indicators -/

section

variable (mirrors : Feed.Mirrors R f g)
include mirrors

theorem coupled_fetch {count : Nat} {P : List Bar → Run σ → Run τ → Prop}
    (related : R r.feed t.feed)
    (supplied : ∀ bars s s', R s s' → P bars { r with feed := s } { t with feed := s' })
    (refused : ∀ s s', R s s' → Q { r with feed := s } { t with feed := s' }) :
    (fetch engine f count).Coupled (fetch engine g count) r t P Q := by
  have answer := mirrors.answer engine.symbol engine.interval count related
  have state := mirrors.state engine.symbol engine.interval count related
  unfold fetch
  refine coupled_get ?_
  rcases hf : f engine.symbol engine.interval count r.feed with ⟨result, s⟩
  rcases hg : g engine.symbol engine.interval count t.feed with ⟨result', s'⟩
  rw [hf, hg] at answer state
  obtain rfl : result = result' := answer
  cases result with
  | ok bars => exact .ok rfl rfl (supplied bars s s' state)
  | error e =>
    exact .error (e := .evaluation (.feed engine.symbol engine.interval e)) rfl rfl
      (refused s s' state)

theorem coupled_studyBars (i : Indicator) (beside : r.Beside R t) :
    (studyBars engine f i).Coupled (studyBars engine g i) r t (fun _ => Run.Stays R r t)
      (Run.Stays R r t) := by
  have moved : ∀ s s', R s s' → Run.Stays R r t { r with feed := s } { t with feed := s' } :=
    fun s s' related => ⟨beside.withFeed related, rfl, rfl⟩
  unfold studyBars
  split
  · exact coupled_fetch mirrors beside.feed (fun _ => moved) moved
  · refine coupled_get ?_
    rw [← beside.snapshot]
    cases r.context.snapshot with
    | none => exact coupled_pure beside.stays
    | some s => exact coupled_pure beside.stays

theorem coupled_study (i : Indicator) (source : PriceSource) (beside : r.Beside R t) :
    (study engine f i source).Coupled (study engine g i source) r t
      (fun points r' t' => Run.Stays R r t r' t' ∧ ∀ p ∈ points, i.kind.Shapes p.reading)
      (Run.Stays R r t) := by
  have shapes : ∀ points s, Studied engine f i source r points s →
      ∀ p ∈ points, i.kind.Shapes p.reading :=
    fun points s studied => (studied.shaped beside.shaped).2
  unfold study
  refine coupled_get ?_
  rw [← beside.studies]
  cases found : r.studies.lookup (i, source) with
  | some points => exact coupled_pure ⟨beside.stays, shapes points r (.known found)⟩
  | none =>
    refine (coupled_studyBars mirrors i beside).bind ?_
    rintro bars r' t' ⟨later, left, right⟩
    cases made : i.compute source bars with
    | error cause => exact coupled_throw ⟨later, left, right⟩
    | ok points =>
      have shapes := Indicator.shapes_compute made
      refine (coupled_modify (P := fun _ => Run.Stays R r t) ?_).bind ?_
      · exact ⟨later.withStudy source shapes, left, right⟩
      · exact fun _ r'' t'' stays => coupled_pure ⟨stays, shapes⟩

theorem coupled_indicator (name : String) (params : Params) (target : String)
    (beside : r.Beside R t) :
    (indicator engine f name params target).Coupled (indicator engine g name params target) r t
      (fun _ r' t' => ∃ kind reading, Kind.ofName? name = some kind ∧ kind.Shapes reading ∧
        r'.Beside R t' ∧ r'.context = r.context.bindAll (reading.bindings target) ∧
        t'.context = t.context.bindAll (reading.bindings target))
      (Run.Stays R r t) := by
  unfold indicator
  cases named : Kind.ofName? name with
  | none => exact coupled_throw beside.stays
  | some kind =>
    simp only
    cases configured : kind.configure params with
    | error fault => exact coupled_throw beside.stays
    | ok i =>
      refine (coupled_study mirrors i params.source beside).bind ?_
      rintro points r' t' ⟨⟨later, left, right⟩, shapes⟩
      cases current : currentPoint? points with
      | none => exact coupled_throw ⟨later, left, right⟩
      | some point =>
        refine coupled_modify ⟨kind, point.reading, rfl,
          Kind.shapes_current configured shapes current, later.withContext ?_, ?_, ?_⟩
        · rw [Context.bindAll_snapshot, Context.bindAll_snapshot, later.snapshot]
        · rw [left]
        · rw [right]

end

end Exec

/-! ## Instructions -/

/-- What an instruction can do to the context when all goes well. -/
inductive Node.Changes : Node → (Context → Context) → Prop
  | block (children : List Node) : Changes (.block children) id
  | branch (e : Expr) (y : Node) (n : Option Node) : Changes (.branch e y n) id
  | indicator {name : String} (params : Params) (target : String) {kind : Kind} {reading : Reading}
      (named : Kind.ofName? name = some kind) (shape : kind.Shapes reading) :
      Changes (.indicator name params target) fun c => c.bindAll (reading.bindings target)
  | assign (target : String) (e : Expr) (v : Value) :
      Changes (.assign target e) fun c => c.bind target v
  | order (o : Order) : Changes (.order o) id
  | skip (w : Wait) : Changes (.wait w) id
  | pause (w : Wait) (s : Suspension) : Changes (.wait w) fun c => c.suspend s

/-- Two runs side by side after both have changed their contexts as an instruction does. -/
structure Run.Moves (R : σ → τ → Prop) (n : Node) (r : Run σ) (t : Run τ) (r' : Run σ)
    (t' : Run τ) : Prop where
  beside : r'.Beside R t'
  change : ∃ change, n.Changes change ∧ r'.context = change r.context ∧
    t'.context = change t.context

namespace Exec

variable {engine : Engine} {f : Feed σ} {g : Feed τ}

/-- An instruction goes the same way in two runs if their contexts agree on what it reads. -/
theorem coupled_enter (mirrors : Feed.Mirrors R f g) (n : Node) (path : Path) {r : Run σ}
    {t : Run τ} (beside : r.Beside R t) (alike : Context.ReadAlike n r.context t.context) :
    (enter engine f n path).Coupled (enter engine g n path) r t
      (fun _ => Run.Moves R n r t) (Run.Stays R r t) := by
  have counted : r.counted.Beside R t.counted := beside.counted
  have limit : Run.Stays R r t r.counted t.counted := ⟨counted, rfl, rfl⟩
  cases n with
  | block children =>
    refine coupled_counted beside.steps limit (coupled_pure ?_)
    exact ⟨counted, id, .block children, rfl, rfl⟩
  | branch e y n =>
    refine coupled_counted beside.steps limit ?_
    have same := alike.evaluateBool (List.mem_singleton_self e)
    refine Coupled.bind (M := fun _ r' t' => r' = r.counted ∧ t' = t.counted)
      (coupled_result (after_condition e _) ?_ ?_ limit) ?_
    · rw [after_condition, Run.counted_context, Run.counted_context, same]
    · exact fun _ _ => ⟨rfl, rfl⟩
    · rintro holds _ _ ⟨rfl, rfl⟩
      cases holds <;> exact coupled_pure ⟨counted, id, .branch e y n, rfl, rfl⟩
  | indicator name params target =>
    refine coupled_counted beside.steps limit ?_
    refine Coupled.bind
      ((coupled_indicator mirrors name params target counted).mono (fun _ _ _ _ h => h) ?_) ?_
    · rintro r' t' ⟨later, left, right⟩
      exact ⟨later, left, right⟩
    · rintro _ r' t' ⟨kind, reading, named, shape, later, left, right⟩
      exact coupled_pure ⟨later, _, .indicator params target named shape, left, right⟩
  | assign target e =>
    refine coupled_counted beside.steps limit ?_
    have same := alike.evaluate (List.mem_singleton_self e)
    refine Coupled.bind (M := fun _ r' t' => r' = r.counted ∧ t' = t.counted)
      (coupled_result (after_value e _) ?_ ?_ limit) ?_
    · rw [after_value, Run.counted_context, Run.counted_context, same]
    · exact fun _ _ => ⟨rfl, rfl⟩
    · rintro v _ _ ⟨rfl, rfl⟩
      refine Coupled.bind (coupled_modify (P := fun _ => Run.Moves R (.assign target e) r t) ?_) ?_
      · exact ⟨counted.withContext counted.snapshot, _, .assign target e v, rfl, rfl⟩
      · exact fun _ r' t' moves => coupled_pure moves
  | order o =>
    refine coupled_counted beside.steps limit ?_
    refine Coupled.bind (M := fun _ => Run.Moves R (.order o) r t) ?_
      fun _ r' t' moves => coupled_pure moves
    have left := after_order o r.counted
    have right := after_order o t.counted
    rw [Run.counted_context] at left right
    rw [← alike.decision] at right
    cases decides : r.context.decision o with
    | error e =>
      rw [decides] at left right
      exact .error left right limit
    | ok d =>
      rw [decides] at left right
      exact .ok left right ⟨counted.withDecision d, id, .order o, rfl, rfl⟩
  | wait w =>
    refine coupled_counted beside.steps limit ?_
    refine Coupled.bind (M := fun _ => Run.Moves R (.wait w) r t) ?_ ?_
    · have left := after_enterWait w path r.counted
      have right := after_enterWait w path t.counted
      rw [Run.counted_context] at left right
      rw [← alike.beginWait] at right
      rcases begins : r.context.beginWait w with e | _ | pending
      · rw [begins] at left right
        exact .error left right limit
      · rw [begins] at left right
        exact .ok left right ⟨counted, id, .skip w, rfl, rfl⟩
      · rw [begins] at left right
        exact .ok left right ⟨counted.withContext counted.snapshot, _,
          .pause w ⟨path, pending⟩, rfl, rfl⟩
    · intro flow r' t' moves
      cases flow <;> exact coupled_pure moves

/-! ## Agendas -/

/-- The rule for two runs that work one agenda off: what holds of the agenda and the runs stays true
when both enter the instruction in front, so it holds at the pause or at the end. -/
theorem coupled_perform (inv : Agenda → Run σ → Run τ → Prop)
    {P : Agenda → Run σ → Run τ → Prop} {Q : Run σ → Run τ → Prop}
    (front : ∀ {n path rest r t}, inv ((n, path) :: rest) r t →
      (enter engine f n path).Coupled (enter engine g n path) r t
        (fun entry r' t' =>
          match entry with
          | .expand more => inv (more ++ rest) r' t'
          | .pause _ => P ((n, path) :: rest) r' t') Q)
    (done : ∀ {r t}, inv [] r t → P [] r t) (a : Agenda) (r : Run σ) (t : Run τ)
    (h : inv a r t) : (perform engine f a).Coupled (perform engine g a) r t P Q := by
  induction a using Agenda.parts_induction generalizing r t with
  | nil =>
    rw [perform_nil, perform_nil]
    exact coupled_pure (done h)
  | cons n path rest ih =>
    rw [perform_cons, perform_cons]
    refine ((front h).mono (M := fun entry r' t' =>
      match entry with
      | .expand more => Agenda.weight more < n.count ∧ inv (more ++ rest) r' t'
      | .pause _ => P ((n, path) :: rest) r' t') ?_ fun _ _ h => h).bind ?_
    · intro entry r' t' left meets
      cases entry with
      | pause p => exact meets
      | expand more => exact ⟨(enters_of_after left).weight_lt, meets⟩
    · intro entry r' t' meets
      cases entry with
      | pause p => exact coupled_pure meets
      | expand more => exact ih more meets.1 r' t' meets.2

end Exec

/-! ## Engines that differ in their policies -/

/-- The engine with another policy. -/
def Engine.under (engine : Engine) (policy : Policy) : Engine := { engine with policy := policy }

namespace Exec

variable {engine : Engine} {f : Feed σ}

theorem indicator_under (policy : Policy) (name : String) (params : Params) (target : String) :
    indicator (engine.under policy) f name params target =
      indicator engine f name params target := by
  have bars : ∀ i, studyBars (engine.under policy) f i = studyBars engine f i := fun _ => rfl
  have points : ∀ i source, study (engine.under policy) f i source = study engine f i source := by
    intro i source
    rw [study, study, bars]
  unfold indicator
  simp only [points]

/-- An instruction does not look at the policy. -/
theorem enter_under (policy : Policy) (n : Node) (path : Path) :
    enter (engine.under policy) f n path = enter engine f n path := by
  cases n with
  | indicator name params target =>
    rw [enter, enter, indicator_under]
    rfl
  | _ => rfl

theorem perform_under (policy : Policy) (a : Agenda) :
    perform (engine.under policy) f a = perform engine f a := by
  induction a using Agenda.parts_induction with
  | nil => rw [perform_nil, perform_nil]
  | cons n path rest ih =>
    rw [perform_cons, perform_cons, enter_under]
    refine ext_after fun r => ?_
    rw [after_bind, after_bind]
    rcases hx : (enter engine f n path).after r with ⟨e | entry, s⟩
    · rfl
    · cases entry with
      | pause p => rfl
      | expand more =>
        have lighter := (enters_of_after hx).weight_lt
        simp only [ih more lighter]

end Exec

/-- What two ticks have to do with each other: the same result, and contexts and feeds that are
related after them. -/
structure Ticked.Alike (C : Context → Context → Prop) (R : σ → τ → Prop) (a : Ticked σ)
    (b : Ticked τ) : Prop where
  result : a.result = b.result
  context : C a.context b.context
  feed : R a.feed b.feed

namespace Engine

variable {engine : Engine} {f : Feed σ} {g : Feed τ} {tree : Node}

open Exec

theorem goOn_under (policy : Policy) (w : Wait) (s : Suspension) (rest : Agenda) :
    (engine.under policy).goOn f w s rest = engine.goOn f w s rest := by
  unfold goOn
  rw [perform_under]
  rfl

/-- A further look at a wait, in two runs whose contexts agree on its condition. -/
theorem coupled_goOn {w : Wait} {s : Suspension} {rest : Agenda} {r : Run σ} {t : Run τ}
    {P : Agenda → Run σ → Run τ → Prop} {Q : Run σ → Run τ → Prop} (steps : r.steps = t.steps)
    (alike : Context.ReadAlike (.wait w) r.context t.context) (fails : Q r.counted t.counted)
    (stays : ∀ next, P ((.wait w, s.path) :: rest)
      { r.counted with context := r.context.suspend ⟨s.path, next⟩ }
      { t.counted with context := t.context.suspend ⟨s.path, next⟩ })
    (goesOn : (perform engine f rest).Coupled (perform engine g rest) r.counted t.counted P Q) :
    (engine.goOn f w s rest).Coupled (engine.goOn g w s rest) r t P Q := by
  unfold goOn
  refine coupled_counted steps fails ?_
  refine Coupled.bind (M := fun _ r' t' => r' = r.counted ∧ t' = t.counted)
    (coupled_result (after_stillPending w s _) ?_ ?_ fails) ?_
  · rw [after_stillPending, Run.counted_context, Run.counted_context, alike.stillPending]
  · exact fun _ _ => ⟨rfl, rfl⟩
  · rintro next _ _ ⟨rfl, rfl⟩
    cases next with
    | none => exact goesOn
    | some pending => exact .ok rfl rfl (stays pending)

/-- The rule for the work of two ticks that go on at the same wait, or start a new cycle. -/
theorem coupled_work (mirrors : Feed.Mirrors R f g) (policy : Policy) {c d : Context} {s : σ}
    {t : τ} (related : R s t) (same : c.suspension = d.suspension) (fits : c.Fits tree)
    {P : Agenda → Run σ → Run τ → Prop} {Q : Run σ → Run τ → Prop}
    (refused : ∀ u v, R u v → Q (.start c u) (.start d v))
    (begins : ∀ bars u v, R u v → c.suspension = none →
      (perform engine f [(tree, [])]).Coupled (perform engine g [(tree, [])])
        (.start (engine.renewed (engine.supplied bars c)) u)
        (.start ((engine.under policy).renewed (engine.supplied bars d)) v) P Q)
    (goesOn : ∀ bars u v w path pending, R u v → c.suspension = some ⟨path, pending⟩ →
      tree.at? path = some (.wait w) →
      (engine.goOn f w ⟨path, pending⟩ (tree.follow path)).Coupled
        (engine.goOn g w ⟨path, pending⟩ (tree.follow path))
        (.start (engine.supplied bars c).wake u) (.start (engine.supplied bars d).wake v) P Q) :
    (engine.work f tree (c.agenda tree)).Coupled
      ((engine.under policy).work g tree (d.agenda tree)) (.start c s) (.start d t) P Q := by
  have answer := mirrors.answer engine.symbol engine.interval engine.historyBars related
  have state := mirrors.state engine.symbol engine.interval engine.historyBars related
  have left := @after_work σ engine f tree (c.agenda tree) (.start c s)
  have right := @after_work τ (engine.under policy) g tree (d.agenda tree) (.start d t)
  have market : (engine.under policy).symbol = engine.symbol ∧
    (engine.under policy).interval = engine.interval ∧
    (engine.under policy).historyBars = engine.historyBars := ⟨rfl, rfl, rfl⟩
  have feeds : (Run.start c s).feed = s ∧ (Run.start d t).feed = t := ⟨rfl, rfl⟩
  rw [feeds.1] at left
  rw [feeds.2, market.1, market.2.1, market.2.2] at right
  rcases hf : f engine.symbol engine.interval engine.historyBars s with ⟨result, u⟩
  rcases hg : g engine.symbol engine.interval engine.historyBars t with ⟨result', v⟩
  rw [hf, hg] at answer state
  obtain rfl : result = result' := answer
  rw [hf] at left
  rw [hg] at right
  cases result with
  | error e => exact .error left right (refused u v state)
  | ok bars =>
    simp only [Run.start_context, ← same, goOn_under, perform_under] at left right
    cases hs : c.suspension with
    | none =>
      rw [hs] at left right
      exact (begins bars u v state hs).congr left right
    | some suspension =>
      obtain ⟨path, pending⟩ := suspension
      obtain ⟨w, hw, -⟩ := fits _ hs
      have kept : c.agenda tree = (.wait w, path) :: tree.follow path :=
        Context.agenda_of_paused hs hw
      have agendas : d.agenda tree = c.agenda tree := by rw [Context.agenda, Context.agenda, same]
      rw [agendas] at right ⊢
      rw [hs, kept] at left right
      rw [kept]
      exact (goesOn bars u v w path pending state hs hw).congr left right

/-- What two ticks have to do with each other, given what their work has. -/
theorem alike_tick {C : Context → Context → Prop} {policy : Policy} {c d : Context} {s : σ} {t : τ}
    (fits : c.Fits tree) (fits' : d.Fits tree)
    (h : (engine.work f tree (c.agenda tree)).Coupled
      ((engine.under policy).work g tree (d.agenda tree)) (.start c s) (.start d t)
      (fun _ r r' => r.Beside R r' ∧ C r.context r'.context)
      (fun r r' => R r.feed r'.feed ∧ C r.context.wake r'.context.wake)) :
    Ticked.Alike C R (engine.tick f tree c s) ((engine.under policy).tick g tree d t) := by
  rw [tick_eq_work fits, tick_eq_work fits', after_bind, after_bind]
  cases h with
  | error left right meets =>
    rw [left, right]
    exact ⟨rfl, meets.2, meets.1⟩
  | @ok kept r r' left right meets =>
    obtain ⟨beside, context⟩ := meets
    rw [left, right]
    cases kept with
    | nil => exact ⟨by simp [Ticked.ofRun, Agenda.flow, beside.decisions], context, beside.feed⟩
    | cons n rest =>
      exact ⟨by simp [Ticked.ofRun, Agenda.flow, beside.decisions], context, beside.feed⟩

/-- Two sessions go the same way if every two of their ticks do. -/
theorem alike_session {other : Engine} {C : Context → Context → Prop}
    (next : ∀ c d s t, C c d → R s t →
      Ticked.Alike C R (engine.tick f tree c s) (other.tick g tree d t))
    {c d : Context} (first : C c d) {states : List σ} {states' : List τ}
    (related : List.Forall₂ R states states') :
    List.Forall₂ (Ticked.Alike C R) (engine.session f tree c states)
      (other.session g tree d states') := by
  induction related generalizing c d with
  | nil => exact .nil
  | @cons s t states states' hst _ ih =>
    have tick := next c d s t first hst
    rw [session_cons, session_cons]
    exact .cons tick (ih tick.context)

end Engine

end Stratagem
