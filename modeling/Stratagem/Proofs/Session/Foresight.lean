import Stratagem.Proofs.Keyed
import Stratagem.Proofs.Plan.Targets
import Stratagem.Proofs.Session.Suspension

/-!
# What a review foresees

In a session of a tree without issues some errors do not come up (`StrategyError.RuledOut`), if no
answer of the feed at the start of a tick is empty.

* `Context.Knows` says that the names which the review takes to be bound are bound.
* `Exec.Covered` is the invariant of a run: the agenda is reviewed with names that the context
  knows. Every instruction keeps it (`Enters.covered`), and no instruction of a covered run fails
  with an error that is ruled out (`Covered.stops`).
* A wait in front of an agenda was reviewed with names that were bound when the session paused, and
  variables stay while it is paused. So a session that goes on is covered without a look at the
  conditions on the way to the wait (`Engine.ensures_work_covered`).
-/

namespace Stratagem

open Review (Names)

/-! ## Errors -/

/-- The errors that a review rules out, as long as there are bars. -/
inductive StrategyError.RuledOut : StrategyError → Prop
  | unknownVariable (name : String) : RuledOut (.unknownVariable name)
  | unknownIndicator (name : String) : RuledOut (.unknownIndicator name)
  | parameter (indicator : String) (fault : ParameterFault) :
      RuledOut (.evaluation (.parameter indicator fault))
  | waitTicks (count : Int) : RuledOut (.evaluation (.waitTicks count))
  | waitElapsed (span : TimeSpan) : RuledOut (.evaluation (.waitElapsed span))
  | waitWithoutData : RuledOut (.evaluation .waitWithoutData)
  | unknownSide (word : String) : RuledOut (.trade (.unknownSide word))
  | emptySymbol : RuledOut (.trade .emptySymbol)
  | noMarketData : RuledOut (.trade .noMarketData)

namespace StrategyError

/-- Of the errors of expressions only those for want of a variable are ruled out. -/
theorem not_ruledOut_ofFault {fault : Fault} (h : ∀ name, fault ≠ .unbound name) :
    ¬ (ofFault fault).RuledOut := by
  intro out
  cases fault with
  | unbound name => exact h name rfl
  | _ => cases out

theorem not_ruledOut_ofShortage (cause : Shortage) : ¬ (ofShortage cause).RuledOut := by
  intro out
  cases cause <;> cases out

theorem ofFault_ne_trade (fault : Fault) (refused : TradeFault) :
    ofFault fault ≠ .trade refused := by
  intro h
  cases fault <;> cases h

theorem ofShortage_ne_trade (cause : Shortage) (refused : TradeFault) :
    ofShortage cause ≠ .trade refused := by
  intro h
  cases cause <;> cases h

end StrategyError

/-! ## Names that are bound -/

namespace Context

/-- Every name of the list is a field of bars or a variable that is set. -/
def Knows (bound : Names) (c : Context) : Prop :=
  ∀ x ∈ bound, x ∈ marketFields ∨ (Keyed.find? x c.vars).isSome = true

variable {bound before : Names} {c : Context}

theorem knows_marketFields (c : Context) : c.Knows marketFields := fun _ hx => .inl hx

theorem Knows.mono (h : c.Knows bound) (known : before ⊆ bound) : c.Knows before :=
  fun x hx => h x (known hx)

theorem Knows.bind (h : c.Knows bound) (target : String) (v : Value) :
    (c.bind target v).Knows (target :: bound) := by
  intro x hx
  by_cases same : x = target
  · right
    simp [Context.bind, Keyed.find?_insert, same]
  · rcases h x ((List.mem_cons.1 hx).resolve_left same) with field | set
    · exact .inl field
    · right
      simpa [Context.bind, Keyed.find?_insert, same] using set

theorem Knows.bindAll (h : c.Knows bound) (numbers : List (String × Float)) :
    (c.bindAll numbers).Knows (numbers.map Prod.fst ++ bound) := by
  unfold Context.bindAll
  induction numbers generalizing c bound with
  | nil => exact h
  | cons p numbers ih =>
    refine (ih (h.bind p.1 (.number p.2))).mono ?_
    intro x hx
    simp only [List.map_cons, List.mem_append, List.mem_cons] at hx ⊢
    tauto

/-- A name that is known has a value once there is a bar. -/
theorem Knows.lookup (h : c.Knows bound) (supplied : c.latestBar?.isSome = true) {x : String}
    (hx : x ∈ bound) : c.lookup x ≠ none := by
  obtain ⟨bar, hbar⟩ := Option.isSome_iff_exists.1 supplied
  unfold Context.lookup
  cases value : Keyed.find? x c.vars with
  | some v => simp
  | none =>
    rcases h x hx with field | set
    · simp only [marketFields, List.mem_cons, List.not_mem_nil, or_false] at field
      rcases field with rfl | rfl | rfl | rfl | rfl <;> simp [hbar, Bar.field?]
    · simp [value] at set

section

variable {e : Expr} {path : Path} {fault : Fault} {error : StrategyError}

/-- An expression without issues does not fail for want of a variable. -/
theorem Knows.not_ruledOut_ofFault (h : c.Knows bound) (supplied : c.latestBar?.isSome = true)
    (clean : Review.reads e path bound = [])
    (unbound : ∀ x, fault = .unbound x → x ∈ e.occurrences ∧ c.lookup x = none) :
    ¬ (StrategyError.ofFault fault).RuledOut := by
  refine StrategyError.not_ruledOut_ofFault fun x hx => ?_
  obtain ⟨occurs, free⟩ := unbound x hx
  exact h.lookup supplied (Review.mem_of_reads clean occurs) free

theorem Knows.not_ruledOut_of_refuses (h : c.Knows bound) (supplied : c.latestBar?.isSome = true)
    {o : Order} (clean : Review.order o path bound = []) (refuses : c.Refuses o error) :
    ¬ error.RuledOut := by
  cases refuses with
  | noMarketData noBar => simp [noBar] at supplied
  | side word =>
    obtain ⟨side, hside⟩ := Review.side_of_order clean
    rw [hside] at word
    cases word
  | quantity q given value =>
    refine h.not_ruledOut_ofFault supplied (Review.reads_of_order clean given) fun x hx => ?_
    subst hx
    exact Expr.unbound_evaluateNumber value
  | symbol blank =>
    rw [Review.symbol_of_order clean] at blank
    cases blank
  | notPositive q given value outside =>
    intro out
    cases out

theorem Knows.not_ruledOut_of_hinders (h : c.Knows bound) (supplied : c.latestBar?.isSome = true)
    {w : Wait} (clean : Review.wait w path bound = []) (hinders : c.Hinders w error) :
    ¬ error.RuledOut := by
  cases hinders with
  | ticks none => simp [Review.wait, none] at clean
  | elapsed none => simp [Review.wait, none] at clean
  | withoutData span noBar => simp [noBar] at supplied
  | outOfRange someBar late =>
    intro out
    cases out
  | condition value =>
    refine h.not_ruledOut_ofFault supplied clean fun x hx => ?_
    subst hx
    exact Expr.unbound_evaluateBool value

theorem Hinders.ne_trade {w : Wait} (hinders : c.Hinders w error) (refused : TradeFault) :
    error ≠ .trade refused := by
  intro he
  cases hinders with
  | condition value => exact StrategyError.ofFault_ne_trade _ _ he
  | _ => cases he

end

end Context

variable {σ : Type} {engine : Engine} {feed : Feed σ} {tree : Node}

/-! ## Runs -/

namespace Exec

variable {n : Node} {path : Path} {r s : Run σ} {rest : Agenda} {bound : Names}

/-- What holds while a run works off an agenda of a tree without issues. -/
structure Covered (tree : Node) (a : Agenda) (r : Run σ) : Prop where
  placed : a.Placed tree
  awake : r.context.suspension = none
  supplied : r.context.latestBar?.isSome = true
  shaped : r.Shaped
  /-- The agenda is reviewed with names that the context knows. -/
  reviewed : ∃ bound, a.Reviewed bound ∧ r.context.Knows bound

/-- A reviewed agenda stays reviewed when the instruction in front is entered, with the names that
it binds. -/
theorem Enters.reviewed {more : Agenda}
    (h : Enters engine feed n path r (.expand more) s)
    (front : Agenda.Reviewed bound ((n, path) :: rest)) :
    Agenda.Reviewed (n.binds ++ bound) (more ++ rest) := by
  obtain ⟨before, known, -, later⟩ := front.front
  have added : ∀ names : Names, names ++ before ⊆ names ++ bound :=
    fun names => List.append_subset.2 ⟨List.subset_append_left _ _,
      List.Subset.trans known (List.subset_append_right _ _)⟩
  cases h with
  | block children => exact front.children
  | yes y n path holds => exact front.yes
  | no y n path fails => exact front.no
  | indicator target path named configured studied current =>
    rw [Review.bound_indicator named] at later
    exact later.mono (added _)
  | assign target path evaluates => exact later.mono (added [target])
  | order path decides => exact later.mono known
  | skip path begins => exact later.mono known

/-- The names that an instruction binds are known after it. -/
theorem Enters.knows {more : Agenda} (h : Enters engine feed n path r (.expand more) s)
    (shaped : r.Shaped) (knows : r.context.Knows bound) : s.context.Knows (n.binds ++ bound) := by
  cases h with
  | block children => exact knows
  | yes y n path holds => exact knows
  | no y n path fails => exact knows
  | indicator target path named configured studied current =>
    have shape := Kind.shapes_current configured (studied.shaped shaped).2 current
    rw [Node.binds_indicator named shape]
    show (Context.bindAll _ _).Knows _
    rw [studied.context_eq]
    exact knows.bindAll _
  | assign target path evaluates => exact knows.bind target _
  | order path decides => exact knows
  | skip path begins => exact knows

theorem Enters.latestBar? {more : Agenda} (h : Enters engine feed n path r (.expand more) s) :
    s.context.latestBar? = r.context.latestBar? := by
  cases h with
  | indicator target path named configured studied current =>
    show (Context.bindAll _ _).latestBar? = _
    rw [Context.bindAll_latestBar?, studied.context_eq]
    rfl
  | _ => rfl

theorem Enters.shaped {more : Agenda} (h : Enters engine feed n path r (.expand more) s)
    (shaped : r.Shaped) : s.Shaped := by
  cases h with
  | indicator target path named configured studied current => exact (studied.shaped shaped).1
  | _ => exact shaped

/-- Every instruction leaves a covered run covered. -/
theorem Enters.covered {more : Agenda} (h : Enters engine feed n path r (.expand more) s)
    (front : Covered tree ((n, path) :: rest) r) : Covered tree (more ++ rest) s := by
  obtain ⟨placed, awake, supplied, shaped, bound, reviewed, knows⟩ := front
  refine ⟨h.placed placed, h.awake awake, ?_, h.shaped shaped, n.binds ++ bound,
    h.reviewed reviewed, h.knows shaped knows⟩
  rw [h.latestBar?]
  exact supplied

/-- How a covered run can stop: by no error that is ruled out, and by an error of a trade only if an
order of the tree fails in the run as it is. -/
structure Stops (tree : Node) (e : StrategyError) (s : Run σ) : Prop where
  allowed : ¬ e.RuledOut
  trade : ∀ fault, e = .trade fault → ∃ path o, tree.at? path = some (.order o) ∧
    s.context.latestBar?.isSome = true ∧ (order o).after s = (.error e, s)

theorem stops_of_ne_trade {e : StrategyError} (allowed : ¬ e.RuledOut)
    (other : ∀ fault, e ≠ .trade fault) : Stops tree e s :=
  ⟨allowed, fun fault h => absurd h (other fault)⟩

theorem stops_stepLimit (limit : Nat) : Stops tree (.stepLimit limit) s := by
  refine stops_of_ne_trade ?_ ?_
  · intro out
    cases out
  · intro fault h
    cases h

theorem stops_evaluation {fault : EngineFault}
    (allowed : ¬ (StrategyError.evaluation fault).RuledOut) :
    Stops tree (.evaluation fault) s := by
  refine stops_of_ne_trade allowed ?_
  intro refused h
  cases h

theorem stops_feed (error : FeedError) :
    Stops tree (.evaluation (.feed engine.symbol engine.interval error)) s := by
  refine stops_evaluation ?_
  intro out
  cases out

/-- An expression without issues can stop a run, but not for want of a variable. -/
theorem stops_ofFault {c : Context} {bound : Names} (knows : c.Knows bound)
    (supplied : c.latestBar?.isSome = true) {e : Expr} (clean : Review.reads e path bound = [])
    {fault : Fault} (unbound : ∀ x, fault = .unbound x → x ∈ e.occurrences ∧ c.lookup x = none) :
    Stops tree (.ofFault fault) s :=
  stops_of_ne_trade (knows.not_ruledOut_ofFault supplied clean unbound)
    (StrategyError.ofFault_ne_trade fault)

/-- No instruction of a covered run fails with an error that is ruled out. -/
theorem Covered.stops {e : StrategyError} (front : Covered tree ((n, path) :: rest) r)
    (h : Breaks engine feed n r e s) : Stops tree e s := by
  obtain ⟨placed, awake, supplied, shaped, bound, reviewed, knows⟩ := front
  obtain ⟨before, known, clean, -⟩ := reviewed.front
  have knows := knows.mono known
  cases h with
  | limit n passed => exact stops_stepLimit _
  | branch y n condition =>
    refine stops_ofFault knows supplied (Review.clean_branch clean).1 fun x hx => ?_
    subst hx
    exact Expr.unbound_evaluateBool condition
  | unknown params target r named => simp [Review.node, Review.indicator, named] at clean
  | parameter target r named refused =>
    simp [Review.node, Review.indicator, named, refused] at clean
  | study target named configured failed =>
    cases failed with
    | feed error s => exact stops_feed error
    | short supplied failed =>
      exact stops_of_ne_trade (StrategyError.not_ruledOut_ofShortage _)
        (StrategyError.ofShortage_ne_trade _)
  | invalid target named configured studied current =>
    refine stops_evaluation ?_
    intro out
    cases out
  | assign target value =>
    simp only [Review.node] at clean
    refine stops_ofFault knows supplied clean fun x hx => ?_
    subst hx
    exact Expr.unbound_evaluate _ value
  | @order o _ _ refused =>
    simp only [Review.node] at clean
    have fails : (order o).after r.counted = (.error e, r.counted) := by
      rw [after_order, Run.counted_context, refused]
    exact ⟨knows.not_ruledOut_of_refuses supplied clean (Context.refuses_of_decision refused),
      fun _ _ => ⟨path, o, placed.1, supplied, fails⟩⟩
  | wait refused =>
    simp only [Review.node] at clean
    have hinders := Context.hinders_of_beginWait refused
    exact stops_of_ne_trade (knows.not_ruledOut_of_hinders supplied clean hinders) hinders.ne_trade

/-- A covered run that pauses leaves a reviewed agenda behind. -/
theorem ensures_perform_covered {a : Agenda} (covered : Covered tree a r) :
    (perform engine feed a).Ensures r
      (fun left s => ∃ bound, left.Reviewed bound ∧ s.context.Knows bound) (Stops tree) := by
  refine ensures_perform (Covered tree) ?_ ?_ ?_ ?_ a r covered
  · intro n path rest r more s front enters
    exact enters.covered front
  · intro w path rest r pending front _
    exact front.reviewed
  · intro n path rest r e s front breaks
    exact front.stops breaks
  · intro r covered
    exact covered.reviewed

end Exec

/-! ## Ticks -/

namespace Context

/-- The work that the session is paused in is reviewed with names that the context knows. -/
def Kept (tree : Node) (c : Context) : Prop :=
  ∃ bound, (c.agenda tree).Reviewed bound ∧ c.Knows bound

theorem kept_of_awake {c : Context} (awake : c.suspension = none) : c.Kept tree := by
  refine ⟨[], ?_, fun _ hx => absurd hx List.not_mem_nil⟩
  rw [agenda_of_awake awake]
  exact .nil []

end Context

namespace Engine

theorem supplied_latestBar? {bars : List Bar} (some : bars ≠ []) (c : Context) :
    (engine.supplied bars c).latestBar?.isSome = true := by
  simpa [supplied, Context.install, Context.latestBar?] using some

theorem renewed_latestBar? (c : Context) : (engine.renewed c).latestBar? = c.latestBar? := by
  unfold renewed
  split <;> rfl

/-- The work of a tick, a new cycle or the rest of an old one, is covered. -/
theorem ensures_work_covered (clean : tree.review = []) {c : Context} (fits : c.Fits tree)
    (kept : c.Kept tree) {state : σ}
    (answer : (feed engine.symbol engine.interval engine.historyBars state).1 ≠ .ok []) :
    (engine.work feed tree (c.agenda tree)).Ensures (.start c state)
      (fun left s => ∃ bound, left.Reviewed bound ∧ s.context.Knows bound)
      (Exec.Stops tree) := by
  have bars_some : ∀ {bars s}, feed engine.symbol engine.interval engine.historyBars state =
      (.ok bars, s) → bars ≠ [] := by
    intro bars s h none
    rw [h, none] at answer
    exact answer rfl
  refine ensures_work fits ?_ ?_ ?_
  · intro e s _
    exact Exec.stops_feed e
  · intro bars s hanswer awake
    refine Exec.ensures_perform_covered ⟨Agenda.placed_root tree, ?_, ?_, ?_, marketFields,
      Agenda.reviewed_root clean, Context.knows_marketFields _⟩
    · rw [Run.start_context, renewed_suspension]
      exact awake
    · rw [Run.start_context, renewed_latestBar?]
      exact supplied_latestBar? (bars_some hanswer) c
    · intro x hx
      cases hx
  · intro bars s w path pending hanswer hs here state
    obtain ⟨bound, reviewed, knows⟩ := kept
    rw [Context.agenda_of_paused hs here] at reviewed
    obtain ⟨before, known, clean, later⟩ := reviewed.front
    have supplied := @supplied_latestBar? engine bars (bars_some hanswer) c
    -- Variables stay while the session is paused, and fields of bars are always known.
    have knows : (engine.supplied bars c).wake.Knows bound := knows
    simp only [Review.node] at clean later
    refine ensures_goOn state ?_ ?_ ?_ ?_
    · intro _
      exact Exec.stops_stepLimit _
    · rintro e fault rfl value
      refine Exec.stops_ofFault (knows.mono known) supplied clean fun x hx => ?_
      subst hx
      exact Expr.unbound_evaluateBool value
    · intro next _
      exact ⟨bound, reviewed, knows⟩
    · refine Exec.ensures_perform_covered ⟨Agenda.placed_follow here, rfl, supplied, ?_, before,
        later, knows.mono known⟩
      intro x hx
      cases hx

/-- After a tick the session is paused in reviewed work, or not at all. -/
theorem kept_tick (clean : tree.review = []) {c : Context} (fits : c.Fits tree)
    (kept : c.Kept tree) {s : σ}
    (answer : (feed engine.symbol engine.interval engine.historyBars s).1 ≠ .ok []) :
    (engine.tick feed tree c s).context.Kept tree := by
  refine ofRun_work (P := fun t => t.context.Kept tree) fits
    ((ensures_work_fits fits s).and (ensures_work_covered clean fits kept answer)) ?_ ?_ ?_
  · rintro r ⟨⟨-, left⟩, reviewed⟩
    rw [left] at reviewed
    exact reviewed
  · rintro n path rest r ⟨⟨-, left⟩, reviewed⟩
    rw [left] at reviewed
    exact reviewed
  · rintro e r -
    exact Context.kept_of_awake rfl

/-- The state of a session of a tree without issues when a tick starts. -/
theorem kept_starts (clean : tree.review = []) {states : List σ}
    (answers : ∀ s ∈ states,
      (feed engine.symbol engine.interval engine.historyBars s).1 ≠ .ok []) :
    ∀ x ∈ engine.starts feed tree .empty states,
      (x.1.Fits tree ∧ x.1.Kept tree) ∧ x.2 ∈ states := by
  refine starts_induction (P := fun c => c.Fits tree ∧ c.Kept tree) ?_
    ⟨Context.fits_of_awake rfl, Context.kept_of_awake rfl⟩
  rintro c ⟨fits, kept⟩ s hs
  exact ⟨fits_tick fits s, kept_tick clean fits kept (answers s hs)⟩

end Engine

end Stratagem
