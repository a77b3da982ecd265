import Stratagem.Proofs.Session.Foresight
import Stratagem.Proofs.Session.MarketView

/-!
# What a run writes

Variables change where an instruction completes: an assignment writes the value of its expression,
an indicator the values of its current point, and nothing else is ever written. Here a run is
followed with a list of what was written on the way.

* `Exec.Writes` says what an instruction writes, its parts excluded; these are the names that it is
  known to bind (`Writes.names`). An instruction that fails leaves the context as it was
  (`Breaks.context_eq`).
* `Exec.Completes` follows a run and lists the instructions that it completed, with their writes.
  The variables are those from before, with these writes one after the other (`Completes.vars`).
* Every run that fails has completed some instructions and then failed in the next one
  (`completes_of_perform`).
-/

namespace Stratagem

variable {σ : Type}

/-- Setting variables to numbers is a list of writes. -/
theorem Context.bindAll_vars (c : Context) (numbers : List (String × Float)) :
    (c.bindAll numbers).vars =
      Keyed.insertAll c.vars (numbers.map fun p => (p.1, Value.number p.2)) := by
  unfold bindAll
  induction numbers generalizing c with
  | nil => rfl
  | cons p numbers ih => exact ih (c.bind p.1 (.number p.2))

namespace Exec

/-! ## Single instructions -/

/-- The bars that an indicator is computed over are determined by the run. -/
theorem Supplies.unique {engine : Engine} {feed : Feed σ} {i : Indicator} {r : Run σ}
    {bars bars' : List Bar} {s s' : σ} (h : Supplies engine feed i r bars s)
    (h' : Supplies engine feed i r bars' s') : bars = bars' := by
  cases h with
  | fetched short answer =>
    cases h' with
    | fetched short' answer' =>
      rw [answer] at answer'
      cases answer'
      rfl
    | snapshot long => omega
  | snapshot long =>
    cases h' with
    | fetched short answer => omega
    | snapshot long' => rfl

/-- What an instruction writes that is entered in the state `r` and completes, its parts excluded:
an assignment the value of its expression, an indicator all values of its current point, and the
others nothing. -/
inductive Writes (engine : Engine) (feed : Feed σ) :
    Node → Run σ → List (String × Value) → Prop
  | block (children : List Node) (r : Run σ) : Writes engine feed (.block children) r []
  | branch (e : Expr) (y : Node) (n : Option Node) (r : Run σ) :
      Writes engine feed (.branch e y n) r []
  | indicator {name : String} {params : Params} (target : String) {r s : Run σ} {kind : Kind}
      {i : Indicator} {points : List Point} {point : Point}
      (named : Kind.ofName? name = some kind) (configured : kind.configure params = .ok i)
      (studied : Studied engine feed i params.source r.counted points s)
      (current : currentPoint? points = some point) :
      Writes engine feed (.indicator name params target) r
        ((point.reading.bindings target).map fun b => (b.1, .number b.2))
  | assign (target : String) {e : Expr} {r : Run σ} {v : Value}
      (evaluates : e.evaluate r.context.lookup = .ok v) :
      Writes engine feed (.assign target e) r [(target, v)]
  | order (o : Order) (r : Run σ) : Writes engine feed (.order o) r []
  | wait (w : Wait) (r : Run σ) : Writes engine feed (.wait w) r []

variable {engine : Engine} {feed : Feed σ} {tree n : Node} {path : Path} {r s t : Run σ}
  {ws : List (String × Value)} {more rest a b : Agenda}

/-- The points of an indicator in a run are determined by the run. -/
theorem Studied.unique {i : Indicator} {source : PriceSource} {points points' : List Point}
    {s' : Run σ} (h : Studied engine feed i source r points s)
    (h' : Studied engine feed i source r points' s') : points = points' := by
  cases h with
  | known found =>
    cases h' with
    | known found' => exact Option.some.inj (found.symm.trans found')
    | computed missing supplied made => simp [found] at missing
  | computed missing supplied made =>
    cases h' with
    | known found => simp [found] at missing
    | computed missing' supplied' made' =>
      have bars := supplied.unique supplied'
      rw [bars, made'] at made
      exact (Except.ok.inj made).symm

/-- An instruction that is entered and goes on changes the variables by its writes. -/
theorem Enters.writes (h : Enters engine feed n path r (.expand more) s) :
    ∃ ws, Writes engine feed n r ws ∧ s.context.vars = Keyed.insertAll r.context.vars ws := by
  cases h with
  | block children => exact ⟨[], .block children r, rfl⟩
  | yes y n path holds => exact ⟨[], .branch _ y n r, rfl⟩
  | no y n path fails => exact ⟨[], .branch _ y n r, rfl⟩
  | indicator target path named configured studied current =>
    refine ⟨_, .indicator target named configured studied current, ?_⟩
    show (Context.bindAll _ _).vars = _
    rw [Context.bindAll_vars, studied.context_eq]
    rfl
  | assign target path evaluates => exact ⟨_, .assign target evaluates, rfl⟩
  | order path decides => exact ⟨[], .order _ r, rfl⟩
  | skip path begins => exact ⟨[], .wait _ r, rfl⟩

/-- What an instruction writes is determined by the run. -/
theorem Writes.unique {ws' : List (String × Value)} (h : Writes engine feed n r ws)
    (h' : Writes engine feed n r ws') : ws = ws' := by
  cases h with
  | indicator target named configured studied current =>
    cases h' with
    | indicator _ named' configured' studied' current' =>
      obtain rfl := Option.some.inj (named.symm.trans named')
      obtain rfl := Except.ok.inj (configured.symm.trans configured')
      obtain rfl := studied.unique studied'
      obtain rfl := Option.some.inj (current.symm.trans current')
      rfl
  | assign target evaluates =>
    cases h' with
    | assign _ evaluates' =>
      obtain rfl := Except.ok.inj (evaluates.symm.trans evaluates')
      rfl
  | _ =>
    cases h'
    rfl

/-- The names that an instruction writes are those that it binds: an indicator of several values
writes all of them. -/
theorem Writes.names (h : Writes engine feed n r ws) (shaped : r.Shaped) :
    ws.map Prod.fst = n.binds := by
  cases h with
  | block children => rfl
  | branch e y n => rfl
  | indicator target named configured studied current =>
    have shape := Kind.shapes_current configured (studied.shaped shaped).2 current
    rw [Node.binds_indicator named shape, List.map_map]
    rfl
  | assign target evaluates => rfl
  | order o => rfl
  | wait w => rfl

/-- An instruction that fails leaves the context as it was. -/
theorem Breaks.context_eq {e : StrategyError} (h : Breaks engine feed n r e s) :
    s.context = r.context := by
  cases h with
  | invalid target named configured studied current => exact studied.context_eq
  | _ => rfl

/-! ## Runs -/

/-- An instruction that a run has completed, with its writes. -/
structure Deed where
  node : Node
  path : Path
  writes : List (String × Value)

/-- A run that works off the agenda `a` from the state `r` on completes some instructions, and then
it comes by the agenda `b` in the state `t`. -/
inductive Completes (engine : Engine) (feed : Feed σ) :
    Agenda → Run σ → List Deed → Agenda → Run σ → Prop
  | here (a : Agenda) (r : Run σ) : Completes engine feed a r [] a r
  | next {n : Node} {path : Path} {rest more b : Agenda} {r s t : Run σ}
      {ws : List (String × Value)} {deeds : List Deed}
      (enters : (enter engine feed n path).after r = (.ok (.expand more), s))
      (wrote : Writes engine feed n r ws)
      (later : Completes engine feed (more ++ rest) s deeds b t) :
      Completes engine feed ((n, path) :: rest) r (⟨n, path, ws⟩ :: deeds) b t

variable {deeds : List Deed}

/-- The variables are those from before, updated by the writes in their order. -/
theorem Completes.vars (h : Completes engine feed a r deeds b t) :
    t.context.vars = Keyed.insertAll r.context.vars (deeds.flatMap Deed.writes) := by
  induction h with
  | here a r => rfl
  | next enters wrote later ih =>
    obtain ⟨ws, wrote', vars⟩ := (enters_of_after enters).writes
    rw [ih, vars, wrote.unique wrote', List.flatMap_cons, Keyed.insertAll_append]

/-- The instructions that were completed stand in the tree at their paths, and each has written the
names that it binds. -/
theorem Completes.deeds_stand (h : Completes engine feed a r deeds b t) (placed : a.Placed tree)
    (shaped : r.Shaped) :
    b.Placed tree ∧ ∀ d ∈ deeds, tree.at? d.path = some d.node ∧
      d.writes.map Prod.fst = d.node.binds := by
  induction h with
  | here a r => exact ⟨placed, fun d hd => by cases hd⟩
  | next enters wrote later ih =>
    have enters := enters_of_after enters
    obtain ⟨rest, deeds⟩ := ih (enters.placed placed) (enters.shaped shaped)
    refine ⟨rest, List.forall_mem_cons.2 ⟨⟨placed.1, wrote.names shaped⟩, deeds⟩⟩

/-- A run that fails has completed some instructions, and then the next one fails. -/
theorem completes_of_perform {e : StrategyError}
    (failed : (perform engine feed a).after r = (.error e, s)) :
    ∃ deeds n path rest t, Completes engine feed a r deeds ((n, path) :: rest) t ∧
      (enter engine feed n path).after t = (.error e, s) := by
  induction a using Agenda.parts_induction generalizing r with
  | nil =>
    rw [perform_nil] at failed
    cases failed
  | cons n path rest ih =>
    rw [perform_cons, after_bind] at failed
    rcases entered : (enter engine feed n path).after r with ⟨e' | entry, r'⟩
    · rw [entered] at failed
      cases failed
      exact ⟨[], n, path, rest, r, .here _ r, entered⟩
    · rw [entered] at failed
      cases entry with
      | pause p => cases failed
      | expand more =>
        have enters := enters_of_after entered
        obtain ⟨ws, wrote, -⟩ := enters.writes
        obtain ⟨deeds, m, q, others, t, later, fails⟩ := ih more enters.weight_lt failed
        exact ⟨_, m, q, others, t, .next entered wrote later, fails⟩

/-- The variables that a run leaves are those of a state that it comes by. -/
theorem exists_comesBy_perform (a : Agenda) (r : Run σ) :
    ∃ b t, ComesBy engine feed a r b t ∧
      ((perform engine feed a).after r).2.context.vars = t.context.vars := by
  induction a using Agenda.parts_induction generalizing r with
  | nil =>
    rw [perform_nil]
    exact ⟨[], r, .here [] r, rfl⟩
  | cons n path rest ih =>
    rw [perform_cons, after_bind]
    rcases entered : (enter engine feed n path).after r with ⟨e | entry, s⟩
    · have kept := ((ensures_enter n path r).error entered).context_eq
      exact ⟨_, r, .here _ r, congrArg Context.vars kept⟩
    · cases entry with
      | pause p =>
        cases enters_of_after entered
        exact ⟨_, r, .here _ r, rfl⟩
      | expand more =>
        obtain ⟨b, t, later, vars⟩ := ih more (enters_of_after entered).weight_lt s
        exact ⟨b, t, .enter entered later, vars⟩

end Exec

end Stratagem
