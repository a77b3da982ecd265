import Stratagem.Proofs.Plan.Places
import Stratagem.Proofs.Session.MarketView

/-!
# The budget of a tick

A tick counts every instruction that it comes to, and it fails at the one that is one too many.

* `Exec.visits` lists the places of the instructions that a run comes to, in order: that it counts,
  and enters if they are within the limit. `Engine.visits` does so for a tick, which may begin with
  the wait that the session is paused at. The counter of the run is the length of this list
  (`steps_perform`).
* A run goes along the tree (`visits_sublist`), so it comes to no instruction twice.
* An instruction is refused only if it is one too many, and then the run has entered as many as the
  limit allows (`Engine.Stops`, `counts_runTree`).
* The limit is looked at for nothing else. A run that is not stopped by it goes the same way under
  any greater limit (`Exec.Relaxes`).

`Engine.step_budget` puts this together.
-/

namespace Stratagem

variable {σ α β : Type}

/-! ## Visits -/

namespace Exec

section

variable (engine : Engine) (feed : Feed σ)

/-- The places of the instructions that a run comes to while it works an agenda off. -/
def visits : Agenda → Run σ → List Path
  | [], _ => []
  | (n, path) :: rest, r => path ::
    match _h : (enter engine feed n path).after r with
    | (.ok (.expand more), s) => visits (more ++ rest) s
    | _ => []
termination_by a => a.weight
decreasing_by
  have lighter := (enters_of_after _h).weight_lt
  simp only [Agenda.weight_append, Agenda.weight_cons]
  omega

end

variable {engine : Engine} {feed : Feed σ} {n : Node} {path : Path} {more rest : Agenda}
  {r s : Run σ}

@[simp] theorem visits_nil (r : Run σ) : visits engine feed [] r = [] := by
  rw [visits]

theorem visits_of_expand (h : (enter engine feed n path).after r = (.ok (.expand more), s)) :
    visits engine feed ((n, path) :: rest) r = path :: visits engine feed (more ++ rest) s := by
  rw [visits]
  split
  · rename_i h'
    rw [h] at h'
    cases h'
    rfl
  · rename_i other
    exact absurd h (other more s)

theorem visits_of_stop
    (h : ∀ more s, (enter engine feed n path).after r ≠ (.ok (.expand more), s)) :
    visits engine feed ((n, path) :: rest) r = [path] := by
  rw [visits]
  split
  · rename_i h'
    exact absurd h' (h _ _)
  · rfl

/-- A case distinction on the instruction in front: it goes on to its parts, or it pauses, or it
fails. -/
theorem perform_cases (n : Node) (path : Path) (rest : Agenda) (r : Run σ) :
    (∃ more s, more.weight < n.count ∧ Enters engine feed n path r (.expand more) s ∧
      (enter engine feed n path).after r = (.ok (.expand more), s) ∧
      (perform engine feed ((n, path) :: rest)).after r =
        (perform engine feed (more ++ rest)).after s ∧
      visits engine feed ((n, path) :: rest) r = path :: visits engine feed (more ++ rest) s) ∨
    (∃ s, (enter engine feed n path).after r = (.ok (.pause path), s) ∧
      (perform engine feed ((n, path) :: rest)).after r = (.ok ((n, path) :: rest), s) ∧
      visits engine feed ((n, path) :: rest) r = [path]) ∨
    ∃ e s, (enter engine feed n path).after r = (.error e, s) ∧
      (perform engine feed ((n, path) :: rest)).after r = (.error e, s) ∧
      visits engine feed ((n, path) :: rest) r = [path] := by
  rcases entered : (enter engine feed n path).after r with ⟨e | entry, s⟩
  · refine .inr (.inr ⟨e, s, rfl, ?_, visits_of_stop ?_⟩)
    · rw [perform_cons, after_bind, entered]
    · intro more u other
      rw [entered] at other
      cases other
  · have enters := enters_of_after entered
    cases entry with
    | expand more =>
      refine .inl ⟨more, s, enters.weight_lt, enters, rfl, ?_, visits_of_expand entered⟩
      rw [perform_cons, after_bind, entered]
    | pause p =>
      obtain rfl : p = path := by
        cases enters
        rfl
      refine .inr (.inl ⟨s, rfl, ?_, visits_of_stop ?_⟩)
      · rw [perform_cons, after_bind, entered]
        rfl
      · intro more u other
        rw [entered] at other
        cases other

/-! ### Along the tree -/

/-- An instruction stands before its parts. -/
theorem Enters.places_sublist (h : Enters engine feed n path r (.expand more) s) :
    (path :: more.places).Sublist (n.places path) := by
  cases h with
  | block children =>
    rw [Agenda.places_ofChildren, Node.places]
  | yes y n path holds =>
    rw [Agenda.places_cons, Agenda.places_nil, List.append_nil, Node.places]
    exact (List.sublist_append_left _ _).cons_cons path
  | no y n path fails =>
    rw [Agenda.places_ofOptional, Node.places]
    exact (List.sublist_append_right _ _).cons_cons path
  | indicator => exact .refl _
  | assign => exact .refl _
  | order => exact .refl _
  | skip => exact .refl _

theorem head_places_sublist (n : Node) (path : Path) : [path].Sublist (n.places path) := by
  cases n <;> simp [Node.places]

/-- A run goes along the places of its agenda. -/
theorem visits_sublist (a : Agenda) (r : Run σ) :
    (visits engine feed a r).Sublist a.places := by
  induction a using Agenda.parts_induction generalizing r with
  | nil => rw [visits_nil]; exact .refl _
  | cons n path rest ih =>
    have alone : [path].Sublist (Agenda.places ((n, path) :: rest)) :=
      (head_places_sublist n path).trans (List.sublist_append_left _ _)
    rcases @perform_cases σ engine feed n path rest r with
      ⟨more, s, lighter, enters, -, -, visited⟩ | ⟨s, -, -, visited⟩ | ⟨e, s, -, -, visited⟩
    · rw [visited]
      have parts := enters.places_sublist.append_right (Agenda.places rest)
      have later := ih more lighter s
      rw [Agenda.places_append] at later
      exact (later.cons_cons path).trans parts
    · rwa [visited]
    · rwa [visited]

/-! ### The counter -/

theorem Studied.steps {i : Indicator} {source : PriceSource} {points : List Point}
    (h : Studied engine feed i source r points s) : s.steps = r.steps := by
  cases h <;> rfl

/-- Every instruction is counted once, whatever comes of it. -/
theorem steps_enter (n : Node) (path : Path) (r : Run σ) :
    ((enter engine feed n path).after r).2.steps = r.steps + 1 := by
  have counts : (enter engine feed n path).Ensures r (fun _ s => s.steps = r.steps + 1)
      fun _ s => s.steps = r.steps + 1 := by
    refine (ensures_enter n path r).mono (fun entry s enters => ?_) fun e s breaks => ?_
    · cases enters with
      | indicator target path named configured studied current => exact studied.steps
      | _ => rfl
    · cases breaks with
      | invalid target named configured studied current => exact studied.steps
      | _ => rfl
  rw [ensures_iff] at counts
  rcases entered : (enter engine feed n path).after r with ⟨e | entry, s⟩ <;>
    rwa [entered] at counts

/-- The counter of a run goes up by one at each visit. -/
theorem steps_perform (a : Agenda) (r : Run σ) :
    ((perform engine feed a).after r).2.steps = r.steps + (visits engine feed a r).length := by
  induction a using Agenda.parts_induction generalizing r with
  | nil => rw [perform_nil, visits_nil]; rfl
  | cons n path rest ih =>
    have counted := @steps_enter σ engine feed n path r
    rcases @perform_cases σ engine feed n path rest r with
      ⟨more, s, lighter, -, entered, done, visited⟩ | ⟨s, entered, done, visited⟩ |
      ⟨e, s, entered, done, visited⟩
    · rw [entered] at counted
      have next : s.steps = r.steps + 1 := counted
      rw [done, visited, ih more lighter s, next, List.length_cons]
      omega
    · rw [entered] at counted
      rw [done, visited]
      exact counted
    · rw [entered] at counted
      rw [done, visited]
      exact counted

end Exec

/-! ## The instruction that is one too many -/

namespace StrategyError

/-- The error is that a limit of instructions was passed. -/
def IsStepLimit (e : StrategyError) : Prop := ∃ limit, e = .stepLimit limit

theorem not_isStepLimit_ofFault (fault : Fault) : ¬ (ofFault fault).IsStepLimit := by
  rintro ⟨limit, h⟩
  cases fault <;> cases h

theorem not_isStepLimit_ofShortage (cause : Shortage) : ¬ (ofShortage cause).IsStepLimit := by
  rintro ⟨limit, h⟩
  cases cause <;> cases h

theorem not_isStepLimit_evaluation (fault : EngineFault) : ¬ (evaluation fault).IsStepLimit := by
  rintro ⟨limit, h⟩
  cases h

end StrategyError

namespace Context

variable {c : Context} {e : StrategyError}

theorem Refuses.not_isStepLimit {o : Order} (h : c.Refuses o e) : ¬ e.IsStepLimit := by
  cases h with
  | quantity q given value => exact StrategyError.not_isStepLimit_ofFault _
  | _ =>
    rintro ⟨limit, h⟩
    cases h

theorem Hinders.not_isStepLimit {w : Wait} (h : c.Hinders w e) : ¬ e.IsStepLimit := by
  cases h with
  | condition value => exact StrategyError.not_isStepLimit_ofFault _
  | _ => exact StrategyError.not_isStepLimit_evaluation _

theorem not_isStepLimit_of_stillPending {w : Wait} {s : Suspension}
    (h : c.stillPending w s = .error e) : ¬ e.IsStepLimit := by
  obtain ⟨path, pending⟩ := s
  cases pending with
  | ticks remaining => cases h
  | deadline time =>
    simp only [stillPending] at h
    split at h <;> cases h
  | condition =>
    cases w with
    | condition condition =>
      simp only [stillPending] at h
      cases value : condition.evaluateBool c.lookup with
      | error fault =>
        rw [value] at h
        cases h
        exact StrategyError.not_isStepLimit_ofFault fault
      | ok holds =>
        rw [value] at h
        cases h
    | ticks count =>
      cases h
      exact StrategyError.not_isStepLimit_evaluation _
    | elapsed span =>
      cases h
      exact StrategyError.not_isStepLimit_evaluation _

end Context

/-- A run fails with an error in a state: within the limit for another reason, or at the first
instruction that is one too many. -/
inductive Engine.Stops (engine : Engine) : StrategyError → Run σ → Prop
  | within {e : StrategyError} {r : Run σ} (other : ¬ e.IsStepLimit)
      (within : r.steps ≤ engine.maxSteps) : Stops engine e r
  | limit {r : Run σ} (counted : r.steps = engine.maxSteps + 1) :
      Stops engine (.stepLimit engine.maxSteps) r

namespace Exec

variable {engine : Engine} {feed : Feed σ} {n : Node} {path : Path} {more rest : Agenda}
  {r s : Run σ}

/-- An instruction that is one too many is refused. -/
theorem after_enter_of_passed (passed : engine.maxSteps < r.steps + 1) (n : Node) (path : Path) :
    (enter engine feed n path).after r = (.error (.stepLimit engine.maxSteps), r.counted) := by
  cases n <;> rw [enter, after_bind, after_step, if_pos passed]

/-- No other instruction is refused. -/
theorem Breaks.not_isStepLimit {e : StrategyError} (h : Breaks engine feed n r e s)
    (within : r.steps < engine.maxSteps) : ¬ e.IsStepLimit := by
  cases h with
  | limit n passed => omega
  | branch y n condition => exact StrategyError.not_isStepLimit_ofFault _
  | unknown params target r named =>
    rintro ⟨limit, h⟩
    cases h
  | parameter target r named refused => exact StrategyError.not_isStepLimit_evaluation _
  | study target named configured failed =>
    cases failed with
    | feed error s => exact StrategyError.not_isStepLimit_evaluation _
    | short supplied failed => exact StrategyError.not_isStepLimit_ofShortage _
  | invalid target named configured studied current =>
    exact StrategyError.not_isStepLimit_evaluation _
  | assign target value => exact StrategyError.not_isStepLimit_ofFault _
  | order refused => exact (Context.refuses_of_decision refused).not_isStepLimit
  | wait refused => exact (Context.hinders_of_beginWait refused).not_isStepLimit

/-- A run that is within the limit stays within it, or it stops at the first instruction that is one
too many. -/
theorem stops_perform (a : Agenda) (r : Run σ) (within : r.steps ≤ engine.maxSteps) :
    (perform engine feed a).Ensures r (fun _ s => s.steps ≤ engine.maxSteps) engine.Stops := by
  induction a using Agenda.parts_induction generalizing r with
  | nil =>
    rw [perform_nil]
    exact ensures_pure.2 within
  | cons n path rest ih =>
    have counted := @steps_enter σ engine feed n path r
    by_cases passed : engine.maxSteps < r.steps + 1
    · rw [perform_cons, ensures_bind, ensures_iff, after_enter_of_passed passed]
      exact .limit (congrArg (· + 1) (by omega))
    rw [ensures_iff]
    rcases @perform_cases σ engine feed n path rest r with
      ⟨more, s, lighter, -, entered, done, -⟩ | ⟨s, entered, done, -⟩ | ⟨e, s, entered, done, -⟩
    · rw [entered] at counted
      have next : s.steps = r.steps + 1 := counted
      rw [done, ← ensures_iff]
      exact ih more lighter s (by omega)
    · rw [entered] at counted
      have next : s.steps = r.steps + 1 := counted
      rw [done]
      show s.steps ≤ engine.maxSteps
      omega
    · rw [entered] at counted
      have next : s.steps = r.steps + 1 := counted
      have breaks := (ensures_enter n path r).error entered
      rw [done]
      exact .within (breaks.not_isStepLimit (by omega)) (by omega)

/-! ## Greater limits -/

/-- The second step does what the first does, unless the first is stopped by the limit. -/
def Relaxes (engine : Engine) (x y : Exec σ α) : Prop :=
  ∀ r, (x.after r).1 = .error (.stepLimit engine.maxSteps) ∨ y.after r = x.after r

theorem relaxes_refl (x : Exec σ α) : x.Relaxes engine x := fun _ => .inr rfl

theorem relaxes_bind {x y : Exec σ α} {f g : α → Exec σ β} (h : x.Relaxes engine y)
    (next : ∀ a, (f a).Relaxes engine (g a)) : (x >>= f).Relaxes engine (y >>= g) := by
  intro r
  rw [after_bind, after_bind]
  rcases h r with stopped | same
  · rcases hx : x.after r with ⟨e | a, s⟩
    · rw [hx] at stopped
      obtain rfl : e = .stepLimit engine.maxSteps := Except.error.inj stopped
      exact .inl rfl
    · rw [hx] at stopped
      cases stopped
  · rw [same]
    rcases x.after r with ⟨e | a, s⟩
    · exact .inr rfl
    · exact next a s

end Exec

/-- The engine with another limit of instructions. -/
def Engine.limited (engine : Engine) (limit : Nat) : Engine := { engine with maxSteps := limit }

namespace Exec

variable {engine : Engine} {feed : Feed σ} {limit : Nat}

theorem indicator_limited (name : String) (params : Params) (target : String) :
    indicator (engine.limited limit) feed name params target =
      indicator engine feed name params target := by
  have bars : ∀ i, studyBars (engine.limited limit) feed i = studyBars engine feed i :=
    fun _ => rfl
  have points : ∀ i source,
      study (engine.limited limit) feed i source = study engine feed i source := by
    intro i source
    rw [study, study, bars]
  unfold indicator
  simp only [points]

variable (more : engine.maxSteps ≤ limit)
include more

theorem relaxes_step :
    (step engine : Exec σ Unit).Relaxes engine (step (engine.limited limit)) := by
  intro r
  rw [after_step, after_step]
  by_cases passed : engine.maxSteps < r.steps + 1
  · exact .inl (by rw [if_pos passed])
  · by_cases passed' : (engine.limited limit).maxSteps < r.steps + 1
    · exact absurd passed' (by simp only [Engine.limited]; omega)
    · exact .inr (by rw [if_neg passed, if_neg passed'])

theorem relaxes_enter (n : Node) (path : Path) :
    (enter engine feed n path).Relaxes engine (enter (engine.limited limit) feed n path) := by
  cases n with
  | indicator name params target =>
    rw [enter, enter, indicator_limited]
    exact relaxes_bind (relaxes_step more) fun _ => relaxes_refl _
  | _ => exact relaxes_bind (relaxes_step more) fun _ => relaxes_refl _

theorem relaxes_perform (a : Agenda) :
    (perform engine feed a).Relaxes engine (perform (engine.limited limit) feed a) := by
  induction a using Agenda.parts_induction with
  | nil =>
    rw [perform_nil, perform_nil]
    exact relaxes_refl _
  | cons n path rest ih =>
    intro r
    rw [perform_cons, perform_cons, after_bind, after_bind]
    rcases relaxes_enter more n path r with stopped | same
    · rcases entered : (enter engine feed n path).after r with ⟨e | entry, s⟩
      · rw [entered] at stopped
        obtain rfl : e = .stepLimit engine.maxSteps := Except.error.inj stopped
        exact .inl rfl
      · rw [entered] at stopped
        cases stopped
    · rw [same]
      rcases entered : (enter engine feed n path).after r with ⟨e | entry, s⟩
      · exact .inr rfl
      · cases entry with
        | pause p => exact .inr rfl
        | expand parts => exact ih parts (enters_of_after entered).weight_lt s

theorem relaxes_execEach (a : Agenda) :
    (execEach engine feed a).Relaxes engine (execEach (engine.limited limit) feed a) := by
  rw [← flow_perform, ← flow_perform]
  exact relaxes_bind (relaxes_perform more a) fun _ => relaxes_refl _

theorem relaxes_resume (tree : Node) (s : Suspension) :
    (resume engine feed tree s).Relaxes engine (resume (engine.limited limit) feed tree s) := by
  unfold resume
  split
  · rename_i w here
    refine relaxes_bind (relaxes_step more) fun _ => relaxes_bind (relaxes_refl _) fun pending => ?_
    cases pending with
    | some pending => exact relaxes_refl _
    | none =>
      simp only [continueAfter_eq here]
      exact relaxes_execEach more _
  · exact relaxes_refl _

end Exec

/-! ## Ticks -/

namespace Engine

section

variable (engine : Engine) (feed : Feed σ) (tree : Node)

/-- The places of the instructions that a tick comes to: those of a new cycle, or the wait that the
session is paused at and, if it is over, those that follow it. -/
def visits (c : Context) (s : σ) : List Path :=
  match feed engine.symbol engine.interval engine.historyBars s with
  | (.error _, _) => []
  | (.ok bars, t) =>
    match c.suspension with
    | none =>
      Exec.visits engine feed [(tree, [])] (.start (engine.renewed (engine.supplied bars c)) t)
    | some w =>
      match tree.at? w.path with
      | some (.wait wait) =>
        w.path ::
          if engine.maxSteps < 1 then []
          else
            match (engine.supplied bars c).wake.stillPending wait w with
            | .ok none =>
              Exec.visits engine feed (tree.follow w.path)
                (Run.start (engine.supplied bars c).wake t).counted
            | _ => []
      | _ => []

/-- A run has kept to the limit at its end, or it stops at the first instruction that is one too
many. -/
def Keeps : Except StrategyError Flow × Run σ → Prop
  | (.ok _, r) => r.steps ≤ engine.maxSteps
  | (.error e, r) => engine.Stops e r

/-- The end of a run that comes to some places: they stand in the tree in this order, the run has
counted them, and it has kept to the limit. -/
structure Counts (visited : List Path) (out : Except StrategyError Flow × Run σ) : Prop where
  along : visited.Sublist (tree.places [])
  steps : out.2.steps = visited.length
  limit : engine.Keeps out

variable {engine feed tree}

/-- A run that works an agenda off after it has come to some places. -/
theorem counts_execEach {before : List Path} {a : Agenda} {r : Run σ}
    (along : (before ++ a.places).Sublist (tree.places [])) (steps : r.steps = before.length)
    (within : r.steps ≤ engine.maxSteps) :
    engine.Counts tree (before ++ Exec.visits engine feed a r)
      ((Exec.execEach engine feed a).after r) := by
  have counted := @Exec.steps_perform σ engine feed a r
  have stops := Exec.ensures_iff.1 (@Exec.stops_perform σ engine feed a r within)
  rw [← Exec.flow_perform, Exec.after_bind]
  refine ⟨?_, ?_, ?_⟩
  · exact ((Exec.visits_sublist a r).append_left before).trans along
  · rw [List.length_append, ← steps, ← counted]
    rcases (Exec.perform engine feed a).after r with ⟨e | left, s⟩ <;> rfl
  · rcases done : (Exec.perform engine feed a).after r with ⟨e | left, s⟩
    · rw [done] at stops
      exact stops
    · rw [done] at stops
      exact stops

/-- The run of a tick counts the places that the tick comes to. -/
theorem counts_runTree (c : Context) (s : σ) :
    engine.Counts tree (engine.visits feed tree c s)
      ((engine.runTree feed tree).after (.start c s)) := by
  rw [after_runTree, visits]
  simp only [Run.start]
  rcases feed engine.symbol engine.interval engine.historyBars s with ⟨e | bars, t⟩
  · exact ⟨List.nil_sublist _, rfl,
      .within (StrategyError.not_isStepLimit_evaluation _) (Nat.zero_le _)⟩
  cases c.suspension with
  | none =>
    have along : ([] ++ Agenda.places [(tree, [])]).Sublist (tree.places []) := by simp
    have counts := @counts_execEach σ engine feed tree [] [(tree, [])]
      (.start (engine.renewed (engine.supplied bars c)) t) along rfl (Nat.zero_le _)
    rwa [List.nil_append, Exec.execEach_singleton] at counts
  | some w =>
    by_cases wait : ∃ wait, tree.at? w.path = some (.wait wait)
    · obtain ⟨wait, here⟩ := wait
      have along : ([w.path] ++ Agenda.places (tree.follow w.path)).Sublist (tree.places []) :=
        Node.places_follow_sublist here
      have alone : [w.path].Sublist (tree.places []) := (List.sublist_append_left _ _).trans along
      simp only [here]
      rw [Exec.after_resume here]
      simp only [Nat.zero_add]
      by_cases passed : engine.maxSteps < 1
      · rw [if_pos passed, if_pos passed]
        have none : 0 = engine.maxSteps := by omega
        exact ⟨alone, rfl, .limit (congrArg (· + 1) none)⟩
      · have within : 1 ≤ engine.maxSteps := Nat.not_lt.1 passed
        rw [if_neg passed, if_neg passed]
        rcases looks : (engine.supplied bars c).wake.stillPending wait w with e | _ | pending
        · exact ⟨alone, rfl, .within (Context.not_isStepLimit_of_stillPending looks) within⟩
        · exact counts_execEach along rfl within
        · exact ⟨alone, rfl, within⟩
    · have elsewhere : ∀ wait, tree.at? w.path ≠ some (.wait wait) :=
        fun wait' here => wait ⟨wait', here⟩
      simp only
      rw [Exec.after_resume_elsewhere elsewhere]
      exact ⟨List.nil_sublist _, rfl,
        .within (StrategyError.not_isStepLimit_evaluation _) (Nat.zero_le _)⟩

theorem relaxes_runTree {limit : Nat} (more : engine.maxSteps ≤ limit) :
    (engine.runTree feed tree).Relaxes engine ((engine.limited limit).runTree feed tree) := by
  unfold runTree
  refine Exec.relaxes_bind (Exec.relaxes_refl _) fun bars => ?_
  refine Exec.relaxes_bind (Exec.relaxes_refl _) fun _ => ?_
  refine Exec.relaxes_bind (Exec.relaxes_refl _) fun r => ?_
  cases r.context.suspension with
  | some w =>
    exact Exec.relaxes_bind (Exec.relaxes_refl _) fun _ => Exec.relaxes_resume more tree w
  | none =>
    have cycle := @Exec.relaxes_execEach σ engine feed limit more [(tree, [])]
    rw [Exec.execEach_singleton, Exec.execEach_singleton] at cycle
    have renews : (engine.limited limit).policy = engine.policy := rfl
    simp only [renews]
    split
    · exact Exec.relaxes_bind (Exec.relaxes_refl _) fun _ => cycle
    · exact cycle

/-- A tick fails with an error if its run does. -/
theorem result_eq_error {c : Context} {s : σ} {e : StrategyError} :
    (engine.tick feed tree c s).result = .error e ↔
      ((engine.runTree feed tree).after (.start c s)).1 = .error e := by
  rw [tick_eq]
  rcases (engine.runTree feed tree).after (.start c s) with ⟨e' | flow, r⟩
  · simp [Ticked.ofRun]
  · cases flow <;> simp [Ticked.ofRun]

/-- A tick that the limit stops has counted one instruction too many. -/
theorem steps_of_stopped {c : Context} {s : σ} {limit : Nat}
    (stopped : (engine.tick feed tree c s).result = .error (.stepLimit limit)) :
    limit = engine.maxSteps ∧
      ((engine.runTree feed tree).after (.start c s)).2.steps = engine.maxSteps + 1 := by
  have stops := (@counts_runTree σ engine feed tree c s).limit
  rw [result_eq_error] at stopped
  generalize (engine.runTree feed tree).after (.start c s) = out at stopped stops ⊢
  rcases out with ⟨e | flow, r⟩
  · cases Except.error.inj stopped
    cases stops with
    | within other within => exact absurd ⟨limit, rfl⟩ other
    | limit counted => exact ⟨rfl, counted⟩
  · cases stopped

/-- A tick that the limit does not stop keeps within it. -/
theorem steps_le_of_free {c : Context} {s : σ}
    (free : ∀ limit, (engine.tick feed tree c s).result ≠ .error (.stepLimit limit)) :
    ((engine.runTree feed tree).after (.start c s)).2.steps ≤ engine.maxSteps := by
  have stops := (@counts_runTree σ engine feed tree c s).limit
  have notStopped := mt result_eq_error.2 (free engine.maxSteps)
  generalize (engine.runTree feed tree).after (.start c s) = out at notStopped stops ⊢
  rcases out with ⟨e | flow, r⟩
  · cases stops with
    | within other within => exact within
    | limit counted => exact absurd rfl notStopped
  · exact stops

/-- A tick that the limit does not stop goes the same way under a greater limit. -/
theorem tick_limited {c : Context} {s : σ} {limit : Nat} (more : engine.maxSteps ≤ limit)
    (free : ∀ limit, (engine.tick feed tree c s).result ≠ .error (.stepLimit limit)) :
    (engine.limited limit).tick feed tree c s = engine.tick feed tree c s := by
  rcases @relaxes_runTree σ engine feed tree limit more (.start c s) with stops | same
  · exact absurd (result_eq_error.2 stops) (free _)
  · rw [tick_eq, tick_eq, same]

/-- The budget of a tick, in whatever context it starts. It comes to instructions of the tree, in
the order of the tree and to each at most once; its counter says how many they are, so they are not
more than the tree has. If the limit stops it, the last of them is refused, and before it as many
have been entered as the limit allows; if not, they keep within the limit. So a limit that is not
below the number of instructions of the tree never stops a tick, and a tick that the limit does not
stop goes the same way under any greater limit. -/
theorem step_budget (engine : Engine) (feed : Feed σ) (tree : Node) (c : Context) (s : σ) :
    let visited := engine.visits feed tree c s
    let steps := ((engine.runTree feed tree).after (.start c s)).2.steps
    let ticked := engine.tick feed tree c s
    visited.Sublist (tree.places []) ∧ visited.Nodup ∧
    (∀ path ∈ visited, (tree.at? path).isSome = true) ∧
    steps = visited.length ∧ steps ≤ tree.count ∧
    (∀ limit, ticked.result = .error (.stepLimit limit) → limit = engine.maxSteps ∧
      ∃ entered refused, visited = entered ++ [refused] ∧ entered.length = engine.maxSteps) ∧
    (tree.count ≤ engine.maxSteps → ∀ limit, ticked.result ≠ .error (.stepLimit limit)) ∧
    ((∀ limit, ticked.result ≠ .error (.stepLimit limit)) → steps ≤ engine.maxSteps ∧
      ∀ limit, engine.maxSteps ≤ limit → (engine.limited limit).tick feed tree c s = ticked) := by
  intro visited steps ticked
  have counts := @counts_runTree σ engine feed tree c s
  have most : steps ≤ tree.count := by
    show ((engine.runTree feed tree).after (.start c s)).2.steps ≤ tree.count
    rw [counts.steps, ← tree.length_places []]
    exact counts.along.length_le
  refine ⟨counts.along, counts.along.nodup (tree.nodup_places []), ?_, counts.steps, most,
    ?_, ?_, ?_⟩
  · intro path mem
    obtain ⟨rest, m, rfl, there⟩ := Node.exists_at_of_mem_places (counts.along.subset mem)
    exact Option.isSome_iff_exists.2 ⟨m, there⟩
  · intro limit failed
    obtain ⟨same, full⟩ := steps_of_stopped failed
    have length : visited.length = engine.maxSteps + 1 := counts.steps.symm.trans full
    rcases List.eq_nil_or_concat' visited with none | ⟨entered, refused, split⟩
    · rw [none] at length
      cases length
    · rw [split, List.length_append, List.length_singleton] at length
      exact ⟨same, entered, refused, split, by omega⟩
  · intro enough limit failed
    have full : steps = engine.maxSteps + 1 := (steps_of_stopped failed).2
    omega
  · intro free
    exact ⟨steps_le_of_free free, fun limit more => tick_limited more free⟩

/-- A block with two assignments. If two instructions are allowed, the second assignment is refused;
if three are, the limit does not matter any more. -/
theorem step_budget_block :
    let tree : Node := .block [.assign "x" (.number 1), .assign "y" (.var "x")]
    let engine := Engine.ofMarket "BTCUSDT" "1m"
    let tick := fun limit => (engine.limited limit).tick Feed.arriving tree .empty 0
    ((tick 2).result = .error (.stepLimit 2) ∧ ∃ entered refused,
      (engine.limited 2).visits Feed.arriving tree .empty 0 = entered ++ [refused] ∧
        entered.length = 2) ∧
    tree.count = 3 ∧ (∀ limit, (tick 3).result ≠ .error (.stepLimit limit)) ∧ tick 5 = tick 3 := by
  intro tree engine tick
  have refused : (tick 2).result = .error (.stepLimit 2) := rfl
  have count : tree.count = 3 := rfl
  obtain ⟨-, -, -, -, -, stops, -, -⟩ :=
    step_budget (engine.limited 2) Feed.arriving tree .empty 0
  obtain ⟨-, -, -, -, -, -, free, same⟩ :=
    step_budget (engine.limited 3) Feed.arriving tree .empty 0
  have never := free (Nat.le_of_eq count)
  exact ⟨⟨refused, (stops 2 refused).2⟩, count, never, (same never).2 5 (by decide)⟩

end

end Engine

end Stratagem
