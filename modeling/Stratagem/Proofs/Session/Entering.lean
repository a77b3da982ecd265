import Stratagem.Proofs.Plan.Agenda
import Stratagem.Proofs.Session.Effects

/-!
# Entering an instruction

Running an instruction starts with what it does itself; what is left are its parts, which go on an
agenda. `Exec.enter` is that first piece.

* `Exec.Enters` lists the ways in which it goes well, with the state after it, and `Exec.Breaks` the
  ways in which it fails. `ensures_enter` says that there are no others, so a property of all
  instructions is proved by cases on these two.
* The parts of an instruction weigh less than the instruction (`Enters.weight_lt`), and they stand
  where the tree has them (`Enters.placed`).
-/

namespace Stratagem

/-- The state of a run after one more instruction is entered. -/
def Run.counted {σ : Type} (r : Run σ) : Run σ := { r with steps := r.steps + 1 }

@[simp] theorem Run.counted_context {σ : Type} (r : Run σ) : r.counted.context = r.context := rfl

namespace Exec

variable {σ : Type}

/-- What entering an instruction leads to. -/
inductive Entry
  /-- It is done but for its parts, which take its place. -/
  | expand (more : Agenda)
  | pause (path : Path)

section

variable (engine : Engine) (feed : Feed σ)

/-- Enters the instruction in front of an agenda. -/
def enter : Node → Path → Exec σ Entry
  | .block children, path => do
    step engine
    return .expand (Agenda.ofChildren children 0 path)
  | .branch e yes no, path => do
    step engine
    if ← condition e then return .expand [(yes, path.yes)]
    else return .expand (Agenda.ofOptional no path.no)
  | .indicator name params target, _ => do
    step engine
    indicator engine feed name params target
    return .expand []
  | .assign target e, _ => do
    step engine
    let v ← value e
    updateContext fun c => c.bind target v
    return .expand []
  | .order o, _ => do
    step engine
    order o
    return .expand []
  | .wait w, path => do
    step engine
    match ← enterWait w path with
    | .pause p => return .pause p
    | .proceed => return .expand []

/-! ## All that can happen -/

/-- The ways in which entering an instruction goes well, and the state after it. -/
inductive Enters : Node → Path → Run σ → Entry → Run σ → Prop
  | block (children : List Node) (path : Path) (r : Run σ) :
      Enters (.block children) path r (.expand (Agenda.ofChildren children 0 path)) r.counted
  | yes {e : Expr} (y : Node) (n : Option Node) (path : Path) {r : Run σ}
      (holds : e.evaluateBool r.context.lookup = .ok true) :
      Enters (.branch e y n) path r (.expand [(y, path.yes)]) r.counted
  | no {e : Expr} (y : Node) (n : Option Node) (path : Path) {r : Run σ}
      (fails : e.evaluateBool r.context.lookup = .ok false) :
      Enters (.branch e y n) path r (.expand (Agenda.ofOptional n path.no)) r.counted
  | indicator {name : String} {params : Params} (target : String) (path : Path) {r s : Run σ}
      {kind : Kind} {i : Indicator} {points : List Point} {point : Point}
      (named : Kind.ofName? name = some kind) (configured : kind.configure params = .ok i)
      (studied : Studied engine feed i params.source r.counted points s)
      (current : currentPoint? points = some point) :
      Enters (.indicator name params target) path r (.expand [])
        { s with context := s.context.bindAll (point.reading.bindings target) }
  | assign (target : String) {e : Expr} (path : Path) {r : Run σ} {v : Value}
      (evaluates : e.evaluate r.context.lookup = .ok v) :
      Enters (.assign target e) path r (.expand [])
        { r.counted with context := r.context.bind target v }
  | order {o : Order} (path : Path) {r : Run σ} {d : Decision}
      (decides : r.context.decision o = .ok d) :
      Enters (.order o) path r (.expand []) { r.counted with decisions := r.decisions ++ [d] }
  | skip {w : Wait} (path : Path) {r : Run σ} (begins : r.context.beginWait w = .ok none) :
      Enters (.wait w) path r (.expand []) r.counted
  | pause {w : Wait} (path : Path) {r : Run σ} {pending : Pending}
      (begins : r.context.beginWait w = .ok (some pending)) :
      Enters (.wait w) path r (.pause path)
        { r.counted with context := r.context.suspend ⟨path, pending⟩ }

/-- The ways in which entering an instruction fails, with the error and the state after it. -/
inductive Breaks : Node → Run σ → StrategyError → Run σ → Prop
  | limit (n : Node) {r : Run σ} (passed : engine.maxSteps < r.steps + 1) :
      Breaks n r (.stepLimit engine.maxSteps) r.counted
  | branch {e : Expr} (y : Node) (n : Option Node) {r : Run σ} {fault : Fault}
      (condition : e.evaluateBool r.context.lookup = .error fault) :
      Breaks (.branch e y n) r (.ofFault fault) r.counted
  | unknown {name : String} (params : Params) (target : String) (r : Run σ)
      (named : Kind.ofName? name = none) :
      Breaks (.indicator name params target) r (.unknownIndicator name) r.counted
  | parameter {name : String} {params : Params} (target : String) (r : Run σ) {kind : Kind}
      {fault : ParameterFault} (named : Kind.ofName? name = some kind)
      (refused : kind.configure params = .error fault) :
      Breaks (.indicator name params target) r (.evaluation (.parameter name fault)) r.counted
  | study {name : String} {params : Params} (target : String) {r : Run σ} {kind : Kind}
      {i : Indicator} {error : StrategyError} {s : σ} (named : Kind.ofName? name = some kind)
      (configured : kind.configure params = .ok i)
      (failed : StudyFails engine feed i params.source r.counted error s) :
      Breaks (.indicator name params target) r error { r.counted with feed := s }
  | invalid {name : String} {params : Params} (target : String) {r s : Run σ} {kind : Kind}
      {i : Indicator} {points : List Point} (named : Kind.ofName? name = some kind)
      (configured : kind.configure params = .ok i)
      (studied : Studied engine feed i params.source r.counted points s)
      (current : currentPoint? points = none) :
      Breaks (.indicator name params target) r (.evaluation (.noCurrentValue i)) s
  | assign (target : String) {e : Expr} {r : Run σ} {fault : Fault}
      (value : e.evaluate r.context.lookup = .error fault) :
      Breaks (.assign target e) r (.ofFault fault) r.counted
  | order {o : Order} {r : Run σ} {error : StrategyError}
      (refused : r.context.decision o = .error error) : Breaks (.order o) r error r.counted
  | wait {w : Wait} {r : Run σ} {error : StrategyError}
      (refused : r.context.beginWait w = .error error) : Breaks (.wait w) r error r.counted

end

variable {engine : Engine} {feed : Feed σ}

/-- Counting an instruction, which fails past the limit. -/
theorem after_step (r : Run σ) :
    (step engine).after r =
      if engine.maxSteps < r.steps + 1 then (.error (.stepLimit engine.maxSteps), r.counted)
      else (.ok (), r.counted) := by
  simp only [step, after_bind, after_modify, after_get]
  split <;> rfl

/-- What is done once an instruction is counted. -/
theorem ensures_counted {α : Type} {x : Exec σ α} {r : Run σ} {good : α → Run σ → Prop}
    {bad : StrategyError → Run σ → Prop}
    (limit : engine.maxSteps < r.steps + 1 → bad (.stepLimit engine.maxSteps) r.counted)
    (h : x.Ensures r.counted good bad) : (step engine >>= fun _ => x).Ensures r good bad := by
  rw [ensures_bind, ensures_step]
  split
  · rename_i passed
    exact limit passed
  · exact h

/-- An instruction is entered in one of the ways of `Enters` or fails in one of the ways of
`Breaks`. -/
theorem ensures_enter (n : Node) (path : Path) (r : Run σ) :
    (enter engine feed n path).Ensures r (Enters engine feed n path r)
      (Breaks engine feed n r) := by
  cases n with
  | block children =>
    refine ensures_counted (.limit _) ?_
    exact ensures_pure.2 (.block children path r)
  | branch e y n =>
    refine ensures_counted (.limit _) ?_
    rw [ensures_bind, ensures_iff, after_condition, Run.counted_context]
    cases h : e.evaluateBool r.context.lookup with
    | error fault => exact .branch y n h
    | ok holds =>
      cases holds with
      | false => exact ensures_pure.2 (.no y n path h)
      | true => exact ensures_pure.2 (.yes y n path h)
  | indicator name params target =>
    refine ensures_counted (.limit _) ?_
    rw [ensures_bind]
    refine ensures_indicator ?_ ?_ ?_ ?_ ?_
    · intro kind i points s point named configured studied current
      exact ensures_pure.2 (.indicator target path named configured studied current)
    · exact .unknown params target r
    · intro kind fault named refused
      exact .parameter target r named refused
    · intro kind i e s named configured failed
      exact .study target named configured failed
    · intro kind i points s named configured studied current
      exact .invalid target named configured studied current
  | assign target e =>
    refine ensures_counted (.limit _) ?_
    rw [ensures_bind, ensures_iff, after_value, Run.counted_context]
    cases h : e.evaluate r.context.lookup with
    | error fault => exact .assign target h
    | ok v =>
      refine ensures_bind.2 (ensures_updateContext.2 (ensures_pure.2 ?_))
      exact .assign target path h
  | order o =>
    refine ensures_counted (.limit _) ?_
    rw [ensures_bind, ensures_iff, after_order, Run.counted_context]
    cases h : r.context.decision o with
    | error e => exact .order h
    | ok d => exact ensures_pure.2 (.order path h)
  | wait w =>
    refine ensures_counted (.limit _) ?_
    rw [ensures_bind]
    refine ensures_enterWait ?_ ?_ ?_
    · intro pending h
      exact ensures_pure.2 (.pause path h)
    · intro h
      exact ensures_pure.2 (.skip path h)
    · intro e h
      exact .wait h

theorem enters_of_after {n : Node} {path : Path} {r s : Run σ} {entry : Entry}
    (h : (enter engine feed n path).after r = (.ok entry, s)) :
    Enters engine feed n path r entry s :=
  (ensures_enter n path r).ok h

/-! ## The parts of an instruction -/

variable {n : Node} {path : Path} {r s : Run σ} {more rest : Agenda}

/-- The parts of an instruction weigh less than the instruction. -/
theorem Enters.weight_lt (h : Enters engine feed n path r (.expand more) s) :
    more.weight < n.count := by
  cases h with
  | block children => simp only [Agenda.weight_ofChildren, Node.count]; omega
  | yes y n path holds =>
    simp only [Agenda.weight_cons, Agenda.weight_nil, Node.count]
    omega
  | no y n path fails => simp only [Agenda.weight_ofOptional, Node.count]; omega
  | indicator => simp [Node.count]
  | assign => simp [Node.count]
  | order => simp [Node.count]
  | skip => simp [Node.count]

/-- The parts of an instruction stand where the tree has them. -/
theorem Enters.placed {tree : Node} (h : Enters engine feed n path r (.expand more) s)
    (front : Agenda.Placed tree ((n, path) :: rest)) : Agenda.Placed tree (more ++ rest) := by
  cases h with
  | block children => exact front.children
  | yes y n path holds => exact front.yes
  | no y n path fails => exact front.no
  | indicator => exact front.2.2
  | assign => exact front.2.2
  | order => exact front.2.2
  | skip => exact front.2.2

end Exec

end Stratagem
