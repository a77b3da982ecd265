import Stratagem.Proofs.Session.Entering

/-!
# Working agendas off

A second way to run a strategy. The instruction in front of an agenda is taken off, and a block or a
branch puts its parts in its place. Nothing is remembered in a call stack, so what follows an
instruction is simply the rest of the agenda, and a run that pauses can keep it.

* `Exec.execEach` runs the instructions of an agenda with `Exec.exec`, one after the other.
* `Exec.perform` works an agenda off instruction by instruction and gives back what is left of it
  when it pauses, the wait in front.
* `flow_perform` says that the two agree, so that a statement about runs is proved by taking one
  instruction off an agenda (`Exec.enter`, `perform_cons`); `ensures_perform` is the rule for
  invariants.
-/

namespace Stratagem

/-- How a run ended that left an agenda behind: it paused at the instruction in front. -/
def Agenda.flow : Agenda → Flow
  | [] => .proceed
  | (_, path) :: _ => .pause path

namespace Exec

variable {σ : Type}

/-! ## One instruction after the other -/

/-- Runs `x`, and then `y` unless `x` paused. -/
def andThen (x y : Exec σ Flow) : Exec σ Flow := do
  match ← x with
  | .pause path => return .pause path
  | .proceed => y

@[simp] theorem andThen_proceed (x : Exec σ Flow) : x.andThen (pure .proceed) = x := by
  have step : ∀ f : Flow, (match f with
      | .pause path => pure (.pause path)
      | .proceed => pure .proceed : Exec σ Flow) = pure f := fun f => by cases f <;> rfl
  simp only [andThen, step, bind_pure]

theorem bind_andThen {α : Type} (x : Exec σ α) (f : α → Exec σ Flow) (y : Exec σ Flow) :
    (x >>= f).andThen y = x >>= fun a => (f a).andThen y := by
  simp only [andThen, bind_assoc]

theorem andThen_assoc (x y z : Exec σ Flow) :
    (x.andThen y).andThen z = x.andThen (y.andThen z) := by
  refine (bind_andThen x _ z).trans (congrArg (x >>= ·) (funext fun f => ?_))
  cases f <;> rfl

section

variable (engine : Engine) (feed : Feed σ)

/-- Runs the instructions of an agenda in order, up to a pause. -/
def execEach : Agenda → Exec σ Flow
  | [] => pure .proceed
  | (n, path) :: rest => (exec engine feed n path).andThen (execEach rest)

/-- Works an agenda off and gives back what is left of it: nothing, or the wait that the run paused
at and what follows it. -/
def perform : Agenda → Exec σ Agenda
  | [] => pure []
  | (.block children, path) :: rest => do
    step engine
    perform (Agenda.ofChildren children 0 path ++ rest)
  | (.branch e yes no, path) :: rest => do
    step engine
    if ← condition e then perform ((yes, path.yes) :: rest)
    else perform (Agenda.ofOptional no path.no ++ rest)
  | (.indicator name params target, _) :: rest => do
    step engine
    indicator engine feed name params target
    perform rest
  | (.assign target e, _) :: rest => do
    step engine
    let v ← value e
    updateContext fun c => c.bind target v
    perform rest
  | (.order o, _) :: rest => do
    step engine
    order o
    perform rest
  | (.wait w, path) :: rest => do
    step engine
    match ← enterWait w path with
    | .pause _ => return (.wait w, path) :: rest
    | .proceed => perform rest
termination_by a => a.weight
decreasing_by all_goals simp [Node.count] <;> omega

variable {engine feed}

theorem perform_nil : perform engine feed ([] : Agenda) = pure [] := by
  rw [perform]

theorem perform_cons (n : Node) (path : Path) (rest : Agenda) :
    perform engine feed ((n, path) :: rest) = do
      match ← enter engine feed n path with
      | .expand more => perform engine feed (more ++ rest)
      | .pause _ => return (n, path) :: rest := by
  cases n with
  | block children =>
    rw [perform, enter]
    simp only [bind_assoc, pure_bind]
  | branch e yes no =>
    rw [perform, enter]
    simp only [bind_assoc]
    refine congrArg _ (funext fun _ => congrArg _ (funext fun holds => ?_))
    cases holds <;> rfl
  | indicator name params target =>
    rw [perform, enter]
    simp only [bind_assoc, pure_bind, List.nil_append]
  | assign target e =>
    rw [perform, enter]
    simp only [bind_assoc, pure_bind, List.nil_append]
  | order o =>
    rw [perform, enter]
    simp only [bind_assoc, pure_bind, List.nil_append]
  | wait w =>
    rw [perform, enter]
    simp only [bind_assoc]
    refine congrArg _ (funext fun _ => congrArg _ (funext fun f => ?_))
    cases f <;> rfl

/-! ## Agreement with `exec` -/

@[simp] theorem execEach_nil : execEach engine feed [] = pure .proceed := rfl

theorem execEach_cons (n : Node) (path : Path) (rest : Agenda) :
    execEach engine feed ((n, path) :: rest) =
      (exec engine feed n path).andThen (execEach engine feed rest) := rfl

theorem execEach_singleton (n : Node) (path : Path) :
    execEach engine feed [(n, path)] = exec engine feed n path := by
  rw [execEach_cons, execEach_nil, andThen_proceed]

theorem execEach_append (a b : Agenda) :
    execEach engine feed (a ++ b) = (execEach engine feed a).andThen (execEach engine feed b) := by
  induction a with
  | nil => rfl
  | cons x a ih =>
    obtain ⟨n, path⟩ := x
    rw [List.cons_append, execEach_cons, ih, execEach_cons, andThen_assoc]

theorem execFrom_eq (ns : List Node) (index : Nat) (path : Path) :
    execFrom engine feed ns index path =
      execEach engine feed (Agenda.ofChildren ns index path) := by
  induction ns generalizing index with
  | nil => rw [execFrom, Agenda.ofChildren, execEach_nil]
  | cons n ns ih =>
    rw [execFrom, Agenda.ofChildren, execEach_cons, ← ih]
    rfl

theorem execOptional_eq (n : Option Node) (path : Path) :
    execOptional engine feed n path = execEach engine feed (Agenda.ofOptional n path) := by
  cases n with
  | none => rw [execOptional, Agenda.ofOptional, execEach_nil]
  | some n => rw [execOptional, Agenda.ofOptional, execEach_singleton]

/-- An instruction runs as what entering it leads to. -/
theorem exec_eq (n : Node) (path : Path) :
    exec engine feed n path = do
      match ← enter engine feed n path with
      | .expand more => execEach engine feed more
      | .pause p => return .pause p := by
  cases n with
  | block children =>
    rw [exec, enter, execFrom_eq]
    simp only [bind_assoc, pure_bind]
  | branch e yes no =>
    rw [exec, enter, execOptional_eq]
    simp only [bind_assoc]
    refine congrArg _ (funext fun _ => congrArg _ (funext fun holds => ?_))
    cases holds with
    | false => rfl
    | true => exact (execEach_singleton _ _).symm
  | indicator name params target =>
    rw [exec, enter]
    simp only [bind_assoc, pure_bind, execEach_nil]
  | assign target e =>
    rw [exec, enter]
    simp only [bind_assoc, pure_bind, execEach_nil]
  | order o =>
    rw [exec, enter]
    simp only [bind_assoc, pure_bind, execEach_nil]
  | wait w =>
    rw [exec, enter]
    simp only [bind_assoc]
    refine congrArg _ (funext fun _ => ?_)
    refine (bind_pure _).symm.trans (congrArg _ (funext fun f => ?_))
    cases f <;> rfl

/-! ## Induction on agendas -/

/-- The rule for invariants of a run: what holds of an agenda and the run that works it off stays
true when the instruction in front is entered, so it holds at the pause or at the end. -/
theorem ensures_perform (inv : Agenda → Run σ → Prop) {good : Agenda → Run σ → Prop}
    {bad : StrategyError → Run σ → Prop}
    (expand : ∀ {n path rest r more s}, inv ((n, path) :: rest) r →
      Enters engine feed n path r (.expand more) s → inv (more ++ rest) s)
    (pause : ∀ {w path rest r pending}, inv ((.wait w, path) :: rest) r →
      r.context.beginWait w = .ok (some pending) →
      good ((.wait w, path) :: rest)
        { r.counted with context := r.context.suspend ⟨path, pending⟩ })
    (breaks : ∀ {n path rest r e s}, inv ((n, path) :: rest) r → Breaks engine feed n r e s →
      bad e s)
    (done : ∀ {r}, inv [] r → good [] r) (a : Agenda) (r : Run σ) (h : inv a r) :
    (perform engine feed a).Ensures r good bad := by
  induction a using Agenda.parts_induction generalizing r with
  | nil =>
    rw [perform_nil]
    exact ensures_pure.2 (done h)
  | cons n path rest ih =>
    rw [perform_cons, ensures_bind]
    refine (ensures_enter n path r).mono (fun entry s enters => ?_) fun e s => breaks h
    cases entry with
    | pause p =>
      cases enters with
      | pause path begins => exact ensures_pure.2 (pause h begins)
    | expand more => exact ih more enters.weight_lt s (expand h enters)

/-- Working an agenda off is running its instructions one after the other. -/
theorem flow_perform (a : Agenda) :
    (do return (← perform engine feed a).flow) = execEach engine feed a := by
  induction a using Agenda.parts_induction with
  | nil => rw [perform_nil]; rfl
  | cons n path rest ih =>
    rw [execEach_cons, exec_eq, bind_andThen, perform_cons, bind_assoc]
    refine ext_after fun r => ?_
    rw [after_bind, after_bind]
    rcases hx : (enter engine feed n path).after r with ⟨e | entry, s⟩
    · rfl
    · cases entry with
      | pause p =>
        cases enters_of_after hx
        rfl
      | expand more =>
        have rest_eq := ih more (enters_of_after hx).weight_lt
        rw [execEach_append] at rest_eq
        simp only [← rest_eq]

end

end Exec

end Stratagem
