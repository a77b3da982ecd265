import Stratagem.Proofs.Session.Perform
import Stratagem.Session.Tick

/-!
# What follows a wait

A session that is paused remembers the path of a wait and nothing of the work behind it. When the
wait is over, the work is found again by walking down the path. Here a session keeps that work
instead, as an agenda, and goes on with it.

* `continueAfter_eq` says that the walk down the path runs just what follows the wait in the tree
  (`Node.follow`).
* `Engine.work` is a tick that is given the agenda of the session and gives back the agenda that it
  leaves. `flow_work` says that it runs as a tick without an agenda does, if the session is paused
  at a wait of the tree (`Context.Fits`).
-/

namespace Stratagem

namespace Exec

variable {σ : Type} {engine : Engine} {feed : Feed σ}

/-! ## Walking down a path -/

/-- The walk down the rest of a path, and then what follows the place it starts at. -/
theorem continueAfter_andThen {tree n m : Node} {path rest : Path} (here : tree.at? path = some n)
    (there : n.at? rest = some m) :
    (continueAfter engine feed rest n path).andThen (execEach engine feed (tree.follow path)) =
      execEach engine feed (tree.follow (path ++ rest)) := by
  induction rest generalizing n path with
  | nil =>
    rw [continueAfter, List.append_nil]
    rfl
  | cons s rest ih =>
    obtain ⟨next, hs, hrest⟩ := Option.bind_eq_some_iff.1 there
    have at_next : tree.at? (path ++ [s]) = some next := by rw [Node.at?_concat here, hs]
    have ih := ih at_next hrest
    rw [List.append_assoc, List.singleton_append] at ih
    rw [← ih]
    cases n with
    | block children =>
      cases s with
      | child i =>
        have child : children[i]? = some next := hs
        rw [← Path.child, Node.follow_child here, execEach_append, ← execFrom_eq, ← andThen_assoc]
        simp only [continueAfter, child]
        rfl
      | yes => cases hs
      | no => cases hs
    | branch e y o =>
      cases s with
      | child i => cases hs
      | yes =>
        obtain rfl : y = next := Option.some.inj hs
        rw [← Path.yes, Node.follow_yes, continueAfter]
      | no =>
        obtain rfl : o = some next := hs
        rw [← Path.no, Node.follow_no, continueAfter]
    | indicator name params target => cases hs
    | assign target e => cases hs
    | order o => cases hs
    | wait w => cases hs

/-- The walk down a path from the root runs what follows the path. -/
theorem continueAfter_eq {tree n : Node} {path : Path} (h : tree.at? path = some n) :
    continueAfter engine feed path tree [] = execEach engine feed (tree.follow path) := by
  have walk : (continueAfter engine feed path tree []).andThen
      (execEach engine feed (tree.follow [])) = execEach engine feed (tree.follow ([] ++ path)) :=
    continueAfter_andThen rfl h
  rwa [Node.follow_nil, execEach_nil, andThen_proceed, List.nil_append] at walk

end Exec

/-! ## Sessions and trees -/

namespace Context

/-- The work that a session is paused in the middle of: the wait and what follows it. -/
def agenda (tree : Node) (c : Context) : Agenda :=
  match c.suspension with
  | none => []
  | some s => ((tree.at? s.path).map fun n => (n, s.path)).toList ++ tree.follow s.path

theorem agenda_of_awake {tree : Node} {c : Context} (h : c.suspension = none) :
    c.agenda tree = [] := by
  simp [agenda, h]

theorem agenda_of_paused {tree n : Node} {c : Context} {path : Path} {pending : Pending}
    (h : c.suspension = some ⟨path, pending⟩) (here : tree.at? path = some n) :
    c.agenda tree = (n, path) :: tree.follow path := by
  simp [agenda, h, here]

/-- If the session is paused, then at a wait of the tree and in a state that belongs to the wait. -/
def Fits (tree : Node) (c : Context) : Prop :=
  ∀ s, c.suspension = some s → ∃ w, tree.at? s.path = some (.wait w) ∧ w.Matches s.pending

theorem fits_of_awake {tree : Node} {c : Context} (h : c.suspension = none) : c.Fits tree := by
  intro s hs
  rw [h] at hs
  cases hs

theorem fits_suspend {tree : Node} {w : Wait} {path : Path} {pending : Pending} (c : Context)
    (h : tree.at? path = some (.wait w)) (hw : w.Matches pending) :
    (c.suspend ⟨path, pending⟩).Fits tree := by
  intro s hs
  cases hs
  exact ⟨w, h, hw⟩

end Context

/-! ## Ticks that keep their agenda -/

namespace Engine

variable {σ : Type}

section

variable (engine : Engine) (feed : Feed σ) (tree : Node)

/-- The context in which a tick runs after it got the latest bars. -/
def supplied (bars : List Bar) (c : Context) : Context :=
  c.install ⟨engine.symbol, engine.interval, bars⟩

/-- The context in which a new cycle starts. -/
def renewed (c : Context) : Context := if engine.policy = .reset then c.clearVariables else c

/-- A further look at a wait, and what follows it if the wait is over. -/
def goOn (w : Wait) (s : Suspension) (rest : Agenda) : Exec σ Agenda := do
  Exec.step engine
  match ← Exec.stillPending w s with
  | none => Exec.perform engine feed rest
  | some pending =>
    Exec.updateContext fun c => c.suspend ⟨s.path, pending⟩
    return (.wait w, s.path) :: rest

/-- The work of a tick: it goes on with the agenda that the session has kept, or it starts a new
cycle, and gives back the agenda to be kept. -/
def work (kept : Agenda) : Exec σ Agenda := do
  let bars ← Exec.fetch engine feed engine.historyBars
  Exec.updateContext (engine.supplied bars)
  match (← get).context.suspension, kept with
  | some s, (.wait w, _) :: rest =>
    Exec.updateContext Context.wake
    engine.goOn feed w s rest
  | _, _ =>
    Exec.updateContext engine.renewed
    Exec.perform engine feed [(tree, [])]

end

variable {engine : Engine} {feed : Feed σ} {tree : Node}

open Exec

theorem flow_goOn {w : Wait} {s : Suspension} (h : tree.at? s.path = some (.wait w)) :
    (do return (← engine.goOn feed w s (tree.follow s.path)).flow) =
      resume engine feed tree s := by
  unfold goOn resume
  rw [h]
  simp only [bind_assoc]
  refine congrArg _ (funext fun _ => congrArg _ (funext fun pending => ?_))
  cases pending with
  | none => rw [continueAfter_eq h, ← flow_perform]
  | some pending => rfl

/-- A tick: it gets the latest bars, and then it goes on or starts a new cycle. -/
theorem after_runTree (r : Run σ) :
    (engine.runTree feed tree).after r =
      match feed engine.symbol engine.interval engine.historyBars r.feed with
      | (.error e, s) =>
        (.error (.evaluation (.feed engine.symbol engine.interval e)), { r with feed := s })
      | (.ok bars, s) =>
        match r.context.suspension with
        | some w =>
          (resume engine feed tree w).after
            { r with feed := s, context := (engine.supplied bars r.context).wake }
        | none =>
          (exec engine feed tree []).after
            { r with feed := s, context := engine.renewed (engine.supplied bars r.context) } := by
  unfold runTree fetch
  simp only [bind_assoc, after_bind, after_get, after_set]
  rcases feed engine.symbol engine.interval engine.historyBars r.feed with ⟨e | bars, s⟩
  · rfl
  · simp only [after_pure, after_updateContext, supplied, Context.install]
    cases hs : r.context.suspension with
    | some w => rfl
    | none =>
      unfold renewed
      by_cases reset : engine.policy = .reset
      · simp only [reset, if_true]
        rfl
      · simp only [reset, if_false]

theorem after_work (kept : Agenda) (r : Run σ) :
    (engine.work feed tree kept).after r =
      match feed engine.symbol engine.interval engine.historyBars r.feed with
      | (.error e, s) =>
        (.error (.evaluation (.feed engine.symbol engine.interval e)), { r with feed := s })
      | (.ok bars, s) =>
        match r.context.suspension, kept with
        | some w, (.wait wait, _) :: rest =>
          (engine.goOn feed wait w rest).after
            { r with feed := s, context := (engine.supplied bars r.context).wake }
        | _, _ =>
          (perform engine feed [(tree, [])]).after
            { r with feed := s, context := engine.renewed (engine.supplied bars r.context) } := by
  unfold work fetch
  simp only [bind_assoc, after_bind, after_get, after_set]
  rcases feed engine.symbol engine.interval engine.historyBars r.feed with ⟨e | bars, s⟩
  · rfl
  · simp only [after_pure, after_updateContext, supplied, Context.install]
    split <;> rfl

/-- A tick without an agenda runs as a tick that is given the agenda of the session. -/
theorem flow_work {r : Run σ} (fits : r.context.Fits tree) :
    (do return (← engine.work feed tree (r.context.agenda tree)).flow).after r =
      (engine.runTree feed tree).after r := by
  rw [after_bind, after_runTree, after_work]
  rcases feed engine.symbol engine.interval engine.historyBars r.feed with ⟨e | bars, s⟩
  · rfl
  · simp only
    cases hs : r.context.suspension with
    | none =>
      simp only
      rw [← after_bind, ← execEach_singleton, ← flow_perform]
    | some w =>
      obtain ⟨wait, hw, -⟩ := fits w hs
      simp only [Context.agenda, hs, hw]
      rw [← flow_goOn hw, after_bind]
      rfl

end Engine

end Stratagem
