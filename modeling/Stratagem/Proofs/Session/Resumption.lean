import Stratagem.Proofs.Session.Suspension

/-!
# Resumption

A session that is paused remembers a path, and what it does when the wait is over is found by
walking down that path. An interpreter that keeps the work behind the wait itself does not look at
the tree again: it has nothing to skip, to do twice or to decide a second time. The two cannot be
told apart.

* `Engine.keepingTick` is a tick of the interpreter that keeps its agenda, and
  `Engine.keepingSession` are its ticks one after the other.
* `keepingTick_agenda` says that a tick of either leaves the same, and the one the agenda that the
  other's path stands for.
* `resumes_with_continuation` says this of the walk down the path and of whole sessions.
-/

namespace Stratagem

namespace Engine

variable {σ : Type}

section

variable (engine : Engine) (feed : Feed σ) (tree : Node)

/-- A tick of an interpreter that keeps its agenda: what the tick led to, and what is left. -/
def keepingTick (kept : Agenda) (c : Context) (s : σ) : Ticked σ × Agenda :=
  match (engine.work feed tree kept).after (.start c s) with
  | (.ok left, r) => (.ofRun (.ok left.flow, r), left)
  | (.error e, r) => (.ofRun (.error e, r), [])

/-- The ticks of an interpreter that keeps its agenda. -/
def keepingSession : Agenda → Context → List σ → List (Ticked σ)
  | _, _, [] => []
  | kept, c, s :: states =>
    let t := engine.keepingTick feed tree kept c s
    t.1 :: keepingSession t.2 t.1.context states

end

variable {engine : Engine} {feed : Feed σ} {tree : Node}

/-- A tick of the interpreter that keeps the agenda of the session is a tick of the session, and
what it keeps is the agenda of the session again. -/
theorem keepingTick_agenda {c : Context} (fits : c.Fits tree) (s : σ) :
    engine.keepingTick feed tree (c.agenda tree) c s =
      (engine.tick feed tree c s, (engine.tick feed tree c s).context.agenda tree) := by
  have work := @ensures_work_fits σ engine feed tree c fits s
  rw [tick_eq_work fits, Exec.after_bind, keepingTick]
  rcases hx : (engine.work feed tree (c.agenda tree)).after (.start c s) with ⟨e | left, r⟩
  · have awake : (Ticked.ofRun (.error e, r)).context.suspension = none := rfl
    exact congrArg _ (Context.agenda_of_awake awake).symm
  · obtain ⟨-, hleft⟩ := work.ok hx
    have context : (Ticked.ofRun (.ok left.flow, r)).context = r.context := by
      cases left.flow <;> rfl
    simp only [Exec.after_pure, context]
    rw [← hleft]

theorem session_eq_keepingSession {c : Context} (fits : c.Fits tree) (states : List σ) :
    engine.session feed tree c states =
      engine.keepingSession feed tree (c.agenda tree) c states := by
  induction states generalizing c with
  | nil => rfl
  | cons s states ih =>
    rw [session_cons, keepingSession, keepingTick_agenda fits]
    simp only
    rw [ih (fits_tick fits s)]

/-- Going on after a wait is running what follows the wait in the tree, one instruction after the
other and up to the first pause or error, from whatever state; the path is never stale. So a session
cut by waits is the session of an interpreter that keeps what is left to be run. -/
theorem resumes_with_continuation {path : Path} {w : Wait} (h : tree.at? path = some (.wait w)) :
    (Exec.continueAfter engine feed path tree [] = Exec.execEach engine feed (tree.follow path)) ∧
    (∀ r q, ((Exec.continueAfter engine feed path tree []).after r).1 ≠
      .error (.evaluation (.stalePath q))) ∧
    (∀ c : Context, c.suspension = none → ∀ states,
      engine.session feed tree c states = engine.keepingSession feed tree [] c states) := by
  refine ⟨Exec.continueAfter_eq h, ?_, ?_⟩
  · intro r q stale
    rw [Exec.continueAfter_eq h] at stale
    have told : (Exec.execEach engine feed (tree.follow path)).after r =
        (.error (.evaluation (.stalePath q)), _) := Prod.ext stale rfl
    exact (Exec.ensures_execEach_not_lost _ r).error told (.stalePath q)
  · intro c awake states
    rw [← @Context.agenda_of_awake tree c awake]
    exact session_eq_keepingSession (Context.fits_of_awake awake) states

/-- A wait two blocks deep: the rest of the inner block follows it, and then the rest of the outer
one. -/
theorem resumes_with_later_siblings :
    let wait : Node := .wait (.ticks 1)
    let later : Node := .assign "x" (.bool true)
    let last : Node := .wait (.condition (.var "x"))
    let tree : Node := .block [.block [wait, later], last]
    let engine := Engine.ofMarket "BTCUSDT" "1m"
    let feed : Feed Unit := fun _ _ _ s => (.ok [], s)
    tree.at? [.child 0, .child 0] = some wait ∧
      Exec.continueAfter engine feed [.child 0, .child 0] tree [] =
        Exec.execEach engine feed [(later, [.child 0, .child 1]), (last, [.child 1])] ∧
      Context.empty.suspension = none ∧
      engine.session feed tree .empty [(), ()] =
        engine.keepingSession feed tree [] .empty [(), ()] := by
  intro wait later last tree engine feed
  have resumes :=
    @resumes_with_continuation Unit engine feed tree [.child 0, .child 0] (.ticks 1) rfl
  exact ⟨rfl, resumes.1, rfl, resumes.2.2 .empty rfl [(), ()]⟩

end Engine

end Stratagem
