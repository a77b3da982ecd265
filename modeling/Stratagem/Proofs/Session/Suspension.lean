import Stratagem.Proofs.Session.Ticks

/-!
# Suspensions

A session is paused exactly when its last tick said so, and then it is paused at a wait of the tree,
in a state that belongs to the wait (`suspended_iff_paused`). So no tick ever loses the place at
which the session goes on (`StrategyError.Lost`).

While a run works an agenda off, the session is awake and the agenda fits the tree; both are kept by
every instruction (`Exec.ensures_perform_fits`). A run that pauses therefore leaves behind just the
agenda that the path of the wait stands for, and the context fits the tree at the next tick
(`Engine.fits_tick`).
-/

namespace Stratagem

/-- The errors of a session that does not find the wait that it is paused at. -/
inductive StrategyError.Lost : StrategyError → Prop
  | notAWait (path : Path) : Lost (.evaluation (.notAWait path))
  | noCondition (path : Path) : Lost (.evaluation (.noCondition path))
  | stalePath (path : Path) : Lost (.evaluation (.stalePath path))

namespace StrategyError

theorem not_lost_ofFault (fault : Fault) : ¬ (ofFault fault).Lost := by
  intro h
  cases fault <;> cases h

theorem not_lost_ofShortage (cause : Shortage) : ¬ (ofShortage cause).Lost := by
  intro h
  cases cause <;> cases h

end StrategyError

variable {σ : Type} {engine : Engine} {feed : Feed σ} {tree : Node}

namespace Exec

variable {n : Node} {path : Path} {r s : Run σ}

/-- No instruction fails because the session lost its place. -/
theorem Breaks.not_lost {e : StrategyError} (h : Breaks engine feed n r e s) : ¬ e.Lost := by
  cases h with
  | limit n passed => intro lost; cases lost
  | branch y n condition => exact StrategyError.not_lost_ofFault _
  | unknown params target r named => intro lost; cases lost
  | parameter target r named refused => intro lost; cases lost
  | study target named configured failed =>
    cases failed with
    | feed error s => intro lost; cases lost
    | short supplied failed => exact StrategyError.not_lost_ofShortage _
  | invalid target named configured studied current => intro lost; cases lost
  | assign target value => exact StrategyError.not_lost_ofFault _
  | order refused =>
    cases Context.refuses_of_decision refused with
    | noMarketData noBar => intro lost; cases lost
    | side word => intro lost; cases lost
    | quantity q given value => exact StrategyError.not_lost_ofFault _
    | symbol blank => intro lost; cases lost
    | notPositive q given value outside => intro lost; cases lost
  | wait refused =>
    cases Context.hinders_of_beginWait refused with
    | ticks none => intro lost; cases lost
    | elapsed none => intro lost; cases lost
    | withoutData span noBar => intro lost; cases lost
    | outOfRange someBar late => intro lost; cases lost
    | condition value => exact StrategyError.not_lost_ofFault _

theorem Studied.context_eq {i : Indicator} {source : PriceSource} {points : List Point}
    (h : Studied engine feed i source r points s) : s.context = r.context := by
  cases h with
  | known found => rfl
  | computed missing supplied made => rfl

/-- No run loses its place, whatever the context is. -/
theorem ensures_execEach_not_lost (a : Agenda) (r : Run σ) :
    (execEach engine feed a).Ensures r (fun _ _ => True) fun e _ => ¬ e.Lost := by
  rw [← flow_perform, ensures_bind]
  refine ensures_perform (fun _ _ => True) ?_ ?_ ?_ ?_ a r trivial
  · intros
    trivial
  · intros
    exact ensures_pure.2 trivial
  · intro n path rest r e s _ breaks
    exact breaks.not_lost
  · intros
    exact ensures_pure.2 trivial

/-- Only a wait pauses the session. -/
theorem Enters.awake {more : Agenda} (h : Enters engine feed n path r (.expand more) s)
    (awake : r.context.suspension = none) : s.context.suspension = none := by
  cases h with
  | block children => exact awake
  | yes y n path holds => exact awake
  | no y n path fails => exact awake
  | indicator target path named configured studied current =>
    show (Context.bindAll _ _).suspension = none
    rw [Context.bindAll_suspension, studied.context_eq]
    exact awake
  | assign target path evaluates => exact awake
  | order path decides => exact awake
  | skip path begins => exact awake

/-- A run that works off an agenda that fits the tree leaves the agenda of its context. -/
theorem ensures_perform_fits {a : Agenda} (placed : a.Placed tree)
    (awake : r.context.suspension = none) :
    (perform engine feed a).Ensures r
      (fun left s => s.context.Fits tree ∧ left = s.context.agenda tree) fun e _ => ¬ e.Lost := by
  refine ensures_perform (fun a r => a.Placed tree ∧ r.context.suspension = none)
    ?_ ?_ ?_ ?_ a r ⟨placed, awake⟩
  · rintro n path rest r more s ⟨front, awake⟩ enters
    exact ⟨enters.placed front, enters.awake awake⟩
  · rintro w path rest r pending ⟨⟨here, follows, -⟩, -⟩ begins
    refine ⟨Context.fits_suspend _ here (Context.matches_of_beginWait begins), ?_⟩
    simp [Context.agenda, Context.suspend, here, follows]
  · intro n path rest r e s _ breaks
    exact breaks.not_lost
  · rintro r ⟨-, awake⟩
    exact ⟨Context.fits_of_awake awake, (Context.agenda_of_awake awake).symm⟩

end Exec

namespace Engine

theorem renewed_suspension (c : Context) : (engine.renewed c).suspension = c.suspension := by
  unfold renewed
  split <;> rfl

/-- The work of a tick leaves the agenda of its context. -/
theorem ensures_work_fits {c : Context} (fits : c.Fits tree) (s : σ) :
    (engine.work feed tree (c.agenda tree)).Ensures (.start c s)
      (fun left s => s.context.Fits tree ∧ left = s.context.agenda tree) fun e _ => ¬ e.Lost := by
  refine ensures_work fits ?_ ?_ ?_
  · intro e s _ lost
    cases lost
  · intro bars s _ awake
    refine Exec.ensures_perform_fits (Agenda.placed_root tree) ?_
    rw [Run.start_context, renewed_suspension]
    exact awake
  · intro bars s w path pending _ _ here state
    refine ensures_goOn state ?_ ?_ ?_ ?_
    · intro _ lost
      cases lost
    · intro e fault _ _
      exact StrategyError.not_lost_ofFault fault
    · intro next hnext
      refine ⟨Context.fits_suspend _ here hnext, ?_⟩
      simp [Context.agenda, Context.suspend, here]
    · exact Exec.ensures_perform_fits (Agenda.placed_follow here) rfl

/-- After a tick the session is paused at a wait of the tree or not at all. -/
theorem fits_tick {c : Context} (fits : c.Fits tree) (s : σ) :
    (engine.tick feed tree c s).context.Fits tree := by
  refine ofRun_work (P := fun t => t.context.Fits tree) fits (ensures_work_fits fits _) ?_ ?_ ?_
  · exact fun r h => h.1
  · exact fun n path rest r h => h.1
  · exact fun e r _ => Context.fits_of_awake rfl

/-- Whenever a tick starts, the session is paused at a wait of the tree or not at all. -/
theorem fits_starts {c : Context} (fits : c.Fits tree) (states : List σ) :
    ∀ x ∈ engine.starts feed tree c states, x.1.Fits tree := fun x hx =>
  (starts_induction (P := Context.Fits tree) (fun _ fits s _ => fits_tick fits s) fits x hx).1

/-- A tick and the context that it leaves agree on where the session goes on. -/
structure Settled (tree : Node) (t : Ticked σ) : Prop where
  paused_iff : ∀ path, t.context.suspension.map Suspension.path = some path ↔
    ∃ decisions, t.result = .ok ⟨decisions, some path⟩
  /-- The session is paused at a wait of the tree, in a state that belongs to the wait. -/
  fits : ∀ s, t.context.suspension = some s →
    ∃ w, tree.at? s.path = some (.wait w) ∧ w.Matches s.pending
  complete : ∀ decisions, t.result = .ok ⟨decisions, none⟩ → t.context.suspension = none
  failed : ∀ e, t.result = .error e → t.context.suspension = none ∧ ¬ e.Lost

/-- Whatever the feed does, a session that starts awake is paused after a tick exactly when the tick
says so, and then at a wait of the tree, in a state that belongs to the wait. After a complete cycle
and after an error it is awake, and no error comes from a lost place. -/
theorem suspended_iff_paused {c : Context} (awake : c.suspension = none) (states : List σ) :
    ∀ x ∈ engine.starts feed tree c states, Settled tree (engine.tick feed tree x.1 x.2) := by
  intro x hx
  have fits := (starts_induction (P := Context.Fits tree) (fun _ hc s _ => fits_tick hc s)
    (Context.fits_of_awake awake) x hx).1
  refine ofRun_work (P := Settled tree) fits (ensures_work_fits fits _) ?_ ?_ ?_
  · rintro r ⟨hfits, hleft⟩
    have awake : r.context.suspension = none := by
      cases hs : r.context.suspension with
      | none => rfl
      | some s =>
        obtain ⟨w, hw, -⟩ := hfits s hs
        simp [Context.agenda, hs, hw] at hleft
    exact ⟨by simp [awake], hfits, fun _ _ => awake, by simp⟩
  · rintro n path rest r ⟨hfits, hleft⟩
    cases hs : r.context.suspension with
    | none => simp [Context.agenda, hs] at hleft
    | some s =>
      obtain ⟨w, hw, -⟩ := hfits s hs
      simp only [Context.agenda, hs, hw, Option.map_some, Option.toList_some,
        List.singleton_append, List.cons.injEq, Prod.mk.injEq] at hleft
      obtain ⟨⟨rfl, rfl⟩, -⟩ := hleft
      exact ⟨by simp [hs], hfits, by simp, by simp⟩
  · intro e r lost
    exact ⟨by simp [Context.wake], by simp [Context.wake], by simp, by simp [Context.wake, lost]⟩

/-- The third tick of a session that waits for two ticks and then reads a variable that nothing
binds. -/
theorem settled_third_tick :
    let tree : Node := .block [.wait (.ticks 2), .wait (.condition (.var "x"))]
    let engine := Engine.ofMarket "BTCUSDT" "1m"
    let feed : Feed Unit := fun _ _ _ s => (.ok [], s)
    let second := (engine.tick feed tree (engine.tick feed tree .empty ()).context ()).context
    Context.empty.suspension = none ∧
      (second, ()) ∈ engine.starts feed tree .empty [(), (), ()] ∧
      second.suspension = some ⟨[.child 0], .ticks 1⟩ ∧
      Settled tree (engine.tick feed tree second ()) := by
  intro tree engine feed second
  have third : (second, ()) ∈ engine.starts feed tree .empty [(), (), ()] := by
    simp [starts, second]
  exact ⟨rfl, third, rfl, suspended_iff_paused rfl [(), (), ()] _ third⟩

end Engine

end Stratagem
