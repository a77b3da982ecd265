import Stratagem.Proofs.Session.Continuation

/-!
# Sessions of ticks

A session is a number of ticks, each in the context that the last one left and each with the feed in
some state of its own, so that anything can happen to the feed in between.

* `Engine.starts` are the contexts and feeds that the ticks of a session start with, and
  `starts_induction` is induction on ticks.
* `tick_eq_work` reads a tick off the work that it does (`Engine.work`), and `ensures_work` is the
  rule for it: what is left to prove are the run of a new cycle and the run that goes on after a
  wait.
-/

namespace Stratagem

variable {σ : Type}

/-- The run that a tick starts with. -/
def Run.start (c : Context) (state : σ) : Run σ := ⟨c, [], 0, [], state⟩

@[simp] theorem Run.start_context (c : Context) (state : σ) : (Run.start c state).context = c := rfl

/-- The result of a tick, read off the end of its run. -/
def Ticked.ofRun : Except StrategyError Flow × Run σ → Ticked σ
  | (.ok .proceed, r) => ⟨.ok ⟨r.decisions, none⟩, r.context, r.feed⟩
  | (.ok (.pause path), r) => ⟨.ok ⟨r.decisions, some path⟩, r.context, r.feed⟩
  | (.error e, r) => ⟨.error e, r.context.wake, r.feed⟩

namespace Engine

variable (engine : Engine) (feed : Feed σ) (tree : Node)

/-- What the ticks of a session start with, if the feed is in the given states. -/
def starts : Context → List σ → List (Context × σ)
  | _, [] => []
  | c, s :: states => (c, s) :: starts (engine.tick feed tree c s).context states

/-- The ticks of a session. -/
def session (c : Context) (states : List σ) : List (Ticked σ) :=
  (engine.starts feed tree c states).map fun x => engine.tick feed tree x.1 x.2

variable {engine feed tree}

theorem session_cons (c : Context) (s : σ) (states : List σ) :
    engine.session feed tree c (s :: states) =
      engine.tick feed tree c s ::
        engine.session feed tree (engine.tick feed tree c s).context states := rfl

theorem length_session (c : Context) (states : List σ) :
    (engine.session feed tree c states).length = states.length := by
  induction states generalizing c with
  | nil => rfl
  | cons s states ih => rw [session_cons, List.length_cons, ih, List.length_cons]

/-- The ticks of a session start with the feed in the given states. -/
theorem starts_states (c : Context) (states : List σ) :
    (engine.starts feed tree c states).map Prod.snd = states := by
  induction states generalizing c with
  | nil => rfl
  | cons s states ih => rw [starts, List.map_cons, ih]

theorem state_getElem?_starts (c : Context) (states : List σ) (i : Nat) :
    (engine.starts feed tree c states)[i]?.map Prod.snd = states[i]? := by
  rw [← List.getElem?_map, starts_states]

theorem getElem?_starts {c : Context} {states : List σ} {i : Nat} {s : σ}
    (h : states[i]? = some s) : ∃ c', (engine.starts feed tree c states)[i]? = some (c', s) := by
  rw [← @state_getElem?_starts _ engine feed tree c] at h
  obtain ⟨⟨c', _⟩, start, rfl⟩ := Option.map_eq_some_iff.1 h
  exact ⟨c', start⟩

theorem getElem?_session (c : Context) (states : List σ) (i : Nat) :
    (engine.session feed tree c states)[i]? =
      (engine.starts feed tree c states)[i]?.map fun x => engine.tick feed tree x.1 x.2 :=
  List.getElem?_map

/-- The first ticks of a session are a session. -/
theorem session_take (n : Nat) (c : Context) (states : List σ) :
    (engine.session feed tree c states).take n = engine.session feed tree c (states.take n) := by
  induction states generalizing n c with
  | nil => simp [session, starts]
  | cons s states ih =>
    cases n with
    | zero => rfl
    | succ n => rw [session_cons, List.take_succ_cons, ih, List.take_succ_cons, session_cons]

/-- Induction on ticks: what holds at the start of a session and is kept by its ticks holds whenever
a tick starts. -/
theorem starts_induction {P : Context → Prop} {states : List σ}
    (next : ∀ c, P c → ∀ s ∈ states, P (engine.tick feed tree c s).context) {c : Context}
    (first : P c) : ∀ x ∈ engine.starts feed tree c states, P x.1 ∧ x.2 ∈ states := by
  induction states generalizing c with
  | nil => simp [starts]
  | cons s states ih =>
    intro x hx
    rcases List.mem_cons.1 hx with rfl | hx
    · exact ⟨first, List.mem_cons_self⟩
    · have kept := next c first s List.mem_cons_self
      obtain ⟨hP, hmem⟩ := ih (fun c hc s hs => next c hc s (List.mem_cons_of_mem _ hs)) kept x hx
      exact ⟨hP, List.mem_cons_of_mem _ hmem⟩

/-! ## One tick -/

theorem tick_eq (c : Context) (s : σ) :
    engine.tick feed tree c s = .ofRun ((engine.runTree feed tree).after (.start c s)) := by
  unfold tick Exec.after Run.start
  rcases (engine.runTree feed tree).run ⟨c, [], 0, [], s⟩ with ⟨e | f, r⟩
  · rfl
  · cases f <;> rfl

/-- A tick is the work on the agenda of the session. -/
theorem tick_eq_work {c : Context} (fits : c.Fits tree) (s : σ) :
    engine.tick feed tree c s =
      .ofRun ((do return (← engine.work feed tree (c.agenda tree)).flow : Exec σ Flow).after
        (.start c s)) := by
  rw [tick_eq, ← flow_work fits]
  rfl

/-- What holds of the result of a tick, given what its work ensures. -/
theorem ofRun_work {c : Context} {s : σ} (fits : c.Fits tree) {good : Agenda → Run σ → Prop}
    {bad : StrategyError → Run σ → Prop} {P : Ticked σ → Prop}
    (h : (engine.work feed tree (c.agenda tree)).Ensures (.start c s) good bad)
    (ended : ∀ r, good [] r → P ⟨.ok ⟨r.decisions, none⟩, r.context, r.feed⟩)
    (paused : ∀ n path rest r, good ((n, path) :: rest) r →
      P ⟨.ok ⟨r.decisions, some path⟩, r.context, r.feed⟩)
    (failed : ∀ e r, bad e r → P ⟨.error e, r.context.wake, r.feed⟩) :
    P (engine.tick feed tree c s) := by
  rw [tick_eq_work fits, Exec.after_bind]
  rcases hx : (engine.work feed tree (c.agenda tree)).after (.start c s) with ⟨e | left, r⟩
  · exact failed e r (h.error hx)
  · match left, h.ok hx with
    | [], hgood => exact ended r hgood
    | (n, path) :: rest, hgood => exact paused n path rest r hgood

/-- The rule for the work of a tick. -/
theorem ensures_work {c : Context} {state : σ} (fits : c.Fits tree) {good : Agenda → Run σ → Prop}
    {bad : StrategyError → Run σ → Prop}
    (refused : ∀ e s, feed engine.symbol engine.interval engine.historyBars state = (.error e, s) →
      bad (.evaluation (.feed engine.symbol engine.interval e)) (.start c s))
    (begins : ∀ bars s,
      feed engine.symbol engine.interval engine.historyBars state = (.ok bars, s) →
      c.suspension = none →
      (Exec.perform engine feed [(tree, [])]).Ensures
        (.start (engine.renewed (engine.supplied bars c)) s) good bad)
    (goesOn : ∀ bars s w path pending,
      feed engine.symbol engine.interval engine.historyBars state = (.ok bars, s) →
      c.suspension = some ⟨path, pending⟩ → tree.at? path = some (.wait w) → w.Matches pending →
      (engine.goOn feed w ⟨path, pending⟩ (tree.follow path)).Ensures
        (.start (engine.supplied bars c).wake s) good bad) :
    (engine.work feed tree (c.agenda tree)).Ensures (.start c state) good bad := by
  rw [Exec.ensures_iff, after_work]
  unfold Run.start at *
  rcases hanswer : feed engine.symbol engine.interval engine.historyBars state with ⟨e | bars, s⟩
  · exact refused e s hanswer
  · cases hs : c.suspension with
    | none => exact Exec.ensures_iff.1 (begins bars s hanswer hs)
    | some suspension =>
      obtain ⟨path, pending⟩ := suspension
      obtain ⟨w, hw, hpending⟩ := fits _ hs
      simp only [Context.agenda, hs, hw]
      exact Exec.ensures_iff.1 (goesOn bars s w path pending hanswer hs hw hpending)

/-- The rule for a further look at a wait: it fails only because of its condition. -/
theorem ensures_goOn {r : Run σ} {w : Wait} {path : Path} {pending : Pending} {rest : Agenda}
    (state : w.Matches pending) {good : Agenda → Run σ → Prop}
    {bad : StrategyError → Run σ → Prop}
    (limit : engine.maxSteps < r.steps + 1 → bad (.stepLimit engine.maxSteps) r.counted)
    (fails : ∀ e fault, w = .condition e → e.evaluateBool r.context.lookup = .error fault →
      bad (.ofFault fault) r.counted)
    (stays : ∀ next, w.Matches next →
      good ((.wait w, path) :: rest)
        { r.counted with context := r.context.suspend ⟨path, next⟩ })
    (goesOn : (Exec.perform engine feed rest).Ensures r.counted good bad) :
    (engine.goOn feed w ⟨path, pending⟩ rest).Ensures r good bad := by
  unfold goOn
  refine Exec.ensures_counted limit ?_
  rw [Exec.ensures_bind, Exec.ensures_iff, Exec.after_stillPending, Run.counted_context]
  cases hnext : r.context.stillPending w ⟨path, pending⟩ with
  | error e =>
    obtain ⟨e, fault, hw, rfl, hvalue⟩ := Context.stillPending_error state hnext
    exact fails e fault hw hvalue
  | ok next =>
    cases next with
    | none => exact goesOn
    | some next =>
      simp only [Exec.ensures_bind, Exec.ensures_updateContext, Exec.ensures_pure]
      exact stays next (Context.matches_of_stillPending state hnext)

end Engine

end Stratagem
