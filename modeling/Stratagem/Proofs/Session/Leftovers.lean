import Stratagem.Proofs.Session.Coupling
import Stratagem.Proofs.Session.Foresight

/-!
# Variables of earlier cycles

Under one policy the variables of a cycle outlive it, under the other they do not. In a tree without
issues that binds no field of bars nobody can tell the difference: two sessions that start with
other variables, or under other policies, have the same results and are paused at the same waits
(`session_under`).

* `Context.Agree` says that two contexts have the same values of the names that the review takes to
  be bound. An instruction reads no other names, and the names that it binds are added to them
  (`Node.Changes.agree`).
* `Exec.InStep` is the invariant of two runs, and `coupled_inStep` the run lemma. The list of names
  shrinks to the fields of bars when a new cycle starts, which no variable hides.
-/

namespace Stratagem

open Review (Names)

/-! ## Contexts that agree on names -/

namespace Context

/-- No variable hides a field of bars. -/
def Plain (c : Context) : Prop := ∀ x ∈ marketFields, Keyed.find? x c.vars = none

/-- Two contexts that are paused at the same wait, have the same values of some names, and in which
no variable hides a field of bars. -/
structure Agree (bound : Names) (c d : Context) : Prop where
  suspension : c.suspension = d.suspension
  vars : ∀ x ∈ bound, Keyed.find? x c.vars = Keyed.find? x d.vars
  left : c.Plain
  right : d.Plain

variable {bound before : Names} {c d : Context}

theorem agree_marketFields (same : c.suspension = d.suspension) (left : c.Plain) (right : d.Plain) :
    Agree marketFields c d :=
  ⟨same, fun x hx => (left x hx).trans (right x hx).symm, left, right⟩

theorem Agree.mono (h : Agree bound c d) (known : before ⊆ bound) : Agree before c d :=
  ⟨h.suspension, fun x hx => h.vars x (known hx), h.left, h.right⟩

theorem Agree.wake (h : Agree bound c d) : Agree bound c.wake d.wake :=
  ⟨rfl, h.vars, h.left, h.right⟩

theorem Agree.suspend (h : Agree bound c d) (s : Suspension) :
    Agree bound (c.suspend s) (d.suspend s) :=
  ⟨rfl, h.vars, h.left, h.right⟩

theorem Plain.bind (h : c.Plain) {target : String} (apart : target ∉ marketFields) (v : Value) :
    (c.bind target v).Plain := by
  intro x hx
  have other : x ≠ target := by
    rintro rfl
    exact apart hx
  simp only [Context.bind, Keyed.find?_insert, other, if_false]
  exact h x hx

theorem Agree.bind (h : Agree bound c d) {target : String} (apart : target ∉ marketFields)
    (v : Value) : Agree (target :: bound) (c.bind target v) (d.bind target v) := by
  refine ⟨h.suspension, ?_, h.left.bind apart v, h.right.bind apart v⟩
  intro x hx
  simp only [Context.bind, Keyed.find?_insert]
  split
  · rfl
  · rename_i other
    exact h.vars x ((List.mem_cons.1 hx).resolve_left other)

theorem Agree.bindAll (h : Agree bound c d) {numbers : List (String × Float)}
    (apart : ∀ x ∈ numbers.map Prod.fst, x ∉ marketFields) :
    Agree (numbers.map Prod.fst ++ bound) (c.bindAll numbers) (d.bindAll numbers) := by
  unfold Context.bindAll
  induction numbers generalizing c d bound with
  | nil => exact h
  | cons p numbers ih =>
    obtain ⟨first, others⟩ := List.forall_mem_cons.1 apart
    refine (ih (h.bind first (.number p.2)) others).mono ?_
    intro x hx
    simp only [List.map_cons, List.mem_append, List.mem_cons] at hx ⊢
    tauto

/-- Contexts that agree on the names of an instruction lead it to the same. -/
theorem Agree.readAlike (h : Agree bound c d) {n : Node} {path : Path}
    (snapshot : c.snapshot = d.snapshot) (clean : (Review.node n path bound).1 = []) :
    ReadAlike n c d := by
  refine ⟨snapshot, fun e he x hx => ?_⟩
  have bars : c.latestBar? = d.latestBar? := by rw [latestBar?, latestBar?, snapshot]
  rw [lookup, lookup, h.vars x (Review.mem_of_clean clean he hx), bars]

end Context

/-- An instruction changes both contexts alike, and they agree on the names that it binds. -/
theorem Node.Changes.agree {n : Node} {change : Context → Context} (h : n.Changes change)
    {bound : Names} {c d : Context} (agree : Context.Agree bound c d)
    (apart : ∀ x ∈ n.binds, x ∉ marketFields) :
    Context.Agree (n.binds ++ bound) (change c) (change d) := by
  cases h with
  | block children => exact agree
  | branch e y n => exact agree
  | indicator params target named shape =>
    rw [Node.binds_indicator named shape] at apart ⊢
    exact agree.bindAll apart
  | assign target e v => exact agree.bind (apart target (List.mem_singleton_self target)) v
  | order o => exact agree
  | skip w => exact agree
  | pause w s => exact agree.suspend s

variable {σ : Type} {engine : Engine} {feed : Feed σ} {tree : Node}

/-! ## Runs -/

namespace Exec

variable {n : Node} {path : Path} {rest : Agenda}

/-- Two runs that go the same way: their contexts agree on the names with which the agenda is
reviewed. -/
structure InStep (tree : Node) (a : Agenda) (r t : Run σ) : Prop where
  beside : r.Beside Eq t
  placed : a.Placed tree
  agree : ∃ bound, a.Reviewed bound ∧ Context.Agree bound r.context t.context

/-- Two runs that have failed in the same way. -/
structure Failed (r t : Run σ) : Prop where
  feed : r.feed = t.feed
  agree : ∃ bound, Context.Agree bound r.context t.context

theorem mirrors_self (feed : Feed σ) : Feed.Mirrors Eq feed feed where
  answer := by
    rintro symbol interval count s _ rfl
    rfl
  state := by
    rintro symbol interval count s _ rfl
    rfl

/-- Two runs in step stay in step when they enter an instruction. -/
theorem InStep.enter (apart : ∀ x ∈ tree.targets, x ∉ marketFields) {r t : Run σ}
    (front : InStep tree ((n, path) :: rest) r t) :
    (enter engine feed n path).Coupled (enter engine feed n path) r t
      (fun entry r' t' =>
        match entry with
        | .expand more => InStep tree (more ++ rest) r' t'
        | .pause _ => InStep tree ((n, path) :: rest) r' t') Failed := by
  obtain ⟨beside, placed, bound, reviewed, agree⟩ := front
  obtain ⟨before, known, clean, -⟩ := reviewed.front
  have apart : ∀ x ∈ n.binds, x ∉ marketFields :=
    fun x hx => apart x (Node.binds_of_at placed.1 hx)
  have alike : Context.ReadAlike n r.context t.context :=
    (agree.mono known).readAlike beside.snapshot clean
  refine (coupled_enter (mirrors_self feed) n path beside alike).mono ?_ ?_
  · rintro entry r' t' entered ⟨later, change, changes, left, right⟩
    have agree : Context.Agree (n.binds ++ bound) r'.context t'.context := by
      rw [left, right]
      exact changes.agree agree apart
    have enters := enters_of_after entered
    cases entry with
    | expand more => exact ⟨later, enters.placed placed, _, enters.reviewed reviewed, agree⟩
    | pause p =>
      exact ⟨later, placed, _, reviewed.mono (List.subset_append_right _ _), agree⟩
  · rintro r' t' ⟨later, left, right⟩
    refine ⟨later.feed, bound, ?_⟩
    rw [left, right]
    exact agree

theorem coupled_inStep (apart : ∀ x ∈ tree.targets, x ∉ marketFields) {a : Agenda} {r t : Run σ}
    (inStep : InStep tree a r t) :
    (perform engine feed a).Coupled (perform engine feed a) r t (InStep tree) Failed :=
  coupled_perform (InStep tree) (InStep.enter apart) id a r t inStep

end Exec

/-! ## Ticks -/

/-- Two contexts that go the same way: they agree on the names with which the work is reviewed that
the session is paused in. -/
structure Context.Level (tree : Node) (c d : Context) : Prop where
  fits : c.Fits tree
  agree : ∃ bound, (c.agenda tree).Reviewed bound ∧ Context.Agree bound c d

theorem Context.level_of_awake {c d : Context} {bound : Names} (awake : c.suspension = none)
    (agree : Context.Agree bound c d) : Context.Level tree c d := by
  refine ⟨fits_of_awake awake, bound, ?_, agree⟩
  rw [agenda_of_awake awake]
  exact .nil bound

namespace Engine

theorem plain_renewed {c : Context} (h : c.Plain) : (engine.renewed c).Plain := by
  unfold renewed
  split
  · intro x _
    rfl
  · exact h

/-- The work of two ticks goes the same way, whatever the policies. -/
theorem coupled_level (clean : tree.review = []) (apart : ∀ x ∈ tree.targets, x ∉ marketFields)
    (policy : Policy) {c d : Context} (level : Context.Level tree c d) (s : σ) :
    (engine.work feed tree (c.agenda tree)).Coupled
      ((engine.under policy).work feed tree (d.agenda tree)) (.start c s) (.start d s)
      (Exec.InStep tree) Exec.Failed := by
  obtain ⟨fits, bound, reviewed, agree⟩ := level
  refine coupled_work (Exec.mirrors_self feed) policy rfl agree.suspension fits ?_ ?_ ?_
  · rintro u _ rfl
    exact ⟨rfl, bound, agree⟩
  · rintro bars u _ rfl awake
    -- A new cycle: the names that are left are the fields of bars.
    have same : (engine.renewed (engine.supplied bars c)).suspension =
        ((engine.under policy).renewed (engine.supplied bars d)).suspension := by
      rw [renewed_suspension, renewed_suspension]
      exact agree.suspension
    have snapshot : (engine.renewed (engine.supplied bars c)).snapshot =
        ((engine.under policy).renewed (engine.supplied bars d)).snapshot := by
      unfold renewed
      split <;> split <;> rfl
    have left : (engine.supplied bars c).Plain := agree.left
    have right : (engine.supplied bars d).Plain := agree.right
    exact Exec.coupled_inStep apart ⟨Run.beside_start snapshot rfl, Agenda.placed_root tree, _,
      Agenda.reviewed_root clean,
      Context.agree_marketFields same (plain_renewed left) (plain_renewed right)⟩
  · rintro bars u _ w path pending rfl hs here
    rw [Context.agenda_of_paused hs here] at reviewed
    obtain ⟨before, known, clean, later⟩ := reviewed.front
    have awake : Context.Agree bound (engine.supplied bars c).wake (engine.supplied bars d).wake :=
      ⟨rfl, agree.vars, agree.left, agree.right⟩
    have snapshot : (engine.supplied bars c).wake.snapshot =
        (engine.supplied bars d).wake.snapshot := rfl
    have beside : (Run.start (engine.supplied bars c).wake u).Beside Eq
        (Run.start (engine.supplied bars d).wake u) := Run.beside_start snapshot rfl
    have alike : Context.ReadAlike (.wait w) (engine.supplied bars c).wake
        (engine.supplied bars d).wake := (awake.mono known).readAlike snapshot clean
    refine coupled_goOn rfl alike ⟨rfl, bound, awake⟩ ?_ ?_
    · intro next
      exact ⟨beside.counted.withContext rfl, ⟨here, rfl, Agenda.placed_follow here⟩, bound,
        reviewed, awake.suspend _⟩
    · exact Exec.coupled_inStep apart ⟨beside.counted, Agenda.placed_follow here, before,
        later.mono (List.Subset.refl _), awake.mono known⟩

/-- Two ticks of level contexts have the same result and leave level contexts. -/
theorem level_tick (clean : tree.review = []) (apart : ∀ x ∈ tree.targets, x ∉ marketFields)
    (policy : Policy) {c d : Context} (level : Context.Level tree c d) (s : σ) :
    Ticked.Alike (Context.Level tree) Eq (engine.tick feed tree c s)
      ((engine.under policy).tick feed tree d s) := by
  have fits : d.Fits tree := by
    obtain ⟨bound, -, agree⟩ := level.agree
    intro suspension hs
    exact level.fits suspension (agree.suspension.trans hs)
  refine alike_tick level.fits fits ((coupled_level clean apart policy level s).mono ?_ ?_)
  · rintro left r r' after ⟨beside, -, bound, reviewed, agree⟩
    obtain ⟨fits, kept⟩ := (ensures_work_fits level.fits s).ok after
    rw [kept] at reviewed
    exact ⟨beside, fits, bound, reviewed, agree⟩
  · rintro r r' ⟨feed, bound, agree⟩
    exact ⟨feed, Context.level_of_awake rfl agree.wake⟩

end Engine

/-- What can be seen of a tick from outside: its result, the wait that the session is paused at, and
the feed after it. -/
def Ticked.outward (t : Ticked σ) : Except StrategyError Outcome × Option Suspension × σ :=
  (t.result, t.context.suspension, t.feed)

namespace Engine

/-- Sessions that start in level contexts go the same way, whatever the policies. -/
theorem session_under (clean : tree.review = []) (apart : ∀ x ∈ tree.targets, x ∉ marketFields)
    (policy : Policy) {c d : Context} (level : Context.Level tree c d) (states : List σ) :
    (engine.session feed tree c states).map Ticked.outward =
      ((engine.under policy).session feed tree d states).map Ticked.outward := by
  have tick : ∀ c d s t, Context.Level tree c d → s = t →
      Ticked.Alike (Context.Level tree) Eq (engine.tick feed tree c s)
        ((engine.under policy).tick feed tree d t) := by
    rintro c d s _ level rfl
    exact level_tick clean apart policy level s
  have alike := alike_session tick level (List.forall₂_refl states)
  rw [← List.forall₂_eq_eq_eq, List.forall₂_map_left_iff, List.forall₂_map_right_iff]
  refine alike.imp fun a b h => ?_
  obtain ⟨bound, -, agree⟩ := h.context.agree
  exact Prod.ext h.result (Prod.ext agree.suspension h.feed)

/-- The two policies cannot be told apart on a strategy that passes the review and binds no field of
bars: whatever the feed answers, every tick has the same result, leaves the session paused at the
same wait and asks the same of the feed. More than that, no variable that an earlier cycle left
behind has a say: under either policy a session goes the same way from every context that is not
paused and hides no field of bars. -/
theorem session_policies (clean : tree.review = [])
    (apart : ∀ x ∈ tree.targets, x ∉ marketFields) (engine : Engine) (feed : Feed σ)
    (states : List σ) :
    ((engine.under .persist).session feed tree .empty states).map Ticked.outward =
      ((engine.under .reset).session feed tree .empty states).map Ticked.outward ∧
    ∀ (policy : Policy) (c : Context), c.suspension = none → c.Plain →
      ((engine.under policy).session feed tree c states).map Ticked.outward =
        ((engine.under .reset).session feed tree .empty states).map Ticked.outward := by
  have plain : Context.empty.Plain := fun _ _ => rfl
  have level : ∀ c : Context, c.suspension = none → c.Plain → Context.Level tree c .empty := by
    intro c awake hc
    exact Context.level_of_awake awake (Context.agree_marketFields awake hc plain)
  refine ⟨?_, fun policy c awake hc => ?_⟩
  · exact @session_under σ (engine.under .persist) feed tree clean apart .reset _ _
      (level .empty rfl plain) states
  · exact @session_under σ (engine.under policy) feed tree clean apart .reset _ _
      (level c awake hc) states

/-- A strategy that binds a limit, waits for it to be passed and trades, over three ticks. -/
theorem session_policies_limit :
    let tree : Node := .block [
      .assign "limit" (.binary .mul (.var "close") (.number 2)),
      .wait (.condition (.compare (.var "close") [(.gt, .var "limit")])),
      .order ⟨"BTC", "buy", .number 2, none, none⟩]
    let engine := Engine.ofMarket "BTCUSDT" "1m"
    let feed : Feed Float := fun _ _ _ x => (.ok [⟨⟨0, 0⟩, x, x, x, x, x⟩], x)
    tree.review = [] ∧ (∀ x ∈ tree.targets, x ∉ marketFields) ∧
      ((engine.under .persist).session feed tree .empty [1, 3, 2]).map Ticked.outward =
        ((engine.under .reset).session feed tree .empty [1, 3, 2]).map Ticked.outward := by
  intro tree engine feed
  have clean : tree.review = [] := by
    dsimp only [tree]
    rfl
  have apart : ∀ x ∈ tree.targets, x ∉ marketFields := by decide
  exact ⟨clean, apart, (session_policies clean apart engine feed [1, 3, 2]).1⟩

end Engine

end Stratagem
