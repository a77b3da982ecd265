import Stratagem.Proofs.Keyed
import Stratagem.Proofs.Session.Waiting

/-!
# What a tick leaves alone

The names that a strategy can set are known before it runs: they are the targets of its assignments
and the names that its indicators bind. A tick, in whatever context and however it ends, sets no
others, and it takes no variable away once its instructions have begun.

* `Node.Spares` says that no instruction of a tree sets a name.
* `Keyed.Extends` is what instructions do to variables: those under names of a given kind stay as
  they are, and none is removed. It is a preorder, and every instruction of a tree goes up in it
  (`Enters.extended`), so whole runs do as well (`ComesBy.extended`).
* `untouched_by_tick` puts this together for ticks.
-/

namespace Stratagem

variable {σ : Type}

/-! ## Variables -/

namespace Keyed

variable {α : Type} {spared : String → Prop} {first second third m : Keyed α} {name : String}

/-- The second list has the same values as the first under the spared names, and it has a value
under every name that the first one has a value under. -/
structure Extends (spared : String → Prop) (first second : Keyed α) : Prop where
  same : ∀ name, spared name → find? name second = find? name first
  kept : ∀ name, first.contains name = true → second.contains name = true

theorem Extends.refl (spared : String → Prop) (m : Keyed α) : Extends spared m m :=
  ⟨fun _ _ => rfl, fun _ h => h⟩

theorem Extends.trans (h : Extends spared first second) (h' : Extends spared second third) :
    Extends spared first third :=
  ⟨fun name spares => (h'.same name spares).trans (h.same name spares),
    fun name set => h'.kept name (h.kept name set)⟩

/-- A value is set under a name that is not spared. -/
theorem extends_insert (outside : ¬ spared name) (value : α) (m : Keyed α) :
    Extends spared m (insert name value m) := by
  refine ⟨fun other spares => ?_, fun other set => ?_⟩
  · refine find?_insert_of_ne ?_ value m
    rintro rfl
    exact outside spares
  · rw [contains, find?_insert]
    split
    · rfl
    · exact set

theorem extends_insertAll {writes : List (String × α)}
    (outside : ∀ w ∈ writes, ¬ spared w.1) : Extends spared m (m.insertAll writes) := by
  induction writes generalizing m with
  | nil => exact .refl spared m
  | cons w writes ih =>
    obtain ⟨hw, hwrites⟩ := List.forall_mem_cons.1 outside
    exact (extends_insert hw w.2 m).trans (ih hwrites)

end Keyed

/-! ## Trees -/

namespace Node

/-- No instruction of the tree sets the name: it is neither the target of an assignment nor one of
the names that an indicator of a known family binds. -/
structure Spares (tree : Node) (name : String) : Prop where
  assignments : ∀ path e, tree.at? path ≠ some (.assign name e)
  indicators : ∀ path indicator params target kind,
    tree.at? path = some (.indicator indicator params target) →
    Kind.ofName? indicator = some kind → name ∉ kind.boundNames target

variable {tree n : Node} {name : String} {path : Path}

theorem Spares.notMem_binds (h : tree.Spares name) (stands : tree.at? path = some n) :
    name ∉ n.binds := by
  intro set
  cases n with
  | assign target e =>
    obtain rfl : name = target := List.mem_singleton.1 set
    exact h.assignments path e stands
  | indicator indicator params target =>
    simp only [binds] at set
    split at set
    · rename_i kind named
      exact h.indicators path indicator params target kind stands named set
    · cases set
  | block children => cases set
  | branch e yes no => cases set
  | order o => cases set
  | wait w => cases set

/-- The names that a tree sets can be computed. -/
theorem spares_of_notMem_targets (outside : name ∉ tree.targets) : tree.Spares name where
  assignments path e stands :=
    outside (binds_of_at stands (List.mem_singleton.2 rfl))
  indicators path indicator params target kind stands named set := by
    refine outside (binds_of_at stands ?_)
    simpa only [binds, named] using set

end Node

/-! ## Runs -/

namespace Exec

variable {engine : Engine} {feed : Feed σ} {tree n : Node} {path : Path} {r s t : Run σ}
  {more a b : Agenda}

/-- An instruction of a tree sets none of the names that the tree spares. -/
theorem Enters.extended (h : Enters engine feed n path r (.expand more) s) (shaped : r.Shaped)
    (stands : tree.at? path = some n) :
    Keyed.Extends tree.Spares r.context.vars s.context.vars := by
  obtain ⟨ws, wrote, vars⟩ := h.writes
  rw [vars]
  refine Keyed.extends_insertAll fun w hw spares => spares.notMem_binds stands ?_
  rw [← wrote.names shaped]
  exact List.mem_map_of_mem hw

theorem ComesBy.extended (h : ComesBy engine feed a r b t) (shaped : r.Shaped)
    (placed : a.Placed tree) : Keyed.Extends tree.Spares r.context.vars t.context.vars := by
  induction h with
  | here a r => exact .refl _ _
  | enter enters later ih =>
    have enters := enters_of_after enters
    exact (enters.extended shaped placed.1).trans (ih (enters.shaped shaped) (enters.placed placed))

theorem ComesBy.shaped (h : ComesBy engine feed a r b t) (shaped : r.Shaped) : t.Shaped := by
  induction h with
  | here a r => exact shaped
  | enter enters later ih => exact ih ((enters_of_after enters).shaped shaped)

end Exec

/-! ## Ticks -/

namespace Engine

variable {engine : Engine} {feed : Feed σ} {tree : Node} {c : Context} {s : σ} {bars : List Bar}
  {a b : Agenda} {r u : Run σ}

/-- From any state on that its run comes by, a tick leaves the variables of a later one. -/
theorem Opens.exists_comesBy (opens : Opens engine feed tree c s bars a r)
    (comes : Exec.ComesBy engine feed a r b u) : ∃ d t, Exec.ComesBy engine feed b u d t ∧
      (engine.tick feed tree c s).context.vars = t.context.vars := by
  obtain ⟨d, t, later, vars⟩ := @Exec.exists_comesBy_perform σ engine feed b u
  refine ⟨d, t, later, ?_⟩
  rw [opens.tick_of_comesBy comes, Ticked.vars_ofRun, Exec.after_bind, ← vars]
  rcases (Exec.perform engine feed b).after u with ⟨e | left, v⟩ <;> rfl

/-- The variables of every state that the run of a tick comes by extend those that the tick found
first, and what the tick leaves extends them in turn. -/
theorem Opens.extended (opens : Opens engine feed tree c s bars a r)
    (comes : Exec.ComesBy engine feed a r b u) :
    Keyed.Extends tree.Spares (engine.opening c) u.context.vars ∧
      Keyed.Extends tree.Spares u.context.vars (engine.tick feed tree c s).context.vars := by
  obtain ⟨placed, shaped, -, vars⟩ := opens.begins
  obtain ⟨d, t, later, left⟩ := opens.exists_comesBy comes
  rw [← vars, left]
  exact ⟨comes.extended shaped placed, later.extended (comes.shaped shaped) (comes.placed placed)⟩

theorem extends_tick {t : σ}
    (answer : feed engine.symbol engine.interval engine.historyBars s = (.ok bars, t)) :
    Keyed.Extends tree.Spares (engine.opening c) (engine.tick feed tree c s).context.vars := by
  have of_opens : ∀ {bars a r}, Opens engine feed tree c s bars a r →
      Keyed.Extends tree.Spares (engine.opening c) (engine.tick feed tree c s).context.vars := by
    intro bars a r opens
    obtain ⟨before, after⟩ := opens.extended (.here a r)
    exact before.trans after
  cases paused : c.suspension with
  | none => exact of_opens (.cycle answer paused)
  | some suspension =>
    rcases @opens_or_vars_eq σ engine feed tree c s with ⟨bars, a, r, opens⟩ | still
    · exact of_opens opens
    · rw [opening_of_paused paused, still]
      exact .refl _ _

/-- A tick in any context, whatever its result. If it gets no bars, variables and snapshot stay. If
it gets bars, these are the snapshot, whatever else an indicator may have asked for. The variables
that it found first, none if a new cycle starts and the engine resets them, are then still there,
and those that no instruction of the tree sets have the same values, or none as before. The same
goes for the variables in every state that the run comes by: from there on none is removed. -/
theorem untouched_by_tick (engine : Engine) (feed : Feed σ) (tree : Node) (c : Context) (s : σ) :
    let left := (engine.tick feed tree c s).context
    (∀ error t, feed engine.symbol engine.interval engine.historyBars s = (.error error, t) →
      left.vars = c.vars ∧ left.snapshot = c.snapshot) ∧
    (∀ bars t, feed engine.symbol engine.interval engine.historyBars s = (.ok bars, t) →
      left.snapshot = some ⟨engine.symbol, engine.interval, bars⟩ ∧
      Keyed.Extends tree.Spares (engine.opening c) left.vars) ∧
    ∀ bars a r b u, Opens engine feed tree c s bars a r → Exec.ComesBy engine feed a r b u →
      Keyed.Extends tree.Spares u.context.vars left.vars := by
  intro left
  refine ⟨fun error t answer => ?_, fun bars t answer => ?_, ?_⟩
  · show (engine.tick feed tree c s).context.vars = _ ∧
      (engine.tick feed tree c s).context.snapshot = _
    rw [tick_of_refused c answer]
    exact ⟨rfl, rfl⟩
  · exact ⟨snapshot_tick c answer, extends_tick answer⟩
  · intro bars a r b u opens comes
    exact (opens.extended comes).2

/-- A session goes on after a wait, so the old variable stays although the engine resets variables.
An indicator asks for two bars where the snapshot has one, and the order behind it fails. With a
feed that is down, nothing changes. -/
theorem untouched_by_tick_goesOn :
    let tree : Node := .block [.wait (.ticks 1), .indicator "bb" { period := some 2 } "band",
      .order ⟨"BTC", "buy", .var "y", none, none⟩]
    let engine := { Engine.ofMarket "BTCUSDT" "1m" with historyBars := 1, policy := .reset }
    let last : Bar := ⟨⟨60, 0⟩, 2, 4, 2, 3, 5⟩
    let feed : Feed Unit := fun _ _ count s =>
      (.ok (lastOf count [⟨⟨0, 0⟩, 1, 2, 1, 2, 5⟩, last]), s)
    let down : Feed Unit := fun _ _ _ s => (.error (.timeout 5), s)
    let c : Context := ⟨[("old", .bool false)], none, some ⟨[.child 0], .ticks 1⟩⟩
    let left := (engine.tick feed tree c ()).context
    feed engine.symbol engine.interval engine.historyBars () = (.ok [last], ()) ∧
      tree.Spares "old" ∧ (engine.tick feed tree c ()).result.toBool = false ∧
      left.vars.keys = ["band", "band_lower", "band_middle", "band_upper", "old"] ∧
      Keyed.find? "old" left.vars = some (.bool false) ∧
      left.snapshot = some ⟨"BTCUSDT", "1m", [last]⟩ ∧
      (∃ r, Opens engine feed tree c () [last] (tree.follow [.child 0]) r ∧
        Keyed.Extends tree.Spares r.context.vars left.vars) ∧
      down engine.symbol engine.interval engine.historyBars () = (.error (.timeout 5), ()) ∧
      (engine.tick down tree c ()).context.vars = c.vars := by
  intro tree engine last feed down c left
  have answer : feed engine.symbol engine.interval engine.historyBars () = (.ok [last], ()) := rfl
  have spares : tree.Spares "old" := Node.spares_of_notMem_targets (by decide)
  have fails : (engine.tick feed tree c ()).result.toBool = false := by decide +kernel
  have names : left.vars.keys = ["band", "band_lower", "band_middle", "band_upper", "old"] := by
    decide +kernel
  have opens := @Opens.goesOn Unit engine feed tree c () [last] () [.child 0] (.ticks 1) (.ticks 1)
    answer rfl rfl (by decide) rfl
  obtain ⟨-, got, begun⟩ := @untouched_by_tick Unit engine feed tree c ()
  obtain ⟨snapshot, extended⟩ := got [last] () answer
  have old : Keyed.find? "old" left.vars = some (.bool false) := by
    rw [extended.same "old" spares, opening_of_paused rfl]
    rfl
  have begun := begun _ _ _ _ _ opens (.here _ _)
  have refused : down engine.symbol engine.interval engine.historyBars () =
      (.error (.timeout 5), ()) := rfl
  have still := (@untouched_by_tick Unit engine down tree c ()).1 _ () refused
  exact ⟨answer, spares, fails, names, old, snapshot, ⟨_, opens, begun⟩, refused, still.1⟩

end Engine

end Stratagem
