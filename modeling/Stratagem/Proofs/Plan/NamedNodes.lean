import Stratagem.Proofs.Plan.FaultPlaces
import Stratagem.Proofs.Plan.Findings
import Stratagem.Proofs.Session.Suspension

/-!
# Paths name instructions

Whoever reads a path in a message knows which instruction is meant. Paths are read off their texts,
and as many of them lead to instructions of a tree as the tree has
(`Stratagem.Proofs.Plan.PathTexts`). The issues of a review and the pauses of a session carry paths
of the tree, and the faults of a definition carry paths into its document
(`Node.paths_name_instructions`).
-/

namespace Stratagem

variable {σ : Type} {engine : Engine} {feed : Feed σ} {tree : Node}

namespace Engine

/-- A tick that pauses says at which wait of the tree. -/
theorem exists_wait_of_paused {c : Context} (fits : c.Fits tree) (s : σ) {outcome : Outcome}
    {path : Path} (h : (engine.tick feed tree c s).result = .ok outcome)
    (paused : outcome.pausedAt = some path) : ∃ w, tree.at? path = some (.wait w) := by
  refine ofRun_work (P := fun t => t.result = .ok outcome → ∃ w, tree.at? path = some (.wait w))
    fits (ensures_work_fits fits _) ?_ ?_ ?_ h
  · rintro r - ⟨⟩
    cases paused
  · rintro n path' rest r ⟨hfits, hleft⟩ ⟨⟩
    cases paused
    cases hs : r.context.suspension with
    | none => simp [Context.agenda, hs] at hleft
    | some s =>
      obtain ⟨w, hw, -⟩ := hfits s hs
      simp only [Context.agenda, hs, hw, Option.map_some, Option.toList_some,
        List.singleton_append, List.cons.injEq, Prod.mk.injEq] at hleft
      exact ⟨w, hleft.1.2 ▸ hw⟩
  · rintro e r - ⟨⟩

/-- Every tick of a session that starts awake and pauses says at which wait of the tree. -/
theorem exists_wait_of_session {c : Context} (awake : c.suspension = none) {states : List σ}
    {t : Ticked σ} (ht : t ∈ engine.session feed tree c states) {outcome : Outcome} {path : Path}
    (h : t.result = .ok outcome) (paused : outcome.pausedAt = some path) :
    ∃ w, tree.at? path = some (.wait w) := by
  obtain ⟨x, hx, rfl⟩ := List.mem_map.1 ht
  exact exists_wait_of_paused (fits_starts (Context.fits_of_awake awake) states x hx) x.2 h paused

end Engine

namespace Node

/-- A text names one instruction of a tree: it is the text of one path only, and this path leads to
an instruction. -/
def Named (tree : Node) (text : String) : Prop :=
  ∃ n p, tree.at? p = some n ∧ ∀ q : Path, q.render = text ↔ q = p

theorem named_of_at {n : Node} {p : Path} (h : tree.at? p = some n) : tree.Named p.render :=
  ⟨n, p, h, fun _ => Path.render_injective.eq_iff⟩

/-- Paths identify instructions. A tree has as many paths as instructions, a path is followed part
by part, and different paths have different texts. So the paths of issues and of pauses name one
instruction of the tree each, and the place of a fault in a definition, which may be a field of an
instruction, is the only place with its text, and it leads to a part of the document. -/
theorem paths_name_instructions (tree : Node) :
    {p : Path | (tree.at? p).isSome = true}.encard = tree.count ∧
    (∀ p q : Path, tree.at? (p ++ q) = (tree.at? p).bind fun n => n.at? q) ∧
    (∀ p q : Path, p ≠ q → p.render ≠ q.render) ∧
    (∀ i ∈ tree.review, tree.Named i.path.render) ∧
    (∀ (σ : Type) (engine : Engine) (feed : Feed σ) (states : List σ),
      ∀ t ∈ engine.session feed tree .empty states, ∀ outcome, t.result = .ok outcome →
        ∀ p ∈ outcome.pausedAt, tree.Named p.render) ∧
    ∀ v e, ofJson v = .error e → ∃ p w,
      Definition.locate? (Definition.rooted v) p = some w ∧ e.place.Stands p ∧
      ∀ place q, Place.Stands place q → place.render = e.place.render → place = e.place := by
  refine ⟨encard_paths tree, at?_append tree, ?_, ?_, ?_, ?_⟩
  · exact fun p q => Path.render_injective.ne
  · intro i hi
    obtain ⟨rest, n, same, there, -⟩ := (Review.finds_node tree [] marketFields).points i hi
    rw [List.nil_append] at same
    exact named_of_at (same ▸ there)
  · intro σ engine feed states t ht outcome h p paused
    obtain ⟨w, there⟩ := Engine.exists_wait_of_session rfl ht h paused
    exact named_of_at there
  · intro v e refused
    obtain ⟨p, w, located, stands⟩ := Definition.exists_place_of_ofJson refused
    exact ⟨p, w, located, stands, fun place q other same => Place.eq_of_render_eq other stands same⟩

/-- A tree of four instructions with an empty block behind `then` and a pause behind `else`, and a
definition that is refused at a field. -/
theorem paths_name_instructions_else :
    let tree : Node := .block [.branch (.bool false) (.block []) (some (.wait (.ticks 2)))]
    let engine := Engine.ofMarket "BTCUSDT" "1m"
    let feed : Feed Unit := fun _ _ _ s => (.ok [], s)
    let refused : Json := .array [.object [("bars", .text "2"), ("type", .text "wait")]]
    let e : DefinitionError := ⟨.field [.child 0] "bars", .expectedPlain "an integer"⟩
    {p : Path | (tree.at? p).isSome = true}.encard = 4 ∧
      (⟨[.child 0, .yes], .emptyBlock⟩ ∈ tree.review ∧ tree.Named "root.children[0].then") ∧
      ((engine.session feed tree .empty [()]).map fun t =>
        t.result.toOption.bind Outcome.pausedAt) = [some [.child 0, .no]] ∧
      tree.Named "root.children[0].else" ∧
      ofJson refused = .error e ∧ e.place.render = "root.children[0].bars" ∧
      ∀ place q, Place.Stands place q → place.render = e.place.render → place = e.place := by
  intro tree engine feed refused e
  obtain ⟨paths, -, -, issues, pauses, faults⟩ := paths_name_instructions tree
  have issue : ⟨[.child 0, .yes], .emptyBlock⟩ ∈ tree.review := List.mem_singleton_self _
  have paused := pauses Unit engine feed [()] _ (List.mem_singleton_self _) _ rfl _ rfl
  have fails : ofJson refused = .error e := rfl
  obtain ⟨-, -, -, -, only⟩ := faults refused e fails
  exact ⟨paths, ⟨issue, issues _ issue⟩, rfl, paused, fails, rfl, only⟩

end Node

end Stratagem
