import Stratagem.Proofs.Indicator.Bindings
import Stratagem.Proofs.Plan.Reviewed

/-!
# The names that a tree binds

`Node.binds` are the names that an instruction binds, and `Node.targets` those that the instructions
of a tree bind (`binds_of_at`). An instruction without issues reads only names that the review takes
to be bound (`Review.mem_of_clean`).
-/

namespace Stratagem

open Review (Names)

namespace Node

/-- The names that an instruction binds, those of its parts excluded. -/
def binds : Node → Names
  | .assign target _ => [target]
  | .indicator name _ target =>
    match Kind.ofName? name with
    | some kind => kind.boundNames target
    | none => []
  | .block _ | .branch _ _ _ | .order _ | .wait _ => []

mutual
/-- The names that the instructions of a tree bind. -/
def targets : Node → Names
  | .block children => targetsAll children
  | .branch _ yes no => targets yes ++ targetsOptional no
  | .indicator name params target => binds (.indicator name params target)
  | .assign target e => binds (.assign target e)
  | .order _ | .wait _ => []

/-- The names that the instructions of several trees bind. -/
def targetsAll : List Node → Names
  | [] => []
  | n :: ns => targets n ++ targetsAll ns

/-- The names that the instructions of a tree bind that may be missing. -/
def targetsOptional : Option Node → Names
  | none => []
  | some n => targets n
end

theorem targets_of_mem {n : Node} {ns : List Node} (h : n ∈ ns) : n.targets ⊆ targetsAll ns := by
  induction ns with
  | nil => cases h
  | cons m ns ih =>
    intro x hx
    rw [targetsAll, List.mem_append]
    rcases List.mem_cons.1 h with rfl | h
    · exact .inl hx
    · exact .inr (ih h hx)

/-- The instructions of a part are instructions of the tree. -/
theorem targets_of_step {tree n : Node} {s : Segment} (h : tree.step? s = some n) :
    n.targets ⊆ tree.targets := by
  cases tree with
  | block children =>
    cases s with
    | child i => exact targets_of_mem (List.mem_of_getElem? h)
    | yes => cases h
    | no => cases h
  | branch e yes no =>
    cases s with
    | child i => cases h
    | yes =>
      cases h
      exact List.subset_append_left _ _
    | no =>
      obtain rfl : no = some n := h
      exact List.subset_append_right _ _
  | indicator name params target => cases h
  | assign target e => cases h
  | order o => cases h
  | wait w => cases h

theorem binds_of_at {tree n : Node} {path : Path} (h : tree.at? path = some n) :
    n.binds ⊆ tree.targets := by
  induction path generalizing tree with
  | nil =>
    cases h
    cases n with
    | block children => exact List.nil_subset _
    | branch e yes no => exact List.nil_subset _
    | indicator name params target => exact List.Subset.refl _
    | assign target e => exact List.Subset.refl _
    | order o => exact List.nil_subset _
    | wait w => exact List.nil_subset _
  | cons s path ih =>
    obtain ⟨part, hs, hn⟩ := Option.bind_eq_some_iff.1 h
    exact List.Subset.trans (ih hn) (targets_of_step hs)

/-- An indicator binds the names that the readings of its family bind. -/
theorem binds_indicator {name : String} {params : Params} {target : String} {kind : Kind}
    (named : Kind.ofName? name = some kind) {reading : Reading} (shape : kind.Shapes reading) :
    (indicator name params target).binds = (reading.bindings target).map Prod.fst := by
  rw [shape.names_bindings]
  simp only [binds, named]

end Node

namespace Review

variable {n : Node} {path : Path} {bound : Names}

/-- An instruction without issues reads names that are bound. -/
theorem mem_of_clean (h : (node n path bound).1 = []) {e : Expr} (he : e ∈ n.expressions)
    {x : String} (hx : x ∈ e.occurrences) : x ∈ bound := by
  cases n with
  | block children => cases he
  | branch e' yes no =>
    obtain rfl := List.mem_singleton.1 he
    exact mem_of_reads (clean_branch h).1 hx
  | indicator name params target => cases he
  | assign target e' =>
    obtain rfl := List.mem_singleton.1 he
    simp only [node] at h
    exact mem_of_reads h hx
  | order o =>
    simp only [node] at h
    obtain ⟨q, given⟩ := Order.mem_expressions.1 he
    exact mem_of_reads (reads_of_order h given) hx
  | wait w =>
    cases w with
    | ticks count => cases he
    | elapsed span => cases he
    | condition e' =>
      obtain rfl := List.mem_singleton.1 he
      simp only [node, wait] at h
      exact mem_of_reads h hx

/-- After an indicator the review counts on the names that it binds, too. -/
theorem bound_indicator {name : String} {params : Params} {target : String} {kind : Kind}
    (named : Kind.ofName? name = some kind) :
    (node (.indicator name params target) path bound).2 =
      (Node.indicator name params target).binds ++ bound := by
  simp only [node, indicator, Node.binds, named]

end Review

end Stratagem
