import Stratagem.Plan.Review
import Stratagem.Proofs.Formula.Mentions
import Stratagem.Proofs.Plan.Agenda
import Stratagem.Proofs.Plan.Expressions

/-!
# Agendas without issues

The review of a tree goes down the tree; a run goes along an agenda. `Agenda.Reviewed` is the review
of an agenda, and `reviewed_root` starts it at a tree without issues.

* Each instruction is reviewed with names that are bound before it, perhaps not with all of them.
  So more names may be bound than those of the review (`Reviewed.mono`).
* A reviewed agenda stays reviewed when an instruction is replaced by its parts
  (`Reviewed.children`, `Reviewed.yes`, `Reviewed.no`). After a branch the review counts on the
  names that both sides bind, so what follows is reviewed with the names of the side that is taken.
* What an instruction without issues looks like is said by `mem_of_reads`, `side_of_order`,
  `symbol_of_order`, `reads_of_order` and `positive_of_order`.
-/

namespace Stratagem

open Review (Names)

/-! ## Instructions without issues -/

namespace Review

variable {path : Path} {bound : Names}

/-- An expression without issues reads names that are bound. -/
theorem mem_of_reads {e : Expr} (h : reads e path bound = []) {x : String}
    (hx : x ∈ e.occurrences) : x ∈ bound := by
  have none := List.filter_eq_nil_iff.1 (List.map_eq_nil_iff.1 h) x (Expr.mem_vars.2 hx)
  simpa using none

section

variable {o : Order}

theorem symbol_of_order (h : order o path bound = []) : Text.isBlankText o.symbol = false := by
  simp only [order, List.append_eq_nil_iff] at h
  cases blank : Text.isBlankText o.symbol with
  | false => rfl
  | true => simp [blank] at h

theorem side_of_order (h : order o path bound = []) : ∃ side, Side.ofWord o.side = .ok side := by
  simp only [order, List.append_eq_nil_iff] at h
  cases word : Side.ofWord o.side with
  | ok side => exact ⟨side, rfl⟩
  | error fault => simp [word] at h

/-- An order without issues has quantities without issues. -/
theorem quantity_of_order (h : order o path bound = []) (q : Quantity) :
    quantity q (o.quantity? q) path bound = [] := by
  simp only [order, List.append_eq_nil_iff] at h
  cases q with
  | size => exact h.1.1.2
  | price => exact h.1.2
  | stop => exact h.2

theorem reads_of_order (h : order o path bound = []) {q : Quantity} {e : Expr}
    (given : o.quantity? q = some e) : reads e path bound = [] := by
  have clean := quantity_of_order h q
  rw [given] at clean
  exact (List.append_eq_nil_iff.1 clean).1

/-- A constant quantity of an order without issues is not at most zero. -/
theorem positive_of_order (h : order o path bound = []) {q : Quantity} {e : Expr} {x : Float}
    (given : o.quantity? q = some e) (constant : e.constant? = some x) : ¬ x ≤ 0.0 := by
  have clean := quantity_of_order h q
  rw [given] at clean
  have tail := (List.append_eq_nil_iff.1 clean).2
  rw [constant] at tail
  intro le
  simp [le] at tail

end

/-! ## Parts of trees without issues -/

/-- The issues of a branch are those of its condition and of its sides, among others. -/
theorem clean_branch {e : Expr} {y : Node} {n : Option Node}
    (h : (node (.branch e y n) path bound).1 = []) :
    reads e path bound = [] ∧ (node y path.yes bound).1 = [] ∧
      (optionalNode n path.no bound).1 = [] := by
  simp only [node, List.append_eq_nil_iff] at h
  exact ⟨h.1.1.1, h.1.2, h.2⟩

theorem clean_child {children : List Node} {index i : Nat} {n : Node}
    (clean : (nodes children index path bound).1 = []) (h : children[i]? = some n) :
    ∃ before, (node n (path.child (index + i)) before).1 = [] := by
  induction children generalizing index i bound with
  | nil => cases h
  | cons m children ih =>
    obtain ⟨first, others⟩ := List.append_eq_nil_iff.1 clean
    cases i with
    | zero =>
      cases h
      exact ⟨bound, first⟩
    | succ i =>
      obtain ⟨before, hbefore⟩ := ih others h
      refine ⟨before, ?_⟩
      rw [← hbefore, Nat.add_right_comm, Nat.add_assoc]

/-- In a tree without issues no instruction has an issue, with the names that are bound at it. -/
theorem clean_at {tree n : Node} {root path : Path} {bound : Names}
    (clean : (node tree root bound).1 = []) (h : tree.at? path = some n) :
    ∃ before, (node n (root ++ path) before).1 = [] := by
  induction path generalizing tree root bound with
  | nil =>
    cases h
    rw [List.append_nil]
    exact ⟨bound, clean⟩
  | cons s path ih =>
    obtain ⟨part, hs, hn⟩ := Option.bind_eq_some_iff.1 h
    have step : ∃ before, (node part (root ++ [s]) before).1 = [] := by
      cases tree with
      | block children =>
        cases s with
        | child i =>
          have others := (List.append_eq_nil_iff.1 clean).2
          obtain ⟨before, hbefore⟩ := clean_child others hs
          rw [Nat.zero_add] at hbefore
          exact ⟨before, hbefore⟩
        | yes => cases hs
        | no => cases hs
      | branch e y o =>
        cases s with
        | child i => cases hs
        | yes =>
          cases hs
          exact ⟨bound, (clean_branch clean).2.1⟩
        | no =>
          obtain rfl : o = some part := hs
          exact ⟨bound, (clean_branch clean).2.2⟩
      | indicator name params target => cases hs
      | assign target e => cases hs
      | order o => cases hs
      | wait w => cases hs
    obtain ⟨before, hbefore⟩ := step
    obtain ⟨before, hbefore⟩ := ih hbefore hn
    rw [List.append_assoc] at hbefore
    exact ⟨before, hbefore⟩

end Review

/-! ## Agendas -/

namespace Agenda

/-- The instructions of the agenda have no issues if the given names are bound before them. -/
inductive Reviewed : Names → Agenda → Prop
  | nil (bound : Names) : Reviewed bound []
  | cons {bound before : Names} {n : Node} {path : Path} {rest : Agenda} (known : before ⊆ bound)
      (clean : (Review.node n path before).1 = [])
      (later : Reviewed (Review.node n path before).2 rest) : Reviewed bound ((n, path) :: rest)

variable {bound before : Names} {path : Path} {rest : Agenda}

/-- More names may be bound. -/
theorem Reviewed.mono {a : Agenda} (h : Reviewed before a) (known : before ⊆ bound) :
    Reviewed bound a := by
  cases h with
  | nil => exact .nil bound
  | cons known' clean later => exact .cons (List.Subset.trans known' known) clean later

theorem Reviewed.front {n : Node} (h : Reviewed bound ((n, path) :: rest)) :
    ∃ before, before ⊆ bound ∧ (Review.node n path before).1 = [] ∧
      Reviewed (Review.node n path before).2 rest := by
  cases h with
  | cons known clean later => exact ⟨_, known, clean, later⟩

theorem reviewed_root {tree : Node} (h : tree.review = []) : Reviewed marketFields [(tree, [])] :=
  .cons (List.Subset.refl _) h (.nil _)

theorem reviewed_ofChildren {children : List Node} {index : Nat}
    (clean : (Review.nodes children index path before).1 = [])
    (later : Reviewed (Review.nodes children index path before).2 rest) :
    Reviewed before (ofChildren children index path ++ rest) := by
  induction children generalizing index before with
  | nil => exact later
  | cons n children ih =>
    obtain ⟨first, others⟩ := List.append_eq_nil_iff.1 clean
    exact .cons (List.Subset.refl _) first (ih others later)

theorem Reviewed.children {children : List Node}
    (h : Reviewed bound ((.block children, path) :: rest)) :
    Reviewed bound (ofChildren children 0 path ++ rest) := by
  cases h with
  | cons known clean later =>
    exact (reviewed_ofChildren (List.append_eq_nil_iff.1 clean).2 later).mono known

section

variable {e : Expr} {y : Node} {n : Option Node}

theorem Reviewed.yes (h : Reviewed bound ((.branch e y n, path) :: rest)) :
    Reviewed bound ((y, path.yes) :: rest) := by
  cases h with
  | cons known clean later =>
    refine .cons known (Review.clean_branch clean).2.1 (later.mono ?_)
    exact List.filter_sublist.subset

theorem Reviewed.no (h : Reviewed bound ((.branch e y n, path) :: rest)) :
    Reviewed bound (ofOptional n path.no ++ rest) := by
  cases h with
  | @cons _ before _ _ _ known clean later =>
    have both : (Review.node (.branch e y n) path before).2 ⊆
        (Review.optionalNode n path.no before).2 := by
      intro x hx
      simpa using (List.mem_filter.1 hx).2
    cases n with
    | none => exact (later.mono both).mono known
    | some n => exact .cons known (Review.clean_branch clean).2.2 (later.mono both)

end

end Agenda

end Stratagem
