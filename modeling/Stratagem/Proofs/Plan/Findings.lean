import Mathlib.Data.List.Pairwise
import Stratagem.Proofs.Plan.Courses

/-!
# What a review points at

An issue carries a path, which the review makes up while it goes down the tree; a reader of the
issue follows the path from the root. Here the two are brought together.

* `Node.Raises` says which issues an instruction can have of its own, and why. `Node.concerns` are
  the classes of these, which depend on the kind of the instruction (`Raises.concern_mem`).
* `Path.Before` is the order of the document: an instruction stands before its parts, a child before
  the later ones, and the side for a condition that holds before the other.
* Each reader of instructions finds issues of the instruction that it looks at (`Review.Own`), and
  a review adds those of the parts, in order (`Review.Finds`, `finds_node`). That is all of
  `review_points_into_tree`.
-/

namespace Stratagem

/-! ## Issues of one instruction -/

namespace Node

/-- The issues that an instruction can have, those of its parts excluded. -/
inductive Raises : Node → IssueCause → Prop
  | unbound {n : Node} {x : String} (mentions : n.Mentions x) : Raises n (.unbound x)
  | emptyBlock : Raises (.block []) .emptyBlock
  | idleBranch (e : Expr) {yes : Node} {no : Option Node} (hyes : Review.onlyWaits yes = true)
      (hno : ∀ n, no = some n → Review.onlyWaits n = true) :
      Raises (.branch e yes no) .idleBranch
  | unknownIndicator {name : String} (params : Params) (target : String)
      (named : Kind.ofName? name = none) :
      Raises (.indicator name params target) (.unknownIndicator name)
  | parameter {name : String} {params : Params} (target : String) {kind : Kind}
      {fault : ParameterFault} (named : Kind.ofName? name = some kind)
      (refused : kind.configure params = .error fault) :
      Raises (.indicator name params target) (.parameter fault)
  | symbol {o : Order} (blank : Text.isBlankText o.symbol = true) :
      Raises (.order o) (.trade .emptySymbol)
  | side {o : Order} {fault : TradeFault} (word : Side.ofWord o.side = .error fault) :
      Raises (.order o) (.trade fault)
  | quantity {o : Order} {q : Quantity} {e : Expr} {x : Float} (given : o.quantity? q = some e)
      (constant : e.constant? = some x) (le : x ≤ 0.0) : Raises (.order o) (.constantQuantity q x)
  | ticks {count : Int} (le : count ≤ 0) : Raises (.wait (.ticks count)) (.waitTicks count)
  | elapsed {span : TimeSpan} (le : span.nanos ≤ 0) :
      Raises (.wait (.elapsed span)) (.waitElapsed span)

/-- The classes of issues that an instruction can have, by its kind. -/
def concerns : Node → List Concern
  | .block _ => [.invalidNesting]
  | .branch _ _ _ => [.unboundVariable, .invalidNesting]
  | .indicator _ _ _ => [.unknownIndicator, .invalidParameter]
  | .assign _ _ => [.unboundVariable]
  | .order _ => [.unboundVariable, .invalidTrade]
  | .wait _ => [.unboundVariable, .invalidParameter]

variable {n : Node}

theorem Raises.concern_mem {cause : IssueCause} (h : n.Raises cause) :
    cause.concern ∈ n.concerns := by
  cases h with
  | unbound mentions =>
    -- Blocks and indicators have no expressions.
    obtain ⟨e, he, -⟩ := mentions
    cases n with
    | block children => cases he
    | indicator name params target => cases he
    | branch e yes no | assign target e | order o | wait w => exact List.mem_cons_self
  | emptyBlock | unknownIndicator => exact List.mem_cons_self
  | idleBranch | parameter | symbol | side | quantity | ticks | elapsed =>
    exact List.mem_cons_of_mem _ List.mem_cons_self

end Node

/-! ## The order of the document -/

/-- One step down a tree stands before another one: to a child before those to later children, to
the side for a condition that holds before that to the other. -/
inductive Segment.Before : Segment → Segment → Prop
  | child {i j : Nat} (h : i < j) : Before (.child i) (.child j)
  | sides : Before .yes .no

namespace Path

/-- The order of the document: what a path leads to stands before its parts, and of two paths that
part the one with the earlier step stands first. -/
def Before : Path → Path → Prop := List.Lex Segment.Before

variable (path : Path)

theorem before_part (s : Segment) (rest : Path) : path.Before (path ++ s :: rest) := by
  induction path with
  | nil => exact .nil
  | cons t path ih => exact .cons ih

theorem before_beside {s t : Segment} (h : s.Before t) (left right : Path) :
    Path.Before (path ++ s :: left) (path ++ t :: right) := by
  induction path with
  | nil => exact .rel h
  | cons u path ih => exact .cons ih

end Path

/-! ## Reviews -/

/-- One issue stands before another one in the document, or at the same instruction. -/
def Issue.NotAfter (i j : Issue) : Prop := i.path = j.path ∨ i.path.Before j.path

namespace Review

variable {n : Node} {path : Path} {bound : Names} {i : Issue}

/-! ### Issues of an instruction itself -/

/-- The issues are such as an instruction can have of its own, and they carry its path. -/
def Own (n : Node) (path : Path) (found : List Issue) : Prop :=
  ∀ i ∈ found, i.path = path ∧ n.Raises i.cause

theorem own_nil : Own n path [] := nofun

theorem own_singleton {cause : IssueCause} (h : n.Raises cause) : Own n path [⟨path, cause⟩] := by
  intro i hi
  cases List.mem_singleton.1 hi
  exact ⟨rfl, h⟩

theorem Own.append {xs ys : List Issue} (hx : Own n path xs) (hy : Own n path ys) :
    Own n path (xs ++ ys) := fun i hi => (List.mem_append.1 hi).elim (hx i) (hy i)

theorem own_reads {e : Expr} (he : e ∈ n.expressions) : Own n path (reads e path bound) := by
  intro i hi
  obtain ⟨x, among, rfl⟩ := List.mem_map.1 hi
  have occurs := Expr.mem_vars.1 (List.mem_filter.1 among).1
  exact ⟨rfl, .unbound ⟨e, he, Expr.mentions_iff.2 occurs⟩⟩

theorem own_quantity {o : Order} {q : Quantity} :
    Own (.order o) path (quantity q (o.quantity? q) path bound) := by
  unfold quantity
  split
  · exact own_nil
  · rename_i e given
    refine (own_reads (Order.mem_expressions.2 ⟨q, given⟩)).append ?_
    split
    · rename_i x constant
      split
      · rename_i le
        exact own_singleton (.quantity given constant le)
      · exact own_nil
    · exact own_nil

theorem own_order (o : Order) : Own (.order o) path (order o path bound) := by
  have quantities (q : Quantity) := @own_quantity path bound o q
  unfold order
  refine (((Own.append ?_ ?_).append (quantities .size)).append (quantities .price)).append
    (quantities .stop)
  · split
    · rename_i blank
      exact own_singleton (.symbol blank)
    · exact own_nil
  · split
    · exact own_nil
    · rename_i fault word
      exact own_singleton (.side word)

theorem own_wait (w : Wait) : Own (.wait w) path (wait w path bound) := by
  unfold wait
  split
  · split
    · rename_i le
      exact own_singleton (.ticks le)
    · exact own_nil
  · split
    · rename_i le
      exact own_singleton (.elapsed le)
    · exact own_nil
  · exact own_reads List.mem_cons_self

theorem own_indicator (name : String) (params : Params) (target : String) :
    Own (.indicator name params target) path (indicator name params target path bound).1 := by
  unfold indicator
  split
  · rename_i named
    exact own_singleton (.unknownIndicator params target named)
  · rename_i kind named
    dsimp only
    split
    · exact own_nil
    · rename_i fault refused
      exact own_singleton (.parameter target named refused)

/-! ### Issues of an instruction and its parts -/

/-- An issue points at an instruction of a tree that stands at a path, and it is one of those that
the instruction can have. -/
def PointsInto (n : Node) (path : Path) (i : Issue) : Prop :=
  ∃ rest m, i.path = path ++ rest ∧ n.at? rest = some m ∧ m.Raises i.cause

theorem Own.pointsInto {found : List Issue} (h : Own n path found) (hi : i ∈ found) :
    PointsInto n path i :=
  ⟨[], n, by rw [(h i hi).1, List.append_nil], rfl, (h i hi).2⟩

/-- What points into a part points into the whole. -/
theorem PointsInto.part {m : Node} {s : Segment} (step : n.step? s = some m)
    (h : PointsInto m (path ++ [s]) i) : PointsInto n path i := by
  obtain ⟨rest, p, same, there, raises⟩ := h
  refine ⟨s :: rest, p, ?_, ?_, raises⟩
  · rw [same, List.append_assoc, List.singleton_append]
  · rw [Node.at?, step]
    exact there

/-- The path of an issue takes a given step from a path on. -/
def Beneath (path : Path) (s : Segment) (i : Issue) : Prop := ∃ rest, i.path = path ++ s :: rest

theorem PointsInto.beneath {m : Node} {s : Segment} (h : PointsInto m (path ++ [s]) i) :
    Beneath path s i := by
  obtain ⟨rest, -, same, -⟩ := h
  exact ⟨rest, by rw [same, List.append_assoc, List.singleton_append]⟩

/-- The issues point into a tree that stands at a path, and they stand in the order of the
document. -/
structure Finds (n : Node) (path : Path) (found : List Issue) : Prop where
  points : ∀ i ∈ found, PointsInto n path i
  ordered : found.Pairwise Issue.NotAfter

section

variable {xs ys : List Issue}

theorem Own.ordered (h : Own n path xs) : xs.Pairwise Issue.NotAfter :=
  List.pairwise_of_forall_mem_list fun i hi j hj => .inl ((h i hi).1.trans (h j hj).1.symm)

theorem Own.finds (h : Own n path xs) : Finds n path xs :=
  ⟨fun _ hi => h.pointsInto hi, h.ordered⟩

/-- The issues of an instruction stand before those of its parts. -/
theorem Own.parts (h : Own n path xs) (points : ∀ i ∈ ys, PointsInto n path i)
    (beneath : ∀ i ∈ ys, ∃ s, Beneath path s i) (ordered : ys.Pairwise Issue.NotAfter) :
    Finds n path (xs ++ ys) where
  points i hi := (List.mem_append.1 hi).elim h.pointsInto (points i)
  ordered := by
    refine List.pairwise_append.2 ⟨h.ordered, ordered, fun i hi j hj => .inr ?_⟩
    obtain ⟨s, rest, same⟩ := beneath j hj
    rw [(h i hi).1, same]
    exact Path.before_part path s rest

/-- The issues of one part stand before those of a later part. -/
theorem ordered_beside (path : Path) (hx : xs.Pairwise Issue.NotAfter)
    (hy : ys.Pairwise Issue.NotAfter)
    (beside : ∀ i ∈ xs, ∀ j ∈ ys, ∃ s t, s.Before t ∧ Beneath path s i ∧ Beneath path t j) :
    (xs ++ ys).Pairwise Issue.NotAfter := by
  refine List.pairwise_append.2 ⟨hx, hy, fun i hi j hj => .inr ?_⟩
  obtain ⟨s, t, before, ⟨p, hp⟩, ⟨q, hq⟩⟩ := beside i hi j hj
  rw [hp, hq]
  exact Path.before_beside path before p q

end

mutual
/-- The review of a tree at a path finds issues of the instructions in it, in the order of the
document. -/
theorem finds_node (n : Node) (path : Path) (bound : Names) :
    Finds n path (node n path bound).1 := by
  cases n with
  | block children =>
    obtain ⟨points, ordered⟩ := finds_nodes children 0 path bound
    have own : Own (.block children) path
        (if children.isEmpty then [⟨path, .emptyBlock⟩] else []) := by
      split
      · rename_i empty
        rw [List.isEmpty_iff.1 empty]
        exact own_singleton .emptyBlock
      · exact own_nil
    simp only [node]
    refine own.parts (fun i hi => ?_) (fun i hi => ?_) ordered
    · obtain ⟨k, m, child, here⟩ := points i hi
      have step : (Node.block children).step? (.child k) = some m := child
      rw [Nat.zero_add] at here
      exact .part step here
    · obtain ⟨k, m, -, here⟩ := points i hi
      exact ⟨_, here.beneath⟩
  | branch e yes no =>
    have hyes := finds_node yes path.yes bound
    obtain ⟨points, ordered⟩ := finds_optional no path.no bound
    have own : Own (.branch e yes no) path (reads e path bound ++
        if (onlyWaits yes && no.all onlyWaits) = true then [⟨path, .idleBranch⟩] else []) := by
      refine (own_reads List.mem_cons_self).append ?_
      split
      · rename_i idle
        obtain ⟨first, second⟩ := Bool.and_eq_true_iff.1 idle
        refine own_singleton (.idleBranch e first ?_)
        rintro m rfl
        exact second
      · exact own_nil
    simp only [node, List.append_assoc _ _ (optionalNode no path.no bound).1]
    refine own.parts (fun i hi => ?_) (fun i hi => ?_) (ordered_beside path hyes.ordered ordered ?_)
    · rcases List.mem_append.1 hi with hi | hi
      · have step : (Node.branch e yes no).step? .yes = some yes := rfl
        exact .part step (hyes.points i hi)
      · obtain ⟨m, side, here⟩ := points i hi
        have step : (Node.branch e yes no).step? .no = some m := side
        exact .part step here
    · rcases List.mem_append.1 hi with hi | hi
      · exact ⟨_, (hyes.points i hi).beneath⟩
      · obtain ⟨m, -, here⟩ := points i hi
        exact ⟨_, here.beneath⟩
    · intro i hi j hj
      obtain ⟨m, -, here⟩ := points j hj
      exact ⟨.yes, .no, .sides, (hyes.points i hi).beneath, here.beneath⟩
  | indicator name params target => exact (own_indicator name params target).finds
  | assign target e => exact (own_reads List.mem_cons_self).finds
  | order o => exact (own_order o).finds
  | wait w => exact (own_wait w).finds

theorem finds_nodes (ns : List Node) (index : Nat) (path : Path) (bound : Names) :
    (∀ i ∈ (nodes ns index path bound).1,
      ∃ k m, ns[k]? = some m ∧ PointsInto m (path.child (index + k)) i) ∧
      (nodes ns index path bound).1.Pairwise Issue.NotAfter := by
  cases ns with
  | nil => exact ⟨nofun, .nil⟩
  | cons n ns =>
    have first := finds_node n (path.child index) bound
    obtain ⟨points, ordered⟩ :=
      finds_nodes ns (index + 1) path (node n (path.child index) bound).2
    simp only [nodes]
    refine ⟨fun i hi => ?_, ordered_beside path first.ordered ordered fun i hi j hj => ?_⟩
    · rcases List.mem_append.1 hi with hi | hi
      · exact ⟨0, n, rfl, first.points i hi⟩
      · obtain ⟨k, m, child, here⟩ := points i hi
        refine ⟨k + 1, m, child, ?_⟩
        rwa [Nat.add_comm k 1, ← Nat.add_assoc]
    · obtain ⟨k, m, -, here⟩ := points j hj
      exact ⟨_, _, .child (by omega), (first.points i hi).beneath, here.beneath⟩

theorem finds_optional (no : Option Node) (path : Path) (bound : Names) :
    (∀ i ∈ (optionalNode no path bound).1, ∃ n, no = some n ∧ PointsInto n path i) ∧
      (optionalNode no path bound).1.Pairwise Issue.NotAfter := by
  cases no with
  | none => exact ⟨nofun, .nil⟩
  | some n =>
    have finds := finds_node n path bound
    exact ⟨fun i hi => ⟨n, rfl, finds.points i hi⟩, finds.ordered⟩
end

end Review

/-- Every issue of a review carries a path of the tree, and at its end stands an instruction that
can have it: for the reason that the issue gives, and of a kind that has issues of its class. The
issues are listed in the order of the document. -/
theorem review_points_into_tree (tree : Node) :
    (∀ i ∈ tree.review, ∃ n, tree.at? i.path = some n ∧ n.Raises i.cause ∧
      i.cause.concern ∈ n.concerns) ∧
    tree.review.Pairwise fun i j => i.path = j.path ∨ i.path.Before j.path := by
  have finds := Review.finds_node tree [] marketFields
  refine ⟨fun i hi => ?_, finds.ordered⟩
  obtain ⟨rest, n, same, there, raises⟩ := finds.points i hi
  rw [List.nil_append] at same
  exact ⟨n, same ▸ there, raises, raises.concern_mem⟩

/-- A condition that reads an unbound variable, an empty block and a wait for no ticks: the last
issue points at the wait. -/
theorem review_points_into_tree_wait :
    let tree : Node := .block [.branch (.var "x") (.block []) (some (.wait (.ticks 0)))]
    let last : Issue := ⟨[.child 0, .no], .waitTicks 0⟩
    tree.review = [⟨[.child 0], .unbound "x"⟩, ⟨[.child 0, .yes], .emptyBlock⟩, last] ∧
      (∃ n, tree.at? last.path = some n ∧ n.Raises last.cause ∧
        last.cause.concern ∈ n.concerns) ∧
      tree.review.Pairwise fun i j => i.path = j.path ∨ i.path.Before j.path := by
  intro tree last
  have found : tree.review = [⟨[.child 0], .unbound "x"⟩, ⟨[.child 0, .yes], .emptyBlock⟩, last] :=
    rfl
  obtain ⟨points, ordered⟩ := review_points_into_tree tree
  exact ⟨found, points last (by simp [found]), ordered⟩

end Stratagem
