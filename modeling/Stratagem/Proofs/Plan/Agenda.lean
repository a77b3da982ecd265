import Mathlib.Data.List.Induction
import Stratagem.Plan.Node

/-!
# Agendas

An agenda is the list of instructions that are still to be run, each with its place in the tree.

* `Agenda.weight` counts the instructions of an agenda, parts included. It goes down when the
  instruction in front is replaced by its parts, so it is what inductions on agendas go by
  (`Agenda.parts_induction`).
* `Node.follow` is the agenda that is left after an instruction: the later children of every block
  on the way up to the root. It is given by the path alone, one step of the path at a time
  (`follow_child`, `follow_yes`, `follow_no`).
* `Agenda.Placed` says of an agenda that every instruction stands at its path and is followed by
  what follows that path. It holds at the root and is kept by replacing an instruction by its parts
  (`placed_root`, `Placed.children`, `Placed.yes`, `Placed.no`).
-/

namespace Stratagem

/-- Instructions that are still to be run, in order, each with its place. -/
abbrev Agenda := List (Node × Path)

namespace Agenda

/-- Children of a block, the first of which has a given index. -/
def ofChildren : List Node → (index : Nat) → Path → Agenda
  | [], _, _ => []
  | n :: ns, index, path => (n, path.child index) :: ofChildren ns (index + 1) path

/-- A side of a branch that may be missing. -/
def ofOptional : Option Node → Path → Agenda
  | none, _ => []
  | some n, path => [(n, path)]

/-- The number of instructions of an agenda, parts included. -/
def weight : Agenda → Nat
  | [] => 0
  | (n, _) :: rest => n.count + weight rest

@[simp] theorem weight_nil : weight [] = 0 := rfl

@[simp] theorem weight_cons (n : Node) (path : Path) (rest : Agenda) :
    weight ((n, path) :: rest) = n.count + weight rest := rfl

@[simp] theorem weight_append (a b : Agenda) : weight (a ++ b) = weight a + weight b := by
  induction a with
  | nil => simp
  | cons x a ih =>
    obtain ⟨n, path⟩ := x
    simp only [List.cons_append, weight_cons, ih]
    omega

@[simp] theorem weight_ofChildren (ns : List Node) (index : Nat) (path : Path) :
    weight (ofChildren ns index path) = Node.countAll ns := by
  induction ns generalizing index with
  | nil => rfl
  | cons n ns ih => rw [ofChildren, weight_cons, ih, Node.countAll]

@[simp] theorem weight_ofOptional (n : Option Node) (path : Path) :
    weight (ofOptional n path) = Node.countOptional n := by
  cases n with
  | none => rfl
  | some n => simp [ofOptional, Node.countOptional]

/-- Induction on agendas: what holds once the instruction in front is replaced by an agenda that
weighs less, whichever it is, holds before. -/
@[elab_as_elim]
theorem parts_induction {P : Agenda → Prop} (nil : P [])
    (cons : ∀ n path rest, (∀ more, weight more < n.count → P (more ++ rest)) →
      P ((n, path) :: rest)) (a : Agenda) : P a := by
  induction hw : a.weight using Nat.strongRecOn generalizing a with
  | ind w ih =>
    subst hw
    match a with
    | [] => exact nil
    | (n, path) :: rest =>
      refine cons n path rest fun more lighter => ih _ ?_ (more ++ rest) rfl
      simp only [weight_append, weight_cons]
      omega

end Agenda

namespace Node

variable {tree : Node} {path : Path}

/-! ## Instructions at paths -/

theorem at?_append (n : Node) (p q : Path) : n.at? (p ++ q) = (n.at? p).bind fun m => m.at? q := by
  induction p generalizing n with
  | nil => rfl
  | cons s p ih =>
    rw [List.cons_append, at?, at?]
    cases n.step? s with
    | none => rfl
    | some m => exact ih m

theorem at?_concat {n : Node} (h : tree.at? path = some n) (s : Segment) :
    tree.at? (path ++ [s]) = n.step? s := by
  rw [at?_append, h]
  cases hs : n.step? s <;> simp [at?, hs]

/-- What stands at the end of a longer path is a part of what stands one step before. -/
theorem exists_step_of_at?_concat {n : Node} {s : Segment} (h : tree.at? (path ++ [s]) = some n) :
    ∃ m, tree.at? path = some m ∧ m.step? s = some n := by
  rw [at?_append] at h
  obtain ⟨m, hm, hs⟩ := Option.bind_eq_some_iff.1 h
  refine ⟨m, hm, ?_⟩
  rw [← hs]
  cases step : m.step? s <;> simp [at?, step]

/-! ## What follows an instruction -/

/-- What follows a path, with the path given from its end: at each block on the way up to the root
that the path enters through a child, the later children of it. -/
def followUp (tree : Node) : List Segment → Agenda
  | [] => []
  | .child i :: up =>
    match tree.at? up.reverse with
    | some (.block children) =>
      Agenda.ofChildren (children.drop (i + 1)) (i + 1) up.reverse ++ followUp tree up
    | _ => followUp tree up
  | .yes :: up => followUp tree up
  | .no :: up => followUp tree up

/-- What follows the instruction at a path. -/
def follow (tree : Node) (path : Path) : Agenda := tree.followUp path.reverse

@[simp] theorem follow_nil : tree.follow [] = [] := rfl

theorem follow_child {children : List Node} (h : tree.at? path = some (.block children)) (i : Nat) :
    tree.follow (path.child i) =
      Agenda.ofChildren (children.drop (i + 1)) (i + 1) path ++ tree.follow path := by
  simp only [follow, Path.child, List.reverse_append, List.reverse_singleton, List.singleton_append,
    followUp, List.reverse_reverse, h]

@[simp] theorem follow_yes : tree.follow path.yes = tree.follow path := by
  simp only [follow, Path.yes, List.reverse_append, List.reverse_singleton, List.singleton_append,
    followUp]

@[simp] theorem follow_no : tree.follow path.no = tree.follow path := by
  simp only [follow, Path.no, List.reverse_append, List.reverse_singleton, List.singleton_append,
    followUp]

end Node

/-! ## Agendas that fit a tree -/

namespace Agenda

/-- Every instruction of the agenda stands at its path, and what follows it in the agenda is what
follows it in the tree. -/
def Placed (tree : Node) : Agenda → Prop
  | [] => True
  | (n, path) :: rest => tree.at? path = some n ∧ rest = tree.follow path ∧ Placed tree rest

variable {tree : Node} {path : Path}

theorem placed_root (tree : Node) : Placed tree [(tree, [])] := ⟨rfl, rfl, trivial⟩

/-- The children of a block from some index on, and what follows the block. -/
theorem placed_ofChildren {children : List Node} (h : tree.at? path = some (.block children))
    (rest : Placed tree (tree.follow path)) {later : List Node} {index : Nat}
    (hl : children.drop index = later) :
    Placed tree (ofChildren later index path ++ tree.follow path) := by
  induction later generalizing index with
  | nil => exact rest
  | cons n later ih =>
    have next : children.drop (index + 1) = later := by
      rw [← List.tail_drop, hl, List.tail_cons]
    have here : children[index]? = some n := by
      rw [← List.head?_drop, hl, List.head?_cons]
    refine ⟨?_, ?_, ih next⟩
    · rw [Path.child, Node.at?_concat h]
      exact here
    · rw [Node.follow_child h, next]
      rfl

theorem Placed.children {children : List Node} {rest : Agenda}
    (h : Placed tree ((.block children, path) :: rest)) :
    Placed tree (ofChildren children 0 path ++ rest) := by
  obtain ⟨here, rfl, later⟩ := h
  exact placed_ofChildren here later rfl

theorem Placed.yes {e : Expr} {y : Node} {n : Option Node} {rest : Agenda}
    (h : Placed tree ((.branch e y n, path) :: rest)) : Placed tree ((y, path.yes) :: rest) := by
  obtain ⟨here, follows, later⟩ := h
  refine ⟨?_, ?_, later⟩
  · rw [Path.yes, Node.at?_concat here]
    rfl
  · rw [Node.follow_yes, follows]

theorem Placed.no {e : Expr} {y : Node} {n : Option Node} {rest : Agenda}
    (h : Placed tree ((.branch e y n, path) :: rest)) :
    Placed tree (ofOptional n path.no ++ rest) := by
  cases n with
  | none => exact h.2.2
  | some n =>
    obtain ⟨here, follows, later⟩ := h
    refine ⟨?_, ?_, later⟩
    · rw [Path.no, Node.at?_concat here]
      rfl
    · rw [Node.follow_no, follows]
      rfl

/-- What follows an instruction of a tree fits the tree. -/
theorem placed_follow {n : Node} (h : tree.at? path = some n) : Placed tree (tree.follow path) := by
  induction path using List.reverseRecOn generalizing n with
  | nil => trivial
  | append_singleton path s ih =>
    obtain ⟨m, hm, hs⟩ := Node.exists_step_of_at?_concat h
    cases s with
    | yes =>
      rw [← Path.yes, Node.follow_yes]
      exact ih hm
    | no =>
      rw [← Path.no, Node.follow_no]
      exact ih hm
    | child i =>
      cases m with
      | block children =>
        rw [← Path.child, Node.follow_child hm]
        exact placed_ofChildren hm (ih hm) rfl
      | branch e y o => cases hs
      | indicator name params target => cases hs
      | assign target e => cases hs
      | order o => cases hs
      | wait w => cases hs

end Agenda

end Stratagem
