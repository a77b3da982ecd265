import Stratagem.Plan.Node
import Stratagem.Trade.Decision

/-!
# The expressions of a tree

* `Order.quantity?` and `Node.expressions` are the expressions that stand in an order and in an
  instruction, those of its parts excluded.
* `Node.Every` says that all expressions of a tree have a property. It is put together from the
  parts of a tree (`every_block`, `every_branch`).
* `Order.Constant` says that the quantities of an order are written as numbers.
-/

namespace Stratagem

/-! ## Orders -/

namespace Order

/-- The expression for a quantity of an order. -/
def quantity? (o : Order) : Quantity → Option Expr
  | .size => some o.size
  | .price => o.price
  | .stop => o.stop

/-- The expressions of an order. -/
def expressions (o : Order) : List Expr := o.size :: (o.price.toList ++ o.stop.toList)

theorem mem_expressions {o : Order} {e : Expr} :
    e ∈ o.expressions ↔ ∃ q, o.quantity? q = some e := by
  simp only [expressions, List.mem_cons, List.mem_append, Option.mem_toList]
  constructor
  · rintro (rfl | h | h)
    · exact ⟨.size, rfl⟩
    · exact ⟨.price, h⟩
    · exact ⟨.stop, h⟩
  · rintro ⟨q, h⟩
    cases q with
    | size => exact .inl (Option.some.inj h).symm
    | price => exact .inr (.inl h)
    | stop => exact .inr (.inr h)

/-- All quantities of the order are numbers with signs in front of them. -/
def Constant (o : Order) : Prop := ∀ e ∈ o.expressions, ∃ x, e.constant? = some x

end Order

/-! ## Instructions -/

namespace Node

/-- The expressions of an instruction, those of its parts excluded. -/
def expressions : Node → List Expr
  | .branch e _ _ => [e]
  | .assign _ e => [e]
  | .order o => o.expressions
  | .wait (.condition e) => [e]
  | .wait (.ticks _) | .wait (.elapsed _) => []
  | .block _ | .indicator _ _ _ => []

/-- All expressions of a tree have a property. -/
def Every (P : Expr → Prop) (tree : Node) : Prop :=
  ∀ path n, tree.at? path = some n → ∀ e ∈ n.expressions, P e

variable {P : Expr → Prop}

theorem every_of_step {n : Node} (here : ∀ e ∈ n.expressions, P e)
    (parts : ∀ s m, n.step? s = some m → m.Every P) : n.Every P := by
  intro path m h
  cases path with
  | nil =>
    cases h
    exact here
  | cons s path =>
    obtain ⟨part, hs, hm⟩ := Option.bind_eq_some_iff.1 h
    exact parts s part hs path m hm

theorem every_block {children : List Node} (h : ∀ n ∈ children, n.Every P) :
    (block children).Every P := by
  refine every_of_step (by simp [expressions]) ?_
  intro s m hs
  cases s with
  | child i => exact h m (List.mem_of_getElem? hs)
  | yes => cases hs
  | no => cases hs

theorem every_branch {e : Expr} {yes : Node} {no : Option Node} (he : P e) (hyes : yes.Every P)
    (hno : ∀ n, no = some n → n.Every P) : (branch e yes no).Every P := by
  refine every_of_step (by simpa [expressions] using he) ?_
  intro s m hs
  cases s with
  | child i => cases hs
  | yes =>
    cases hs
    exact hyes
  | no => exact hno m hs

/-- An instruction without parts. -/
theorem every_leaf {n : Node} (leaf : ∀ s, n.step? s = none) (h : ∀ e ∈ n.expressions, P e) :
    n.Every P := by
  refine every_of_step h ?_
  intro s m hs
  rw [leaf s] at hs
  cases hs

end Node

end Stratagem
