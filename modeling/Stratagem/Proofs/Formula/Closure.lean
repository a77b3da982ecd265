import Stratagem.Formula.Grammar
import Stratagem.Proofs.Chains

/-!
# Properties of all expressions that can be read

A property of expressions that every rule of the grammar keeps (`Grammar.Closed`) holds of every
expression that is read from a text (`Closed.parse`, `Closed.parseAssignment`). Each reader is
followed once, from the loosest level to literals, and the levels are tied together by induction on
the nesting (`Closed.nested`).
-/

namespace Stratagem

namespace Grammar

variable {α : Type}

/-- What a reader gives has a property. -/
def Gives (p : Parse α) (P : α → Prop) : Prop := ∀ c x c', p c = .ok (x, c') → P x

/-- Every way of putting expressions together keeps the property. -/
structure Closed (P : Expr → Prop) : Prop where
  number : ∀ {x : Float}, x.isFinite = true → P (.number x)
  bool : ∀ b, P (.bool b)
  text : ∀ s, P (.text s)
  var : ∀ name, P (.var name)
  unary : ∀ op {e}, P e → P (.unary op e)
  binary : ∀ op {l r}, P l → P r → P (.binary op l r)
  compare : ∀ {first rest}, P first → (∀ x ∈ rest, P x.2) → P (.compare first rest)
  and : ∀ {l r}, P l → P r → P (.and l r)
  or : ∀ {l r}, P l → P r → P (.or l r)
  call : ∀ {f args}, f.accepts args.length = true → (∀ e ∈ args, P e) → P (.call f args)

/-- The readers of nested parts give expressions with the property. -/
structure Inner.Gives (inner : Inner) (P : Expr → Prop) : Prop where
  connective : Grammar.Gives inner.connective P
  negation : Grammar.Gives inner.negation P
  signed : Grammar.Gives inner.signed P

/-- The operator keeps the property. -/
def Operator.Keeps (operator : Operator) (P : Expr → Prop) : Prop :=
  ∀ c combine c', operator c = some (combine, c') → ∀ l r, P l → P r → P (combine l r)

variable {P : Expr → Prop}

/-! ## Chains -/

theorem gives_chainLoop {operand : Parse Expr} {operator : Operator} (gives : Gives operand P)
    (keeps : operator.Keeps P) (budget : Nat) {left : Expr} (hleft : P left) :
    Gives (chainLoop operand operator budget left) P := by
  induction budget generalizing left with
  | zero =>
    intro c e c' h
    cases h
    exact hleft
  | succ budget ih =>
    intro c e c' h
    simp only [chainLoop] at h
    split at h
    · cases h
      exact hleft
    · rename_i combine c₁ found
      obtain ⟨⟨right, c₂⟩, hright, h⟩ := bind_eq_ok.1 h
      exact ih (keeps _ _ _ found _ _ hleft (gives _ _ _ hright)) _ _ _ h

theorem gives_chain {operand : Parse Expr} {operator : Operator} (gives : Gives operand P)
    (keeps : operator.Keeps P) : Gives (chain operand operator) P := by
  intro c e c' h
  obtain ⟨⟨first, c₁⟩, hfirst, h⟩ := bind_eq_ok.1 h
  exact gives_chainLoop gives keeps _ (gives _ _ _ hfirst) _ _ _ h

/-! ## Operators -/

section

variable (closed : Closed P)
include closed

/-- A connective is a call of a function that takes two arguments. -/
theorem keeps_connectiveOperator : connectiveOperator.Keeps P := by
  have keeps : ∀ f : Builtin, f.accepts 2 = true → ∀ l r, P l → P r → P (.call f [l, r]) := by
    intro f takes l r hl hr
    refine closed.call takes ?_
    simp [hl, hr]
  intro c combine c' h
  unfold connectiveOperator at h
  split at h
  · cases h; exact keeps .implies rfl
  · cases h; exact keeps .iff rfl
  · cases h; exact keeps .xor rfl
  · cases h; exact keeps .nand rfl
  · cases h; exact keeps .nor rfl
  · cases h

theorem keeps_orOperator : orOperator.Keeps P := by
  intro c combine c' h
  obtain ⟨_, -, h⟩ := Option.map_eq_some_iff.1 h
  cases h
  exact fun _ _ => closed.or

theorem keeps_andOperator : andOperator.Keeps P := by
  intro c combine c' h
  obtain ⟨_, -, h⟩ := Option.map_eq_some_iff.1 h
  cases h
  exact fun _ _ => closed.and

theorem keeps_sumOperator : sumOperator.Keeps P := by
  intro c combine c' h
  unfold sumOperator at h
  split at h
  · cases h; exact fun _ _ => closed.binary .add
  · cases h; exact fun _ _ => closed.binary .sub
  · cases h

theorem keeps_productOperator : productOperator.Keeps P := by
  intro c combine c' h
  unfold productOperator at h
  split at h
  · cases h
  · split at h
    · cases h; exact fun _ _ => closed.binary .mul
    · cases h; exact fun _ _ => closed.binary .div
    · cases h; exact fun _ _ => closed.binary .rem
    · cases h

/-! ## Literals -/

theorem gives_number : Gives Literal.number P := by
  intro c e c' h
  simp only [Literal.number] at h
  split at h
  · cases h
  · split at h
    · cases h
    · split at h
      · rename_i finite
        cases h
        exact closed.number finite
      · cases h

theorem gives_quoted (quote : Char) : Gives (Literal.quoted quote) P := by
  intro c e c' h
  simp only [Literal.quoted] at h
  split at h
  · cases h
  · cases h
    exact closed.text _

end

/-! ## Levels -/

section

variable {inner : Inner} (gives : inner.Gives P)
include gives

theorem gives_parenthesized : Gives (parenthesized inner) P := by
  intro c e c' h
  obtain ⟨c₁, -, h⟩ := bind_eq_ok.1 h
  obtain ⟨⟨e₁, c₂⟩, he, h⟩ := bind_eq_ok.1 h
  obtain ⟨c₃, -, h⟩ := bind_eq_ok.1 h
  cases h
  exact gives.connective _ _ _ he

theorem gives_argumentLoop (budget : Nat) {read : List Expr} (hread : ∀ e ∈ read, P e) :
    Gives (argumentLoop inner budget read) fun args => ∀ e ∈ args, P e := by
  induction budget generalizing read with
  | zero =>
    intro c args c' h
    cases h
  | succ budget ih =>
    intro c args c' h
    obtain ⟨⟨e, c₁⟩, he, h⟩ := bind_eq_ok.1 h
    have all : ∀ x ∈ e :: read, P x := by
      intro x hx
      rcases List.mem_cons.1 hx with rfl | hx
      · exact gives.connective _ _ _ he
      · exact hread x hx
    simp only at h
    split at h
    · cases h
      intro x hx
      exact all x (List.mem_reverse.1 hx)
    · obtain ⟨c₂, -, h⟩ := bind_eq_ok.1 h
      exact ih all _ _ _ h

theorem gives_arguments : Gives (arguments inner) fun args => ∀ e ∈ args, P e := by
  intro c args c' h
  simp only [arguments] at h
  split at h
  · cases h
    intro e he
    cases he
  · exact gives_argumentLoop gives _ (List.forall_mem_nil _) _ _ _ h

variable (closed : Closed P)
include closed

theorem gives_call (start : Cursor) (name : String) : Gives (call inner start name) P := by
  intro c e c' h
  unfold call at h
  split at h
  · cases h
  · obtain ⟨c₁, -, h⟩ := bind_eq_ok.1 h
    obtain ⟨⟨args, c₂⟩, hargs, h⟩ := bind_eq_ok.1 h
    simp only at h
    split at h
    · rename_i takes
      cases h
      exact closed.call takes (gives_arguments gives _ _ _ hargs)
    · cases h

theorem gives_named : Gives (named inner) P := by
  intro c e c' h
  obtain ⟨⟨name, c₁⟩, -, h⟩ := bind_eq_ok.1 h
  simp only at h
  split at h
  · cases h
    exact closed.bool true
  · split at h
    · cases h
      exact closed.bool false
    · split at h
      · cases h
      · split at h
        · exact gives_call gives closed _ _ _ _ _ h
        · cases h
          exact closed.var name

theorem gives_primary : Gives (primary inner) P := by
  intro c e c' h
  simp only [primary] at h
  split at h
  · cases h
  · split at h
    · exact gives_number closed _ _ _ h
    · split at h
      · split at h
        · exact gives_number closed _ _ _ h
        · cases h
      · split at h
        · exact gives_parenthesized gives _ _ _ h
        · split at h
          · exact gives_quoted closed _ _ _ _ h
          · split at h
            · exact gives_named gives closed _ _ _ h
            · cases h

theorem gives_operand : Gives (operand inner) P := by
  intro c e c' h
  obtain ⟨⟨e₁, c₁⟩, he, h⟩ := bind_eq_ok.1 h
  simp only at h
  split at h
  · cases h
  · cases h
  · cases h
  · cases h
    exact gives_primary gives closed _ _ _ he

theorem gives_power : Gives (power inner) P := by
  intro c e c' h
  obtain ⟨⟨base, c₁⟩, hbase, h⟩ := bind_eq_ok.1 h
  have hbase := gives_operand gives closed _ _ _ hbase
  simp only at h
  split at h
  · cases h
    exact hbase
  · obtain ⟨c₂, -, h⟩ := bind_eq_ok.1 h
    obtain ⟨⟨exponent, c₃⟩, hexponent, h⟩ := bind_eq_ok.1 h
    cases h
    exact closed.binary .pow hbase (gives.signed _ _ _ hexponent)

theorem gives_signed : Gives (signed inner) P := by
  intro c e c' h
  simp only [signed] at h
  split at h
  · obtain ⟨c₁, -, h⟩ := bind_eq_ok.1 h
    obtain ⟨⟨e₁, c₂⟩, he, h⟩ := bind_eq_ok.1 h
    cases h
    exact closed.unary .minus (gives.signed _ _ _ he)
  · obtain ⟨c₁, -, h⟩ := bind_eq_ok.1 h
    obtain ⟨⟨e₁, c₂⟩, he, h⟩ := bind_eq_ok.1 h
    cases h
    exact closed.unary .plus (gives.signed _ _ _ he)
  · exact gives_power gives closed _ _ _ h

theorem gives_product : Gives (product inner) P :=
  gives_chain (gives_signed gives closed) (keeps_productOperator closed)

theorem gives_sum : Gives (sum inner) P :=
  gives_chain (gives_product gives closed) (keeps_sumOperator closed)

theorem gives_comparisonLoop (budget : Nat) {read : List (CompareOp × Expr)}
    (hread : ∀ x ∈ read, P x.2) :
    Gives (comparisonLoop inner budget read) fun rest => ∀ x ∈ rest, P x.2 := by
  induction budget generalizing read with
  | zero =>
    intro c rest c' h
    cases h
    intro x hx
    exact hread x (List.mem_reverse.1 hx)
  | succ budget ih =>
    intro c rest c' h
    obtain ⟨found, -, h⟩ := bind_eq_ok.1 h
    cases found with
    | none =>
      cases h
      intro x hx
      exact hread x (List.mem_reverse.1 hx)
    | some pair =>
      obtain ⟨op, c₁⟩ := pair
      obtain ⟨⟨e, c₂⟩, he, h⟩ := bind_eq_ok.1 h
      refine @ih ((op, e) :: read) ?_ _ _ _ h
      intro x hx
      rcases List.mem_cons.1 hx with rfl | hx
      · exact gives_sum gives closed _ _ _ he
      · exact hread x hx

theorem gives_comparison : Gives (comparison inner) P := by
  intro c e c' h
  obtain ⟨⟨first, c₁⟩, hfirst, h⟩ := bind_eq_ok.1 h
  obtain ⟨⟨rest, c₂⟩, hrest, h⟩ := bind_eq_ok.1 h
  have hfirst := gives_sum gives closed _ _ _ hfirst
  simp only at h
  split at h
  · cases h
    exact hfirst
  · cases h
    exact closed.compare hfirst
      (gives_comparisonLoop gives closed _ (List.forall_mem_nil _) _ _ _ hrest)

theorem gives_negation : Gives (negation inner) P := by
  intro c e c' h
  simp only [negation] at h
  split at h
  · exact gives_comparison gives closed _ _ _ h
  · obtain ⟨c₁, -, h⟩ := bind_eq_ok.1 h
    obtain ⟨⟨e₁, c₂⟩, he, h⟩ := bind_eq_ok.1 h
    cases h
    exact closed.unary .not (gives.negation _ _ _ he)

theorem gives_conjunction : Gives (conjunction inner) P :=
  gives_chain (gives_negation gives closed) (keeps_andOperator closed)

theorem gives_disjunction : Gives (disjunction inner) P :=
  gives_chain (gives_conjunction gives closed) (keeps_orOperator closed)

theorem gives_connective : Gives (connective inner) P :=
  gives_chain (gives_disjunction gives closed) (keeps_connectiveOperator closed)

end

/-! ## Whole expressions -/

theorem Closed.nested (closed : Closed P) (depth : Nat) : (nested depth).Gives P := by
  induction depth with
  | zero =>
    refine ⟨?_, ?_, ?_⟩ <;>
    · intro c e c' h
      cases h
  | succ depth ih =>
    exact ⟨gives_connective ih closed, gives_negation ih closed, gives_signed ih closed⟩

/-- Every expression that is read has the property. -/
theorem Closed.parse (closed : Closed P) {source : String} {e : Expr}
    (h : Expr.parse source = .ok e) : P e := by
  obtain ⟨_, -, h⟩ := bind_eq_ok.1 h
  obtain ⟨⟨e₁, c⟩, he, h⟩ := bind_eq_ok.1 h
  obtain ⟨_, -, h⟩ := bind_eq_ok.1 h
  cases h
  exact (closed.nested _).connective _ _ _ he

/-- The expression of every assignment that is read has the property. -/
theorem Closed.parseAssignment (closed : Closed P) {source target : String} {e : Expr}
    (h : Expr.parseAssignment source = .ok (target, e)) : P e := by
  obtain ⟨_, -, h⟩ := bind_eq_ok.1 h
  obtain ⟨⟨name, c⟩, -, h⟩ := bind_eq_ok.1 h
  simp only at h
  split at h
  · cases h
  · split at h
    · cases h
    · obtain ⟨⟨e₁, c₁⟩, he, h⟩ := bind_eq_ok.1 h
      obtain ⟨_, -, h⟩ := bind_eq_ok.1 h
      cases h
      exact (closed.nested _).connective _ _ _ he

end Grammar

end Stratagem
