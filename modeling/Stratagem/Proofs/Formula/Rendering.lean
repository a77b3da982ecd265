import Stratagem.Proofs.Formula.Printing

/-!
# Rendered expressions

`Expr.render` writes every operator with parentheses, but not around a sign or a negation with its
operand. This module has the tokens of the text (`Expr.shown`, `scans_render`), and says of which
expressions they stand for the expression itself (`derives_shown`): of those in which no part is
mistakable (`Expr.Unmistakable`).
-/

namespace Stratagem

open Token

/-! ## Parts -/

namespace Expr

mutual
/-- An expression and everything inside it, from left to right. -/
def parts : Expr → List Expr
  | number x => [number x]
  | bool b => [bool b]
  | text s => [text s]
  | var name => [var name]
  | unary op e => unary op e :: parts e
  | binary op l r => binary op l r :: (parts l ++ parts r)
  | compare first rest => compare first rest :: (parts first ++ partsInPairs rest)
  | and l r => and l r :: (parts l ++ parts r)
  | or l r => or l r :: (parts l ++ parts r)
  | call f args => call f args :: partsInAll args

/-- The parts of the later operands of a comparison. -/
def partsInPairs : List (CompareOp × Expr) → List Expr
  | [] => []
  | (_, e) :: rest => parts e ++ partsInPairs rest

/-- The parts of several expressions. -/
def partsInAll : List Expr → List Expr
  | [] => []
  | e :: es => parts e ++ partsInAll es
end

theorem mem_partsInPairs {p : Expr} {rest : List (CompareOp × Expr)} :
    p ∈ partsInPairs rest ↔ ∃ pair ∈ rest, p ∈ pair.2.parts := by
  induction rest with
  | nil => simp [partsInPairs]
  | cons pair rest ih => simp [partsInPairs, ih]

theorem mem_partsInAll {p : Expr} {args : List Expr} :
    p ∈ partsInAll args ↔ ∃ e ∈ args, p ∈ e.parts := by
  induction args with
  | nil => simp [partsInAll]
  | cons e args ih => simp [partsInAll, ih]

/-- A property of all parts of an expression is one of the expression and of the parts of what is
inside. -/
theorem forall_parts_compare {P : Expr → Prop} {first : Expr} {rest : List (CompareOp × Expr)} :
    (∀ p ∈ (compare first rest).parts, P p) ↔ P (compare first rest) ∧
      (∀ p ∈ first.parts, P p) ∧ ∀ pair ∈ rest, ∀ p ∈ pair.2.parts, P p := by
  simp only [parts, List.forall_mem_cons, List.forall_mem_append, mem_partsInPairs]
  refine and_congr_right fun _ => and_congr_right fun _ => ⟨fun h pair mem p hp => ?_, ?_⟩
  · exact h p ⟨pair, mem, hp⟩
  · rintro h p ⟨pair, mem, hp⟩
    exact h pair mem p hp

theorem forall_parts_call {P : Expr → Prop} {f : Builtin} {args : List Expr} :
    (∀ p ∈ (call f args).parts, P p) ↔ P (call f args) ∧ ∀ e ∈ args, ∀ p ∈ e.parts, P p := by
  simp only [parts, List.forall_mem_cons, mem_partsInAll]
  refine and_congr_right fun _ => ⟨fun h e mem p hp => h p ⟨e, mem, hp⟩, ?_⟩
  rintro h p ⟨e, mem, hp⟩
  exact h e mem p hp

theorem forall_parts_unary {P : Expr → Prop} {op : UnaryOp} {e : Expr} :
    (∀ p ∈ (unary op e).parts, P p) ↔ P (unary op e) ∧ ∀ p ∈ e.parts, P p := by
  simp only [parts, List.forall_mem_cons]

theorem forall_parts_binary {P : Expr → Prop} {op : BinaryOp} {l r : Expr} :
    (∀ p ∈ (binary op l r).parts, P p) ↔
      P (binary op l r) ∧ (∀ p ∈ l.parts, P p) ∧ ∀ p ∈ r.parts, P p := by
  simp only [parts, List.forall_mem_cons, List.forall_mem_append]

theorem forall_parts_and {P : Expr → Prop} {l r : Expr} :
    (∀ p ∈ (and l r).parts, P p) ↔
      P (and l r) ∧ (∀ p ∈ l.parts, P p) ∧ ∀ p ∈ r.parts, P p := by
  simp only [parts, List.forall_mem_cons, List.forall_mem_append]

theorem forall_parts_or {P : Expr → Prop} {l r : Expr} :
    (∀ p ∈ (or l r).parts, P p) ↔
      P (or l r) ∧ (∀ p ∈ l.parts, P p) ∧ ∀ p ∈ r.parts, P p := by
  simp only [parts, List.forall_mem_cons, List.forall_mem_append]

/-! ## What can be mistaken -/

/-- Whether an expression has a sign or a negation in front. -/
def isUnary : Expr → Bool
  | unary _ _ => true
  | _ => false

/-- Whether an expression is a negation. -/
def isNegation : Expr → Bool
  | unary .not _ => true
  | _ => false

/-- A text has no quote of the kind that is written around it. -/
def Quotable : Expr → Prop
  | text s => '"' ∉ s.toList
  | _ => True

/-- An expression whose operands, or whose quotes, cannot be mistaken where no parentheses and no
other quotes are written. -/
def Unmistakable : Expr → Prop
  | text s => '"' ∉ s.toList
  | binary op l r => l.isNegation = false ∧ r.isNegation = false ∧ (op = .pow → l.isUnary = false)
  | compare first rest => first.isNegation = false ∧ ∀ p ∈ rest, p.2.isNegation = false
  | _ => True

end Expr

/-! ## What is shown -/

namespace UnaryOp

/-- The operator as a token. -/
def token : UnaryOp → Token
  | minus => .mark (.binary .sub)
  | plus => .mark (.binary .add)
  | not => .word "not"

/-- How strongly an operator binds with its operand. -/
def level : UnaryOp → Level
  | minus | plus => .signed
  | not => .negation

end UnaryOp

namespace BinaryOp

/-- How strongly an operator binds with its operands. -/
def level : BinaryOp → Level
  | add | sub => .sum
  | mul | div | rem => .product
  | pow => .power

/-- How strongly the first operand must bind. -/
def leftLevel : BinaryOp → Level
  | pow => .operand
  | op => op.level

/-- How strongly the second operand must bind. -/
def rightLevel : BinaryOp → Level
  | pow => .signed
  | op => op.level.tighter

end BinaryOp

namespace Written

/-- In parentheses, whatever its level. -/
def enclosed (w : Written) : Written :=
  ⟨.operand, w.nesting + 1, .mark .opening :: (w.tokens ++ [.mark .closing])⟩

/-- In parentheses behind a sign or a negation. -/
def signed (op : UnaryOp) (w : Written) : Written :=
  ⟨op.level, w.enclosed.nesting + 1, op.token :: w.enclosed.tokens⟩

/-- Two operands as they are, with a token between them. -/
def joined (t : Token) (L : Level) (l r : Written) : Written :=
  ⟨L, max l.nesting r.nesting, l.tokens ++ t :: r.tokens⟩

/-- Two operands as they are, with an arithmetic operator between them. -/
def operated (op : BinaryOp) (l r : Written) : Written :=
  ⟨op.level, max l.nesting (if op = .pow then r.nesting + 1 else r.nesting),
    l.tokens ++ .mark (.binary op) :: r.tokens⟩

/-- The later operands of a comparison as they are. -/
def trailing : List (CompareOp × Written) → List Token
  | [] => []
  | (op, w) :: rest => .mark (.compare op) :: (w.tokens ++ trailing rest)

/-- The operands of a comparison as they are. -/
def compared (first : Written) (rest : List (CompareOp × Written)) : Written :=
  ⟨.comparison, max first.nesting (deepest (rest.map Prod.snd)), first.tokens ++ trailing rest⟩

end Written

namespace Expr

mutual
/-- An expression as it is rendered. -/
def shown : Expr → Written
  | number x => .single (.number (Decimal.plain x))
  | bool b => .single (.word (if b then "true" else "false"))
  | text s => .single (.quoted '"' s)
  | var name => .single (.word name)
  | unary op e => .signed op (shown e)
  | binary op l r => (Written.operated op (shown l) (shown r)).enclosed
  | compare first rest => (Written.compared (shown first) (shownPairs rest)).enclosed
  | and l r => (Written.joined (.word "and") .conjunction (shown l) (shown r)).enclosed
  | or l r => (Written.joined (.word "or") .disjunction (shown l) (shown r)).enclosed
  | call f args => .call f (shownAll args)

/-- The later operands of a comparison. -/
def shownPairs : List (CompareOp × Expr) → List (CompareOp × Written)
  | [] => []
  | (op, e) :: rest => (op, shown e) :: shownPairs rest

/-- Several expressions. -/
def shownAll : List Expr → List Written
  | [] => []
  | e :: es => shown e :: shownAll es
end

end Expr

/-- How rendering writes numbers, words and calls. -/
def Style.rendered : Style := ⟨Decimal.plain, true, false⟩

/-! ## The tokens of the text -/

/-- In front of a boundary, the characters are the tokens. -/
def Token.Scans (cs : List Char) (ts : List Token) : Prop :=
  ∀ r, Boundary r → solid (cs ++ r) = ts ++ solid r

namespace Token

variable {cs ds : List Char} {ts us : List Token} {t : Token}

theorem boundary_cons {x : Char} (r : List Char) (h : x ∈ [' ', '(', ')', ',']) :
    Boundary (x :: r) := by
  intro y hy
  cases hy
  exact h

theorem boundary_nil : Boundary [] := nofun

theorem Clear.scans (h : t.Clear) : Scans t.spelling [t] := h

/-- A parenthesis is a token of its own, whatever follows. -/
theorem solid_opening (cs : List Char) : solid ('(' :: cs) = .mark .opening :: solid cs := by
  rw [solid_cons rfl, first_of_mark rfl]
  rfl

namespace Scans

theorem solid (h : Scans cs ts) : solid cs = ts := by
  have all := h [] boundary_nil
  rwa [List.append_nil, show Token.solid [] = [] from rfl, List.append_nil] at all

/-- Two texts with a blank between them. -/
theorem spaced (left : Scans cs ts) (right : Scans ds us) : Scans (cs ++ ' ' :: ds) (ts ++ us) := by
  intro r boundary
  rw [List.append_assoc, List.cons_append, left _ (.blank _), solid_cons_of_blank rfl,
    right r boundary, List.append_assoc]

theorem closed (h : Scans cs ts) : Scans (cs ++ [')']) (ts ++ [.mark .closing]) := by
  intro r boundary
  have closing : Scans [')'] [.mark .closing] := (clear_mark .closing).scans
  rw [List.append_assoc, List.singleton_append, h _ (boundary_cons _ (by decide)),
    ← List.singleton_append, closing r boundary, List.append_assoc]

theorem opened (h : Scans cs ts) : Scans ('(' :: cs) (.mark .opening :: ts) := by
  intro r boundary
  rw [List.cons_append, solid_opening, h r boundary, List.cons_append]

theorem enclosed (h : Scans cs ts) :
    Scans ('(' :: (cs ++ [')'])) (.mark .opening :: (ts ++ [.mark .closing])) :=
  h.closed.opened

/-- A token in front of a parenthesis. -/
theorem behind (h : Scans ('(' :: cs) ts) (clear : t.Clear) :
    Scans (t.spelling ++ '(' :: cs) (t :: ts) := by
  intro r boundary
  rw [List.append_assoc, List.cons_append, clear _ (boundary_cons _ (by decide)),
    ← List.cons_append, h r boundary, List.cons_append]

/-- Two texts with a comma and a blank between them. -/
theorem listed (left : Scans cs ts) (right : Scans ds us) :
    Scans (cs ++ ',' :: ' ' :: ds) (ts ++ .mark .comma :: us) := by
  intro r boundary
  have comma : Scans [','] [.mark .comma] := (clear_mark .comma).scans
  have separated :
      Token.solid (',' :: ' ' :: (ds ++ r)) = .mark .comma :: (us ++ Token.solid r) := by
    have first := comma (' ' :: (ds ++ r)) (.blank _)
    rw [solid_cons_of_blank rfl, right r boundary] at first
    exact first
  rw [List.append_assoc, List.cons_append, List.cons_append, left _ (boundary_cons _ (by decide)),
    separated, List.append_assoc, List.cons_append]

end Scans

end Token

theorem BinaryOp.scans_symbol (op : BinaryOp) :
    Scans op.symbol.toList [.mark (.binary op)] := by
  have spelled : op.symbol.toList = (Token.mark (.binary op)).spelling := by cases op <;> rfl
  rw [spelled]
  exact (clear_mark _).scans

theorem CompareOp.scans_symbol (op : CompareOp) :
    Scans op.symbol.toList [.mark (.compare op)] := by
  have spelled : op.symbol.toList = (Token.mark (.compare op)).spelling := by cases op <;> rfl
  rw [spelled]
  exact (clear_mark _).scans

namespace Expr

/-- Two operands with an operator between them, in parentheses. -/
theorem scans_between {l op r : List Char} {ls rs : List Token} {t : Token} (left : Scans l ls)
    (middle : Scans op [t]) (right : Scans r rs) :
    Scans ('(' :: (l ++ ' ' :: (op ++ ' ' :: (r ++ [')']))))
      (.mark .opening :: (ls ++ t :: (rs ++ [.mark .closing]))) := by
  have inside := (left.spaced (middle.spaced right)).enclosed
  simpa using inside

theorem scans_pairs {cs : List Char} {ts : List Token} (left : Scans cs ts)
    {rest : List (CompareOp × Expr)}
    (right : ∀ p ∈ rest, Scans p.2.render.toList p.2.shown.tokens) :
    Scans (cs ++ (renderPairs rest).toList) (ts ++ Written.trailing (shownPairs rest)) := by
  induction rest generalizing cs ts with
  | nil => simpa [renderPairs, shownPairs, Written.trailing] using left
  | cons p rest ih =>
    obtain ⟨op, e⟩ := p
    obtain ⟨here, later⟩ := List.forall_mem_cons.1 right
    have more := ih (left.spaced (op.scans_symbol.spaced here)) later
    simpa [renderPairs, shownPairs, Written.trailing, String.toList_append] using more

theorem scans_arguments {args : List Expr}
    (h : ∀ e ∈ args, Scans e.render.toList e.shown.tokens) :
    Scans ((", ".intercalate (renderAll args)).toList ++ [')'])
      (Written.arguments (shownAll args)) := by
  induction args with
  | nil => exact (clear_mark .closing).scans
  | cons e es ih =>
    obtain ⟨here, later⟩ := List.forall_mem_cons.1 h
    cases es with
    | nil =>
      have last := here.closed
      simpa [renderAll, shownAll, Written.arguments] using last
    | cons e' es =>
      have more := here.listed (ih later)
      simpa [renderAll, shownAll, Written.arguments, String.toList_intercalate] using more

/-- The text of an expression has the tokens that are shown, if its texts avoid the quotes around
them. -/
theorem scans_render {e : Expr} (h : e.WellFormed Style.rendered.Prints)
    (quotable : ∀ p ∈ e.parts, p.Quotable) : Scans e.render.toList e.shown.tokens := by
  induction h with
  | number prints => exact (clear_number prints.numeral).scans
  | bool b => cases b <;> exact (clear_word rfl).scans
  | @text s =>
    have avoids : '"' ∉ s.toList := quotable _ (List.mem_singleton_self _)
    have inside := (clear_quoted (.inl rfl) avoids).scans
    simpa [render, shown, Written.single, spelling, String.toList_append] using inside
  | var isName => exact (clear_word isName).scans
  | @unary op e _ operand =>
    have inside := (operand (forall_parts_unary.1 quotable).2).enclosed
    rw [shown, Written.signed, Written.enclosed]
    cases op with
    | minus =>
      have all := inside.behind (clear_mark (.binary .sub))
      simpa [render, UnaryOp.token, spelling, Mark.chars, String.toList_append] using all
    | plus =>
      have all := inside.behind (clear_mark (.binary .add))
      simpa [render, UnaryOp.token, spelling, Mark.chars, String.toList_append] using all
    | not =>
      have word : Scans "not".toList [.word "not"] := (clear_word rfl).scans
      have all := word.spaced inside
      simpa [render, UnaryOp.token, String.toList_append] using all
  | binary op _ _ left right =>
    obtain ⟨-, inLeft, inRight⟩ := forall_parts_binary.1 quotable
    have all := scans_between (left inLeft) op.scans_symbol (right inRight)
    simpa [render, shown, Written.enclosed, Written.operated, String.toList_append] using all
  | compare _ _ _ left right =>
    obtain ⟨-, inFirst, inRest⟩ := forall_parts_compare.1 quotable
    have inside := scans_pairs (left inFirst) fun p hp => right p hp (inRest p hp)
    have all := inside.enclosed
    simpa [render, shown, Written.enclosed, Written.compared, String.toList_append] using all
  | and _ _ left right =>
    obtain ⟨-, inLeft, inRight⟩ := forall_parts_and.1 quotable
    have word : Scans "and".toList [.word "and"] := (clear_word rfl).scans
    have all := scans_between (left inLeft) word (right inRight)
    simpa [render, shown, Written.enclosed, Written.joined, String.toList_append] using all
  | or _ _ left right =>
    obtain ⟨-, inLeft, inRight⟩ := forall_parts_or.1 quotable
    have word : Scans "or".toList [.word "or"] := (clear_word rfl).scans
    have all := scans_between (left inLeft) word (right inRight)
    simpa [render, shown, Written.enclosed, Written.joined, String.toList_append] using all
  | @call f _ _ _ arguments =>
    obtain ⟨-, inArguments⟩ := forall_parts_call.1 quotable
    have inside := scans_arguments fun e he => arguments e he (inArguments e he)
    have opened : Scans ('(' :: (", ".intercalate (renderAll _)).toList ++ [')']) _ :=
      inside.opened
    have all := opened.behind (clear_word f.isName_name)
    simpa [render, shown, Written.call, spelling, String.toList_append] using all

/-! ## What is rendered stands for the expression -/

/-- Signs and negations bind least of what is rendered without parentheses around it. -/
theorem rank_le_shown {L : Level} (loose : L.rank ≤ Level.negation.rank) (e : Expr) :
    L.rank ≤ e.shown.level.rank := by
  cases e with
  | unary op e =>
    cases op with
    | minus | plus =>
      have tight : Level.negation.rank ≤ Level.signed.rank := by decide
      exact Nat.le_trans loose tight
    | not => exact loose
  | _ => exact Written.rank_le_operand _

theorem rank_of_isNegation {e : Expr} (h : e.isNegation = false) :
    Level.signed.rank ≤ e.shown.level.rank := by
  cases e with
  | unary op e =>
    cases op with
    | minus | plus => exact Nat.le_refl _
    | not => cases h
  | _ => exact Written.rank_le_operand _

theorem rank_of_isUnary {e : Expr} (h : e.isUnary = false) :
    Level.operand.rank ≤ e.shown.level.rank := by
  cases e with
  | unary op e => cases h
  | _ => exact Nat.le_refl _

theorem shownAll_eq_map (args : List Expr) : shownAll args = args.map shown := by
  induction args with
  | nil => rfl
  | cons e es ih => rw [shownAll, ih, List.map_cons]

/-- Operands that bind strongly enough, with an arithmetic operator between them. -/
theorem derives_operated {op : BinaryOp} {l r : Expr} {n : Nat}
    (left : ∀ n, l.shown.nesting ≤ n → Derives n (.expr op.leftLevel l) l.shown.tokens)
    (right : ∀ n, r.shown.nesting ≤ n → Derives n (.expr op.rightLevel r) r.shown.tokens)
    (deep : (Written.operated op l.shown r.shown).nesting ≤ n) :
    Derives n (.expr op.level (.binary op l r))
      (l.shown.tokens ++ .mark (.binary op) :: r.shown.tokens) := by
  obtain ⟨deepLeft, deepRight⟩ := Nat.max_le.1 deep
  cases op with
  | add | sub | mul | div | rem => exact .chain rfl (left n deepLeft) (right n deepRight)
  | pow =>
    obtain ⟨n, rfl⟩ := Nat.exists_eq_add_one_of_ne_zero (Nat.ne_zero_of_lt deepRight)
    exact .power (left (n + 1) deepLeft) (right n (Nat.le_of_succ_le_succ deepRight))

theorem derives_trailing {rest : List (CompareOp × Expr)} {n : Nat}
    (h : ∀ p ∈ rest, ∀ n, p.2.shown.nesting ≤ n → Derives n (.expr .sum p.2) p.2.shown.tokens)
    (deep : Written.deepest ((shownPairs rest).map Prod.snd) ≤ n) :
    Derives n (.pairs rest) (Written.trailing (shownPairs rest)) := by
  induction rest with
  | nil => exact .noPairs
  | cons p rest ih =>
    obtain ⟨op, e⟩ := p
    obtain ⟨here, later⟩ := List.forall_mem_cons.1 h
    obtain ⟨deepHere, deepLater⟩ := Nat.max_le.1 deep
    exact .pair (here n deepHere) (ih later deepLater)

/-- Whatever stands in parentheses binds as strongly as can be. -/
theorem derives_enclosed {w : Written} {L : Level} {e : Expr} {n : Nat}
    (inside : ∀ n, w.nesting ≤ n → Derives n (.expr L e) w.tokens)
    (deep : w.enclosed.nesting ≤ n) : Derives n (.expr .operand e) w.enclosed.tokens := by
  obtain ⟨n, rfl⟩ := Nat.exists_eq_add_one_of_ne_zero (Nat.ne_zero_of_lt deep)
  refine .parentheses ((inside n ?_).loosen (Written.rank_connective L))
  exact Nat.le_of_succ_le_succ deep

theorem derives_signed {op : UnaryOp} {w : Written} {L : Level} {e : Expr} {n : Nat}
    (inside : ∀ n, w.nesting ≤ n → Derives n (.expr L e) w.tokens)
    (deep : (Written.signed op w).nesting ≤ n) :
    Derives n (.expr op.level (.unary op e)) (Written.signed op w).tokens := by
  obtain ⟨n, rfl⟩ := Nat.exists_eq_add_one_of_ne_zero (Nat.ne_zero_of_lt deep)
  have operand := derives_enclosed inside (Nat.le_of_succ_le_succ deep)
  cases op with
  | minus => exact .minus (operand.loosen (Written.rank_le_operand _))
  | plus => exact .plus (operand.loosen (Written.rank_le_operand _))
  | not => exact .not (.inl rfl) (operand.loosen (Written.rank_le_operand _))

/-- If no part can be mistaken, the tokens stand for the expression. -/
theorem derives_shown {e : Expr} (h : e.WellFormed Style.rendered.Prints)
    (plain : ∀ p ∈ e.parts, p.Unmistakable) {n : Nat} (deep : e.shown.nesting ≤ n) :
    Derives n (.expr e.shown.level e) e.shown.tokens := by
  induction h generalizing n with
  | number prints =>
    refine .number prints.read prints.finite ?_
    exact Decimal.zero_le_of_read prints.read (head_of_numeral prints.numeral) prints.finite
  | bool b =>
    cases b with
    | true => exact .true
    | false => exact .false
  | text => exact .text
  | var isName free => exact .var free
  | unary op _ operand =>
    obtain ⟨-, inside⟩ := forall_parts_unary.1 plain
    exact derives_signed (fun n deep => operand inside deep) deep
  | @binary op l r _ _ left right =>
    obtain ⟨⟨negated, negated', base⟩, inLeft, inRight⟩ := forall_parts_binary.1 plain
    refine derives_enclosed (fun n deep => derives_operated ?_ ?_ deep) deep
    · refine fun n deep => (left inLeft deep).loosen ?_
      cases op with
      | pow => exact rank_of_isUnary (base rfl)
      | _ => exact Nat.le_trans (by decide) (rank_of_isNegation negated)
    · refine fun n deep => (right inRight deep).loosen ?_
      cases op <;> exact Nat.le_trans (by decide) (rank_of_isNegation negated')
  | compare some _ _ left right =>
    obtain ⟨⟨negated, negated'⟩, inFirst, inRest⟩ := forall_parts_compare.1 plain
    have binds : ∀ e : Expr, e.isNegation = false → Level.sum.rank ≤ e.shown.level.rank :=
      fun e h => Nat.le_trans (by decide) (rank_of_isNegation h)
    refine derives_enclosed (L := .comparison) (fun n deep => ?_) deep
    obtain ⟨deepFirst, deepRest⟩ := Nat.max_le.1 deep
    refine .compare ((left inFirst deepFirst).loosen (binds _ negated)) ?_ some
    refine derives_trailing (fun p hp n deep => ?_) deepRest
    exact (right p hp (inRest p hp) deep).loosen (binds _ (negated' p hp))
  | and _ _ left right =>
    obtain ⟨-, inLeft, inRight⟩ := forall_parts_and.1 plain
    refine derives_enclosed (L := .conjunction) (fun n deep => ?_) deep
    obtain ⟨deepLeft, deepRight⟩ := Nat.max_le.1 deep
    exact .chain rfl ((left inLeft deepLeft).loosen (rank_le_shown (by decide) _))
      ((right inRight deepRight).loosen (rank_le_shown (by decide) _))
  | or _ _ left right =>
    obtain ⟨-, inLeft, inRight⟩ := forall_parts_or.1 plain
    refine derives_enclosed (L := .disjunction) (fun n deep => ?_) deep
    obtain ⟨deepLeft, deepRight⟩ := Nat.max_le.1 deep
    exact .chain rfl ((left inLeft deepLeft).loosen (rank_le_shown (by decide) _))
      ((right inRight deepRight).loosen (rank_le_shown (by decide) _))
  | call takes _ arguments =>
    obtain ⟨-, inArguments⟩ := forall_parts_call.1 plain
    rw [shown, shownAll_eq_map] at deep ⊢
    refine Written.derives_call takes (fun e he n deep => ?_) deep
    exact (arguments e he (inArguments e he) deep).loosen (Written.rank_connective _)

end Expr

end Stratagem
