import Stratagem.Proofs.Formula.Rendering

/-!
# Parentheses and where expressions come apart

In the tokens of an expression parentheses come in pairs (`balanced_of_derives`). The tokens that a
rendered expression is made of hold together: no operator stands between them outside of parentheses
(`firm_shown`). So a rendered operator comes apart at one place only, the place where it was put
together (`split_between`), and if its tokens stand for the expression, then those of its operands
stand for the operands. That leads from the whole expression down to every part, and no part is
mistakable (`unmistakable_of_derives`).
-/

namespace Stratagem

namespace Token

variable {t a : Token} {ts us xs ys : List Token}

/-! ## Open parentheses -/

/-- How a token changes the number of open parentheses. -/
def rise : Token → Int
  | mark .opening => 1
  | mark .closing => -1
  | _ => 0

/-- The number of open parentheses after some tokens. -/
def height : List Token → Int
  | [] => 0
  | t :: ts => t.rise + height ts

@[simp] theorem height_nil : height [] = 0 := rfl

@[simp] theorem height_cons (t : Token) (ts : List Token) : height (t :: ts) = t.rise + height ts :=
  rfl

@[simp] theorem height_append (ts us : List Token) : height (ts ++ us) = height ts + height us := by
  induction ts with
  | nil => exact (Int.zero_add _).symm
  | cons t ts ih => rw [List.cons_append, height_cons, height_cons, ih, Int.add_assoc]

/-- Tokens in parentheses. -/
def enclosed (ts : List Token) : List Token := .mark .opening :: (ts ++ [.mark .closing])

/-- Parentheses come in pairs. -/
structure Balanced (ts : List Token) : Prop where
  whole : height ts = 0
  starts : ∀ {xs ys}, ts = xs ++ ys → 0 ≤ height xs

theorem balanced_nil : Balanced [] := by
  refine ⟨rfl, fun same => ?_⟩
  rw [(List.append_eq_nil_iff.1 same.symm).1]
  exact Int.le_refl 0

theorem balanced_single (flat : t.rise = 0) : Balanced [t] := by
  refine ⟨by simp [flat], fun same => ?_⟩
  rcases List.append_eq_singleton_iff.1 same.symm with ⟨rfl, -⟩ | ⟨rfl, -⟩
  · exact Int.le_refl 0
  · simp [flat]

namespace Balanced

theorem append (left : Balanced ts) (right : Balanced us) : Balanced (ts ++ us) := by
  refine ⟨?_, fun same => ?_⟩
  · rw [height_append, left.whole, right.whole]
    rfl
  · rcases List.append_eq_append_iff.1 same with ⟨more, rfl, inRight⟩ | ⟨more, inLeft, -⟩
    · rw [height_append, left.whole, Int.zero_add]
      exact right.starts inRight
    · exact left.starts inLeft

theorem cons (flat : t.rise = 0) (h : Balanced ts) : Balanced (t :: ts) :=
  (balanced_single flat).append h

theorem between (left : Balanced ts) (flat : t.rise = 0) (right : Balanced us) :
    Balanced (ts ++ t :: us) :=
  left.append (right.cons flat)

/-- Before a token inside of parentheses, one more of them is open. -/
theorem height_inside (h : Balanced ts) (same : enclosed ts = a :: (xs ++ t :: ys)) :
    1 ≤ height (a :: xs) := by
  obtain ⟨rfl, rest⟩ := List.cons.inj same
  have inside : 0 ≤ height xs := by
    rcases List.append_eq_append_iff.1 rest with ⟨more, rfl, last⟩ | ⟨more, inside, -⟩
    · obtain rfl : more = [] := by
        rcases List.append_eq_singleton_iff.1 last.symm with ⟨none, -⟩ | ⟨-, absurd⟩
        · exact none
        · cases absurd
      rw [List.append_nil]
      exact Int.le_of_eq h.whole.symm
    · exact h.starts inside
  have opened : rise (.mark .opening) = 1 := rfl
  rw [height_cons, opened]
  omega

theorem enclosed (h : Balanced ts) : Balanced (enclosed ts) := by
  have whole : height (Token.enclosed ts) = 0 := by
    simp only [Token.enclosed, height_cons, height_append, h.whole]
    rfl
  refine ⟨whole, fun {xs ys} same => ?_⟩
  cases xs with
  | nil => exact Int.le_refl 0
  | cons x xs =>
    cases ys with
    | nil =>
      rw [List.append_nil] at same
      exact same ▸ Int.le_of_eq whole.symm
    | cons y ys =>
      have inside := h.height_inside same
      omega

end Balanced

/-! ## Tokens on the surface -/

/-- A token stands outside of all parentheses. -/
def Surface (t : Token) (ts : List Token) : Prop :=
  ∃ xs ys, ts = xs ++ t :: ys ∧ height xs = 0

theorem surface_append (whole : height ts = 0) (h : Surface t (ts ++ us)) :
    Surface t ts ∨ Surface t us := by
  obtain ⟨xs, ys, same, flat⟩ := h
  rcases List.append_eq_append_iff.1 same with ⟨more, rfl, inRight⟩ | ⟨more, inLeft, rest⟩
  · rw [height_append, whole, Int.zero_add] at flat
    exact .inr ⟨more, ys, inRight, flat⟩
  · cases more with
    | nil => exact .inr ⟨[], ys, rest.symm, rfl⟩
    | cons b more =>
      obtain ⟨rfl, -⟩ := List.cons.inj rest
      exact .inl ⟨xs, more, inLeft, flat⟩

theorem surface_single (h : Surface t [a]) : t = a := by
  obtain ⟨xs, ys, same, -⟩ := h
  rcases List.append_eq_singleton_iff.1 same.symm with ⟨-, last⟩ | ⟨-, last⟩
  · exact (List.cons.inj last).1
  · cases last

theorem surface_cons (flat : a.rise = 0) (h : Surface t (a :: us)) : t = a ∨ Surface t us := by
  have whole : height [a] = 0 := by simp [flat]
  exact (surface_append whole h).imp_left surface_single

theorem surface_enclosed (inside : Balanced ts) (h : Surface t (enclosed ts)) :
    t = .mark .opening := by
  obtain ⟨xs, ys, same, flat⟩ := h
  cases xs with
  | nil => exact (List.cons.inj same).1.symm
  | cons x xs =>
    have inside := inside.height_inside same
    omega

/-! ## Tokens that hold together -/

/-- Nothing but a parenthesis stands between tokens on the surface. -/
def Firm (ts : List Token) : Prop :=
  ∀ {xs t ys}, ts = xs ++ t :: ys → xs ≠ [] → height xs = 0 → t = .mark .opening

theorem firm_single (t : Token) : Firm [t] := by
  intro xs a ys same some _
  rcases List.append_eq_singleton_iff.1 same.symm with ⟨none, -⟩ | ⟨-, last⟩
  · exact absurd none some
  · cases last

theorem firm_enclosed (h : Balanced ts) : Firm (enclosed ts) := by
  intro xs a ys same some flat
  cases xs with
  | nil => exact absurd rfl some
  | cons x xs =>
    have inside := h.height_inside same
    omega

theorem firm_behind (flat : t.rise = 0) (h : Balanced ts) : Firm (t :: enclosed ts) := by
  intro xs a ys same some level
  cases xs with
  | nil => exact absurd rfl some
  | cons x xs =>
    obtain ⟨rfl, rest⟩ := List.cons.inj same
    cases xs with
    | nil => exact (List.cons.inj rest).1.symm
    | cons y xs =>
      rw [height_cons, flat, Int.zero_add] at level
      have inside := h.height_inside rest
      omega

/-- What begins with tokens that hold together, and stops outside of parentheses and not in front of
one, holds all of them. -/
theorem Firm.extends {vs zs : List Token} (firm : Firm xs) (same : xs ++ us = zs ++ vs)
    (some : zs ≠ []) (flat : height zs = 0) (stop : ∀ t ∈ vs.head?, t ≠ .mark .opening) :
    ∃ more, zs = xs ++ more ∧ us = more ++ vs := by
  rcases List.append_eq_append_iff.1 same with found | ⟨more, inside, rest⟩
  · exact found
  · cases more with
    | nil => exact ⟨[], by simpa using inside.symm, by simpa using rest.symm⟩
    | cons b more =>
      have here : b ∈ vs.head? := by rw [rest]; rfl
      exact absurd (firm inside some flat) (stop b here)

/-- A token that can stand at the end of an expression. -/
structure Finishes (t : Token) : Prop where
  mark : ∀ m, t = .mark m → m = .closing
  word : ∀ name, t = .word name → name ∉ ["and", "or", "not"]

theorem finishes_word {name : String} (h : name ∉ ["and", "or", "not"]) :
    Finishes (.word name) := by
  refine ⟨fun m same => ?_, fun name' same => ?_⟩
  · cases same
  · cases same
    exact h

/-- The last of the tokens can stand at the end of an expression. -/
def EndsWell (ts : List Token) : Prop := ∃ xs t, ts = xs ++ [t] ∧ t.Finishes

theorem EndsWell.append (h : EndsWell us) (ts : List Token) : EndsWell (ts ++ us) := by
  obtain ⟨xs, t, rfl, finishes⟩ := h
  exact ⟨ts ++ xs, t, by rw [List.append_assoc], finishes⟩

theorem EndsWell.cons (h : EndsWell us) (t : Token) : EndsWell (t :: us) := h.append [t]

theorem EndsWell.ne_nil (h : EndsWell ts) : ts ≠ [] := by
  obtain ⟨xs, t, rfl, -⟩ := h
  exact List.append_ne_nil_of_right_ne_nil xs (List.cons_ne_nil t [])

theorem endsWell_closing (ts : List Token) : EndsWell (ts ++ [.mark .closing]) := by
  refine ⟨ts, _, rfl, fun m same => ?_, fun name same => ?_⟩
  · exact (Token.mark.inj same).symm
  · cases same

/-- Two operands with an operator between them come apart at one place only. -/
theorem split_between {zs vs : List Token} {t' : Token} (firm : Firm xs) (firm' : Firm ys)
    (balanced : height xs = 0) (flat : t.rise = 0) (operator : ¬t.Finishes)
    (operator' : t' ≠ .mark .opening) (ends : EndsWell zs) (balanced' : height zs = 0)
    (same : xs ++ t :: ys = zs ++ t' :: vs) : zs = xs ∧ t' = t ∧ vs = ys := by
  have stop : ∀ a ∈ (t' :: vs).head?, a ≠ .mark .opening := by
    intro a ha
    cases ha
    exact operator'
  obtain ⟨more, rfl, rest⟩ := firm.extends same ends.ne_nil balanced' stop
  cases more with
  | nil =>
    obtain ⟨here, later⟩ := List.cons.inj rest
    exact ⟨List.append_nil xs, here.symm, later.symm⟩
  | cons a more =>
    obtain ⟨rfl, later⟩ := List.cons.inj rest
    cases more with
    | nil =>
      -- The operator would be the last token of the first operand.
      obtain ⟨ws, b, last, finishes⟩ := ends
      obtain ⟨-, last⟩ := List.append_inj' last rfl
      cases last
      exact absurd finishes operator
    | cons b more =>
      rw [height_append, balanced, height_cons, flat, Int.zero_add, Int.zero_add] at balanced'
      exact absurd (firm' later (List.cons_ne_nil b more) balanced') operator'

end Token

/-! ## What tokens stand for -/

open Token

/-- The tokens that group operands to the left, with what they make of two of them. -/
inductive Token.Joins : Token → Level → (Expr → Expr → Expr) → Prop
  | binary {op : BinaryOp} (plain : op ≠ .pow) :
      Joins (.mark (.binary op)) op.level (.binary op)
  | and {t} (sign : t = .word "and" ∨ t = .mark .ampersands) : Joins t .conjunction .and
  | or {t} (sign : t = .word "or" ∨ t = .mark .bars) : Joins t .disjunction .or
  | connective {f : Builtin} {m : Mark} (marked : f.mark? = some m) :
      Joins (.mark m) .connective fun l r => .call f [l, r]

theorem Token.joins_of_operator? {t : Token} {L : Level} {combine : Expr → Expr → Expr}
    (h : t.operator? = some (L, combine)) : t.Joins L combine := by
  unfold operator? at h
  repeat' split at h
  all_goals cases h
  all_goals try subst_vars
  · exact .connective (f := .implies) rfl
  · exact .connective (f := .iff) rfl
  · exact .connective (f := .xor) rfl
  · exact .connective (f := .nand) rfl
  · exact .connective (f := .nor) rfl
  · exact .or (.inr rfl)
  · exact .and (.inr rfl)
  · exact @Joins.binary .add (by decide)
  · exact @Joins.binary .sub (by decide)
  · exact @Joins.binary .mul (by decide)
  · exact @Joins.binary .div (by decide)
  · exact @Joins.binary .rem (by decide)
  · exact .or (.inl rfl)
  · exact .and (.inl rfl)

namespace Token.Joins

variable {t : Token} {L : Level} {combine : Expr → Expr → Expr}

theorem rise (h : t.Joins L combine) : t.rise = 0 := by
  cases h with
  | binary => rfl
  | and sign | or sign => rcases sign with rfl | rfl <;> rfl
  | @connective f m marked => cases f <;> cases marked <;> rfl

theorem ne_opening (h : t.Joins L combine) : t ≠ .mark .opening := by
  rintro rfl
  exact absurd h.rise (by decide)

theorem ne_comma (h : t.Joins L combine) : t ≠ .mark .comma := by
  rintro rfl
  cases h with
  | and sign | or sign => rcases sign with sign | sign <;> cases sign
  | @connective f m marked => cases f <;> cases marked

theorem ne_compare (h : t.Joins L combine) (op : CompareOp) : t ≠ .mark (.compare op) := by
  rintro rfl
  cases h with
  | and sign | or sign => rcases sign with sign | sign <;> cases sign
  | @connective f m marked => cases f <;> cases marked

end Token.Joins

/-- How parentheses stand in the tokens of a phrase. -/
def Phrase.Balanced (ts : List Token) : Phrase → Prop
  | expr _ _ | pairs _ => Token.Balanced ts
  | arguments _ => ∃ inside, ts = inside ++ [.mark .closing] ∧ Token.Balanced inside

theorem balanced_of_derives {n : Nat} {p : Phrase} {ts : List Token} (h : Derives n p ts) :
    p.Balanced ts := by
  induction h with
  | number | true | false | text | var => exact balanced_single rfl
  | parentheses _ inside => exact inside.enclosed
  | call _ _ inside =>
    obtain ⟨inner, rfl, balanced⟩ := inside
    exact balanced.enclosed.cons rfl
  | power _ _ left right => exact left.between rfl right
  | minus _ inside | plus _ inside => exact inside.cons rfl
  | compare _ _ _ left right => exact left.append right
  | not sign _ inside => rcases sign with rfl | rfl <;> exact inside.cons rfl
  | chain operator _ _ left right => exact left.between (joins_of_operator? operator).rise right
  | tighter _ inside => exact inside
  | noPairs => exact balanced_nil
  | pair _ _ operand more => exact (operand.append more).cons rfl
  | lastArgument _ inside => exact ⟨_, rfl, inside⟩
  | argument _ _ inside more =>
    obtain ⟨inner, rfl, balanced⟩ := more
    exact ⟨_, by rw [← List.cons_append, List.append_assoc], inside.between rfl balanced⟩

/-- How the tokens of a phrase end. -/
def Phrase.EndsWell (ts : List Token) : Phrase → Prop
  | expr _ _ | arguments _ => Token.EndsWell ts
  | pairs rest => rest ≠ [] → Token.EndsWell ts

theorem endsWell_of_derives {n : Nat} {p : Phrase} {ts : List Token} (h : Derives n p ts) :
    p.EndsWell ts := by
  have single : ∀ {t : Token}, t.Finishes → Token.EndsWell [t] := fun h => ⟨[], _, rfl, h⟩
  have reserved : ["and", "or", "not"] ⊆ Literal.reservedWords :=
    List.IsPrefix.subset ⟨["true", "false"], rfl⟩
  induction h with
  | number | text => refine single ⟨fun m same => ?_, fun name same => ?_⟩ <;> cases same
  | true | false => exact single (finishes_word (by decide))
  | var free => exact single (finishes_word fun among => free (reserved among))
  | parentheses => exact (endsWell_closing _).cons _
  | call _ _ inside => exact (inside.cons _).cons _
  | power _ _ _ right => exact (right.cons _).append _
  | minus _ inside | plus _ inside | not _ _ inside => exact inside.cons _
  | compare _ _ some _ right => exact (right some).append _
  | chain _ _ _ _ right => exact (right.cons _).append _
  | tighter _ inside => exact inside
  | noPairs => exact fun some => absurd rfl some
  | @pair _ _ _ rest _ _ _ derives operand more =>
    intro _
    by_cases last : rest = []
    · subst last
      rw [derives.eq_nil, List.append_nil]
      exact operand.cons _
    · exact ((more last).append _).cons _
  | lastArgument => exact endsWell_closing _
  | argument _ _ _ more => exact (more.cons _).append _

/-- What stands on the surface of a phrase: commas only between arguments, and comparisons only
where a comparison may stand. -/
def Phrase.Shows (t : Token) : Phrase → Prop
  | expr L _ => t ≠ .mark .comma ∧
      ∀ op, t = .mark (.compare op) → L.rank ≤ Level.comparison.rank
  | pairs _ => t ≠ .mark .comma
  | arguments _ => True

theorem shows_of_surface {n : Nat} {p : Phrase} {ts : List Token} (h : Derives n p ts) {t : Token}
    (surface : Surface t ts) : p.Shows t := by
  have plain : ∀ {L e a}, t = a → a ≠ .mark .comma → (∀ op, a ≠ .mark (.compare op)) →
      Phrase.Shows t (.expr L e) := by
    rintro L e a rfl comma compare
    exact ⟨comma, fun op same => absurd same (compare op)⟩
  have tight : ∀ {K L e e'}, Level.comparison.rank < K.rank → Phrase.Shows t (.expr K e) →
      Phrase.Shows t (.expr L e') :=
    fun lt shows => ⟨shows.1, fun op same => absurd (shows.2 op same) (Nat.not_le_of_lt lt)⟩
  induction h with
  | number | true | false | text | var => exact plain (surface_single surface) nofun nofun
  | parentheses inside =>
    exact plain (surface_enclosed (balanced_of_derives inside) surface) nofun nofun
  | call _ inside =>
    obtain ⟨inner, rfl, balanced⟩ := balanced_of_derives inside
    rcases surface_cons rfl surface with same | surface
    · exact plain same nofun nofun
    · exact plain (surface_enclosed balanced surface) nofun nofun
  | power left _ ihLeft ihRight =>
    rcases surface_append (balanced_of_derives left).whole surface with surface | surface
    · exact tight (by decide) (ihLeft surface)
    · rcases surface_cons rfl surface with same | surface
      · exact plain same nofun nofun
      · exact tight (by decide) (ihRight surface)
  | minus _ ih | plus _ ih =>
    rcases surface_cons rfl surface with same | surface
    · exact plain same nofun nofun
    · exact tight (by decide) (ih surface)
  | compare left _ _ ihLeft ihRight =>
    refine ⟨?_, fun _ _ => Nat.le_refl _⟩
    rcases surface_append (balanced_of_derives left).whole surface with surface | surface
    · exact (ihLeft surface).1
    · exact ihRight surface
  | not sign _ ih =>
    have flat : ∀ {t : Token}, t.IsNot → t.rise = 0 := by
      rintro _ (rfl | rfl) <;> rfl
    rcases surface_cons (flat sign) surface with same | surface
    · rcases sign with rfl | rfl <;> exact plain same nofun nofun
    · exact ⟨(ih surface).1, fun _ _ => by decide⟩
  | chain operator left _ ihLeft ihRight =>
    have joins := joins_of_operator? operator
    rcases surface_append (balanced_of_derives left).whole surface with surface | surface
    · exact ihLeft surface
    · rcases surface_cons joins.rise surface with same | surface
      · exact plain same joins.ne_comma joins.ne_compare
      · obtain ⟨comma, compare⟩ := ihRight surface
        exact ⟨comma, fun op same => Nat.le_trans (Level.rank_le_tighter _) (compare op same)⟩
  | tighter _ ih =>
    obtain ⟨comma, compare⟩ := ih surface
    exact ⟨comma, fun op same => Nat.le_trans (Level.rank_le_tighter _) (compare op same)⟩
  | noPairs =>
    obtain ⟨xs, ys, same, -⟩ := surface
    cases xs <;> cases same
  | pair operand _ ihOperand ihMore =>
    rcases surface_cons rfl surface with same | surface
    · rw [same]
      nofun
    · rcases surface_append (balanced_of_derives operand).whole surface with surface | surface
      · exact (ihOperand surface).1
      · exact ihMore surface
  | lastArgument | argument => trivial

/-! ## The outermost rule -/

/-- How tokens stand for an expression if they do not stand in parentheses as a whole. -/
inductive Outermost : Expr → List Token → Prop
  | number {text x} (read : Decimal.read text = .ok x) (finite : x.isFinite = true) :
      Outermost (.number x) [.number text]
  | bool {b t} (plain : t ≠ .mark .opening) : Outermost (.bool b) [t]
  | text {s t} (plain : t ≠ .mark .opening) : Outermost (.text s) [t]
  | var {name t} (plain : t ≠ .mark .opening) : Outermost (.var name) [t]
  | call {f args ts n} (inside : Derives n (.arguments args) ts) :
      Outermost (.call f args) (.word f.name :: .mark .opening :: ts)
  | unary {op e t ts L n} (sign : t ≠ .mark .opening) (inside : Derives n (.expr L e) ts) :
      Outermost (.unary op e) (t :: ts)
  | binary {op l r ts us m n} (left : Derives m (.expr op.leftLevel l) ts)
      (right : Derives n (.expr op.rightLevel r) us) :
      Outermost (.binary op l r) (ts ++ .mark (.binary op) :: us)
  | compare {first rest ts us n} (left : Derives n (.expr .sum first) ts)
      (right : Derives n (.pairs rest) us) (some : rest ≠ []) :
      Outermost (.compare first rest) (ts ++ us)
  | and {l r t ts us n} (sign : t = .word "and" ∨ t = .mark .ampersands)
      (left : Derives n (.expr .conjunction l) ts) (right : Derives n (.expr .negation r) us) :
      Outermost (.and l r) (ts ++ t :: us)
  | or {l r t ts us n} (sign : t = .word "or" ∨ t = .mark .bars)
      (left : Derives n (.expr .disjunction l) ts) (right : Derives n (.expr .conjunction r) us) :
      Outermost (.or l r) (ts ++ t :: us)
  | connective {f l r m ts us n} (marked : f.mark? = some m)
      (left : Derives n (.expr .connective l) ts) : Outermost (.call f [l, r]) (ts ++ .mark m :: us)

/-- Tokens that stand for an expression stand in parentheses or come apart. -/
theorem Derives.outermost {n : Nat} {L : Level} {e : Expr} {ts : List Token}
    (h : Derives n (.expr L e) ts) :
    (∃ m inside, ts = enclosed inside ∧ Derives m (.expr .connective e) inside) ∨
      Outermost e ts := by
  generalize hp : Phrase.expr L e = p at h
  induction h generalizing L with
  | number read finite => cases hp; exact .inr (.number read finite)
  | true | false => cases hp; exact .inr (.bool nofun)
  | text => cases hp; exact .inr (.text nofun)
  | var => cases hp; exact .inr (.var nofun)
  | parentheses inside => cases hp; exact .inl ⟨_, _, rfl, inside⟩
  | call _ inside => cases hp; exact .inr (.call inside)
  | power left right =>
    cases hp
    exact .inr (@Outermost.binary .pow _ _ _ _ _ _ left right)
  | minus inside | plus inside => cases hp; exact .inr (.unary nofun inside)
  | compare left right some => cases hp; exact .inr (.compare left right some)
  | not sign inside =>
    cases hp
    refine .inr (.unary ?_ inside)
    rcases sign with rfl | rfl <;> nofun
  | chain operator left right =>
    cases joins_of_operator? operator with
    | @binary op plain =>
      cases hp
      have levels : op.leftLevel = op.level ∧ op.rightLevel = op.level.tighter := by
        cases op <;> first | exact ⟨rfl, rfl⟩ | exact absurd rfl plain
      exact .inr (.binary (levels.1 ▸ left) (levels.2 ▸ right))
    | and sign => cases hp; exact .inr (.and sign left right)
    | or sign => cases hp; exact .inr (.or sign left right)
    | connective marked => cases hp; exact .inr (.connective marked left)
  | tighter _ ih =>
    cases hp
    exact ih rfl
  | noPairs | pair | lastArgument | argument => cases hp

/-! ## Rendered expressions hold together -/

namespace Written

theorem balanced_trailing {rest : List (CompareOp × Written)}
    (h : ∀ p ∈ rest, Balanced p.2.tokens) : Balanced (trailing rest) := by
  induction rest with
  | nil => exact balanced_nil
  | cons p rest ih =>
    obtain ⟨here, later⟩ := List.forall_mem_cons.1 h
    exact (here.append (ih later)).cons rfl

theorem balanced_arguments {ws : List Written} (h : ∀ w ∈ ws, Balanced w.tokens) :
    ∃ inside, arguments ws = inside ++ [.mark .closing] ∧ Balanced inside := by
  induction ws with
  | nil => exact ⟨[], rfl, balanced_nil⟩
  | cons w ws ih =>
    obtain ⟨here, later⟩ := List.forall_mem_cons.1 h
    cases ws with
    | nil => exact ⟨w.tokens, rfl, here⟩
    | cons w' ws =>
      obtain ⟨inside, same, balanced⟩ := ih later
      refine ⟨w.tokens ++ .mark .comma :: inside, ?_, here.between rfl balanced⟩
      rw [arguments, same, List.append_assoc, List.cons_append]
      intro none
      cases none

end Written

namespace Expr

variable {literal : Float → Prop}

theorem shownPairs_eq_map (rest : List (CompareOp × Expr)) :
    shownPairs rest = rest.map fun p => (p.1, p.2.shown) := by
  induction rest with
  | nil => rfl
  | cons p rest ih => rw [shownPairs, ih, List.map_cons]

theorem rise_token (op : UnaryOp) : op.token.rise = 0 := by cases op <;> rfl

theorem balanced_shown {e : Expr} (h : e.WellFormed literal) : Balanced e.shown.tokens := by
  induction h with
  | number | bool | text | var => exact balanced_single rfl
  | unary op _ operand => exact operand.enclosed.cons (rise_token op)
  | binary op _ _ left right => exact (left.between rfl right).enclosed
  | compare _ _ _ left right =>
    rw [shown, shownPairs_eq_map]
    refine (left.append (Written.balanced_trailing ?_)).enclosed
    exact List.forall_mem_map.2 right
  | and _ _ left right | or _ _ left right => exact (left.between rfl right).enclosed
  | call _ _ arguments =>
    obtain ⟨inside, same, balanced⟩ := Written.balanced_arguments (List.forall_mem_map.2 arguments)
    rw [shown, shownAll_eq_map, Written.call, same]
    exact balanced.enclosed.cons rfl

theorem firm_shown {e : Expr} (h : e.WellFormed literal) : Firm e.shown.tokens := by
  cases h with
  | number | bool | text | var => exact firm_single _
  | unary op operand => exact firm_behind (rise_token op) (balanced_shown operand)
  | binary op left right =>
    exact firm_enclosed ((balanced_shown left).between rfl (balanced_shown right))
  | compare _ left right =>
    rw [shown, shownPairs_eq_map]
    refine firm_enclosed ((balanced_shown left).append (Written.balanced_trailing ?_))
    exact List.forall_mem_map.2 fun p hp => balanced_shown (right p hp)
  | and left right | or left right =>
    exact firm_enclosed ((balanced_shown left).between rfl (balanced_shown right))
  | call _ arguments =>
    obtain ⟨inside, same, balanced⟩ := Written.balanced_arguments
      (List.forall_mem_map.2 fun e he => balanced_shown (arguments e he))
    rw [shown, shownAll_eq_map, Written.call, same]
    exact firm_behind rfl balanced

end Expr

/-! ## From the whole to the parts -/

theorem Derives.exists_compare {n : Nat} {rest : List (CompareOp × Expr)} {ts : List Token}
    (h : Derives n (.pairs rest) ts) (some : rest ≠ []) :
    ∃ op more, ts = .mark (.compare op) :: more := by
  cases h with
  | noPairs => exact absurd rfl some
  | pair => exact ⟨_, _, rfl⟩

/-- Nothing comes apart in parentheses. -/
theorem not_outermost_enclosed {e : Expr} {inside : List Token} (balanced : Balanced inside) :
    ¬Outermost e (enclosed inside) := by
  intro h
  generalize same : enclosed inside = ts at h
  have firm : Firm (enclosed inside) := firm_enclosed balanced
  have apart : ∀ {xs t ys}, enclosed inside = xs ++ t :: ys → EndsWell xs → height xs = 0 →
      t ≠ .mark .opening → False :=
    fun same ends flat ne => ne (firm same ends.ne_nil flat)
  cases h with
  | bool plain | text plain | var plain => exact plain (List.cons.inj same).1.symm
  | number | call => cases (List.cons.inj same).1
  | unary sign => exact sign (List.cons.inj same).1.symm
  | binary left =>
    exact apart same (endsWell_of_derives left) (balanced_of_derives left).whole nofun
  | compare left right some =>
    obtain ⟨op, more, rfl⟩ := right.exists_compare some
    exact apart same (endsWell_of_derives left) (balanced_of_derives left).whole nofun
  | and sign left =>
    refine apart same (endsWell_of_derives left) (balanced_of_derives left).whole ?_
    rcases sign with rfl | rfl <;> nofun
  | or sign left =>
    refine apart same (endsWell_of_derives left) (balanced_of_derives left).whole ?_
    rcases sign with rfl | rfl <;> nofun
  | @connective f _ _ m _ _ _ marked left =>
    refine apart same (endsWell_of_derives left) (balanced_of_derives left).whole ?_
    rintro ⟨⟩
    cases f <;> cases marked

/-- Parentheses stand for what is inside of them. -/
theorem derives_inside {n : Nat} {L : Level} {e : Expr} {inside : List Token}
    (h : Derives n (.expr L e) (enclosed inside)) (balanced : Balanced inside) :
    ∃ m, Derives m (.expr .connective e) inside := by
  rcases h.outermost with ⟨m, inside', same, derives⟩ | apart
  · obtain ⟨-, same⟩ := List.cons.inj same
    rw [(List.append_inj' same rfl).1]
    exact ⟨m, derives⟩
  · exact absurd apart (not_outermost_enclosed balanced)

namespace Expr

/-- What is rendered as a negation does not stand where comparisons may not. -/
theorem isNegation_of_derives {n : Nat} {L : Level} {e : Expr}
    (h : Derives n (.expr L e) e.shown.tokens) (tight : Level.comparison.rank ≤ L.rank) :
    e.isNegation = false := by
  obtain ⟨t, more, same, begins⟩ := h.begins
  cases e with
  | unary op e =>
    cases op with
    | minus | plus => rfl
    | not =>
      obtain ⟨rfl, -⟩ := List.cons.inj same
      exact absurd (.inl rfl) (begins.not tight)
  | _ => rfl

/-- What is rendered with a sign or a negation does not stand at the base of a power. -/
theorem isUnary_of_derives {n : Nat} {e : Expr}
    (h : Derives n (.expr .operand e) e.shown.tokens) : e.isUnary = false := by
  obtain ⟨t, more, same, begins⟩ := h.begins
  obtain ⟨sub, add⟩ := begins.sign (by decide)
  cases e with
  | unary op e =>
    obtain ⟨rfl, -⟩ := List.cons.inj same
    cases op with
    | minus => exact absurd rfl sub
    | plus => exact absurd rfl add
    | not => exact absurd (.inl rfl) (begins.not (by decide))
  | _ => rfl

variable {literal : Float → Prop}

theorem shown_ne_nil {e : Expr} : e.shown.tokens ≠ [] := by
  cases e <;> exact List.cons_ne_nil _ _

/-- Behind the first operand, what is in parentheses comes apart. -/
theorem outermost_inside {e l : Expr} (left : l.WellFormed literal) {t : Token} {ys : List Token}
    (balanced : Balanced (l.shown.tokens ++ t :: ys)) (operator : t ≠ .mark .opening) {n : Nat}
    {L : Level} (h : Derives n (.expr L e) (enclosed (l.shown.tokens ++ t :: ys))) :
    Outermost e (l.shown.tokens ++ t :: ys) := by
  obtain ⟨m, inside⟩ := derives_inside h balanced
  rcases inside.outermost with ⟨k, inner, same, derives⟩ | apart
  · have firm : Firm (enclosed inner) := firm_enclosed (balanced_of_derives derives)
    exact absurd (firm same.symm shown_ne_nil (balanced_shown left).whole) operator
  · exact apart

section

variable {l r : Expr} (left : l.WellFormed literal) (right : r.WellFormed literal) {n : Nat}
  {L : Level}
include left right

/-- An operator between two rendered operands is the one that they were put together with. -/
theorem operands_of_split {t t' : Token} {zs vs : List Token} {m : Nat} {e : Expr} {K : Level}
    (derives : Derives m (.expr K e) zs)
    (same : l.shown.tokens ++ t :: r.shown.tokens = zs ++ t' :: vs) (flat : t.rise = 0)
    (operator : ¬t.Finishes) (operator' : t' ≠ .mark .opening) :
    zs = l.shown.tokens ∧ t' = t ∧ vs = r.shown.tokens :=
  split_between (firm_shown left) (firm_shown right) (balanced_shown left).whole flat operator
    operator' (endsWell_of_derives derives) (balanced_of_derives derives).whole same

theorem derives_binary {op : BinaryOp}
    (h : Derives n (.expr L (.binary op l r)) (binary op l r).shown.tokens) :
    ∃ m k, Derives m (.expr op.leftLevel l) l.shown.tokens ∧
      Derives k (.expr op.rightLevel r) r.shown.tokens := by
  have balanced := (balanced_shown left).between (t := .mark (.binary op)) rfl
    (balanced_shown right)
  have apart := outermost_inside left balanced nofun h
  have operator : ¬Finishes (.mark (.binary op)) := fun h => nomatch h.mark _ rfl
  generalize same : l.shown.tokens ++ .mark (.binary op) :: r.shown.tokens = ts at apart
  cases apart with
  | binary first second =>
    obtain ⟨rfl, -, rfl⟩ := operands_of_split left right first same rfl operator nofun
    exact ⟨_, _, first, second⟩

theorem derives_and (h : Derives n (.expr L (.and l r)) (and l r).shown.tokens) :
    ∃ m, Derives m (.expr .conjunction l) l.shown.tokens ∧
      Derives m (.expr .negation r) r.shown.tokens := by
  have balanced := (balanced_shown left).between (t := .word "and") rfl (balanced_shown right)
  have apart := outermost_inside left balanced nofun h
  have operator : ¬Finishes (.word "and") := fun h => h.word _ rfl (by decide)
  generalize same : l.shown.tokens ++ .word "and" :: r.shown.tokens = ts at apart
  cases apart with
  | and sign first second =>
    have operator' := (Joins.and sign).ne_opening
    obtain ⟨rfl, -, rfl⟩ := operands_of_split left right first same rfl operator operator'
    exact ⟨_, first, second⟩

theorem derives_or (h : Derives n (.expr L (.or l r)) (or l r).shown.tokens) :
    ∃ m, Derives m (.expr .disjunction l) l.shown.tokens ∧
      Derives m (.expr .conjunction r) r.shown.tokens := by
  have balanced := (balanced_shown left).between (t := .word "or") rfl (balanced_shown right)
  have apart := outermost_inside left balanced nofun h
  have operator : ¬Finishes (.word "or") := fun h => h.word _ rfl (by decide)
  generalize same : l.shown.tokens ++ .word "or" :: r.shown.tokens = ts at apart
  cases apart with
  | or sign first second =>
    have operator' := (Joins.or sign).ne_opening
    obtain ⟨rfl, -, rfl⟩ := operands_of_split left right first same rfl operator operator'
    exact ⟨_, first, second⟩

end

/-! ### Comparisons -/

/-- What cannot stand on the surface of an expression ends it. -/
theorem ends_of_split {e e' : Expr} (operand : e'.WellFormed literal) {n : Nat} {L : Level}
    {zs us vs : List Token} (first : Derives n (.expr L e) zs)
    (same : e'.shown.tokens ++ us = zs ++ vs) (stop : ∀ t ∈ vs.head?, t ≠ .mark .opening)
    (hidden : ∀ t ∈ us.head?, ¬Phrase.Shows t (.expr L e)) :
    zs = e'.shown.tokens ∧ vs = us := by
  have firm : Firm e'.shown.tokens := firm_shown operand
  obtain ⟨more, rfl, later⟩ := firm.extends same (endsWell_of_derives first).ne_nil
    (balanced_of_derives first).whole stop
  cases more with
  | nil => exact ⟨List.append_nil _, later.symm⟩
  | cons t more =>
    have surface : Surface t (e'.shown.tokens ++ t :: more) :=
      ⟨_, _, rfl, (balanced_shown operand).whole⟩
    have next : t ∈ us.head? := by
      rw [later]
      rfl
    exact absurd (shows_of_surface first surface) (hidden t next)

/-- An operand of a comparison ends where the next comparison sign stands. -/
theorem operand_of_split {e e' : Expr} {rest rest' : List (CompareOp × Expr)}
    (operand : e'.WellFormed literal) {n m : Nat} {zs vs : List Token}
    (first : Derives n (.expr .sum e) zs) (second : Derives m (.pairs rest) vs)
    (same : e'.shown.tokens ++ Written.trailing (shownPairs rest') = zs ++ vs) :
    zs = e'.shown.tokens ∧ vs = Written.trailing (shownPairs rest') := by
  refine ends_of_split operand first same ?_ ?_
  · intro t ht
    rcases second.begins with rfl | ⟨op, more, rfl⟩
    · cases ht
    · cases ht
      nofun
  · intro t ht shows
    cases rest' with
    | nil => cases ht
    | cons p rest' =>
      cases ht
      exact absurd (shows.2 _ rfl) (by decide)

theorem derives_pairs {rest : List (CompareOp × Expr)}
    (h : ∀ p ∈ rest, p.2.WellFormed literal) {n : Nat}
    (derives : Derives n (.pairs rest) (Written.trailing (shownPairs rest))) :
    ∀ p ∈ rest, ∃ m, Derives m (.expr .sum p.2) p.2.shown.tokens := by
  induction rest generalizing n with
  | nil => exact nofun
  | cons p rest ih =>
    obtain ⟨op, e⟩ := p
    obtain ⟨here, later⟩ := List.forall_mem_cons.1 h
    rw [shownPairs, Written.trailing] at derives
    generalize same : e.shown.tokens ++ Written.trailing (shownPairs rest) = ts at derives
    cases derives with
    | pair first second =>
      obtain ⟨rfl, rfl⟩ := operand_of_split here first second same
      exact List.forall_mem_cons.2 ⟨⟨_, first⟩, ih later second⟩

theorem derives_compare {first : Expr} {rest : List (CompareOp × Expr)}
    (left : first.WellFormed literal) (right : ∀ p ∈ rest, p.2.WellFormed literal)
    (some : rest ≠ []) {n : Nat} {L : Level}
    (h : Derives n (.expr L (.compare first rest)) (compare first rest).shown.tokens) :
    (∃ m, Derives m (.expr .sum first) first.shown.tokens) ∧
      ∀ p ∈ rest, ∃ m, Derives m (.expr .sum p.2) p.2.shown.tokens := by
  have trailing : Balanced (Written.trailing (shownPairs rest)) := by
    rw [shownPairs_eq_map]
    refine Written.balanced_trailing (List.forall_mem_map.2 fun p hp => ?_)
    exact balanced_shown (right p hp)
  have balanced := (balanced_shown left).append trailing
  obtain ⟨⟨op, e⟩, rest', rfl⟩ := List.exists_cons_of_ne_nil some
  have apart : Outermost (.compare first ((op, e) :: rest'))
      (first.shown.tokens ++ Written.trailing (shownPairs ((op, e) :: rest'))) :=
    outermost_inside left balanced nofun h
  generalize same : first.shown.tokens ++ Written.trailing (shownPairs ((op, e) :: rest')) = ts
    at apart
  cases apart with
  | compare operand more =>
    obtain ⟨rfl, rfl⟩ := operand_of_split left operand more same
    exact ⟨⟨_, operand⟩, derives_pairs right more⟩

/-! ### Calls -/

theorem derives_arguments {args : List Expr} (h : ∀ e ∈ args, e.WellFormed literal) {n : Nat}
    (derives : Derives n (.arguments args) (Written.arguments (shownAll args))) :
    ∀ e ∈ args, ∃ m, Derives m (.expr .connective e) e.shown.tokens := by
  induction args generalizing n with
  | nil => exact nofun
  | cons e args ih =>
    obtain ⟨here, later⟩ := List.forall_mem_cons.1 h
    cases args with
    | nil =>
      generalize same : Written.arguments (shownAll [e]) = ts at derives
      cases derives with
      | lastArgument inside =>
        obtain ⟨rfl, -⟩ := List.append_inj' same rfl
        exact List.forall_mem_cons.2 ⟨⟨_, inside⟩, nofun⟩
      | argument _ more => cases more
    | cons e' args =>
      generalize same : Written.arguments (shownAll (e :: e' :: args)) = ts at derives
      cases derives with
      | @argument _ _ _ ts us inside more =>
        have same : e.shown.tokens ++ .mark .comma :: Written.arguments (shownAll (e' :: args)) =
          ts ++ .mark .comma :: us := same
        have stop : ∀ t ∈ (Token.mark .comma :: us).head?, t ≠ .mark .opening := by
          rintro t ⟨⟩
          nofun
        have hidden : ∀ us : List Token, ∀ t ∈ (Token.mark .comma :: us).head?,
            ¬Phrase.Shows t (.expr .connective e) := by
          rintro us t ⟨⟩ shows
          exact shows.1 rfl
        obtain ⟨rfl, split⟩ := ends_of_split here inside same stop (hidden _)
        obtain ⟨-, rfl⟩ := List.cons.inj split
        exact List.forall_mem_cons.2 ⟨⟨_, inside⟩, ih later more⟩

theorem derives_call {f : Builtin} {args : List Expr} (takes : f.accepts args.length = true)
    (h : ∀ e ∈ args, e.WellFormed literal) {n : Nat} {L : Level}
    (derives : Derives n (.expr L (.call f args)) (call f args).shown.tokens) :
    ∀ e ∈ args, ∃ m, Derives m (.expr .connective e) e.shown.tokens := by
  have firm : Firm (call f args).shown.tokens := firm_shown (.call takes h)
  rcases derives.outermost with ⟨_, inside, same, -⟩ | apart
  · cases (List.cons.inj same).1
  · generalize same : (call f args).shown.tokens = ts at apart
    cases apart with
    | call inside =>
      obtain ⟨-, rest⟩ := List.cons.inj same
      obtain ⟨-, rfl⟩ := List.cons.inj rest
      exact derives_arguments h inside
    | @connective _ _ _ m _ _ _ marked left =>
      have opens := firm same (endsWell_of_derives left).ne_nil (balanced_of_derives left).whole
      exact absurd opens (Joins.connective marked).ne_opening

theorem derives_unary {op : UnaryOp} {e : Expr} (h : e.WellFormed literal) {n : Nat} {L : Level}
    (derives : Derives n (.expr L (.unary op e)) (unary op e).shown.tokens) :
    ∃ m, Derives m (.expr .connective e) e.shown.tokens := by
  rcases derives.outermost with ⟨_, inside, same, -⟩ | apart
  · cases op <;> cases (List.cons.inj same).1
  · generalize same : (unary op e).shown.tokens = ts at apart
    cases apart with
    | unary _ inside =>
      obtain ⟨-, rfl⟩ := List.cons.inj same
      exact derives_inside inside (balanced_shown h)

/-! ### All parts -/

/-- If the tokens of a rendered expression stand for the expression, no part of it can be
mistaken. -/
theorem unmistakable_of_derives {e : Expr} (h : e.WellFormed literal)
    (quotable : ∀ p ∈ e.parts, p.Quotable) {n : Nat} {L : Level}
    (derives : Derives n (.expr L e) e.shown.tokens) : ∀ p ∈ e.parts, p.Unmistakable := by
  induction h generalizing n L with
  | number | bool | var => exact List.forall_mem_cons.2 ⟨trivial, nofun⟩
  | text => exact List.forall_mem_cons.2 ⟨quotable _ (List.mem_singleton_self _), nofun⟩
  | unary op operand ih =>
    obtain ⟨m, inside⟩ := derives_unary operand derives
    exact forall_parts_unary.2 ⟨trivial, ih (forall_parts_unary.1 quotable).2 inside⟩
  | binary op left right ihLeft ihRight =>
    obtain ⟨-, inLeft, inRight⟩ := forall_parts_binary.1 quotable
    obtain ⟨m, k, first, second⟩ := derives_binary left right derives
    refine forall_parts_binary.2 ⟨⟨?_, ?_, ?_⟩, ihLeft inLeft first, ihRight inRight second⟩
    · exact isNegation_of_derives first (by cases op <;> decide)
    · exact isNegation_of_derives second (by cases op <;> decide)
    · rintro rfl
      exact isUnary_of_derives first
  | compare some left right ihLeft ihRight =>
    obtain ⟨-, inFirst, inRest⟩ := forall_parts_compare.1 quotable
    obtain ⟨⟨m, first⟩, later⟩ := derives_compare left right some derives
    refine forall_parts_compare.2 ⟨⟨isNegation_of_derives first (by decide), fun p hp => ?_⟩,
      ihLeft inFirst first, fun p hp => ?_⟩
    · obtain ⟨k, operand⟩ := later p hp
      exact isNegation_of_derives operand (by decide)
    · obtain ⟨k, operand⟩ := later p hp
      exact ihRight p hp (inRest p hp) operand
  | and left right ihLeft ihRight =>
    obtain ⟨-, inLeft, inRight⟩ := forall_parts_and.1 quotable
    obtain ⟨m, first, second⟩ := derives_and left right derives
    exact forall_parts_and.2 ⟨trivial, ihLeft inLeft first, ihRight inRight second⟩
  | or left right ihLeft ihRight =>
    obtain ⟨-, inLeft, inRight⟩ := forall_parts_or.1 quotable
    obtain ⟨m, first, second⟩ := derives_or left right derives
    exact forall_parts_or.2 ⟨trivial, ihLeft inLeft first, ihRight inRight second⟩
  | call takes arguments ih =>
    obtain ⟨-, inArguments⟩ := forall_parts_call.1 quotable
    have operands := derives_call takes arguments derives
    refine forall_parts_call.2 ⟨trivial, fun e he => ?_⟩
    obtain ⟨m, operand⟩ := operands e he
    exact ih e he (inArguments e he) operand

end Expr

end Stratagem
