import Stratagem.Proofs.Chains
import Stratagem.Proofs.Decimal.Unsigned
import Stratagem.Proofs.Formula.NextToken

/-!
# Only the language is read

What the readers of the grammar accept is in the language: the tokens between the cursor before and
the cursor after stand for the expression that is read (`Grammar.Spells`). Each reader is followed
once, and the levels are tied together by induction on the nesting (`obeys_nested`). So the tokens
of every text that is read stand for its expression (`derives_of_parse`).
-/

namespace Stratagem

namespace Grammar

open Token

/-- The text between two cursors spells a phrase, and as many parts are open after it as before. -/
structure Spells (c : Cursor) (p : Phrase) (c' : Cursor) : Prop where
  depth : c'.depth = c.depth
  derives : ∃ ts, solid c.rest = ts ++ solid c'.rest ∧ Derives (maxNesting - c.depth) p ts

/-- A reader reads expressions of a level. -/
def Obeys (reader : Parse Expr) (L : Level) : Prop :=
  ∀ c e c', reader c = .ok (e, c') → Spells c (.expr L e) c'

/-- The readers of nested parts read expressions of their levels. -/
structure Inner.Obeys (inner : Inner) : Prop where
  connective : Grammar.Obeys inner.connective .connective
  negation : Grammar.Obeys inner.negation .negation
  signed : Grammar.Obeys inner.signed .signed

variable {c c' c₁ c₂ : Cursor} {p : Phrase} {t : Token} {L : Level} {e : Expr}

namespace Spells

theorem of_skipBlanks (h : Spells c.skipBlanks p c') : Spells c p c' :=
  ⟨h.depth, by simpa using h.derives⟩

theorem skipBlanks (h : Spells c p c') : Spells c p c'.skipBlanks :=
  ⟨h.depth, by simpa using h.derives⟩

theorem tighter (h : Spells c (.expr L.tighter e) c') : Spells c (.expr L e) c' := by
  obtain ⟨ts, read, derives⟩ := h.derives
  exact ⟨h.depth, ts, read, .tighter derives⟩

/-- A phrase of one token, with any cursor that has the same text left. -/
theorem of_next (next : c.Next t) (rest : c'.rest = (c.pass t).rest) (depth : c'.depth = c.depth)
    (derives : Derives (maxNesting - c.depth) p [t]) : Spells c p c' := by
  refine ⟨depth, [t], ?_, derives⟩
  rw [Cursor.solid_of_next next, rest]
  rfl

end Spells

/-! ## Nested parts -/

/-- Inside a nested part, one part less may be opened. -/
theorem enter_eq_ok (h : c.enter = .ok c₁) :
    c₁.rest = c.rest ∧ c₁.depth = c.depth + 1 ∧
      maxNesting - c.depth = maxNesting - c₁.depth + 1 := by
  unfold Cursor.enter at h
  split at h
  · cases h
    refine ⟨rfl, rfl, ?_⟩
    dsimp only
    omega
  · cases h

/-- A part that lies one step deeper. -/
theorem Spells.inside (h : Spells c₁ p c₂) (enters : c.enter = .ok c₁) :
    ∃ n ts, maxNesting - c.depth = n + 1 ∧ c₂.depth = c.depth + 1 ∧
      solid c.rest = ts ++ solid c₂.rest ∧ Derives n p ts := by
  obtain ⟨rest, depth, less⟩ := enter_eq_ok enters
  obtain ⟨ts, read, derives⟩ := h.derives
  rw [rest] at read
  exact ⟨_, ts, less, h.depth.trans depth, read, derives⟩

/-! ## Chains -/

theorem obeys_chainLoop {operand : Parse Expr} {operator : Operator}
    (obeys : Obeys operand L.tighter) (reads : operator.Reads L) (budget : Nat) {start : Cursor}
    {left : Expr} (sofar : Spells start (.expr L left) c)
    (h : chainLoop operand operator budget left c = .ok (e, c')) : Spells start (.expr L e) c' := by
  induction budget generalizing left c with
  | zero =>
    cases h
    exact sofar.skipBlanks
  | succ budget ih =>
    simp only [chainLoop] at h
    split at h
    · cases h
      exact sofar.skipBlanks
    · rename_i combine c₁ found
      obtain ⟨t, next, rfl, operator⟩ := (reads _ _ _).1 found
      obtain ⟨⟨right, c₂⟩, hright, h⟩ := bind_eq_ok.1 h
      have more := obeys _ _ _ hright
      obtain ⟨ts, read, hleft⟩ := sofar.derives
      obtain ⟨us, read', hright⟩ := more.derives
      refine ih ⟨more.depth.trans sofar.depth, ts ++ t :: us, ?_, ?_⟩ h
      · rw [read, Cursor.solid_of_next next, read', List.append_assoc, List.cons_append]
      · rw [Cursor.pass_depth, sofar.depth] at hright
        exact .chain operator hleft hright

theorem obeys_chain {operand : Parse Expr} {operator : Operator} (obeys : Obeys operand L.tighter)
    (reads : operator.Reads L) : Obeys (chain operand operator) L := by
  intro c e c' h
  obtain ⟨⟨first, c₁⟩, hfirst, h⟩ := bind_eq_ok.1 h
  exact obeys_chainLoop obeys reads _ (obeys _ _ _ hfirst).tighter h

/-! ## Literals -/

theorem spells_number {x : Char} {r : List Char} (hrest : c.skipBlanks.rest = x :: r)
    (start : x.isDigit ∨ x = '.' ∧ r.head?.any Char.isDigit)
    (h : Literal.number c.skipBlanks = .ok (e, c')) : Spells c (.expr .operand e) c' := by
  unfold Literal.number at h
  dsimp only at h
  split at h
  · cases h
  · rename_i exponent hexponent
    have numeral : Literal.numeral? (x :: r) =
        some (Literal.mantissa c.skipBlanks.rest ++ exponent) := by
      rw [Literal.numeral?, ← hrest]
      exact Option.map_eq_some_iff.2 ⟨_, hexponent, rfl⟩
    generalize Literal.mantissa c.skipBlanks.rest = digits at h hexponent numeral
    have next : c.Next (.number (String.ofList (digits ++ exponent))) :=
      ⟨x, r, hrest, first_of_numeral start numeral⟩
    split at h
    · cases h
    · rename_i value hvalue
      split at h
      · rename_i finite
        cases h
        have plain : (String.ofList (digits ++ exponent)).toList.head? ≠ some '-' := by
          obtain ⟨rest, hstarts⟩ := Literal.numeral?_starts numeral
          rw [String.toList_ofList]
          intro minus
          obtain ⟨more, hmore⟩ := List.head?_eq_some_iff.1 minus
          rw [hmore] at hstarts
          cases hstarts
          rcases start with digit | ⟨point, -⟩
          · cases digit
          · cases point
        refine .of_next next ?_ rfl (.number hvalue finite ?_)
        · simp only [Cursor.after, Cursor.pass, spelling, String.toList_ofList, List.drop_drop,
            List.length_append]
        · exact Decimal.zero_le_of_read hvalue plain finite
      · cases h

theorem spells_quoted {x : Char} {r : List Char} (hrest : c.skipBlanks.rest = x :: r)
    (quote : x = '"' ∨ x = '\'') (h : Literal.quoted x c.skipBlanks = .ok (e, c')) :
    Spells c (.expr .operand e) c' := by
  have inside : (c.skipBlanks.skip 1).rest = r := by rw [Cursor.skip_rest, hrest]; rfl
  unfold Literal.quoted at h
  dsimp only at h
  rw [inside] at h
  split at h
  · cases h
  · rename_i closed
    rw [Cursor.after, inside] at closed
    have closed : x ∈ r := mem_of_drop_takeWhile_ne fun none => closed (by rw [none]; rfl)
    cases h
    refine .of_next ⟨x, r, hrest, first_of_quote quote closed⟩ ?_ rfl .text
    rw [Cursor.skip_rest, Cursor.after, inside, Cursor.pass, Cursor.after, hrest]
    simp [spelling, List.drop_drop]

/-- A name is the next token. -/
theorem next_of_name {name : String} (h : Literal.name c.skipBlanks = .ok (name, c')) :
    c.Next (.word name) ∧ c' = c.pass (.word name) := by
  unfold Literal.name at h
  split at h
  · rename_i start
    cases h
    refine ⟨Cursor.next_word_iff.2 ⟨start, String.toList_ofList.symm⟩, ?_⟩
    rw [Cursor.pass, spelling, String.toList_ofList]
  · cases h

/-- A mark that must come next is the next token. -/
theorem next_of_expect {m : Mark} {x : Char} (single : m.chars = [x])
    (sure : ∀ r, Mark.first? (x :: r) = some m) (h : c.expect x = .ok c') :
    c.Next (.mark m) ∧ c' = c.pass (.mark m) := by
  unfold Cursor.expect at h
  dsimp only at h
  split at h
  · rename_i head
    cases h
    exact mark_of_head single sure head
  · cases h

/-! ## Levels -/

section

variable {inner : Inner} (obeys : inner.Obeys)
include obeys

theorem spells_parenthesized (head : c.skipBlanks.rest.head? = some '(')
    (h : parenthesized inner c.skipBlanks = .ok (e, c')) : Spells c (.expr .operand e) c' := by
  obtain ⟨next, passes⟩ := @mark_of_head c .opening _ rfl (fun _ => rfl) head
  obtain ⟨c₁, enters, h⟩ := bind_eq_ok.1 h
  obtain ⟨⟨e₁, c₂⟩, he, h⟩ := bind_eq_ok.1 h
  obtain ⟨c₃, closes, h⟩ := bind_eq_ok.1 h
  cases h
  rw [passes] at enters
  obtain ⟨close, rfl⟩ := @next_of_expect c₂ _ .closing _ rfl (fun _ => rfl) closes
  obtain ⟨n, ts, deep, depth, read, derives⟩ := (obeys.connective _ _ _ he).inside enters
  refine ⟨?_, .mark .opening :: (ts ++ [.mark .closing]), ?_, ?_⟩
  · simp [Cursor.leave, depth]
  · rw [Cursor.solid_of_next next, read, Cursor.solid_of_next close]
    simp [Cursor.leave]
  · rw [Cursor.pass_depth] at deep
    rw [deep]
    exact .parentheses derives

/-- Arguments up to the closing parenthesis. -/
theorem spells_argumentLoop (budget : Nat) {read args : List Expr}
    (h : argumentLoop inner budget read c = .ok (args, c')) :
    ∃ more, args = read.reverse ++ more ∧ Spells c (.arguments more) c' := by
  induction budget generalizing c read with
  | zero => cases h
  | succ budget ih =>
    obtain ⟨⟨e, c₁⟩, he, h⟩ := bind_eq_ok.1 h
    obtain ⟨depth, ts, hts, derives⟩ := obeys.connective _ _ _ he
    simp only at h
    split at h
    · rename_i head
      obtain ⟨next, passes⟩ := @mark_of_head c₁ .closing _ rfl (fun _ => rfl) head
      cases h
      refine ⟨[e], List.reverse_cons, ?_, ts ++ [.mark .closing], ?_, .lastArgument derives⟩
      · rw [passes]
        exact depth
      · rw [hts, Cursor.solid_of_next next, passes, List.append_assoc]
        rfl
    · obtain ⟨c₂, comma, h⟩ := bind_eq_ok.1 h
      obtain ⟨next, rfl⟩ := @next_of_expect c₁.skipBlanks _ .comma _ rfl (fun _ => rfl) comma
      obtain ⟨more, rfl, depth', us, hus, derives'⟩ := ih h
      refine ⟨e :: more, by simp, depth'.trans depth, ts ++ .mark .comma :: us, ?_, ?_⟩
      · rw [hts, ← Cursor.solid_skipBlanks c₁, Cursor.solid_of_next next, hus, List.append_assoc,
          List.cons_append]
      · refine .argument derives ?_
        rw [← depth]
        exact derives'

theorem spells_arguments {args : List Expr} (some : args ≠ [])
    (h : arguments inner c = .ok (args, c')) : Spells c (.arguments args) c' := by
  simp only [arguments] at h
  split at h
  · cases h
    exact absurd rfl some
  · obtain ⟨more, rfl, spells⟩ := spells_argumentLoop obeys _ h
    exact spells.of_skipBlanks

theorem spells_call {origin start : Cursor} {name : String} (word : start.Next (.word name))
    (head : (start.pass (.word name)).skipBlanks.rest.head? = some '(')
    (h : call inner origin name (start.pass (.word name)).skipBlanks = .ok (e, c')) :
    Spells start (.expr .operand e) c' := by
  obtain ⟨next, passes⟩ := @mark_of_head _ .opening _ rfl (fun _ => rfl) head
  unfold call at h
  split at h
  · cases h
  · rename_i f found
    obtain ⟨c₁, enters, h⟩ := bind_eq_ok.1 h
    obtain ⟨⟨args, c₂⟩, hargs, h⟩ := bind_eq_ok.1 h
    simp only at h
    split at h
    · rename_i takes
      cases h
      rw [passes] at enters
      have some : args ≠ [] := by
        rintro rfl
        cases f <;> cases takes
      obtain ⟨n, ts, deep, depth, read, derives⟩ :=
        (spells_arguments obeys some hargs).inside enters
      have same : f.name = name := by simpa using List.find?_some found
      refine ⟨?_, .word name :: .mark .opening :: ts, ?_, ?_⟩
      · simp [Cursor.leave, depth]
      · rw [Cursor.solid_of_next word, Cursor.solid_of_next next, read]
        rfl
      · rw [Cursor.pass_depth, Cursor.pass_depth] at deep
        rw [deep, ← same]
        exact .call takes derives
    · cases h

theorem spells_named (h : named inner c.skipBlanks = .ok (e, c')) :
    Spells c (.expr .operand e) c' := by
  obtain ⟨⟨name, c₁⟩, hname, h⟩ := bind_eq_ok.1 h
  obtain ⟨word, rfl⟩ := next_of_name hname
  simp only at h
  split at h
  · rename_i same
    cases h
    exact .of_next word rfl rfl (same ▸ .true)
  · rename_i notTrue
    split at h
    · rename_i same
      cases h
      exact .of_next word rfl rfl (same ▸ .false)
    · rename_i notFalse
      split at h
      · cases h
      · rename_i notKeyword
        split at h
        · rename_i head
          exact spells_call obeys word head h
        · cases h
          refine (Spells.of_next word rfl rfl (.var ?_)).skipBlanks
          simp_all [Literal.reservedWords]

theorem obeys_primary : Grammar.Obeys (primary inner) .operand := by
  intro c e c' h
  simp only [primary] at h
  split at h
  · cases h
  · rename_i first more hrest
    split at h
    · rename_i digit
      exact spells_number hrest (.inl digit) h
    · split at h
      · rename_i point
        split at h
        · rename_i digit
          exact spells_number hrest (.inr ⟨point, digit⟩) h
        · cases h
      · split at h
        · rename_i opening
          exact spells_parenthesized obeys (by rw [hrest, opening]; rfl) h
        · split at h
          · rename_i quote
            exact spells_quoted hrest quote h
          · split at h
            · exact spells_named obeys h
            · cases h

theorem obeys_operand : Grammar.Obeys (operand inner) .operand := by
  intro c e c' h
  obtain ⟨⟨e₁, c₁⟩, he, h⟩ := bind_eq_ok.1 h
  simp only at h
  split at h
  · cases h
  · cases h
  · cases h
  · cases h
    exact (obeys_primary obeys _ _ _ he).skipBlanks

theorem obeys_power : Grammar.Obeys (power inner) .power := by
  intro c e c' h
  obtain ⟨⟨base, c₁⟩, hbase, h⟩ := bind_eq_ok.1 h
  have left := obeys_operand obeys _ _ _ hbase
  simp only at h
  split at h
  · cases h
    exact (left.skipBlanks).tighter
  · rename_i c₂ found
    obtain ⟨next, rfl⟩ := (@Cursor.take?_iff _ _ (.binary .pow) "**" rfl fun _ _ => rfl).1 found
    obtain ⟨c₃, enters, h⟩ := bind_eq_ok.1 h
    obtain ⟨⟨exponent, c₄⟩, hexponent, h⟩ := bind_eq_ok.1 h
    cases h
    obtain ⟨n, us, deep, depth, read, right⟩ := (obeys.signed _ _ _ hexponent).inside enters
    obtain ⟨depth', ts, read', left⟩ := left
    refine ⟨?_, ts ++ .mark (.binary .pow) :: us, ?_, ?_⟩
    · simp [Cursor.leave, depth, depth']
    · rw [read', Cursor.solid_of_next next, read, List.append_assoc]
      rfl
    · rw [Cursor.pass_depth, depth'] at deep
      rw [deep] at left ⊢
      exact .power left right

/-- A sign with the signed expression behind it. -/
theorem spells_sign {op : UnaryOp} (next : c.Next t)
    (rule : ∀ n e ts, Derives n (.expr .signed e) ts →
      Derives (n + 1) (.expr .signed (.unary op e)) (t :: ts))
    (enters : (c.pass t).enter = .ok c₁) (h : inner.signed c₁ = .ok (e, c₂)) :
    Spells c (.expr .signed (.unary op e)) c₂.leave := by
  obtain ⟨n, ts, deep, depth, read, derives⟩ := (obeys.signed _ _ _ h).inside enters
  refine ⟨?_, t :: ts, ?_, ?_⟩
  · simp [Cursor.leave, depth]
  · rw [Cursor.solid_of_next next, read]
    rfl
  · rw [Cursor.pass_depth] at deep
    rw [deep]
    exact rule _ _ _ derives

theorem obeys_signed : Grammar.Obeys (signed inner) .signed := by
  intro c e c' h
  simp only [signed] at h
  split at h
  · rename_i head
    obtain ⟨next, passes⟩ := @mark_of_head c (.binary .sub) _ rfl (fun _ => rfl) head
    obtain ⟨c₁, enters, h⟩ := bind_eq_ok.1 h
    obtain ⟨⟨e₁, c₂⟩, he, h⟩ := bind_eq_ok.1 h
    cases h
    rw [passes] at enters
    exact spells_sign obeys next (fun _ _ _ => .minus) enters he
  · rename_i head
    obtain ⟨next, passes⟩ := @mark_of_head c (.binary .add) _ rfl (fun _ => rfl) head
    obtain ⟨c₁, enters, h⟩ := bind_eq_ok.1 h
    obtain ⟨⟨e₁, c₂⟩, he, h⟩ := bind_eq_ok.1 h
    cases h
    rw [passes] at enters
    exact spells_sign obeys next (fun _ _ _ => .plus) enters he
  · exact ((obeys_power obeys _ _ _ h).tighter).of_skipBlanks

theorem obeys_product : Grammar.Obeys (product inner) .product :=
  obeys_chain (obeys_signed obeys) reads_productOperator

theorem obeys_sum : Grammar.Obeys (sum inner) .sum :=
  obeys_chain (obeys_product obeys) reads_sumOperator

/-- The later operands of a comparison. -/
theorem spells_comparisonLoop (budget : Nat) {read all : List (CompareOp × Expr)}
    (h : comparisonLoop inner budget read c = .ok (all, c')) :
    ∃ rest, all = read.reverse ++ rest ∧ Spells c (.pairs rest) c' := by
  induction budget generalizing c read with
  | zero =>
    cases h
    exact ⟨[], by simp, .skipBlanks ⟨rfl, [], rfl, .noPairs⟩⟩
  | succ budget ih =>
    obtain ⟨found, hfound, h⟩ := bind_eq_ok.1 h
    cases found with
    | none =>
      cases h
      exact ⟨[], by simp, .skipBlanks ⟨rfl, [], rfl, .noPairs⟩⟩
    | some pair =>
      obtain ⟨op, c₁⟩ := pair
      obtain ⟨next, rfl⟩ := next_of_comparisonOperator hfound
      obtain ⟨⟨e, c₂⟩, he, h⟩ := bind_eq_ok.1 h
      obtain ⟨depth, ts, hts, derives⟩ := obeys_sum obeys _ _ _ he
      obtain ⟨rest, rfl, depth', us, hus, derives'⟩ := ih h
      refine ⟨(op, e) :: rest, by simp, depth'.trans depth,
        .mark (.compare op) :: (ts ++ us), ?_, .pair derives ?_⟩
      · rw [Cursor.solid_of_next next, hts, hus, List.cons_append, List.append_assoc]
      · rw [depth] at derives'
        exact derives'

theorem obeys_comparison : Grammar.Obeys (comparison inner) .comparison := by
  intro c e c' h
  obtain ⟨⟨first, c₁⟩, hfirst, h⟩ := bind_eq_ok.1 h
  obtain ⟨⟨rest, c₂⟩, hrest, h⟩ := bind_eq_ok.1 h
  have left := obeys_sum obeys _ _ _ hfirst
  obtain ⟨_, rfl, right⟩ := spells_comparisonLoop obeys _ hrest
  obtain ⟨depth, ts, hts, derives⟩ := left
  obtain ⟨depth', us, hus, derives'⟩ := right
  rw [depth] at derives'
  change (if rest.isEmpty then pure (first, c₂) else pure (.compare first rest, c₂)) = _ at h
  split at h
  · rename_i none
    cases h
    rw [List.isEmpty_iff.1 none] at derives'
    rw [derives'.eq_nil] at hus
    exact ⟨depth'.trans depth, ts, by rw [hts, hus]; rfl, .tighter derives⟩
  · rename_i some
    cases h
    refine ⟨depth'.trans depth, ts ++ us, ?_, .compare derives derives' ?_⟩
    · rw [hts, hus, List.append_assoc]
    · rintro rfl
      exact some rfl

theorem obeys_negation : Grammar.Obeys (negation inner) .negation := by
  intro c e c' h
  simp only [negation] at h
  split at h
  · exact ((obeys_comparison obeys _ _ _ h).tighter).of_skipBlanks
  · rename_i c₁ found
    obtain ⟨t, sign, next, rfl⟩ := reads_notOperator.1 found
    obtain ⟨c₂, enters, h⟩ := bind_eq_ok.1 h
    obtain ⟨⟨e₁, c₃⟩, he, h⟩ := bind_eq_ok.1 h
    cases h
    obtain ⟨n, ts, deep, depth, read, derives⟩ := (obeys.negation _ _ _ he).inside enters
    refine ⟨?_, t :: ts, ?_, ?_⟩
    · simp [Cursor.leave, depth]
    · rw [Cursor.solid_of_next next, read]
      rfl
    · rw [Cursor.pass_depth] at deep
      rw [deep]
      exact .not sign derives

theorem obeys_conjunction : Grammar.Obeys (conjunction inner) .conjunction :=
  obeys_chain (obeys_negation obeys) reads_andOperator

theorem obeys_disjunction : Grammar.Obeys (disjunction inner) .disjunction :=
  obeys_chain (obeys_conjunction obeys) reads_orOperator

theorem obeys_connective : Grammar.Obeys (connective inner) .connective :=
  obeys_chain (obeys_disjunction obeys) reads_connectiveOperator

end

/-! ## Whole expressions -/

theorem obeys_nested (depth : Nat) : (nested depth).Obeys := by
  induction depth with
  | zero =>
    refine ⟨?_, ?_, ?_⟩ <;>
    · intro c e c' h
      cases h
  | succ depth ih => exact ⟨obeys_connective ih, obeys_negation ih, obeys_signed ih⟩

/-- Nothing but blanks follows an expression. -/
theorem solid_of_finish {u : Unit} (h : finish c = .ok u) : solid c.rest = [] := by
  unfold finish at h
  dsimp only at h
  split at h
  · rename_i none
    rw [← Cursor.solid_skipBlanks, List.isEmpty_iff.1 none]
    rfl
  · split at h <;> cases h

/-- The tokens of a text that is read stand for its expression. -/
theorem derives_of_parse {source : String} (h : Expr.parse source = .ok e) :
    Derives maxNesting (.expr .connective e) (solid source.toList) := by
  obtain ⟨_, -, h⟩ := bind_eq_ok.1 h
  obtain ⟨⟨e₁, c⟩, he, h⟩ := bind_eq_ok.1 h
  obtain ⟨_, finished, h⟩ := bind_eq_ok.1 h
  cases h
  obtain ⟨-, ts, hts, derives⟩ := (obeys_nested _).connective _ _ _ he
  rw [solid_of_finish finished, List.append_nil] at hts
  exact hts ▸ derives

end Grammar

end Stratagem
