import Stratagem.Proofs.Formula.Soundness

/-!
# All of the language is read

A text whose tokens stand for an expression is read as that expression, if it is short enough and
does not nest too deeply (`parse_of_derives`). Together with soundness this says which texts are
expressions, and of what (`parse_eq_ok_iff`).

The proof follows a derivation. What comes behind an expression of a level must end it
(`Ends`), since the readers take as much as they can. A chain is read from the left, and so the
derivation of a chain says where the loop stands after some of its operands (`Comes`).
-/

namespace Stratagem

namespace Level

/-- The level of an operator is that of its table. -/
theorem level?_of_operator? {t : Token} {L : Level} {combine : Expr → Expr → Expr}
    (h : t.operator? = some (L, combine)) : t.level? = some L := by
  unfold Token.level?
  split
  · cases h
  · cases h
  · rw [h]
    rfl

/-- No operator stands between operands of these levels. -/
theorem ne_of_level? {t : Token} {L : Level} (h : t.level? = some L) :
    L ≠ .negation ∧ L ≠ .signed ∧ L ≠ .operand := by
  unfold Token.level? at h
  split at h
  · cases h
    decide
  · cases h
    decide
  · obtain ⟨⟨K, combine⟩, operator, rfl⟩ := Option.map_eq_some_iff.1 h
    unfold Token.operator? at operator
    repeat' split at operator
    all_goals cases operator <;> decide

/-- The reader of a level. -/
def reader (inner : Grammar.Inner) : Level → Parse Expr
  | connective => Grammar.connective inner
  | disjunction => Grammar.disjunction inner
  | conjunction => Grammar.conjunction inner
  | negation => Grammar.negation inner
  | comparison => Grammar.comparison inner
  | sum => Grammar.sum inner
  | product => Grammar.product inner
  | signed => Grammar.signed inner
  | power => Grammar.power inner
  | operand => Grammar.operand inner

/-- The operators of a level whose expressions are chains. -/
def chainOperator? : Level → Option Grammar.Operator
  | connective => some Grammar.connectiveOperator
  | disjunction => some Grammar.orOperator
  | conjunction => some Grammar.andOperator
  | sum => some Grammar.sumOperator
  | product => some Grammar.productOperator
  | negation | comparison | signed | power | operand => none

variable {L : Level} {operator : Grammar.Operator}

theorem reads_of_chainOperator? (h : L.chainOperator? = some operator) : operator.Reads L := by
  cases L <;> cases h
  · exact Grammar.reads_connectiveOperator
  · exact Grammar.reads_orOperator
  · exact Grammar.reads_andOperator
  · exact Grammar.reads_sumOperator
  · exact Grammar.reads_productOperator

theorem reader_of_chainOperator? (h : L.chainOperator? = some operator) (inner : Grammar.Inner) :
    L.reader inner = Grammar.chain (L.tighter.reader inner) operator := by
  cases L <;> cases h <;> rfl

theorem rank_lt_of_chainOperator? (h : L.chainOperator? = some operator) :
    L.rank < L.tighter.rank := by
  cases L <;> cases h <;> decide

theorem exists_chainOperator? {t : Token} {combine : Expr → Expr → Expr}
    (h : t.operator? = some (L, combine)) : ∃ operator, L.chainOperator? = some operator := by
  unfold Token.operator? at h
  repeat' split at h
  all_goals cases h <;> exact ⟨_, rfl⟩

end Level

namespace Grammar

open Token

/-- What follows ends an expression of a level. -/
def Ends (L : Level) (us : List Token) : Prop := ∀ t ∈ us.head?, t.Ends L

/-- The reader accepts the expression and leaves the tokens `us`. -/
def Accepts (reader : Parse Expr) (c : Cursor) (e : Expr) (us : List Token) : Prop :=
  ∃ c', reader c = .ok (e, c') ∧ solid c'.rest = us ∧ c'.depth = c.depth

/-- The reader of a level comes to the expression, with the tokens `us` left. In a chain, the loop
goes on from there. -/
def Comes (L : Level) (inner : Inner) (c : Cursor) (e : Expr) (us : List Token) : Prop :=
  match L.chainOperator? with
  | some operator => ∃ budget c₁,
      L.reader inner c = chainLoop (L.tighter.reader inner) operator budget e c₁ ∧
        solid c₁.rest = us ∧ c₁.depth = c.depth ∧ us.length ≤ budget
  | none => Accepts (L.reader inner) c e us

/-- The loosest level that what follows must end. -/
def edge (L : Level) : Level := if L.chainOperator?.isSome then L.tighter else L

/-- The readers read a phrase wherever its tokens come next and something follows that ends it, if
it does not nest too deeply. -/
def Complete (n : Nat) (p : Phrase) (ts : List Token) : Prop :=
  ∀ k c us, n ≤ k → c.depth + n ≤ maxNesting → solid c.rest = ts ++ us →
    match p with
    | .expr L e => Ends (edge L) us → Comes L (nested k) c e us
    | .pairs rest => Ends .comparison us → ∀ budget read, (ts ++ us).length ≤ budget →
        ∃ c', comparisonLoop (nested k) budget read c = .ok (read.reverse ++ rest, c') ∧
          solid c'.rest = us ∧ c'.depth = c.depth
    | .arguments args => ∀ budget read, (ts ++ us).length ≤ budget →
        ∃ c', argumentLoop (nested (k + 1)) budget read c = .ok (read.reverse ++ args, c') ∧
          solid c'.rest = us ∧ c'.depth = c.depth

variable {L : Level} {n : Nat} {e : Expr} {ts us : List Token} {c c' : Cursor} {t : Token}

/-! ## What ends an expression -/

theorem Ends.of_le {K : Level} (h : Ends K us) (le : K.rank ≤ L.rank) : Ends L us := by
  intro t ht
  rcases h t ht with closing | comma | ⟨M, level, lt⟩
  · exact .inl closing
  · exact .inr (.inl comma)
  · exact .inr (.inr ⟨M, level, Nat.lt_of_lt_of_le lt le⟩)

theorem ends_closing (L : Level) (us : List Token) : Ends L (.mark .closing :: us) := by
  intro t ht
  cases ht
  exact .inl rfl

theorem ends_comma (L : Level) (us : List Token) : Ends L (.mark .comma :: us) := by
  intro t ht
  cases ht
  exact .inr (.inl rfl)

theorem ends_operator {K : Level} (level : t.level? = some K) (lt : K.rank < L.rank)
    (us : List Token) : Ends L (t :: us) := by
  intro t' ht'
  cases ht'
  exact .inr (.inr ⟨K, level, lt⟩)

theorem Ends.edge (h : Ends L us) : Ends (edge L) us := by
  unfold Grammar.edge
  split
  · exact h.of_le L.rank_le_tighter
  · exact h

/-- An operator of a level that is no looser is not what ends an expression. -/
theorem not_ends {K : Level} (level : t.level? = some K) (le : L.rank ≤ K.rank) :
    ¬Ends L (t :: us) := by
  intro ends
  rcases ends t rfl with rfl | rfl | ⟨M, level', lt⟩
  · cases level
  · cases level
  · rw [Option.mem_def, level] at level'
    cases level'
    omega

/-- How what ends an expression is written. -/
theorem spelling_of_ends (h : t.Ends L) : ∃ x ∈ t.spelling.head?, x ≠ '.' ∧ x ≠ '[' ∧ x ≠ '(' ∧
    (x = '=' → t.level? = some .comparison) := by
  rcases h with rfl | rfl | ⟨K, level, -⟩
  · exact ⟨')', rfl, by decide⟩
  · exact ⟨',', rfl, by decide⟩
  · unfold Token.level? at level
    split at level
    · rename_i op
      cases op <;> exact ⟨_, rfl, by decide, by decide, by decide, fun _ => rfl⟩
    · exact ⟨_, rfl, by decide, by decide, by decide, by decide⟩
    · obtain ⟨⟨K, combine⟩, operator, rfl⟩ := Option.map_eq_some_iff.1 level
      unfold Token.operator? at operator
      repeat' split at operator
      all_goals cases operator
      all_goals try subst_vars
      all_goals exact ⟨_, rfl, by decide⟩

/-- Between a power and a sign no operator is left. -/
theorem ends_signed (h : Ends .power us) : Ends .signed us := by
  intro t ht
  rcases h t ht with closing | comma | ⟨K, level, lt⟩
  · exact .inl closing
  · exact .inr (.inl comma)
  · refine .inr (.inr ⟨K, level, ?_⟩)
    have other := (Level.ne_of_level? level).2.1
    revert lt other
    cases K <;> decide

/-- The next token, if it ends an expression, and how it starts. -/
theorem head_of_ends (ends : Ends L (solid c.rest)) {x : Char}
    (h : c.skipBlanks.rest.head? = some x) :
    ∃ t, c.Next t ∧ t.Ends L ∧ t.spelling.head? = some x := by
  cases hs : solid c.rest with
  | nil =>
    rw [Cursor.solid_eq_nil hs] at h
    cases h
  | cons t us =>
    obtain ⟨next, -⟩ := Cursor.next_of_solid hs
    refine ⟨t, next, ends t (by rw [hs]; rfl), ?_⟩
    rw [Cursor.rest_of_next next] at h
    obtain ⟨y, r, -, rfl⟩ := next
    obtain ⟨z, more, spelled⟩ := List.exists_cons_of_ne_nil (first_spelling y r).2
    rw [spelled] at h ⊢
    exact h

/-! ## Chains -/

/-- A chain ends where none of its operators comes next. -/
theorem chainLoop_of_ends {operand : Parse Expr} {operator : Operator} (reads : operator.Reads L)
    (ends : Ends L (solid c.rest)) (budget : Nat) :
    chainLoop operand operator budget e c = .ok (e, c.skipBlanks) := by
  cases budget with
  | zero => rfl
  | succ budget =>
    have none : operator c.skipBlanks = none := by
      refine Option.eq_none_iff_forall_ne_some.2 fun ⟨combine, c₁⟩ found => ?_
      obtain ⟨t, next, -, operator⟩ := (reads _ _ _).1 found
      rw [Cursor.solid_of_next next] at ends
      exact not_ends (Level.level?_of_operator? operator) (Nat.le_refl _) ends
    simp only [chainLoop, none]

theorem Comes.accepts {inner : Inner} (h : Comes L inner c e us) (ends : Ends L us) :
    Accepts (L.reader inner) c e us := by
  unfold Comes at h
  split at h
  · rename_i operator chains
    obtain ⟨budget, c₁, same, rest, depth, -⟩ := h
    refine ⟨c₁.skipBlanks, ?_, by simpa using rest, depth⟩
    rw [same]
    exact chainLoop_of_ends (Level.reads_of_chainOperator? chains) (rest ▸ ends) budget
  · exact h

theorem Complete.accepts (h : Complete n (.expr L e) ts) {k : Nat} (deep : n ≤ k)
    (depth : c.depth + n ≤ maxNesting) (rest : solid c.rest = ts ++ us) (ends : Ends L us) :
    Accepts (L.reader (nested k)) c e us :=
  (h k c us deep depth rest ends.edge).accepts ends

/-- One more operand of a chain. -/
theorem complete_chain {combine : Expr → Expr → Expr} {l r : Expr}
    (operator : t.operator? = some (L, combine)) (left : Complete n (.expr L l) ts)
    (right : Complete n (.expr L.tighter r) us) :
    Complete n (.expr L (combine l r)) (ts ++ t :: us) := by
  intro k c vs deep depth rest
  obtain ⟨op, chains⟩ := Level.exists_chainOperator? operator
  have edge : edge L = L.tighter := by simp [edge, chains]
  have level := Level.level?_of_operator? operator
  have tight := Level.rank_lt_of_chainOperator? chains
  intro ends
  rw [edge] at ends
  have first := left k c (t :: (us ++ vs)) deep depth (by rw [rest]; simp)
    (edge ▸ ends_operator level tight _)
  simp only [Comes, chains] at first ⊢
  obtain ⟨budget, c₁, same, rest₁, depth₁, enough⟩ := first
  -- The operator is still to be read, so the loop has a step left.
  obtain ⟨budget, rfl⟩ := Nat.exists_eq_add_one_of_ne_zero (Nat.ne_zero_of_lt enough)
  obtain ⟨next, rest₂⟩ := Cursor.next_of_solid rest₁
  have found := (Level.reads_of_chainOperator? chains c₁ combine (c₁.pass t)).2
    ⟨t, next, rfl, operator⟩
  obtain ⟨c₂, read, rest₃, depth₃⟩ := right.accepts deep
    (by rw [Cursor.pass_depth, depth₁]; exact depth) rest₂ ends
  refine ⟨budget, c₂, ?_, rest₃, by rw [depth₃, Cursor.pass_depth, depth₁], ?_⟩
  · rw [same, chainLoop]
    simp only [found, read]
    rfl
  · simp only [List.length_cons, List.length_append] at enough
    omega

/-! ## Operands -/

/-- No member, index or call follows what is ended. -/
theorem complete_operand (h : ∀ k c us, n ≤ k → c.depth + n ≤ maxNesting →
      solid c.rest = ts ++ us → Ends .operand us → Accepts (primary (nested k)) c e us) :
    Complete n (.expr .operand e) ts := by
  intro k c us deep depth rest ends
  obtain ⟨c₁, read, rest₁, depth₁⟩ := h k c us deep depth rest ends
  refine ⟨c₁.skipBlanks, ?_, by simpa using rest₁, depth₁⟩
  show operand (nested k) c = _
  unfold operand
  rw [read]
  have plain : ∀ x ∈ c₁.skipBlanks.rest.head?, x ≠ '.' ∧ x ≠ '[' ∧ x ≠ '(' := by
    intro x hx
    obtain ⟨t, -, ends, head⟩ := head_of_ends (rest₁ ▸ ends : Ends .operand _) hx
    obtain ⟨y, hy, point, bracket, parenthesis, -⟩ := spelling_of_ends ends
    cases head.symm.trans hy
    exact ⟨point, bracket, parenthesis⟩
  simp only [bind, Except.bind]
  split
  · rename_i head
    exact absurd rfl (plain _ head).1
  · rename_i head
    exact absurd rfl (plain _ head).2.1
  · rename_i head
    exact absurd rfl (plain _ head).2.2
  · rfl

theorem primary_eq {inner : Inner} {y : Char} {r : List Char} (hrest : c.skipBlanks.rest = y :: r) :
    primary inner c =
      if y.isDigit then Literal.number c.skipBlanks
      else if y = '.' then
        if r.head?.any Char.isDigit then Literal.number c.skipBlanks
        else c.skipBlanks.fail .memberAccess
      else if y = '(' then parenthesized inner c.skipBlanks
      else if y = '"' ∨ y = '\'' then Literal.quoted y c.skipBlanks
      else if isNameStart y then named inner c.skipBlanks
      else c.skipBlanks.fail (.unexpectedCharacter y) := by
  simp only [primary, hrest]

theorem accepts_number {inner : Inner} {text : String} {x : Float}
    (read : Decimal.read text = .ok x) (finite : x.isFinite = true)
    (rest : solid c.rest = .number text :: us) : Accepts (primary inner) c (.number x) us := by
  obtain ⟨⟨y, r, hrest, hfirst⟩, hus⟩ := Cursor.next_of_solid rest
  have kind := first_kind y r
  rw [hfirst] at kind
  cases kind with
  | @number numeral start hnumeral =>
    obtain ⟨exponent, hexponent, rfl⟩ := Option.map_eq_some_iff.1 hnumeral
    have here : primary inner c = Literal.number c.skipBlanks := by
      rw [primary_eq hrest]
      rcases start with digit | ⟨rfl, digit⟩
      · exact if_pos digit
      · exact if_pos digit
    refine ⟨(c.skipBlanks.after (Literal.mantissa (y :: r))).after exponent, ?_, ?_, rfl⟩
    · rw [here, Literal.number, hrest]
      simp only [Cursor.after, hrest, hexponent, read, finite, if_true]
    · rw [← hus]
      simp only [Cursor.after, Cursor.pass, spelling, String.toList_ofList, List.drop_drop,
        List.length_append]

theorem accepts_quoted {inner : Inner} {quote : Char} {content : String}
    (rest : solid c.rest = .quoted quote content :: us) :
    Accepts (primary inner) c (.text content) us := by
  obtain ⟨⟨y, r, hrest, hfirst⟩, hus⟩ := Cursor.next_of_solid rest
  have kind := first_kind y r
  rw [hfirst] at kind
  cases kind with
  | quoted kind closed =>
    have here : primary inner c = Literal.quoted quote c.skipBlanks := by
      rw [primary_eq hrest]
      rcases kind with rfl | rfl <;> rfl
    obtain ⟨more, hmore⟩ := drop_takeWhile_ne closed
    have inside : (c.skipBlanks.skip 1).rest = r := by rw [Cursor.skip_rest, hrest]; rfl
    refine ⟨((c.skipBlanks.skip 1).after (r.takeWhile (· != quote))).skip 1, ?_, ?_, rfl⟩
    · rw [here, Literal.quoted, inside]
      simp only [Cursor.after, inside, hmore]
      rfl
    · rw [← hus, Cursor.skip_rest, Cursor.after, inside, Cursor.pass, Cursor.after, hrest]
      simp [spelling, List.drop_drop]

/-- A name is read as the next word. -/
theorem name_of_next {name : String} (next : c.Next (.word name)) :
    Literal.name c.skipBlanks = .ok (name, c.pass (.word name)) := by
  obtain ⟨start, same⟩ := Cursor.next_word_iff.1 next
  rw [Literal.name, if_pos start, same]
  simp only [String.ofList_toList]
  rfl

/-- A word is read as a name. -/
theorem primary_of_word {inner : Inner} {name : String} (next : c.Next (.word name)) :
    primary inner c = named inner c.skipBlanks := by
  obtain ⟨y, r, hrest, hfirst⟩ := next
  have kind := first_kind y r
  rw [hfirst] at kind
  cases kind with
  | word start =>
    have other : ∀ x, isNameStart x = false → y ≠ x := by
      rintro x plain rfl
      rw [start] at plain
      cases plain
    have digit : y.isDigit = false :=
      Bool.eq_false_iff.2 fun digit => other y (isNameStart_of_isDigit digit) rfl
    rw [primary_eq hrest, if_neg (by simp [digit]), if_neg (other _ rfl), if_neg (other _ rfl),
      if_neg, if_pos start]
    rintro (double | single)
    · exact other _ rfl double
    · exact other _ rfl single

theorem accepts_true {inner : Inner} (rest : solid c.rest = .word "true" :: us) :
    Accepts (primary inner) c (.bool true) us := by
  obtain ⟨next, hus⟩ := Cursor.next_of_solid rest
  refine ⟨c.pass (.word "true"), ?_, hus, rfl⟩
  rw [primary_of_word next, named, name_of_next next]
  rfl

theorem accepts_false {inner : Inner} (rest : solid c.rest = .word "false" :: us) :
    Accepts (primary inner) c (.bool false) us := by
  obtain ⟨next, hus⟩ := Cursor.next_of_solid rest
  refine ⟨c.pass (.word "false"), ?_, hus, rfl⟩
  rw [primary_of_word next, named, name_of_next next]
  rfl

/-- A word that is not reserved is a variable, unless a parenthesis follows. -/
theorem named_of_next {inner : Inner} {name : String} (next : c.Next (.word name))
    (free : name ∉ Literal.reservedWords) :
    named inner c.skipBlanks =
      if (c.pass (.word name)).skipBlanks.rest.head? = some '(' then
        call inner c.skipBlanks name (c.pass (.word name)).skipBlanks
      else .ok (.var name, (c.pass (.word name)).skipBlanks) := by
  simp only [Literal.reservedWords, List.mem_cons, List.not_mem_nil, or_false, not_or] at free
  obtain ⟨and, or, not, true, false⟩ := free
  rw [named, name_of_next next]
  simp only [bind, Except.bind, true, false, if_false, List.mem_cons, and, or, not,
    List.not_mem_nil, or_self]
  rfl

theorem accepts_var {inner : Inner} {name : String} (free : name ∉ Literal.reservedWords)
    (rest : solid c.rest = .word name :: us) (ends : Ends .operand us) :
    Accepts (primary inner) c (.var name) us := by
  obtain ⟨next, hus⟩ := Cursor.next_of_solid rest
  refine ⟨(c.pass (.word name)).skipBlanks, ?_, by simpa using hus, rfl⟩
  rw [primary_of_word next, named_of_next next free, if_neg]
  intro opens
  obtain ⟨t, -, ends, head⟩ := head_of_ends (hus ▸ ends : Ends .operand _) opens
  obtain ⟨y, hy, -, -, parenthesis, -⟩ := spelling_of_ends ends
  cases head.symm.trans hy
  exact parenthesis rfl

/-! ## Nested parts -/

/-- There is room for one more part. -/
theorem enter_of_lt (h : c.depth < maxNesting) : c.enter = .ok { c with depth := c.depth + 1 } :=
  if_pos h

/-- An expression one step deeper, with the cursor inside before it and the one after it. -/
theorem Complete.inside (h : Complete n (.expr L e) ts) {k : Nat} (deep : n ≤ k)
    (depth : c.depth + (n + 1) ≤ maxNesting) (rest : solid c.rest = ts ++ us) (ends : Ends L us) :
    ∃ c₁ c₂, c.enter = .ok c₁ ∧ L.reader (nested k) c₁ = .ok (e, c₂) ∧ solid c₂.rest = us ∧
      c₂.leave.depth = c.depth := by
  have enters := @enter_of_lt c (by omega)
  generalize hc₁ : ({ c with depth := c.depth + 1 } : Cursor) = c₁ at enters
  have depth₁ : c₁.depth = c.depth + 1 := by rw [← hc₁]
  have rest₁ : solid c₁.rest = ts ++ us := by rw [← hc₁, ← rest]
  obtain ⟨c₂, read, hus, depth₂⟩ := h.accepts deep (by omega) rest₁ ends
  refine ⟨c₁, c₂, enters, read, hus, ?_⟩
  rw [Cursor.leave, depth₂, depth₁, Nat.add_sub_cancel]

theorem expect_of_next {m : Mark} {x : Char} (single : m.chars = [x]) (next : c.Next (.mark m)) :
    c.expect x = .ok (c.pass (.mark m)) := by
  obtain ⟨head, passes⟩ := head_of_mark single next
  rw [Cursor.expect, if_pos head, passes]

theorem accepts_parenthesized {k : Nat} (inside : Complete n (.expr .connective e) ts)
    (deep : n ≤ k) (depth : c.depth + (n + 1) ≤ maxNesting)
    (rest : solid c.rest = .mark .opening :: (ts ++ [.mark .closing]) ++ us) :
    Accepts (primary (nested (k + 1))) c e us := by
  obtain ⟨next, hrest⟩ := Cursor.next_of_solid rest
  obtain ⟨head, passes⟩ := @head_of_mark c .opening _ rfl next
  have here : primary (nested (k + 1)) c = parenthesized (nested (k + 1)) c.skipBlanks := by
    obtain ⟨r, hr⟩ := List.head?_eq_some_iff.1 head
    rw [primary_eq hr]
    rfl
  have hrest : solid (c.pass (.mark .opening)).rest = ts ++ .mark .closing :: us := by
    simpa using hrest
  obtain ⟨c₁, c₂, enters, read, hrest₂, hdepth⟩ := inside.inside deep
    (by rw [Cursor.pass_depth]; exact depth) hrest (ends_closing _ _)
  obtain ⟨close, hus⟩ := Cursor.next_of_solid hrest₂
  have read : (nested (k + 1)).connective c₁ = .ok (e, c₂) := read
  refine ⟨(c₂.pass (.mark .closing)).leave, ?_, hus, hdepth⟩
  rw [here]
  simp only [parenthesized, bind, Except.bind, passes, enters, read, expect_of_next rfl close]
  rfl

theorem ofName?_name (f : Builtin) : Builtin.ofName? f.name = some f := by cases f <;> rfl

theorem accepts_call {k : Nat} {f : Builtin} {args : List Expr}
    (takes : f.accepts args.length = true) (inside : Complete n (.arguments args) ts)
    (begins : ∃ t more, ts = t :: more ∧ t.Begins .connective) (deep : n ≤ k)
    (depth : c.depth + (n + 1) ≤ maxNesting)
    (rest : solid c.rest = .word f.name :: .mark .opening :: ts ++ us) :
    Accepts (primary (nested (k + 1))) c (.call f args) us := by
  obtain ⟨word, hrest⟩ := Cursor.next_of_solid rest
  obtain ⟨next, hrest⟩ := Cursor.next_of_solid hrest
  obtain ⟨head, passes⟩ := @head_of_mark _ .opening _ rfl next
  generalize hc₁ : (c.pass (.word f.name)).pass (.mark .opening) = c₁ at passes hrest
  have depth₁ : c₁.depth = c.depth := by rw [← hc₁]; rfl
  have enters := @enter_of_lt c₁ (by omega)
  -- The tokens of the arguments start like an expression, so the call is not one without any.
  have open' : ({ c₁ with depth := c₁.depth + 1 } : Cursor).skipBlanks.rest.head? ≠ some ')' := by
    intro closes
    obtain ⟨t, more, rfl, begins⟩ := begins
    obtain ⟨close, -⟩ := @mark_of_head { c₁ with depth := c₁.depth + 1 } .closing _ rfl
      (fun _ => rfl) closes
    have first := (@Cursor.next_of_solid { c₁ with depth := c₁.depth + 1 } _ _ hrest).1
    exact begins.closing (first.unique close)
  generalize hc₂ : ({ c₁ with depth := c₁.depth + 1 } : Cursor) = c₂ at enters open'
  have depth₂ : c₂.depth = c.depth + 1 := by rw [← hc₂, ← depth₁]
  have hrest₂ : solid c₂.skipBlanks.rest = ts ++ us := by simpa [← hc₂] using hrest
  obtain ⟨c₃, read, hus, depth₃⟩ := inside k c₂.skipBlanks us deep
    (by simp only [Cursor.skipBlanks_depth]; omega) hrest₂ (c₂.skipBlanks.rest.length + 1) []
    (by rw [← hrest₂]; exact Nat.le_succ_of_le (length_solid_le _))
  have args_read : arguments (nested (k + 1)) c₂ = .ok (args, c₃) := by
    rw [arguments, if_neg open']
    exact read
  refine ⟨c₃.leave, ?_, hus, ?_⟩
  · rw [primary_of_word word, named_of_next word f.name_not_reserved, if_pos head, call,
      ofName?_name, passes, enters]
    simp only [bind, Except.bind, args_read, takes, if_true]
    rfl
  · simp [Cursor.leave, depth₃, depth₂]

theorem complete_lastArgument (inside : Complete n (.expr .connective e) ts) :
    Complete n (.arguments [e]) (ts ++ [.mark .closing]) := by
  intro k c us deep depth rest budget read enough
  obtain ⟨budget, rfl⟩ : ∃ b, budget = b + 1 := by
    refine Nat.exists_eq_add_one_of_ne_zero ?_
    simp only [List.length_append, List.length_cons] at enough
    omega
  rw [List.append_assoc] at rest
  obtain ⟨c₁, hread, hrest, hdepth⟩ := inside.accepts deep depth rest (ends_closing _ _)
  obtain ⟨close, hus⟩ := Cursor.next_of_solid hrest
  obtain ⟨head, passes⟩ := @head_of_mark c₁ .closing _ rfl close
  refine ⟨c₁.pass (.mark .closing), ?_, hus, hdepth⟩
  have hread : (nested (k + 1)).connective c = .ok (e, c₁) := hread
  simp only [argumentLoop, bind, Except.bind, hread, head, if_true, passes, List.reverse_cons]
  rfl

theorem complete_argument {args : List Expr} (inside : Complete n (.expr .connective e) ts)
    {us : List Token} (more : Complete n (.arguments args) us) :
    Complete n (.arguments (e :: args)) (ts ++ .mark .comma :: us) := by
  intro k c vs deep depth rest budget read enough
  obtain ⟨budget, rfl⟩ : ∃ b, budget = b + 1 := by
    refine Nat.exists_eq_add_one_of_ne_zero ?_
    simp only [List.length_append, List.length_cons] at enough
    omega
  rw [List.append_assoc] at rest
  obtain ⟨c₁, hread, hrest, hdepth⟩ := inside.accepts deep depth rest (ends_comma _ _)
  obtain ⟨comma, hus⟩ := Cursor.next_of_solid hrest
  have notClosing : ¬c₁.skipBlanks.rest.head? = some ')' := by
    intro head
    cases comma.unique ((@mark_of_head c₁ .closing _ rfl (fun _ => rfl) head).1)
  have expects : c₁.skipBlanks.expect ',' = .ok (c₁.pass (.mark .comma)) := by
    rw [expect_of_next rfl (Cursor.next_skipBlanks.2 comma), Cursor.pass_skipBlanks]
  obtain ⟨c₂, hread₂, hrest₂, hdepth₂⟩ := more k (c₁.pass (.mark .comma)) vs deep
    (by rw [Cursor.pass_depth, hdepth]; exact depth) hus budget (e :: read) (by
      simp only [List.length_append, List.length_cons] at enough ⊢
      omega)
  refine ⟨c₂, ?_, hrest₂, by rw [hdepth₂, Cursor.pass_depth, hdepth]⟩
  have hread : (nested (k + 1)).connective c = .ok (e, c₁) := hread
  simp only [argumentLoop, bind, Except.bind, hread, notClosing, if_false, expects, hread₂]
  simp

/-! ## Powers and signs -/

theorem complete_power {base exponent : Expr} (left : Complete (n + 1) (.expr .operand base) ts)
    (right : Complete n (.expr .signed exponent) us) :
    Complete (n + 1) (.expr .power (.binary .pow base exponent))
      (ts ++ .mark (.binary .pow) :: us) := by
  intro k c vs deep depth rest ends
  obtain ⟨k, rfl⟩ := Nat.exists_eq_add_one_of_ne_zero (Nat.ne_zero_of_lt deep)
  rw [List.append_assoc] at rest
  obtain ⟨c₁, read, hrest, hdepth⟩ := left.accepts deep depth rest
    (ends_operator (t := .mark (.binary .pow)) rfl (by decide) _)
  obtain ⟨next, hrest⟩ := Cursor.next_of_solid hrest
  have found : c₁.skipBlanks.take? "**" = some (c₁.pass (.mark (.binary .pow))) :=
    (Cursor.take?_iff rfl fun _ _ => rfl).2 ⟨next, rfl⟩
  obtain ⟨c₂, c₃, enters, read', hrest, hdepth'⟩ := right.inside (Nat.le_of_succ_le_succ deep)
    (by rw [Cursor.pass_depth, hdepth]; exact depth) hrest (ends_signed ends)
  have read : operand (nested (k + 1)) c = .ok (base, c₁) := read
  have read' : (nested (k + 1)).signed c₂ = .ok (exponent, c₃) := read'
  refine ⟨c₃.leave, ?_, hrest, hdepth'.trans hdepth⟩
  show power (nested (k + 1)) c = _
  simp only [power, bind, Except.bind, read, found, enters, read']
  rfl

/-- A sign in front of a signed expression. -/
theorem complete_sign {op : UnaryOp} {m : Mark} {x : Char} (single : m.chars = [x])
    (reader : ∀ inner c, c.skipBlanks.rest.head? = some x → signed inner c = (do
      let c ← (c.skipBlanks.skip 1).enter
      let (e, c) ← inner.signed c
      return (Expr.unary op e, c.leave)))
    (inside : Complete n (.expr .signed e) ts) :
    Complete (n + 1) (.expr .signed (.unary op e)) (.mark m :: ts) := by
  intro k c us deep depth rest ends
  obtain ⟨k, rfl⟩ := Nat.exists_eq_add_one_of_ne_zero (Nat.ne_zero_of_lt deep)
  obtain ⟨next, hrest⟩ := Cursor.next_of_solid rest
  obtain ⟨head, passes⟩ := head_of_mark single next
  obtain ⟨c₁, c₂, enters, read, hus, hdepth⟩ := inside.inside (Nat.le_of_succ_le_succ deep)
    (by rw [Cursor.pass_depth]; exact depth) hrest ends
  have read : (nested (k + 1)).signed c₁ = .ok (e, c₂) := read
  refine ⟨c₂.leave, ?_, hus, hdepth⟩
  show signed (nested (k + 1)) c = _
  rw [reader _ _ head]
  simp only [bind, Except.bind, passes, enters, read]
  rfl

theorem complete_minus (inside : Complete n (.expr .signed e) ts) :
    Complete (n + 1) (.expr .signed (.unary .minus e)) (.mark (.binary .sub) :: ts) :=
  complete_sign rfl (fun inner c head => by simp only [signed, head]) inside

theorem complete_plus (inside : Complete n (.expr .signed e) ts) :
    Complete (n + 1) (.expr .signed (.unary .plus e)) (.mark (.binary .add) :: ts) :=
  complete_sign rfl (fun inner c head => by simp only [signed, head]) inside

/-! ## Comparisons and negations -/

theorem complete_not (sign : t.IsNot) (inside : Complete n (.expr .negation e) ts) :
    Complete (n + 1) (.expr .negation (.unary .not e)) (t :: ts) := by
  intro k c us deep depth rest ends
  obtain ⟨k, rfl⟩ := Nat.exists_eq_add_one_of_ne_zero (Nat.ne_zero_of_lt deep)
  obtain ⟨next, hrest⟩ := Cursor.next_of_solid rest
  have found : notOperator c.skipBlanks = some (c.pass t) :=
    reads_notOperator.2 ⟨t, sign, next, rfl⟩
  obtain ⟨c₁, c₂, enters, read, hus, hdepth⟩ := inside.inside (Nat.le_of_succ_le_succ deep)
    (by rw [Cursor.pass_depth]; exact depth) hrest ends
  have read : (nested (k + 1)).negation c₁ = .ok (e, c₂) := read
  refine ⟨c₂.leave, ?_, hus, hdepth⟩
  show negation (nested (k + 1)) c = _
  simp only [negation, bind, Except.bind, found, enters, read]
  rfl

/-- What ends a comparison is no comparison operator. -/
theorem comparisonOperator_of_ends (ends : Ends .comparison (solid c.rest)) :
    comparisonOperator c = .ok none := by
  have missing : comparison? c.skipBlanks = none := by
    refine comparison?_of_not_next fun op next => ?_
    rw [Cursor.solid_of_next next] at ends
    exact not_ends rfl (Nat.le_refl _) ends
  have plain : ¬c.skipBlanks.startsWith "=" = true := by
    intro starts
    obtain ⟨r, hr⟩ := Cursor.startsWith_iff.1 starts
    obtain ⟨t, next, end', head⟩ := head_of_ends (x := '=') ends (by rw [hr]; rfl)
    obtain ⟨y, hy, -, -, -, equals⟩ := spelling_of_ends end'
    have level := equals (Option.some.inj (hy.symm.trans head))
    rw [Cursor.solid_of_next next] at ends
    exact not_ends level (Nat.le_refl _) ends
  unfold comparison? at missing
  simp only [comparisonOperator, missing, plain]
  rfl

/-- Where no comparison operator comes next, the operands of a comparison are at their end. -/
theorem comparisonLoop_of_ends {inner : Inner} (ends : Ends .comparison (solid c.rest))
    (budget : Nat) (read : List (CompareOp × Expr)) :
    comparisonLoop inner budget read c = .ok (read.reverse, c.skipBlanks) := by
  cases budget with
  | zero => rfl
  | succ budget =>
    simp only [comparisonLoop, bind, Except.bind, comparisonOperator_of_ends ends]
    rfl

theorem complete_noPairs : Complete n (.pairs []) [] := by
  intro k c us deep depth rest ends budget read enough
  refine ⟨c.skipBlanks, ?_, by simpa using rest, rfl⟩
  rw [comparisonLoop_of_ends (rest ▸ ends), List.append_nil]

/-- The later operands of a comparison end the one before them. -/
theorem ends_pairs {rest : List (CompareOp × Expr)} (begins : Phrase.Begins ts (.pairs rest))
    (ends : Ends .comparison us) : Ends .sum (ts ++ us) := by
  rcases begins with rfl | ⟨op, more, rfl⟩
  · exact ends.of_le (by decide)
  · exact ends_operator (K := .comparison) rfl (by decide) _

theorem complete_pair {op : CompareOp} {rest : List (CompareOp × Expr)} {us : List Token}
    (begins : Phrase.Begins us (.pairs rest)) (operand : Complete n (.expr .sum e) ts)
    (more : Complete n (.pairs rest) us) :
    Complete n (.pairs ((op, e) :: rest)) (.mark (.compare op) :: (ts ++ us)) := by
  intro k c vs deep depth hrest ends budget read enough
  obtain ⟨budget, rfl⟩ : ∃ b, budget = b + 1 := by
    refine Nat.exists_eq_add_one_of_ne_zero ?_
    simp only [List.length_append, List.length_cons] at enough
    omega
  obtain ⟨next, hrest⟩ := Cursor.next_of_solid hrest
  have found : comparisonOperator c = .ok (some (op, c.pass (.mark (.compare op)))) := by
    have here := comparison?_of_next next
    unfold comparison? at here
    simp only [comparisonOperator, here]
  have hrest : solid (c.pass (.mark (.compare op))).rest = ts ++ (us ++ vs) :=
    hrest.trans (List.append_assoc ts us vs)
  have depth : (c.pass (.mark (.compare op))).depth + n ≤ maxNesting := depth
  obtain ⟨c₁, hread, hrest₁, hdepth₁⟩ := operand.accepts deep depth hrest (ends_pairs begins ends)
  obtain ⟨c₂, hread₂, hrest₂, hdepth₂⟩ := more k c₁ vs deep
    (by rw [hdepth₁]; exact depth) hrest₁ ends budget ((op, e) :: read) (by
      simp only [List.length_append, List.length_cons] at enough ⊢
      omega)
  refine ⟨c₂, ?_, hrest₂, by rw [hdepth₂, hdepth₁, Cursor.pass_depth]⟩
  have hread : sum (nested k) (c.pass (.mark (.compare op))) = .ok (e, c₁) := hread
  simp only [comparisonLoop, bind, Except.bind, found, hread, hread₂]
  simp

theorem complete_compare {rest : List (CompareOp × Expr)} {us : List Token} (some : rest ≠ [])
    (begins : Phrase.Begins us (.pairs rest)) (left : Complete n (.expr .sum e) ts)
    (right : Complete n (.pairs rest) us) :
    Complete n (.expr .comparison (.compare e rest)) (ts ++ us) := by
  intro k c vs deep depth hrest ends
  rw [List.append_assoc] at hrest
  obtain ⟨c₁, hread, hrest₁, hdepth₁⟩ := left.accepts deep depth hrest (ends_pairs begins ends)
  obtain ⟨c₂, hread₂, hrest₂, hdepth₂⟩ := right k c₁ vs deep (by rw [hdepth₁]; exact depth) hrest₁
    ends c₁.rest.length [] (by rw [← hrest₁]; exact length_solid_le _)
  refine ⟨c₂, ?_, hrest₂, hdepth₂.trans hdepth₁⟩
  have hread : sum (nested k) c = .ok (e, c₁) := hread
  show comparison (nested k) c = _
  simp only [comparison, bind, Except.bind, hread, hread₂]
  cases rest with
  | nil => exact absurd rfl some
  | cons => rfl

/-! ## Levels without an operator of their own -/

/-- A chain of one operand. -/
theorem comes_single {operator : Operator} (chains : L.chainOperator? = some operator) {k : Nat}
    (h : Accepts (L.tighter.reader (nested k)) c e us) : Comes L (nested k) c e us := by
  obtain ⟨c₁, read, rest, depth⟩ := h
  simp only [Comes, chains]
  refine ⟨c₁.rest.length, c₁, ?_, rest, depth, rest ▸ length_solid_le _⟩
  rw [Level.reader_of_chainOperator? chains, chain, read]
  rfl

theorem accepts_negation {k : Nat} (plain : ∀ t ∈ (solid c.rest).head?, ¬t.IsNot)
    (h : Accepts (comparison (nested k)) c.skipBlanks e us) :
    Accepts (negation (nested k)) c e us := by
  have none : notOperator c.skipBlanks = none := by
    refine Option.eq_none_iff_forall_ne_some.2 fun c₁ found => ?_
    obtain ⟨t, sign, next, -⟩ := reads_notOperator.1 found
    exact plain t (by rw [Cursor.solid_of_next next]; rfl) sign
  obtain ⟨c₁, read, accepted⟩ := h
  refine ⟨c₁, ?_, accepted⟩
  simp only [negation, none, read]

theorem accepts_comparison {k : Nat} (ends : Ends .comparison us)
    (h : Accepts (sum (nested k)) c e us) : Accepts (comparison (nested k)) c e us := by
  obtain ⟨c₁, read, rest, depth⟩ := h
  refine ⟨c₁.skipBlanks, ?_, by simpa using rest, depth⟩
  simp only [comparison, bind, Except.bind, read, comparisonLoop_of_ends (rest ▸ ends)]
  rfl

theorem accepts_signed {k : Nat}
    (plain : ∀ t ∈ (solid c.rest).head?, t ≠ .mark (.binary .sub) ∧ t ≠ .mark (.binary .add))
    (h : Accepts (power (nested k)) c.skipBlanks e us) : Accepts (signed (nested k)) c e us := by
  have head : ∀ {t : Token}, c.Next t → t ∈ (solid c.rest).head? := by
    intro t next
    rw [Cursor.solid_of_next next]
    rfl
  have minus : c.skipBlanks.rest.head? ≠ some '-' := fun minus =>
    (plain _ (head (@mark_of_head c (.binary .sub) _ rfl (fun _ => rfl) minus).1)).1 rfl
  have plus : c.skipBlanks.rest.head? ≠ some '+' := fun plus =>
    (plain _ (head (@mark_of_head c (.binary .add) _ rfl (fun _ => rfl) plus).1)).2 rfl
  obtain ⟨c₁, read, accepted⟩ := h
  refine ⟨c₁, ?_, accepted⟩
  simp only [signed, read]

theorem accepts_power {k : Nat} (ends : Ends .power us)
    (h : Accepts (operand (nested k)) c e us) : Accepts (power (nested k)) c e us := by
  obtain ⟨c₁, read, rest, depth⟩ := h
  have none : c₁.skipBlanks.take? "**" = none := by
    refine Option.eq_none_iff_forall_ne_some.2 fun c₂ found => ?_
    have next := ((Cursor.take?_iff (m := .binary .pow) rfl fun _ _ => rfl).1 found).1
    rw [Cursor.solid_of_next next] at rest
    exact not_ends (t := .mark (.binary .pow)) rfl (Nat.le_refl _) (rest ▸ ends)
  refine ⟨c₁.skipBlanks, ?_, by simpa using rest, depth⟩
  simp only [power, bind, Except.bind, read, none]
  rfl

theorem complete_tighter (begins : Phrase.Begins ts (.expr L.tighter e))
    (inside : Complete n (.expr L.tighter e) ts) : Complete n (.expr L e) ts := by
  intro k c us deep depth rest ends
  obtain ⟨t, more, rfl, begins⟩ := begins
  have first : ∀ t' ∈ (solid c.rest).head?, t'.Begins L.tighter := by
    intro t' ht'
    rw [rest] at ht'
    cases ht'
    exact begins
  have rest' : solid c.skipBlanks.rest = t :: more ++ us := by simpa using rest
  -- A chain of one operand, or a reader that first looks for a sign the tokens do not start with,
  -- or one that afterwards looks for an operator that does not follow.
  cases hL : L.chainOperator? with
  | some operator =>
    have edge : edge L = L.tighter := by simp [edge, hL]
    exact comes_single hL (inside.accepts deep depth rest (edge ▸ ends))
  | none =>
    cases L with
    | connective | disjunction | conjunction | sum | product => cases hL
    | negation =>
      exact accepts_negation (fun t' ht' => (first t' ht').not (Nat.le_refl _))
        (inside.accepts deep depth rest' (Ends.of_le ends (by decide)))
    | comparison =>
      exact accepts_comparison ends
        (inside.accepts deep depth rest (Ends.of_le ends (by decide)))
    | signed =>
      exact accepts_signed (fun t' ht' => (first t' ht').sign (Nat.le_refl _))
        (inside.accepts deep depth rest' (Ends.of_le ends (by decide)))
    | power =>
      exact accepts_power ends (inside.accepts deep depth rest (Ends.of_le ends (by decide)))
    | operand => exact inside k c us deep depth rest ends

/-! ## Whole expressions -/

/-- The readers read the whole language. -/
theorem complete_of_derives {p : Phrase} (h : Derives n p ts) : Complete n p ts := by
  induction h with
  | number read finite =>
    exact complete_operand fun _ _ _ _ _ rest _ => accepts_number read finite rest
  | true => exact complete_operand fun _ _ _ _ _ rest _ => accepts_true rest
  | false => exact complete_operand fun _ _ _ _ _ rest _ => accepts_false rest
  | text => exact complete_operand fun _ _ _ _ _ rest _ => accepts_quoted rest
  | var free => exact complete_operand fun _ _ _ _ _ rest ends => accepts_var free rest ends
  | parentheses _ inside =>
    refine complete_operand fun k c us deep depth rest _ => ?_
    obtain ⟨k, rfl⟩ := Nat.exists_eq_add_one_of_ne_zero (Nat.ne_zero_of_lt deep)
    exact accepts_parenthesized inside (Nat.le_of_succ_le_succ deep) depth rest
  | call takes derives inside =>
    refine complete_operand fun k c us deep depth rest _ => ?_
    obtain ⟨k, rfl⟩ := Nat.exists_eq_add_one_of_ne_zero (Nat.ne_zero_of_lt deep)
    exact accepts_call takes inside derives.begins (Nat.le_of_succ_le_succ deep) depth rest
  | power _ _ left right => exact complete_power left right
  | minus _ inside => exact complete_minus inside
  | plus _ inside => exact complete_plus inside
  | compare _ derives some left right => exact complete_compare some derives.begins left right
  | not sign _ inside => exact complete_not sign inside
  | chain operator _ _ left right => exact complete_chain operator left right
  | tighter derives inside => exact complete_tighter derives.begins inside
  | noPairs => exact complete_noPairs
  | pair _ derives operand more => exact complete_pair derives.begins operand more
  | lastArgument _ inside => exact complete_lastArgument inside
  | argument _ _ inside more => exact complete_argument inside more

/-- A text that has tokens is not blank. -/
theorem isBlankText_of_solid {source : String} (h : solid source.toList ≠ []) :
    Text.isBlankText source = false := by
  refine Bool.eq_false_iff.2 fun blank => h ?_
  unfold Text.isBlankText at blank
  generalize source.toList = cs at blank
  induction cs with
  | nil => rfl
  | cons x r ih =>
    obtain ⟨here, later⟩ := Bool.and_eq_true_iff.1 blank
    rw [solid_cons_of_blank here, ih later]

theorem checkSource_eq_ok_iff {source : String} : checkSource source = .ok () ↔
    source.utf8ByteSize ≤ maxSourceBytes ∧ Text.isBlankText source = false := by
  unfold checkSource
  split
  · simp only [reduceCtorEq, false_iff, not_and]
    omega
  · split <;> simp_all

theorem finish_of_solid (h : solid c.rest = []) : finish c = .ok () := by
  have none : c.skipBlanks.rest.isEmpty = true := List.isEmpty_iff.2 (Cursor.solid_eq_nil h)
  simp only [finish, none, if_true]

/-- A text whose tokens stand for an expression is read as it. -/
theorem parse_of_derives {source : String}
    (h : Derives n (.expr .connective e) (solid source.toList)) (deep : n ≤ maxNesting)
    (short : source.utf8ByteSize ≤ maxSourceBytes) : Expr.parse source = .ok e := by
  have some : solid source.toList ≠ [] := by
    obtain ⟨t, more, same, -⟩ := h.begins
    rw [same]
    exact List.cons_ne_nil t more
  have checked := checkSource_eq_ok_iff.2 ⟨short, isBlankText_of_solid some⟩
  have all : solid (Cursor.start source).rest = solid source.toList ++ [] :=
    (List.append_nil _).symm
  obtain ⟨c, read, rest, -⟩ := (complete_of_derives h).accepts deep
    (by simpa [Cursor.start] using deep) all nofun
  have read : whole (.start source) = .ok (e, c) := read
  simp only [Expr.parse, bind, Except.bind, checked, read, finish_of_solid rest]
  rfl

/-- Reading gives an expression exactly if the text is short and its tokens stand for the
expression, without too many nested parts. -/
theorem parse_eq_ok_iff {source : String} : Expr.parse source = .ok e ↔
    source.utf8ByteSize ≤ maxSourceBytes ∧
      Derives maxNesting (.expr .connective e) (solid source.toList) := by
  constructor
  · intro h
    obtain ⟨_, checked, -⟩ := bind_eq_ok.1 h
    exact ⟨(checkSource_eq_ok_iff.1 checked).1, derives_of_parse h⟩
  · rintro ⟨short, derives⟩
    exact parse_of_derives derives (Nat.le_refl _) short

end Grammar

end Stratagem
