import Stratagem.Proofs.Formula.Phrases

/-!
# What comes next

The readers of operators look at characters. Here is what each of them means for the next token:
`Operator.Reads` for the operators that group to the left, `comparison?_of_next` and
`reads_notOperator` for the others.
-/

namespace Stratagem

namespace Mark

/-- The marks of one character that a second one makes longer. -/
theorem first?_short {x y : Char} {m : Mark} {r : List Char}
    (kind : (x, y, m) ∈ [('*', '*', .binary .mul), ('!', '=', .bang), ('<', '=', .compare .lt),
      ('>', '=', .compare .gt)])
    (h : ∀ more, r ≠ y :: more) : first? (x :: r) = some m := by
  simp only [List.mem_cons, List.not_mem_nil, or_false, Prod.mk.injEq] at kind
  rcases kind with ⟨rfl, rfl, rfl⟩ | ⟨rfl, rfl, rfl⟩ | ⟨rfl, rfl, rfl⟩ | ⟨rfl, rfl, rfl⟩
  all_goals simp [first?]

end Mark

namespace Cursor

variable {c c' : Cursor} {t : Token} {m : Mark} {x : Char}

theorem Next.unique {t' : Token} (h : c.Next t) (h' : c.Next t') : t = t' := by
  have same := (solid_of_next h).symm.trans (solid_of_next h')
  exact (List.cons.inj same).1

/-- The next token is a mark if the text goes on with it and with no longer mark. -/
theorem next_mark_iff : c.Next (.mark m) ↔ Mark.first? c.skipBlanks.rest = some m := by
  constructor
  · rintro ⟨x, r, hrest, hfirst⟩
    rw [hrest]
    have kind := Token.first_kind x r
    rw [hfirst] at kind
    cases kind with
    | mark read => exact read
  · intro h
    obtain ⟨rest, hrest⟩ := Mark.eq_append_of_first? h
    obtain ⟨x, r, hx⟩ := List.exists_cons_of_ne_nil m.chars_ne_nil
    rw [hx, List.cons_append] at hrest
    rw [hrest] at h
    exact ⟨x, r ++ rest, hrest, Token.first_of_mark h⟩

/-- The text goes on with the next token. -/
theorem rest_of_next (h : c.Next t) : c.skipBlanks.rest = t.spelling ++ (c.pass t).rest := by
  obtain ⟨x, r, hrest, rfl⟩ := h
  rw [pass, after, hrest]
  exact (List.prefix_iff_eq_append.1 (Token.first_spelling x r).1).symm

theorem skip_one (h : c.skipBlanks.rest.head? = some x) (single : t.spelling = [x]) :
    c.skipBlanks.skip 1 = c.pass t := by
  obtain ⟨r, hrest⟩ := List.head?_eq_some_iff.1 h
  rw [skip, pass, single, hrest]
  rfl

/-- A mark of one character that starts no longer mark. -/
theorem head?_iff (single : m.chars = [x]) (sure : ∀ r, Mark.first? (x :: r) = some m) :
    c.skipBlanks.rest.head? = some x ↔ c.Next (.mark m) := by
  rw [next_mark_iff]
  constructor
  · intro h
    obtain ⟨r, hrest⟩ := List.head?_eq_some_iff.1 h
    rw [hrest]
    exact sure r
  · intro h
    obtain ⟨rest, hrest⟩ := Mark.eq_append_of_first? h
    rw [hrest, single]
    rfl

theorem startsWith_iff {word : String} :
    c.startsWith word = true ↔ ∃ rest, c.rest = word.toList ++ rest := by
  rw [startsWith, List.isPrefixOf_iff_prefix]
  exact ⟨fun ⟨rest, h⟩ => ⟨rest, h.symm⟩, fun ⟨rest, h⟩ => ⟨rest, h.symm⟩⟩

section

variable {word : String} (chars : word.toList = m.chars)
  (sure : ∀ r, c.skipBlanks.rest = m.chars ++ r → Mark.first? (m.chars ++ r) = some m)
include chars sure

/-- The text goes on with a mark that starts no longer mark here. -/
theorem startsWith_iff_next : c.skipBlanks.startsWith word = true ↔ c.Next (.mark m) := by
  rw [startsWith_iff, next_mark_iff, chars]
  constructor
  · rintro ⟨rest, hrest⟩
    rw [hrest]
    exact sure rest hrest
  · exact Mark.eq_append_of_first?

theorem take?_iff :
    c.skipBlanks.take? word = some c' ↔ c.Next (.mark m) ∧ c' = c.pass (.mark m) := by
  have starts := startsWith_iff_next chars sure
  have passes : c.skipBlanks.after word.toList = c.pass (.mark m) := by
    rw [chars]
    rfl
  rw [take?, passes]
  split
  · rename_i h
    simp only [Option.some.injEq, starts.1 h, true_and]
    exact eq_comm
  · rename_i h
    simp only [reduceCtorEq, false_iff, not_and]
    exact fun next => absurd (starts.2 next) h

end

/-- The next token is a word if the text goes on with a name. -/
theorem next_word_iff {name : String} : c.Next (.word name) ↔
    c.skipBlanks.rest.head?.any isNameStart = true ∧
      c.skipBlanks.rest.takeWhile isNameChar = name.toList := by
  constructor
  · rintro ⟨x, r, hrest, hfirst⟩
    rw [hrest]
    have kind := Token.first_kind x r
    rw [hfirst] at kind
    cases kind with
    | word start => exact ⟨start, String.toList_ofList.symm⟩
  · rintro ⟨start, same⟩
    cases hrest : c.skipBlanks.rest with
    | nil =>
      rw [hrest] at start
      cases start
    | cons x r =>
      rw [hrest] at start same
      refine ⟨x, r, hrest, ?_⟩
      rw [Token.first_of_isNameStart start, same, String.ofList_toList]

/-- A keyword comes next if it is the next token. -/
theorem takeKeyword?_iff {word : String} (name : Literal.isName word = true) :
    c.skipBlanks.takeKeyword? word = some c' ↔ c.Next (.word word) ∧ c' = c.pass (.word word) := by
  obtain ⟨start, chars⟩ := Bool.and_eq_true_iff.1 name
  have starts : (c.skipBlanks.startsWith word &&
      !(c.skipBlanks.rest.drop word.length).head?.any isNameChar) = true ↔ c.Next (.word word) := by
    rw [Bool.and_eq_true, Bool.not_eq_true', startsWith_iff, next_word_iff, ← String.length_toList]
    constructor
    · rintro ⟨⟨rest, hrest⟩, ends⟩
      rw [hrest, List.drop_left] at ends
      rw [hrest]
      constructor
      · cases hword : word.toList with
        | nil => rw [hword] at start; cases start
        | cons x r => rw [hword] at start; exact start
      · have stops : rest.takeWhile isNameChar = [] := by
          cases rest with
          | nil => rfl
          | cons x r => exact List.takeWhile_cons_of_neg (by simpa using ends)
        rw [List.takeWhile_append_of_pos (List.all_eq_true.1 chars), stops, List.append_nil]
    · rintro ⟨-, same⟩
      have split := @List.takeWhile_append_dropWhile _ isNameChar c.skipBlanks.rest
      rw [same] at split
      refine ⟨⟨_, split.symm⟩, ?_⟩
      rw [← split, List.drop_left]
      have head := List.head?_dropWhile_not isNameChar c.skipBlanks.rest
      cases hrest : c.skipBlanks.rest.dropWhile isNameChar with
      | nil => rfl
      | cons x r =>
        rw [hrest] at head
        exact head
  rw [takeKeyword?]
  split
  · rename_i h
    simp only [Option.some.injEq, starts.1 h, true_and]
    exact eq_comm
  · rename_i h
    simp only [reduceCtorEq, false_iff, not_and]
    exact fun next => absurd (starts.2 next) h

end Cursor

namespace Grammar

open Cursor

variable {c c' : Cursor} {t : Token}

/-! ## Operators that group to the left -/

/-- The operators of a level are the tokens of the table. -/
def Operator.Reads (operator : Operator) (L : Level) : Prop :=
  ∀ (c : Cursor) combine c', operator c.skipBlanks = some (combine, c') ↔
    ∃ t : Token, c.Next t ∧ c' = c.pass t ∧ t.operator? = some (L, combine)

/-- A mark of one character is read as it. -/
theorem mark_of_head {m : Mark} {x : Char} (single : m.chars = [x])
    (sure : ∀ r, Mark.first? (x :: r) = some m) (h : c.skipBlanks.rest.head? = some x) :
    c.Next (.mark m) ∧ c.skipBlanks.skip 1 = c.pass (.mark m) :=
  ⟨(head?_iff single sure).1 h, skip_one h single⟩

theorem head_of_mark {m : Mark} {x : Char} (single : m.chars = [x])
    (h : c.Next (.mark m)) :
    c.skipBlanks.rest.head? = some x ∧ c.skipBlanks.skip 1 = c.pass (.mark m) := by
  have head : c.skipBlanks.rest.head? = some x := by
    rw [rest_of_next h]
    show (m.chars ++ _).head? = some x
    rw [single]
    rfl
  exact ⟨head, skip_one head single⟩

/-- An operator that is a mark of one character is read off that character. -/
theorem exists_of_head {m : Mark} {x : Char} {L : Level} {combine : Expr → Expr → Expr}
    (single : m.chars = [x]) (sure : ∀ r, Mark.first? (x :: r) = some m)
    (operator : (Token.mark m).operator? = some (L, combine))
    (h : c.skipBlanks.rest.head? = some x) :
    ∃ t : Token, c.Next t ∧ c.skipBlanks.skip 1 = c.pass t ∧ t.operator? = some (L, combine) := by
  obtain ⟨next, passes⟩ := mark_of_head single sure h
  exact ⟨.mark m, next, passes, operator⟩

theorem reads_connectiveOperator : connectiveOperator.Reads .connective := by
  intro c combine c'
  unfold connectiveOperator
  dsimp only
  constructor
  · intro h
    split at h <;> rename_i head <;> cases h
    · exact @exists_of_head c .implies _ _ _ rfl (fun _ => rfl) rfl head
    · exact @exists_of_head c .iff _ _ _ rfl (fun _ => rfl) rfl head
    · exact @exists_of_head c .xor _ _ _ rfl (fun _ => rfl) rfl head
    · exact @exists_of_head c .nand _ _ _ rfl (fun _ => rfl) rfl head
    · exact @exists_of_head c .nor _ _ _ rfl (fun _ => rfl) rfl head
  · rintro ⟨t, next, rfl, operator⟩
    unfold Token.operator? at operator
    repeat' split at operator
    all_goals cases operator
    all_goals
      obtain ⟨head, passes⟩ := head_of_mark rfl next
      simp only [head, passes]

theorem reads_sumOperator : sumOperator.Reads .sum := by
  intro c combine c'
  unfold sumOperator
  constructor
  · intro h
    split at h <;> rename_i head <;> cases h
    · exact @exists_of_head c (.binary .add) _ _ _ rfl (fun _ => rfl) rfl head
    · exact @exists_of_head c (.binary .sub) _ _ _ rfl (fun _ => rfl) rfl head
  · rintro ⟨t, next, rfl, operator⟩
    unfold Token.operator? at operator
    repeat' split at operator
    all_goals cases operator
    all_goals
      obtain ⟨head, passes⟩ := head_of_mark rfl next
      simp only [head, passes]

theorem reads_productOperator : productOperator.Reads .product := by
  intro c combine c'
  unfold productOperator
  have double : c.skipBlanks.startsWith "**" = true ↔ c.Next (.mark (.binary .pow)) :=
    startsWith_iff_next rfl fun _ _ => rfl
  constructor
  · intro h
    split at h
    · cases h
    · rename_i single
      split at h <;> rename_i head <;> cases h
      · obtain ⟨r, hrest⟩ := List.head?_eq_some_iff.1 head
        have next : c.Next (.mark (.binary .mul)) := by
          rw [next_mark_iff, hrest]
          refine Mark.first?_short (by decide) fun more (same : r = '*' :: more) => ?_
          rw [double, next_mark_iff, hrest, same] at single
          exact single rfl
        exact ⟨_, next, skip_one head rfl, rfl⟩
      · exact @exists_of_head c (.binary .div) _ _ _ rfl (fun _ => rfl) rfl head
      · exact @exists_of_head c (.binary .rem) _ _ _ rfl (fun _ => rfl) rfl head
  · rintro ⟨t, next, rfl, operator⟩
    have single : ¬c.skipBlanks.startsWith "**" = true := by
      intro starts
      rw [Next.unique next (double.1 starts)] at operator
      cases operator
    rw [if_neg single]
    unfold Token.operator? at operator
    repeat' split at operator
    all_goals cases operator
    all_goals
      obtain ⟨head, passes⟩ := head_of_mark rfl next
      simp only [head, passes]

/-- An operator that is a word or a mark. -/
theorem takeEither_iff {word text : String} {m : Mark}
    (name : Literal.isName word = true) (chars : text.toList = m.chars)
    (sure : ∀ r, c.skipBlanks.rest = m.chars ++ r → Mark.first? (m.chars ++ r) = some m) :
    (c.skipBlanks.takeKeyword? word).or (c.skipBlanks.take? text) = some c' ↔
      ∃ t : Token, (t = .word word ∨ t = .mark m) ∧ c.Next t ∧ c' = c.pass t := by
  rw [Option.or_eq_some_iff, takeKeyword?_iff name, take?_iff chars sure]
  constructor
  · rintro (⟨next, passes⟩ | ⟨-, next, passes⟩)
    · exact ⟨_, .inl rfl, next, passes⟩
    · exact ⟨_, .inr rfl, next, passes⟩
  · rintro ⟨t, rfl | rfl, next, passes⟩
    · exact .inl ⟨next, passes⟩
    · refine .inr ⟨Option.eq_none_iff_forall_ne_some.2 fun c₁ found => ?_, next, passes⟩
      cases next.unique ((takeKeyword?_iff name).1 found).1

theorem reads_of_either {operator : Operator} {L : Level} {f : Expr → Expr → Expr}
    {word text : String} {m : Mark}
    (reader : ∀ c, operator c = ((c.takeKeyword? word).or (c.take? text)).map fun c => (f, c))
    (table : ∀ (t : Token) combine, t.operator? = some (L, combine) ↔
      (t = .word word ∨ t = .mark m) ∧ f = combine)
    (name : Literal.isName word = true) (chars : text.toList = m.chars)
    (sure : ∀ r, Mark.first? (m.chars ++ r) = some m) : operator.Reads L := by
  intro c combine c'
  simp only [reader, Option.map_eq_some_iff, Prod.mk.injEq, table]
  constructor
  · rintro ⟨c₁, found, same, rfl⟩
    obtain ⟨t, kind, next, passes⟩ := (takeEither_iff name chars fun r _ => sure r).1 found
    exact ⟨t, next, passes, kind, same⟩
  · rintro ⟨t, next, passes, kind, same⟩
    have found := (takeEither_iff name chars fun r _ => sure r).2 ⟨t, kind, next, passes⟩
    exact ⟨c', found, same, rfl⟩

theorem reads_orOperator : orOperator.Reads .disjunction := by
  refine @reads_of_either _ _ .or "or" "||" .bars (fun _ => rfl) (fun t combine => ?_) rfl rfl
    fun _ => rfl
  constructor
  · intro h
    unfold Token.operator? at h
    repeat' split at h
    all_goals cases h
    · exact ⟨.inr rfl, rfl⟩
    · rename_i same
      exact ⟨.inl (congrArg _ same), rfl⟩
  · rintro ⟨rfl | rfl, rfl⟩ <;> rfl

theorem reads_andOperator : andOperator.Reads .conjunction := by
  refine @reads_of_either _ _ .and "and" "&&" .ampersands (fun _ => rfl) (fun t combine => ?_)
    rfl rfl fun _ => rfl
  constructor
  · intro h
    unfold Token.operator? at h
    repeat' split at h
    all_goals cases h
    · exact ⟨.inr rfl, rfl⟩
    · rename_i same
      exact ⟨.inl (congrArg _ same), rfl⟩
  · rintro ⟨rfl | rfl, rfl⟩ <;> rfl

/-! ## Other operators -/

theorem reads_notOperator :
    notOperator c.skipBlanks = some c' ↔ ∃ t : Token, t.IsNot ∧ c.Next t ∧ c' = c.pass t := by
  unfold notOperator Token.IsNot
  -- An exclamation mark in front of an equals sign is no sign of a negation.
  have starts : c.skipBlanks.startsWith "!=" = true ↔ c.Next (.mark (.compare .ne)) :=
    startsWith_iff_next rfl fun _ _ => rfl
  by_cases ne : c.Next (.mark (.compare .ne))
  · rw [if_pos (starts.2 ne), Option.or_none, takeKeyword?_iff rfl]
    constructor
    · rintro ⟨next, passes⟩
      cases next.unique ne
    · rintro ⟨t, rfl | rfl, next, passes⟩ <;> cases next.unique ne
  · rw [if_neg (mt starts.1 ne)]
    refine takeEither_iff rfl rfl fun r hrest => ?_
    refine Mark.first?_short (by decide) fun more (same : r = '=' :: more) => ?_
    refine ne (next_mark_iff.2 ?_)
    rw [hrest, same]
    rfl

/-- A comparison operator, if it starts no longer one. -/
theorem take?_compare_iff {op : CompareOp} (less : op = .lt → ¬c.Next (.mark (.compare .le)))
    (greater : op = .gt → ¬c.Next (.mark (.compare .ge))) :
    c.skipBlanks.take? op.symbol = some c' ↔
      c.Next (.mark (.compare op)) ∧ c' = c.pass (.mark (.compare op)) := by
  cases op with
  | lt =>
    refine take?_iff rfl fun r hrest => ?_
    refine Mark.first?_short (by decide) fun more (same : r = '=' :: more) => ?_
    refine less rfl (next_mark_iff.2 ?_)
    rw [hrest, same]
    rfl
  | gt =>
    refine take?_iff rfl fun r hrest => ?_
    refine Mark.first?_short (by decide) fun more (same : r = '=' :: more) => ?_
    refine greater rfl (next_mark_iff.2 ?_)
    rw [hrest, same]
    rfl
  | le | ge | eq | ne => exact take?_iff rfl fun _ _ => rfl

/-- A comparison operator and the cursor after it, if one comes next. -/
def comparison? (c : Cursor) : Option (CompareOp × Cursor) :=
  comparisons.findSome? fun op => (c.take? op.symbol).map fun c => (op, c)

theorem comparison?_of_next {op : CompareOp} (h : c.Next (.mark (.compare op))) :
    comparison? c.skipBlanks = some (op, c.pass (.mark (.compare op))) := by
  have other : ∀ op', op' ≠ op → ¬c.Next (.mark (.compare op')) := by
    intro op' differs next
    cases next.unique h
    exact differs rfl
  have found : c.skipBlanks.take? op.symbol = some (c.pass (.mark (.compare op))) := by
    refine (take?_compare_iff ?_ ?_).2 ⟨h, rfl⟩
    · rintro rfl
      exact other _ (by decide)
    · rintro rfl
      exact other _ (by decide)
  have missing : ∀ op', op' ≠ op → (op' = .lt → op ≠ .le) → (op' = .gt → op ≠ .ge) →
      c.skipBlanks.take? op'.symbol = none := by
    intro op' differs less greater
    refine Option.eq_none_iff_forall_ne_some.2 fun c₁ taken => other op' differs ?_
    refine ((take?_compare_iff ?_ ?_).1 taken).1
    · exact fun lt => other _ fun le => less lt le.symm
    · exact fun gt => other _ fun ge => greater gt ge.symm
  unfold comparison? comparisons
  cases op <;> simp [found, missing]

theorem comparison?_of_not_next (h : ∀ op, ¬c.Next (.mark (.compare op))) :
    comparison? c.skipBlanks = none := by
  refine List.findSome?_eq_none_iff.2 fun op _ => Option.map_eq_none_iff.2 ?_
  refine Option.eq_none_iff_forall_ne_some.2 fun c₁ taken => h op ?_
  exact ((take?_compare_iff (fun _ => h _) (fun _ => h _)).1 taken).1

theorem next_of_comparison? {op : CompareOp} (h : comparison? c.skipBlanks = some (op, c')) :
    c.Next (.mark (.compare op)) ∧ c' = c.pass (.mark (.compare op)) := by
  by_cases next : ∃ op, c.Next (.mark (.compare op))
  · obtain ⟨op', next⟩ := next
    rw [comparison?_of_next next] at h
    cases h
    exact ⟨next, rfl⟩
  · rw [comparison?_of_not_next fun op found => next ⟨op, found⟩] at h
    cases h

theorem next_of_comparisonOperator {op : CompareOp}
    (h : comparisonOperator c = .ok (some (op, c'))) :
    c.Next (.mark (.compare op)) ∧ c' = c.pass (.mark (.compare op)) := by
  unfold comparisonOperator at h
  dsimp only at h
  split at h
  · rename_i found same
    cases h
    exact next_of_comparison? same
  · split at h <;> cases h

end Grammar

end Stratagem
