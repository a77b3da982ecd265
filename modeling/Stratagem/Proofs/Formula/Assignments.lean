import Mathlib.Data.List.TakeWhile
import Stratagem.Proofs.Formula.Completeness

/-!
# Statements

A statement `name = expression` is read as a name, the first equals sign and the expression behind
it. What is read in front of the equals sign is the text there without the blanks around it
(`trim_eq_iff`), and what is read behind it is what is read from that part of the text alone: the
readers see the tokens in front of them only, wherever they stand (`exists_whole_iff`). Both parts
together say which statements are read, and as what (`parseAssignment_eq_ok_iff`).
-/

namespace Stratagem

/-! ## Blanks around a word -/

namespace Text

/-- Nothing but blanks. -/
def Blanks (cs : List Char) : Prop := ∀ c ∈ cs, isBlank c = true

theorem skipBlanks_append {pre cs : List Char} (blanks : Blanks pre)
    (stops : ∀ c ∈ cs.head?, isBlank c = false) : skipBlanks (pre ++ cs) = cs := by
  rw [skipBlanks, List.dropWhile_append_of_pos blanks]
  cases cs with
  | nil => rfl
  | cons c cs => exact List.dropWhile_cons_of_neg (by simp [stops c rfl])

/-- What is skipped is blank. -/
theorem exists_skipBlanks (cs : List Char) : ∃ pre, Blanks pre ∧ cs = pre ++ skipBlanks cs := by
  refine ⟨cs.takeWhile isBlank, ?_, List.takeWhile_append_dropWhile.symm⟩
  intro c among
  exact List.mem_takeWhile_imp among

/-- What trimming takes away is blank. -/
theorem exists_trimChars (cs : List Char) :
    ∃ pre post, Blanks pre ∧ Blanks post ∧ cs = pre ++ trimChars cs ++ post := by
  obtain ⟨pre, hpre, front⟩ := exists_skipBlanks cs
  obtain ⟨post, hpost, back⟩ := exists_skipBlanks (skipBlanks cs).reverse
  refine ⟨pre, post.reverse, hpre, ?_, ?_⟩
  · intro c among
    exact hpost c (List.mem_reverse.1 among)
  · have back : skipBlanks cs = trimChars cs ++ post.reverse := by
      rw [trimChars, ← List.reverse_append, ← back, List.reverse_reverse]
    rw [List.append_assoc, ← back, ← front]

theorem trimChars_append {pre word post : List Char} (hpre : Blanks pre) (hpost : Blanks post)
    (some : word ≠ []) (solid : ∀ c ∈ word, isBlank c = false) :
    trimChars (pre ++ word ++ post) = word := by
  have front : skipBlanks (pre ++ (word ++ post)) = word ++ post := by
    apply skipBlanks_append hpre
    intro c first
    obtain ⟨d, word, rfl⟩ := List.exists_cons_of_ne_nil some
    obtain rfl : d = c := Option.some.inj first
    exact solid d List.mem_cons_self
  have back : skipBlanks (post.reverse ++ word.reverse) = word.reverse := by
    apply skipBlanks_append
    · intro c among
      exact hpost c (List.mem_reverse.1 among)
    · intro c first
      exact solid c (List.mem_reverse.1 (List.mem_of_head? first))
  rw [trimChars, List.append_assoc, front, List.reverse_append, back, List.reverse_reverse]

/-- A word is what is left of a text after trimming if there are only blanks around it. -/
theorem trim_eq_iff {text word : String} (some : word.toList ≠ [])
    (solid : ∀ c ∈ word.toList, isBlank c = false) :
    trim text = word ↔
      ∃ pre post, Blanks pre ∧ Blanks post ∧ text.toList = pre ++ word.toList ++ post := by
  constructor
  · rintro rfl
    rw [trim, String.toList_ofList]
    exact exists_trimChars text.toList
  · rintro ⟨pre, post, hpre, hpost, same⟩
    rw [trim, same, trimChars_append hpre hpost some solid, String.ofList_toList]

end Text

/-! ## Names -/

namespace Literal

variable {name : String}

theorem isName_of_isTarget (h : isTarget name = true) : isName name = true := by
  simp only [isTarget, Bool.and_eq_true] at h
  exact h.1.1

/-- What is read as a name can be bound unless it is reserved or the name of a function. -/
theorem isTarget_of_name {c c' : Cursor} (h : Literal.name c = .ok (name, c')) :
    isTarget name = !(reservedWords.contains name || (Builtin.ofName? name).isSome) := by
  have named : isName name = true := by
    unfold Literal.name at h
    split at h
    · rename_i start
      cases h
      obtain ⟨x, first, starts⟩ := (Option.any_eq_true _ _).1 start
      have char := isNameChar_of_isNameStart starts
      rw [isName, String.toList_ofList, List.head?_takeWhile, first, Option.filter_some_pos char,
        Option.any_some, starts, List.all_takeWhile, Bool.and_self]
    · cases h
  rw [isTarget, named, Bool.true_and, Bool.not_or, Option.not_isSome]

theorem toList_ne_nil_of_isName (h : isName name = true) : name.toList ≠ [] := by
  intro none
  simp [isName, none] at h

theorem isNameChar_of_isName (h : isName name = true) {c : Char} (among : c ∈ name.toList) :
    isNameChar c = true := by
  simp only [isName, Bool.and_eq_true, List.all_eq_true] at h
  exact h.2 c among

end Literal

theorem isBlank_of_isNameChar {c : Char} (h : isNameChar c = true) : Text.isBlank c = false := by
  rw [isNameChar, Char.isAlphanum, Bool.or_eq_true, Bool.or_eq_true] at h
  rcases h with (letter | digit) | underscore
  · exact isBlank_of_isNameStart (by simp [isNameStart, letter])
  · have := toNat_of_isDigit digit
    exact isBlank_of_toNat (by omega) (by omega)
  · exact isBlank_of_isNameStart (by simp [isNameStart, underscore])

/-- A name is what is left of a text after trimming if there are only blanks around it. -/
theorem Literal.trim_eq_iff {text name : String} (isName : Literal.isName name = true) :
    Text.trim text = name ↔ ∃ pre post, Text.Blanks pre ∧ Text.Blanks post ∧
      text.toList = pre ++ name.toList ++ post := by
  apply Text.trim_eq_iff (toList_ne_nil_of_isName isName)
  intro c among
  exact isBlank_of_isNameChar (isNameChar_of_isName isName among)

/-! ## Expressions behind a cursor -/

/-- Operators of comparisons and stray characters are not the first token of an expression. -/
theorem Derives.starts {n : Nat} {p : Phrase} {ts : List Token} (h : Derives n p ts) :
    (∃ rest, p = .pairs rest) ∨
      ∃ t more, ts = t :: more ∧ (∀ op, t ≠ .mark (.compare op)) ∧ ∀ c, t ≠ .stray c := by
  induction h with
  | number | true | false | text | var | parentheses | call | minus | plus =>
    exact .inr ⟨_, _, rfl, nofun, nofun⟩
  | not sign => rcases sign with rfl | rfl <;> exact .inr ⟨_, _, rfl, nofun, nofun⟩
  | power left right ih | compare left right some ih | chain operator left right ih
  | lastArgument inside ih | argument inside more ih =>
    obtain ⟨rest, same⟩ | ⟨t, more, rfl, starts⟩ := ih
    · cases same
    · exact .inr ⟨t, _, rfl, starts⟩
  | tighter inside ih =>
    obtain ⟨rest, same⟩ | starts := ih
    · cases same
    · exact .inr starts
  | noPairs | pair => exact .inl ⟨_, rfl⟩

namespace Grammar

open Token

variable {n : Nat} {e : Expr} {c : Cursor}

/-- No expression starts with an equals sign. -/
theorem head?_ne_equals {cs : List Char} (h : Derives n (.expr .connective e) (solid cs)) :
    cs.head? ≠ some '=' := by
  intro head
  obtain ⟨r, rfl⟩ := List.head?_eq_some_iff.1 head
  rw [solid_cons rfl] at h
  obtain ⟨rest, same⟩ | ⟨t, more, first, compare, stray⟩ := h.starts
  · cases same
  · have kind := first_kind '=' r
    rw [(List.cons.inj first).1] at kind
    cases kind with
    | blank blank => cases blank
    | word start => cases start
    | number start read => rcases start with digit | ⟨point, -⟩ <;> contradiction
    | quoted quote closed => rcases quote with double | single <;> contradiction
    | mark read =>
      unfold Mark.first? at read
      split at read <;> cases read <;> rename_i same <;> cases same
      exact compare .eq rfl
    | stray => exact stray '=' rfl

/-- From the outermost level on, an expression is read up to the end of the text exactly if the
tokens that are left stand for it. -/
theorem exists_whole_iff (top : c.depth = 0) :
    (∃ c', whole c = .ok (e, c') ∧ finish c' = .ok ()) ↔
      Derives maxNesting (.expr .connective e) (solid c.rest) := by
  constructor
  · rintro ⟨c', read, finished⟩
    obtain ⟨-, ts, hts, derives⟩ := (obeys_nested _).connective _ _ _ read
    rw [solid_of_finish finished, List.append_nil] at hts
    rw [top] at derives
    exact hts ▸ derives
  · intro derives
    obtain ⟨c', read, rest, -⟩ := (complete_of_derives derives).accepts (Nat.le_refl maxNesting)
      (by rw [top, Nat.zero_add]) (List.append_nil _).symm nofun
    exact ⟨c', read, finish_of_solid rest⟩

/-! ## Statements -/

/-- The equals sign of a statement is a single one. -/
theorem takeEquals_iff {c' : Cursor} :
    (if c.startsWith "==" then none else c.take? "=") = some c' ↔
      ∃ after, c.rest = '=' :: after ∧ after.head? ≠ some '=' ∧ c' = c.after ['='] := by
  rw [Cursor.take?]
  constructor
  · intro h
    split at h
    · cases h
    · rename_i single
      split at h
      · rename_i starts
        cases h
        obtain ⟨after, rest⟩ := Cursor.startsWith_iff.1 starts
        refine ⟨after, rest, ?_, rfl⟩
        intro second
        obtain ⟨more, rfl⟩ := List.head?_eq_some_iff.1 second
        exact single (Cursor.startsWith_iff.2 ⟨more, rest⟩)
      · cases h
  · rintro ⟨after, rest, other, rfl⟩
    have single : ¬c.startsWith "==" = true := by
      intro starts
      obtain ⟨more, double⟩ := Cursor.startsWith_iff.1 starts
      rw [rest] at double
      obtain rfl : after = '=' :: more := (List.cons.inj double).2
      exact other rfl
    rw [if_neg single, if_pos (Cursor.startsWith_iff.2 ⟨after, rest⟩)]
    rfl

/-- The name at the start of a text, with blanks in front of it and behind it. -/
theorem next_word_of_blanks {pre post after : List Char} {name : String}
    (isName : Literal.isName name = true) (hpre : Text.Blanks pre) (hpost : Text.Blanks post)
    (same : c.rest = pre ++ name.toList ++ post ++ '=' :: after) :
    c.Next (.word name) ∧ (c.pass (.word name)).skipBlanks.rest = '=' :: after := by
  have some := Literal.toList_ne_nil_of_isName isName
  have chars := fun c => @Literal.isNameChar_of_isName name isName c
  have front : c.skipBlanks.rest = name.toList ++ (post ++ '=' :: after) := by
    rw [Cursor.skipBlanks_rest, same, List.append_assoc, List.append_assoc]
    apply Text.skipBlanks_append hpre
    intro c first
    obtain ⟨d, word, same⟩ := List.exists_cons_of_ne_nil some
    rw [same] at first
    obtain rfl : d = c := Option.some.inj first
    exact isBlank_of_isNameChar (chars d (same ▸ List.mem_cons_self))
  have stops : (post ++ '=' :: after).takeWhile isNameChar = [] := by
    cases post with
    | nil => rfl
    | cons d post =>
      apply List.takeWhile_cons_of_neg
      intro char
      have blank := hpost d List.mem_cons_self
      rw [isBlank_of_isNameChar char] at blank
      cases blank
  have next : c.Next (.word name) := by
    refine Cursor.next_word_iff.2 ⟨?_, ?_⟩
    · rw [front]
      simp only [Literal.isName, Bool.and_eq_true] at isName
      cases same : name.toList with
      | nil => exact absurd same some
      | cons d word =>
        rw [same] at isName
        exact isName.1
    · rw [front, List.takeWhile_append_of_pos chars, stops, List.append_nil]
  refine ⟨next, ?_⟩
  have rest := Cursor.rest_of_next next
  rw [front, spelling, List.append_cancel_left_eq] at rest
  rw [Cursor.skipBlanks_rest, ← rest]
  apply Text.skipBlanks_append hpost
  rintro c ⟨⟩
  rfl

/-- The text in front of an equals sign that stands behind a name is the name with blanks. -/
theorem exists_blanks_of_next_word {c : Cursor} {name : String} {after : List Char}
    (next : c.Next (.word name)) (rest : (c.pass (.word name)).skipBlanks.rest = '=' :: after) :
    ∃ pre post, Text.Blanks pre ∧ Text.Blanks post ∧
      c.rest = pre ++ name.toList ++ post ++ '=' :: after := by
  have split := Cursor.rest_of_next next
  generalize c.pass (.word name) = c₁ at rest split
  obtain ⟨pre, hpre, front⟩ := Text.exists_skipBlanks c.rest
  obtain ⟨post, hpost, back⟩ := Text.exists_skipBlanks c₁.rest
  rw [Cursor.skipBlanks_rest] at rest split
  refine ⟨pre, post, hpre, hpost, ?_⟩
  calc
    c.rest = pre ++ Text.skipBlanks c.rest := front
    _ = pre ++ (name.toList ++ c₁.rest) := congrArg (pre ++ ·) split
    _ = pre ++ (name.toList ++ (post ++ Text.skipBlanks c₁.rest)) := by rw [← back]
    _ = pre ++ (name.toList ++ (post ++ '=' :: after)) := by rw [Text.skipBlanks, rest]
    _ = pre ++ name.toList ++ post ++ '=' :: after := by simp only [List.append_assoc]

/-- A text is read as a statement exactly if it is short, the part of it in front of an equals sign
is a name that can be bound with blanks around it, and the tokens behind that sign stand for the
expression. -/
theorem parseAssignment_eq_ok_iff {source target : String} :
    Expr.parseAssignment source = .ok (target, e) ↔
      source.utf8ByteSize ≤ maxSourceBytes ∧ Literal.isTarget target = true ∧
        ∃ pre post after, Text.Blanks pre ∧ Text.Blanks post ∧
          source.toList = pre ++ target.toList ++ post ++ '=' :: after ∧
          Derives maxNesting (.expr .connective e) (solid after) := by
  constructor
  · intro h
    obtain ⟨_, checked, h⟩ := bind_eq_ok.1 h
    obtain ⟨⟨name, c⟩, named, h⟩ := bind_eq_ok.1 h
    have target_iff := Literal.isTarget_of_name named
    obtain ⟨next, rfl⟩ := next_of_name named
    dsimp only at h
    split at h
    · cases h
    · rename_i free
      split at h
      · cases h
      · rename_i c₁ found
        obtain ⟨⟨e₁, c₂⟩, read, h⟩ := bind_eq_ok.1 h
        obtain ⟨_, finished, h⟩ := bind_eq_ok.1 h
        cases h
        have bindable : Literal.isTarget target = true := by
          rw [target_iff, Bool.eq_false_iff.2 free, Bool.not_false]
        obtain ⟨after, rest, -, rfl⟩ := takeEquals_iff.1 found
        have derives := (exists_whole_iff rfl).1 ⟨c₂, read, finished⟩
        rw [Cursor.after, rest] at derives
        obtain ⟨pre, post, hpre, hpost, same⟩ := exists_blanks_of_next_word next rest
        exact ⟨(checkSource_eq_ok_iff.1 checked).1, bindable, pre, post, after, hpre, hpost, same,
          derives⟩
  · rintro ⟨short, bindable, pre, post, after, hpre, hpost, same, derives⟩
    have solid : Text.isBlankText source = false := by
      rw [Text.isBlankText, same, List.all_eq_false]
      exact ⟨'=', by simp, by decide⟩
    have checked := checkSource_eq_ok_iff.2 ⟨short, solid⟩
    obtain ⟨next, rest⟩ := @next_word_of_blanks (.start source) _ _ _ _
      (Literal.isName_of_isTarget bindable) hpre hpost same
    have found := takeEquals_iff.2 ⟨after, rest, head?_ne_equals derives, rfl⟩
    generalize equals : Cursor.after _ ['='] = c₁ at found
    have left : c₁.rest = after ∧ c₁.depth = 0 := by
      rw [← equals, Cursor.after, rest]
      exact ⟨rfl, rfl⟩
    rw [← left.1] at derives
    obtain ⟨c₂, read, finished⟩ := (exists_whole_iff left.2).2 derives
    have named := name_of_next next
    have free : ¬(Literal.reservedWords.contains target ||
        (Builtin.ofName? target).isSome) = true := by
      rw [Bool.not_eq_true, ← Bool.not_eq_true', ← Literal.isTarget_of_name named, bindable]
    simp only [Expr.parseAssignment, bind, Except.bind, checked, named, if_neg free, found, read,
      finished]
    rfl

/-- A list is cut at the first place of an element in one way. -/
theorem eq_of_first_place {x : Char} {before before' after after' : List Char} (h : x ∉ before)
    (h' : x ∉ before') (same : before ++ x :: after = before' ++ x :: after') :
    before = before' ∧ after = after' := by
  induction before generalizing before' with
  | nil =>
    cases before' with
    | nil => exact ⟨rfl, (List.cons.inj same).2⟩
    | cons y before' =>
      obtain ⟨rfl, -⟩ := List.cons.inj same
      exact absurd List.mem_cons_self h'
  | cons y before ih =>
    cases before' with
    | nil =>
      obtain ⟨rfl, -⟩ := List.cons.inj same
      exact absurd List.mem_cons_self h
    | cons z before' =>
      obtain ⟨rfl, later⟩ := List.cons.inj same
      obtain ⟨rfl, rfl⟩ := ih (mt (List.mem_cons_of_mem y) h) (mt (List.mem_cons_of_mem y) h') later
      exact ⟨rfl, rfl⟩

theorem toList_statement (front back : String) :
    (front ++ "=" ++ back).toList = front.toList ++ '=' :: back.toList := by
  rw [String.toList_append, String.toList_append, List.append_assoc]
  rfl

/-- In front of the equals sign of a statement there is no other one. -/
theorem equals_notMem {pre post : List Char} {name : String} (isName : Literal.isName name = true)
    (hpre : Text.Blanks pre) (hpost : Text.Blanks post) :
    '=' ∉ pre ++ name.toList ++ post := by
  intro among
  rcases List.mem_append.1 among with among | among
  · rcases List.mem_append.1 among with among | among
    · cases hpre '=' among
    · cases Literal.isNameChar_of_isName isName among
  · cases hpost '=' among

/-- A statement that is read has the expression that is read from the text behind its first equals
sign. -/
theorem exists_of_parseAssignment {source target : String}
    (h : Expr.parseAssignment source = .ok (target, e)) :
    Literal.isTarget target = true ∧ ∃ before after, source = before ++ "=" ++ after ∧
      '=' ∉ before.toList ∧ Text.trim before = target ∧ Expr.parse after = .ok e := by
  obtain ⟨short, bindable, pre, post, after, hpre, hpost, same, derives⟩ :=
    parseAssignment_eq_ok_iff.1 h
  have isName := Literal.isName_of_isTarget bindable
  have split : source =
      String.ofList (pre ++ target.toList ++ post) ++ "=" ++ String.ofList after := by
    apply String.toList_injective
    rw [same, toList_statement, String.toList_ofList, String.toList_ofList]
  refine ⟨bindable, _, _, split, ?_, ?_, ?_⟩
  · rw [String.toList_ofList]
    exact equals_notMem isName hpre hpost
  · exact (Literal.trim_eq_iff isName).2 ⟨pre, post, hpre, hpost, String.toList_ofList⟩
  · refine parse_eq_ok_iff.2 ⟨?_, by rwa [String.toList_ofList]⟩
    rw [split, String.utf8ByteSize_append] at short
    omega

/-- A text in front of the only or the first equals sign, and a text behind it, are read together as
they are read one by one. -/
theorem parseAssignment_append_iff {front back target : String}
    (short : front.utf8ByteSize + 1 + back.utf8ByteSize ≤ maxSourceBytes)
    (plain : '=' ∉ front.toList) :
    Expr.parseAssignment (front ++ "=" ++ back) = .ok (target, e) ↔
      Text.trim front = target ∧ Literal.isTarget target = true ∧ Expr.parse back = .ok e := by
  constructor
  · intro h
    obtain ⟨bindable, before, after, same, first, trims, read⟩ := exists_of_parseAssignment h
    have split : front.toList ++ '=' :: back.toList = before.toList ++ '=' :: after.toList := by
      rw [← toList_statement, same, toList_statement]
    obtain ⟨sameFront, sameBack⟩ := eq_of_first_place plain first split
    rw [String.toList_injective sameFront, String.toList_injective sameBack]
    exact ⟨trims, bindable, read⟩
  · rintro ⟨trims, bindable, read⟩
    have isName := Literal.isName_of_isTarget bindable
    obtain ⟨pre, post, hpre, hpost, same⟩ := (Literal.trim_eq_iff isName).1 trims
    refine parseAssignment_eq_ok_iff.2 ⟨?_, bindable, pre, post, back.toList, hpre, hpost, ?_,
      (parse_eq_ok_iff.1 read).2⟩
    · rw [String.utf8ByteSize_append, String.utf8ByteSize_append]
      exact short
    · rw [toList_statement, same]

/-- A name that can be bound, an equals sign and a text are read as a statement if the text is read
as an expression, and only then. -/
theorem parseAssignment_target_iff {target source : String}
    (short : target.utf8ByteSize + 1 + source.utf8ByteSize ≤ maxSourceBytes) :
    Expr.parseAssignment (target ++ "=" ++ source) = .ok (target, e) ↔
      Literal.isTarget target = true ∧ Expr.parse source = .ok e := by
  have plain : Literal.isTarget target = true → '=' ∉ target.toList := by
    intro bindable among
    cases Literal.isNameChar_of_isName (Literal.isName_of_isTarget bindable) among
  have trims : Literal.isTarget target = true → Text.trim target = target := by
    intro bindable
    have isName := Literal.isName_of_isTarget bindable
    refine (Literal.trim_eq_iff isName).2 ⟨[], [], nofun, nofun, ?_⟩
    rw [List.nil_append, List.append_nil]
  constructor
  · intro h
    have bindable := (exists_of_parseAssignment h).1
    exact ((parseAssignment_append_iff short (plain bindable)).1 h).2
  · rintro ⟨bindable, read⟩
    exact (parseAssignment_append_iff short (plain bindable)).2 ⟨trims bindable, bindable, read⟩

end Grammar

end Stratagem
