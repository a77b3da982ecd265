import Stratagem.Formula.Grammar
import Stratagem.Proofs.Chains
import Stratagem.Proofs.Formula.Tokens

/-!
# Where syntax errors point

An error shows how many bytes have been read, but a caret stands under a character. The two agree as
long as a cursor never stops inside a character and never loses count. So every reader is followed
with one question: do the characters between the cursor before and the cursor after have as many
bytes as its position has grown (`Cursor.Precedes`), and is every error raised at such a cursor
(`Cursor.Locates`)? Readers go back to earlier places for their errors, never to others.

The levels are tied together by induction on the nesting (`located_nested`). The position of an
error is then that of a cursor in the text, and cuts the text in two (`Expr.error_between`).
-/

namespace Stratagem

variable {α β : Type}

/-! ## Bytes and characters -/

namespace Text

theorem bytes_append (xs ys : List Char) : bytes (xs ++ ys) = bytes xs + bytes ys := by
  induction xs with
  | nil => simp [bytes]
  | cons c xs ih => simp [bytes, ih, Nat.add_assoc]

theorem charsBefore_bytes (xs ys : List Char) :
    charsBefore (bytes xs) (xs ++ ys) = some xs.length := by
  induction xs with
  | nil => simp [bytes, charsBefore]
  | cons c xs ih =>
    obtain ⟨k, hk⟩ : ∃ k, c.utf8Size = k + 1 :=
      ⟨c.utf8Size - 1, by have := c.utf8Size_pos; omega⟩
    have hb : bytes (c :: xs) = (k + bytes xs) + 1 := by simp [bytes, hk]; omega
    have hsub : k + bytes xs + 1 - (k + 1) = bytes xs := by omega
    simp [hb, charsBefore, hk, hsub, ih]

end Text

/-! ## Cursors in one text -/

namespace Cursor

variable {c c₁ c₂ : Cursor}

/-- The second cursor stands in the text of the first, at the same place or further on, and the
bytes between them have been counted. -/
def Precedes (c c' : Cursor) : Prop :=
  ∃ between, c.rest = between ++ c'.rest ∧ c'.position = c.position + Text.bytes between

theorem Precedes.refl (c : Cursor) : c.Precedes c := ⟨[], rfl, rfl⟩

theorem Precedes.trans (h₁ : c.Precedes c₁) (h₂ : c₁.Precedes c₂) : c.Precedes c₂ := by
  obtain ⟨xs, rest₁, position₁⟩ := h₁
  obtain ⟨ys, rest₂, position₂⟩ := h₂
  refine ⟨xs ++ ys, ?_, ?_⟩
  · rw [rest₁, rest₂, List.append_assoc]
  · rw [position₂, position₁, Text.bytes_append, Nat.add_assoc]

theorem precedes_after {taken : List Char} (h : taken <+: c.rest) : c.Precedes (c.after taken) :=
  ⟨taken, (List.prefix_iff_eq_append.1 h).symm, rfl⟩

theorem precedes_skip (c : Cursor) (count : Nat) : c.Precedes (c.skip count) :=
  precedes_after <| List.take_prefix count c.rest

theorem precedes_skipBlanks (c : Cursor) : c.Precedes c.skipBlanks :=
  precedes_after <| List.takeWhile_prefix Text.isBlank

theorem precedes_leave (c : Cursor) : c.Precedes c.leave := ⟨[], rfl, rfl⟩

theorem precedes_of_startsWith {word : String} (h : c.startsWith word = true) :
    c.Precedes (c.after word.toList) :=
  precedes_after (List.isPrefixOf_iff_prefix.1 h)

theorem precedes_of_take? {word : String} (h : c.take? word = some c₁) : c.Precedes c₁ := by
  unfold take? at h
  split at h
  · rename_i starts
    cases h
    exact precedes_of_startsWith starts
  · cases h

theorem precedes_of_takeKeyword? {word : String} (h : c.takeKeyword? word = some c₁) :
    c.Precedes c₁ := by
  simp only [takeKeyword?] at h
  split at h
  · rename_i starts
    cases h
    exact precedes_of_startsWith (Bool.and_eq_true_iff.1 starts).1
  · cases h

/-! ## Errors behind a cursor -/

/-- Reading on from a cursor gives something with a property, or it fails at a cursor behind. -/
def Locates (c : Cursor) (x : Except SyntaxError α) (P : α → Prop) : Prop :=
  match x with
  | .ok a => P a
  | .error e => ∃ c', c.Precedes c' ∧ e.position = c'.position

theorem Locates.bind {x : Except SyntaxError α} {f : α → Except SyntaxError β} {P : α → Prop}
    {Q : β → Prop} (hx : c.Locates x P) (hf : ∀ a, P a → c.Locates (f a) Q) :
    c.Locates (x >>= f) Q := by
  cases x with
  | error e => exact hx
  | ok a => exact hf a hx

theorem Locates.mono {x : Except SyntaxError α} {P Q : α → Prop} (hx : c₁.Locates x P)
    (back : c.Precedes c₁) (weaker : ∀ a, P a → Q a) : c.Locates x Q := by
  cases x with
  | error e =>
    obtain ⟨c', ahead, position⟩ := hx
    exact ⟨c', back.trans ahead, position⟩
  | ok a => exact weaker a hx

theorem locates_fail (h : c.Precedes c₁) (reason : SyntaxError.Reason) (P : α → Prop) :
    c.Locates (c₁.fail reason) P :=
  ⟨c₁, h, rfl⟩

theorem locates_expect (h : c.Precedes c₁) (wanted : Char) :
    c.Locates (c₁.expect wanted) c.Precedes := by
  have blanks := h.trans c₁.precedes_skipBlanks
  simp only [expect]
  split
  · exact blanks.trans (precedes_skip _ 1)
  · exact locates_fail blanks _ _

theorem locates_enter (h : c.Precedes c₁) : c.Locates c₁.enter c.Precedes := by
  unfold enter
  split
  · exact h
  · exact locates_fail h _ _

end Cursor

namespace Grammar

open Cursor

variable {c c₁ c₂ : Cursor}

/-! ## Readers and operators -/

/-- A reader stays in the text, and so do its errors. -/
def Located (reader : Parse α) : Prop :=
  ∀ c : Cursor, c.Locates (reader c) fun r => c.Precedes r.2

/-- What stands further on in the text lies behind everything before it. -/
theorem Located.behind {reader : Parse α} (h : Located reader) (before : c.Precedes c₁) :
    c.Locates (reader c₁) fun r => c.Precedes r.2 :=
  (h c₁).mono before fun _ => before.trans

/-- The readers of nested parts stay in the text. -/
structure Inner.Located (inner : Inner) : Prop where
  connective : Grammar.Located inner.connective
  negation : Grammar.Located inner.negation
  signed : Grammar.Located inner.signed

/-- An operator stays in the text. -/
def Operator.Located (operator : Operator) : Prop :=
  ∀ c combine c', operator c = some (combine, c') → c.Precedes c'

theorem located_connectiveOperator : connectiveOperator.Located := by
  intro c combine c' h
  unfold connectiveOperator at h
  split at h <;> cases h <;> exact c.precedes_skip 1

/-- An operator is a keyword or a sign. -/
theorem located_either {word sign : String} {combine : Expr → Expr → Expr} :
    Operator.Located fun c =>
      ((c.takeKeyword? word).or (c.take? sign)).map fun c => (combine, c) := by
  intro c combine' c' h
  obtain ⟨_, found, same⟩ := Option.map_eq_some_iff.1 h
  cases same
  rcases Option.or_eq_some_iff.1 found with keyword | ⟨-, sign⟩
  · exact precedes_of_takeKeyword? keyword
  · exact precedes_of_take? sign

theorem located_sumOperator : sumOperator.Located := by
  intro c combine c' h
  unfold sumOperator at h
  split at h <;> cases h <;> exact c.precedes_skip 1

theorem located_productOperator : productOperator.Located := by
  intro c combine c' h
  unfold productOperator at h
  split at h
  · cases h
  · split at h <;> cases h <;> exact c.precedes_skip 1

theorem precedes_of_notOperator (h : notOperator c = some c₁) : c.Precedes c₁ := by
  rcases Option.or_eq_some_iff.1 h with keyword | ⟨-, sign⟩
  · exact precedes_of_takeKeyword? keyword
  · split at sign
    · cases sign
    · exact precedes_of_take? sign

/-- A comparison operator, if there is one, ends further on. -/
theorem locates_comparisonOperator (h : c.Precedes c₁) :
    c.Locates (comparisonOperator c₁) fun found =>
      ∀ op c', found = some (op, c') → c.Precedes c' := by
  have blanks := h.trans c₁.precedes_skipBlanks
  simp only [comparisonOperator]
  split
  · rename_i found hfound
    rintro op c' ⟨⟩
    obtain ⟨_, -, taken⟩ := List.exists_of_findSome?_eq_some hfound
    obtain ⟨_, taken, same⟩ := Option.map_eq_some_iff.1 taken
    cases same
    exact blanks.trans (precedes_of_take? taken)
  · split
    · exact locates_fail blanks _ _
    · exact nofun

/-! ## Chains -/

theorem located_chainLoop {operand : Parse Expr} {operator : Operator} (operands : Located operand)
    (operators : operator.Located) (budget : Nat) (left : Expr) :
    Located (chainLoop operand operator budget left) := by
  induction budget generalizing left with
  | zero => exact fun c => c.precedes_skipBlanks
  | succ budget ih =>
    intro c
    have blanks := c.precedes_skipBlanks
    simp only [chainLoop]
    split
    · exact blanks
    · rename_i combine c₁ found
      refine (operands.behind (blanks.trans (operators _ _ _ found))).bind ?_
      rintro ⟨right, c₂⟩ before
      exact (ih _).behind before

theorem located_chain {operand : Parse Expr} {operator : Operator} (operands : Located operand)
    (operators : operator.Located) : Located (chain operand operator) := by
  intro c
  refine (operands c).bind ?_
  rintro ⟨first, c₁⟩ before
  exact (located_chainLoop operands operators _ _).behind before

/-! ## Literals -/

theorem located_number : Located Literal.number := by
  intro c
  have digits := precedes_after (Literal.mantissa_starts c.rest)
  simp only [Literal.number]
  split
  · exact locates_fail digits _ _
  · rename_i exponent hexponent
    split
    · exact locates_fail (.refl c) _ _
    · split
      · exact digits.trans (precedes_after (Literal.exponent?_starts hexponent))
      · exact locates_fail (.refl c) _ _

theorem located_quoted (quote : Char) : Located (Literal.quoted quote) := by
  intro c
  simp only [Literal.quoted]
  split
  · exact locates_fail (.refl c) _ _
  · have inside : (c.skip 1).Precedes _ := precedes_after <| List.takeWhile_prefix (· != quote)
    exact ((c.precedes_skip 1).trans inside).trans (precedes_skip _ 1)

theorem located_name : Located Literal.name := by
  intro c
  unfold Literal.name
  split
  · exact precedes_after <| List.takeWhile_prefix isNameChar
  · exact locates_fail (.refl c) _ _

/-! ## Levels -/

section

variable {inner : Inner} (located : inner.Located)
include located

theorem located_parenthesized : Located (parenthesized inner) := by
  intro c
  refine (locates_enter (c.precedes_skip 1)).bind fun c₁ h₁ => ?_
  refine (located.connective.behind h₁).bind ?_
  rintro ⟨e, c₂⟩ h₂
  refine (locates_expect h₂ _).bind fun c₃ h₃ => ?_
  exact h₃.trans c₃.precedes_leave

theorem located_argumentLoop (budget : Nat) (read : List Expr) :
    Located (argumentLoop inner budget read) := by
  induction budget generalizing read with
  | zero => exact fun c => locates_fail (.refl c) _ _
  | succ budget ih =>
    intro c
    refine (located.connective c).bind ?_
    rintro ⟨e, c₁⟩ h₁
    have blanks := h₁.trans c₁.precedes_skipBlanks
    dsimp only
    split
    · exact blanks.trans (precedes_skip _ 1)
    · exact (locates_expect blanks _).bind fun c₂ h₂ => (ih _).behind h₂

theorem located_arguments : Located (arguments inner) := by
  intro c
  have blanks := c.precedes_skipBlanks
  simp only [arguments]
  split
  · exact blanks.trans (precedes_skip _ 1)
  · exact (located_argumentLoop located _ _).behind blanks

/-- The errors of a call point to its name, or to something behind it. -/
theorem locates_call (name : String) (h : c.Precedes c₁) :
    c.Locates (call inner c name c₁) fun r => c.Precedes r.2 := by
  unfold call
  split
  · exact locates_fail (.refl c) _ _
  · refine (locates_enter (h.trans (c₁.precedes_skip 1))).bind fun c₂ h₂ => ?_
    refine ((located_arguments located).behind h₂).bind ?_
    rintro ⟨args, c₃⟩ h₃
    dsimp only
    split
    · exact h₃.trans c₃.precedes_leave
    · exact locates_fail (.refl c) _ _

theorem located_named : Located (named inner) := by
  intro c
  refine (located_name c).bind ?_
  rintro ⟨name, c₁⟩ h₁
  have blanks := h₁.trans c₁.precedes_skipBlanks
  dsimp only
  split
  · exact h₁
  · split
    · exact h₁
    · split
      · exact locates_fail (.refl c) _ _
      · split
        · exact locates_call located name blanks
        · exact blanks

theorem located_primary : Located (primary inner) := by
  intro c
  have blanks := c.precedes_skipBlanks
  simp only [primary]
  split
  · exact locates_fail blanks _ _
  · split
    · exact located_number.behind blanks
    · split
      · split
        · exact located_number.behind blanks
        · exact locates_fail blanks _ _
      · split
        · exact (located_parenthesized located).behind blanks
        · split
          · exact (located_quoted _).behind blanks
          · split
            · exact (located_named located).behind blanks
            · exact locates_fail blanks _ _

theorem located_operand : Located (operand inner) := by
  intro c
  refine (located_primary located c).bind ?_
  rintro ⟨e, c₁⟩ h₁
  have blanks := h₁.trans c₁.precedes_skipBlanks
  dsimp only
  split
  · exact locates_fail blanks _ _
  · exact locates_fail blanks _ _
  · exact locates_fail blanks _ _
  · exact blanks

theorem located_power : Located (power inner) := by
  intro c
  refine (located_operand located c).bind ?_
  rintro ⟨base, c₁⟩ h₁
  have blanks := h₁.trans c₁.precedes_skipBlanks
  dsimp only
  split
  · exact blanks
  · rename_i c₂ taken
    refine (locates_enter (blanks.trans (precedes_of_take? taken))).bind fun c₃ h₃ => ?_
    refine (located.signed.behind h₃).bind ?_
    rintro ⟨exponent, c₄⟩ h₄
    exact h₄.trans c₄.precedes_leave

/-- The part of a sign. -/
theorem locates_sign (op : UnaryOp) (h : c.Precedes c₁) :
    c.Locates (do
      let c₂ ← (c₁.skip 1).enter
      let (e, c₃) ← inner.signed c₂
      return (Expr.unary op e, c₃.leave)) fun r => c.Precedes r.2 := by
  refine (locates_enter (h.trans (c₁.precedes_skip 1))).bind fun c₂ h₂ => ?_
  refine (located.signed.behind h₂).bind ?_
  rintro ⟨e, c₃⟩ h₃
  exact h₃.trans c₃.precedes_leave

theorem located_signed : Located (signed inner) := by
  intro c
  have blanks := c.precedes_skipBlanks
  simp only [signed]
  split
  · exact locates_sign located .minus blanks
  · exact locates_sign located .plus blanks
  · exact (located_power located).behind blanks

theorem located_sum : Located (sum inner) :=
  located_chain (located_chain (located_signed located) located_productOperator)
    located_sumOperator

theorem located_comparisonLoop (budget : Nat) (read : List (CompareOp × Expr)) :
    Located (comparisonLoop inner budget read) := by
  induction budget generalizing read with
  | zero => exact fun c => c.precedes_skipBlanks
  | succ budget ih =>
    intro c
    refine (locates_comparisonOperator (.refl c)).bind fun found ends => ?_
    split
    · exact c.precedes_skipBlanks
    · refine ((located_sum located).behind (ends _ _ rfl)).bind ?_
      rintro ⟨e, c₂⟩ h₂
      exact (ih _).behind h₂

theorem located_comparison : Located (comparison inner) := by
  intro c
  refine (located_sum located c).bind ?_
  rintro ⟨first, c₁⟩ h₁
  refine ((located_comparisonLoop located _ _).behind h₁).bind ?_
  rintro ⟨rest, c₂⟩ h₂
  dsimp only
  split <;> exact h₂

theorem located_negation : Located (negation inner) := by
  intro c
  have blanks := c.precedes_skipBlanks
  simp only [negation]
  split
  · exact (located_comparison located).behind blanks
  · rename_i c₁ found
    refine (locates_enter (blanks.trans (precedes_of_notOperator found))).bind fun c₂ h₂ => ?_
    refine (located.negation.behind h₂).bind ?_
    rintro ⟨e, c₃⟩ h₃
    exact h₃.trans c₃.precedes_leave

theorem located_connective : Located (connective inner) :=
  located_chain (located_chain (located_chain (located_negation located) located_either)
    located_either) located_connectiveOperator

end

/-! ## Nesting -/

theorem located_nested (depth : Nat) : (nested depth).Located := by
  induction depth with
  | zero =>
    have refuses : Located fun c => c.fail (α := Expr × Cursor) .tooDeep :=
      fun c => locates_fail (.refl c) _ _
    exact ⟨refuses, refuses, refuses⟩
  | succ depth ih => exact ⟨located_connective ih, located_negation ih, located_signed ih⟩

theorem located_whole : Located whole := (located_nested _).connective

theorem locates_finish (h : c.Precedes c₁) : c.Locates (finish c₁) fun _ => True := by
  have blanks := h.trans c₁.precedes_skipBlanks
  simp only [finish]
  split
  · trivial
  · split
    · exact locates_fail blanks _ _
    · exact locates_fail blanks _ _

/-- A text that is not too long is refused at its start, if at all. -/
theorem position_of_checkSource {source : String} {e : SyntaxError}
    (h : checkSource source = .error e) (short : e.reason ≠ .tooLong) :
    e.position = (Cursor.start source).position := by
  unfold checkSource at h
  split at h
  · cases h
    exact absurd rfl short
  · split at h
    · cases h
      rfl
    · cases h

end Grammar

/-! ## Carets -/

theorem Text.utf8ByteSize_ofList (cs : List Char) :
    (String.ofList cs).utf8ByteSize = Text.bytes cs := by
  induction cs with
  | nil => rfl
  | cons c cs ih =>
    rw [String.ofList_cons, String.utf8ByteSize_append, String.utf8ByteSize_singleton, ih]
    rfl

/-- Between two characters of a text the column is the number of characters in front. -/
theorem Diagnostic.column_eq {d : Diagnostic} {source : String} {before behind : List Char}
    (text : source.toList = before ++ behind) (position : d.position = Text.bytes before) :
    d.column source = before.length := by
  rw [column, text, position, Text.charsBefore_bytes, Option.getD_some]

namespace Expr

open Grammar

variable {source : String} {e : SyntaxError}

/-- An expression up to the end of the text. -/
theorem locates_rest {c c₁ : Cursor} (h : c.Precedes c₁) (result : Expr → α) :
    c.Locates (do
      let (e, c₂) ← whole c₁
      finish c₂
      return result e) fun _ => True := by
  refine (located_whole.behind h).bind ?_
  rintro ⟨e, c₂⟩ h₂
  exact (locates_finish h₂).bind fun _ _ => trivial

/-- Behind the check of the text, a statement fails inside the text. -/
theorem locates_assignment {c : Cursor} : c.Locates (do
    let (target, c₁) ← Literal.name c.skipBlanks
    if Literal.reservedWords.contains target || (Builtin.ofName? target).isSome then
      c.fail (.reservedTarget target)
    else
      let c₁ := c₁.skipBlanks
      match if c₁.startsWith "==" then none else c₁.take? "=" with
      | none => c₁.fail (.expectedAssignment target)
      | some c₂ =>
        let (e, c₃) ← whole c₂
        finish c₃
        return (target, e)) fun _ => True := by
  refine (located_name.behind c.precedes_skipBlanks).bind ?_
  rintro ⟨target, c₁⟩ h₁
  have blanks := h₁.trans c₁.precedes_skipBlanks
  dsimp only
  split
  · exact Cursor.locates_fail (.refl c) _ _
  · split
    · exact Cursor.locates_fail blanks _ _
    · rename_i c₂ taken
      split at taken
      · cases taken
      · exact locates_rest (blanks.trans (Cursor.precedes_of_take? taken)) _

/-- What fails behind the check of a text fails inside the text. -/
theorem exists_cursor_of_error {x : Except SyntaxError α}
    (inside : (Cursor.start source).Locates x fun _ => True)
    (failed : (checkSource source >>= fun _ => x) = .error e) (short : e.reason ≠ .tooLong) :
    ∃ c, (Cursor.start source).Precedes c ∧ e.position = c.position := by
  rcases bind_eq_error.1 failed with refused | ⟨_, -, later⟩
  · exact ⟨_, .refl _, position_of_checkSource refused short⟩
  · rw [later] at inside
    exact inside

/-- The error of a text that is not too long lies between two characters of the text, or at one of
its ends, and the caret stands under the character behind it. -/
theorem error_between
    (failed : parse source = .error e ∨ parseAssignment source = .error e)
    (short : e.reason ≠ .tooLong) :
    String.Pos.Raw.IsValid source ⟨e.position⟩ ∧ e.position ≤ source.utf8ByteSize ∧
      ∃ before behind : String, source = before ++ behind ∧ before.utf8ByteSize = e.position ∧
        e.diagnostic.inContext source = source ++ "\n" ++
          String.ofList (List.replicate before.length ' ') ++ "^\n" ++ e.render := by
  have raised : ∃ c, (Cursor.start source).Precedes c ∧ e.position = c.position := by
    rcases failed with failed | failed
    · exact exists_cursor_of_error (locates_rest (.refl _) id) failed short
    · exact exists_cursor_of_error locates_assignment failed short
  obtain ⟨c, ⟨before, text, position⟩, at_c⟩ := raised
  have text : source.toList = before ++ c.rest := text
  have position : e.position = Text.bytes before := by
    rw [at_c, position]
    exact Nat.zero_add _
  have parts : source = String.ofList before ++ String.ofList c.rest := by
    rw [← String.ofList_append, ← text, String.ofList_toList]
  have size : (String.ofList before).utf8ByteSize = e.position := by
    rw [Text.utf8ByteSize_ofList, position]
  refine ⟨?_, ?_, String.ofList before, String.ofList c.rest, parts, size, ?_⟩
  · refine String.Pos.Raw.isValid_iff_exists_append.2 ⟨_, _, parts, ?_⟩
    rw [← size]
    rfl
  · rw [parts, String.utf8ByteSize_append, size]
    exact Nat.le_add_right _ _
  · rw [Diagnostic.inContext, Diagnostic.column_eq text position, String.length_ofList]
    rfl

/-- The error is found at the twelfth byte, which is the ninth character. -/
theorem error_between_wide_characters :
    parse "a ↔ 'ü' @" = .error ⟨.trailing "@", 11⟩ ∧
      SyntaxError.Reason.trailing "@" ≠ .tooLong ∧
      String.Pos.Raw.IsValid "a ↔ 'ü' @" ⟨11⟩ ∧ 11 ≤ "a ↔ 'ü' @".utf8ByteSize ∧
      ∃ before behind : String, "a ↔ 'ü' @" = before ++ behind ∧ before.utf8ByteSize = 11 ∧
        Diagnostic.inContext (SyntaxError.diagnostic ⟨.trailing "@", 11⟩) "a ↔ 'ü' @" =
          "a ↔ 'ü' @" ++ "\n" ++ String.ofList (List.replicate before.length ' ') ++ "^\n" ++
            SyntaxError.render ⟨.trailing "@", 11⟩ := by
  have failed : parse "a ↔ 'ü' @" = .error ⟨.trailing "@", 11⟩ := rfl
  have short : SyntaxError.Reason.trailing "@" ≠ .tooLong := nofun
  exact ⟨failed, short, error_between (.inl failed) short⟩

end Expr

end Stratagem
