import Stratagem.Plan.Definition
import Stratagem.Proofs.Formula.Assignments

/-!
# Two ways to write an assignment

A definition gives an assignment as one statement, `target = expression`, or with a field for either
side. The readers of the two are written independently. `readNode_statement` and `readNode_fields`
say what each of them makes of its texts, and `assignment_forms` that this is the same: a statement
is read exactly if the text in front of its equals sign is accepted as a target and the text behind
it as an expression.
-/

namespace Stratagem

namespace Definition

/-- An assignment that is given as a statement. -/
def statementForm (source : String) : Json :=
  .object [("statement", .text source), ("type", .text "operation")]

/-- An assignment that is given with a field for its target and one for its expression. -/
def fieldsForm (target source : String) : Json :=
  .object [("expression", .text source), ("target", .text target), ("type", .text "operation")]

/-! ## Members as fields -/

variable {members : List (String × Json)} {path : Path}

theorem find?_readMembers (key : String) (members : List (String × Json)) :
    Keyed.find? key (readMembers members) =
      (Keyed.find? key members).map fun v => ⟨v, readNode v⟩ := by
  induction members with
  | nil => rfl
  | cons member members ih =>
    obtain ⟨k, v⟩ := member
    rw [readMembers, Keyed.find?, Keyed.find?]
    split
    · rfl
    · exact ih

theorem keys_readMembers (members : List (String × Json)) :
    Keyed.keys (readMembers members) = Keyed.keys members := by
  induction members with
  | nil => rfl
  | cons member members ih =>
    obtain ⟨k, v⟩ := member
    rw [readMembers]
    exact congrArg (k :: ·) ih

theorem optional?_readMembers (key : String) (members : List (String × Json)) :
    optional? (readMembers members) key =
      (Json.present? key members).map fun v => ⟨v, readNode v⟩ := by
  rw [optional?, find?_readMembers, Json.present?]
  cases Keyed.find? key members with
  | none => rfl
  | some v => cases v <;> rfl

theorem textField_readMembers {key text : String}
    (given : Json.present? key members = some (.text text)) :
    textField (readMembers members) key path = .ok text := by
  rw [textField, required, optional?_readMembers, given]
  rfl

theorem readNode_operation (typed : Keyed.find? "type" members = some (.text "operation"))
    (path : Path) :
    readNode (.object members) path = readAssignment (readMembers members) path := by
  have kind : nodeType (readMembers members) path = .ok "operation" := by
    rw [nodeType, find?_readMembers, typed]
    exact congrArg Except.ok (by decide)
  rw [readNode, readObject, kind]
  rfl

/-! ## The two forms -/

/-- A statement is read as a whole. -/
theorem readAssignment_statement {source : String}
    (known : checkKeys (readMembers members) ["target", "expression", "statement"] path = .ok ())
    (statement : Json.present? "statement" members = some (.text source))
    (target : Json.present? "target" members = none)
    (expression : Json.present? "expression" members = none) :
    readAssignment (readMembers members) path =
      match Expr.parseAssignment source with
      | .ok (target, e) => .ok (.assign target e)
      | .error fault => failField path "statement" (.expression fault source) := by
  simp only [readAssignment, known, optional?_readMembers, statement, target, expression]
  rfl

/-- Of two fields, the target is read first. -/
theorem readAssignment_fields {name source : String}
    (known : checkKeys (readMembers members) ["target", "expression", "statement"] path = .ok ())
    (statement : Json.present? "statement" members = none)
    (target : Json.present? "target" members = some (.text name))
    (given : Json.present? "expression" members = some (.text source)) :
    readAssignment (readMembers members) path =
      if Literal.isTarget (Text.trim name) then
        match Expr.parse source with
        | .ok e => .ok (.assign (Text.trim name) e)
        | .error fault => failField path "expression" (.expression fault source)
      else failField path "target" (.invalidTarget (Text.trim name)) := by
  simp only [readAssignment, known, optional?_readMembers, statement, required, given,
    targetField, textField_readMembers target, bind, Except.bind]
  by_cases bindable : Literal.isTarget (Text.trim name) = true
  · rw [if_pos bindable, if_pos bindable]
    simp only [Option.map_some, numericExpression, expression]
    cases Expr.parse source <;> rfl
  · rw [if_neg bindable, if_neg bindable]
    rfl

theorem readNode_statement (source : String) (path : Path) :
    readNode (statementForm source) path =
      match Expr.parseAssignment source with
      | .ok (target, e) => .ok (.assign target e)
      | .error fault => failField path "statement" (.expression fault source) := by
  rw [statementForm, readNode_operation rfl]
  refine readAssignment_statement ?_ rfl rfl rfl
  rw [checkKeys, keys_readMembers]
  rfl

theorem readNode_fields (target source : String) (path : Path) :
    readNode (fieldsForm target source) path =
      if Literal.isTarget (Text.trim target) then
        match Expr.parse source with
        | .ok e => .ok (.assign (Text.trim target) e)
        | .error fault => failField path "expression" (.expression fault source)
      else failField path "target" (.invalidTarget (Text.trim target)) := by
  rw [fieldsForm, readNode_operation rfl]
  refine readAssignment_fields ?_ rfl rfl rfl
  rw [checkKeys, keys_readMembers]
  rfl

/-- An assignment can be given either way, for texts that are not too long together: the target and
the expression are read from a statement as they are read one by one. So a statement and the two
fields with the texts in front of its equals sign and behind it give the same instruction, or both
are refused. -/
theorem assignment_forms :
    (∀ target source e, target.utf8ByteSize + 1 + source.utf8ByteSize ≤ maxSourceBytes →
      (Expr.parseAssignment (target ++ "=" ++ source) = .ok (target, e) ↔
        Literal.isTarget target = true ∧ Expr.parse source = .ok e)) ∧
    (∀ statement target e, Expr.parseAssignment statement = .ok (target, e) →
      Literal.isTarget target = true ∧ ∃ before after, statement = before ++ "=" ++ after ∧
        '=' ∉ before.toList ∧ Expr.parse after = .ok e) ∧
    ∀ target source path, target.utf8ByteSize + 1 + source.utf8ByteSize ≤ maxSourceBytes →
      '=' ∉ target.toList →
      (∃ name e, readNode (statementForm (target ++ "=" ++ source)) path = .ok (.assign name e) ∧
        readNode (fieldsForm target source) path = .ok (.assign name e)) ∨
      ∃ refused refused', readNode (statementForm (target ++ "=" ++ source)) path = .error refused ∧
        readNode (fieldsForm target source) path = .error refused' := by
  refine ⟨?_, ?_, ?_⟩
  · intro target source e short
    exact Grammar.parseAssignment_target_iff short
  · intro statement target e h
    obtain ⟨bindable, before, after, same, first, -, read⟩ := Grammar.exists_of_parseAssignment h
    exact ⟨bindable, before, after, same, first, read⟩
  · intro target source path short plain
    rw [readNode_statement, readNode_fields]
    cases h : Expr.parseAssignment (target ++ "=" ++ source) with
    | ok read =>
      obtain ⟨name, e⟩ := read
      obtain ⟨rfl, bindable, read⟩ := (Grammar.parseAssignment_append_iff short plain).1 h
      refine .inl ⟨_, e, rfl, ?_⟩
      rw [if_pos bindable, read]
    | error fault =>
      by_cases bindable : Literal.isTarget (Text.trim target) = true
      · rw [if_pos bindable]
        cases read : Expr.parse source with
        | ok e =>
          have accepted := (Grammar.parseAssignment_append_iff short plain).2 ⟨rfl, bindable, read⟩
          rw [h] at accepted
          cases accepted
        | error fault' => exact .inr ⟨_, _, rfl, rfl⟩
      · rw [if_neg bindable]
        exact .inr ⟨_, _, rfl, rfl⟩

/-- The target is trimmed in both forms, and blanks around the equals sign do not matter. -/
theorem assignment_forms_trimmed :
    "_y ".utf8ByteSize + 1 + " x".utf8ByteSize ≤ maxSourceBytes ∧ '=' ∉ "_y ".toList ∧
      readNode (statementForm "_y = x") [] = .ok (.assign "_y" (.var "x")) ∧
        readNode (fieldsForm "_y " " x") [] = .ok (.assign "_y" (.var "x")) := by
  have read : readNode (statementForm "_y = x") [] = .ok (.assign "_y" (.var "x")) := rfl
  rcases assignment_forms.2.2 "_y " " x" [] (by decide) (by decide) with
    ⟨name, e, statement, fields⟩ | ⟨refused, -, statement, -⟩
  · have same := read.symm.trans statement
    cases same
    exact ⟨by decide, by decide, read, fields⟩
  · have same := read.symm.trans statement
    cases same

end Definition

end Stratagem
