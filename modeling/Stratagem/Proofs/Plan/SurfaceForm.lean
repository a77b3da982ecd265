import Mathlib.Data.List.DropRight
import Stratagem.Proofs.Plan.Located

/-!
# The surface form of definitions

One tree can be written in several ways: a block as an array or as an object, a type in capitals or
between blanks, a field that is missing or null. `Definition.canonical` chooses one of these ways at
every place where an instruction is written: the fields that may be left out are those that the type
allows (`fieldsOf`). It changes neither the tree that is read nor the error with which a document is
refused (`ofJson_canonical`), since a reader of objects does not tell alike fields apart (`Alike`,
`readTyped_congr`).

`surface_form` adds what no way of writing changes: the root of a tree is a block, and every name
that an instruction binds is a possible name of a variable.
-/

namespace Stratagem

/-! ## Words -/

namespace Text

theorem isBlank_toLower (c : Char) : isBlank c.toLower = isBlank c := by
  unfold Char.toLower
  split
  · rename_i capital
    have low : 65 ≤ c.toNat := capital.1
    have high : c.toNat ≤ 90 := capital.2
    have moved : (c.val + ('a'.val - 'A'.val)).toNat = c.toNat + 32 := by
      rw [UInt32.toNat_add]
      exact Nat.mod_eq_of_lt (show c.toNat + 32 < 2 ^ 32 by omega)
    rw [isBlank_of_toNat (c := c) (by omega) (by omega)]
    apply isBlank_of_toNat
    · exact le_of_le_of_eq (by omega) moved.symm
    · exact le_of_eq_of_le moved (by omega)
  · rfl

theorem toLower_toLower (c : Char) : c.toLower.toLower = c.toLower := by
  unfold Char.toLower
  grind

theorem asciiLower_asciiLower (s : String) : asciiLower (asciiLower s) = asciiLower s := by
  simp only [asciiLower, String.toList_ofList, List.map_map]
  congr 1
  exact List.map_congr_left fun c _ => toLower_toLower c

theorem trimChars_trimChars (cs : List Char) : trimChars (trimChars cs) = trimChars cs := by
  have front : skipBlanks (trimChars cs) = trimChars cs := by
    have within : trimChars cs <+: skipBlanks cs := List.rdropWhile_prefix isBlank (skipBlanks cs)
    have stops := List.dropWhile_eq_self_iff.1 (List.dropWhile_idempotent isBlank cs)
    refine List.dropWhile_eq_self_iff.2 fun some => ?_
    rw [within.getElem some]
    exact stops (some.trans_le within.length_le)
  rw [trimChars, front]
  exact List.rdropWhile_idempotent isBlank (skipBlanks cs)

theorem trimChars_map_toLower (cs : List Char) :
    trimChars (cs.map Char.toLower) = (trimChars cs).map Char.toLower := by
  have skip : ∀ cs, skipBlanks (cs.map Char.toLower) = (skipBlanks cs).map Char.toLower := by
    intro cs
    rw [skipBlanks, List.dropWhile_map]
    rw [show isBlank ∘ Char.toLower = isBlank from funext isBlank_toLower, skipBlanks]
  simp only [trimChars, skip, ← List.map_reverse]

/-- Trimming and lower case leave a word as they make it. -/
theorem lowered_lowered (s : String) :
    asciiLower (trim (asciiLower (trim s))) = asciiLower (trim s) := by
  have same : trim (asciiLower (trim s)) = asciiLower (trim s) := by
    simp only [trim, asciiLower, String.toList_ofList, trimChars_map_toLower, trimChars_trimChars]
  rw [same, asciiLower_asciiLower]

end Text

namespace Definition

/-! ## The canonical form -/

/-- What a value is for the object that it stands in. -/
inductive Role
  | instruction
  /-- The children of a block. -/
  | children
  | kind
  | other
  deriving DecidableEq

/-- The role of what stands at a key. -/
def Role.ofKey (key : String) : Role :=
  match key with
  | "then" => .instruction
  | "else" => .instruction
  | "children" => .children
  | "type" => .kind
  | _ => .other

/-- The fields of an instruction of a type, besides the type. -/
def fieldsOf (kind : String) : List String :=
  match kind with
  | "compound" => ["children"]
  | "if" => ["condition", "then", "else"]
  | "indicator" => ["name", "params", "target"]
  | "operation" => ["target", "expression", "statement"]
  | "trade" => ["symbol", "side", "size", "price", "stop"]
  | "wait" => ["bars", "duration", "until"]
  | _ => []

/-- Whether a member may be left out: it is null, and it is a field of the type that the object
gives. The children of a block may not. -/
def isIdle (members : List (String × Json)) (key : String) : Bool :=
  ((kindOf? members).elim [] fieldsOf).contains key && key != "children" &&
    (Json.present? key members).isNone

/-- The members that may not be left out. -/
def withoutIdle (members : List (String × Json)) : List (String × Json) :=
  members.filter fun m => !isIdle members m.1

mutual
/-- A value in its role, with every instruction in it written in one way: a block is an object, a
type is in lower case without blanks around it, and no field is null that may be left out. -/
def canonicalAs : Json → Role → Json
  | .array items, .instruction =>
    .object [("children", .array (canonicalItems items)), ("type", .text "compound")]
  | .array items, .children => .array (canonicalItems items)
  | .object members, .instruction => .object (withoutIdle (canonicalMembers members))
  | .text s, .kind => .text (Text.asciiLower (Text.trim s))
  | v, _ => v

/-- The instructions of a list, written in one way. -/
def canonicalItems : List Json → List Json
  | [] => []
  | v :: vs => canonicalAs v .instruction :: canonicalItems vs

/-- The members of an object, each in its role. -/
def canonicalMembers : List (String × Json) → List (String × Json)
  | [] => []
  | (key, v) :: rest => (key, canonicalAs v (Role.ofKey key)) :: canonicalMembers rest
end

/-- A document with every instruction in it written in one way. -/
def canonical (v : Json) : Json := canonicalAs v .instruction

/-! ## Looking up members -/

variable {members : List (String × Json)} {key : String}

theorem find?_canonicalMembers (key : String) (members : List (String × Json)) :
    Keyed.find? key (canonicalMembers members) =
      (Keyed.find? key members).map fun v => canonicalAs v (Role.ofKey key) := by
  induction members with
  | nil => rfl
  | cons member members ih =>
    obtain ⟨k, v⟩ := member
    rw [canonicalMembers, Keyed.find?, Keyed.find?]
    split
    · rename_i same
      rw [same]
      rfl
    · exact ih

theorem keys_canonicalMembers (members : List (String × Json)) :
    Keyed.keys (canonicalMembers members) = Keyed.keys members := by
  induction members with
  | nil => rfl
  | cons member members ih =>
    obtain ⟨k, v⟩ := member
    rw [canonicalMembers]
    exact congrArg (k :: ·) ih

theorem canonicalAs_eq_null_iff {v : Json} {role : Role} :
    canonicalAs v role = .null ↔ v = .null := by
  cases v <;> cases role <;> simp [canonicalAs]

theorem present?_eq_some {v : Json} (found : Keyed.find? key members = some v) (solid : v ≠ .null) :
    Json.present? key members = some v := by
  rw [Json.present?, found]
  cases v with
  | null => exact absurd rfl solid
  | bool | int | float | text | array | object => rfl

theorem present?_canonicalMembers (key : String) (members : List (String × Json)) :
    Json.present? key (canonicalMembers members) =
      (Json.present? key members).map fun v => canonicalAs v (Role.ofKey key) := by
  have found := find?_canonicalMembers key members
  cases here : Keyed.find? key members with
  | none =>
    rw [here] at found
    rw [Json.present?, Json.present?, here, found]
    rfl
  | some v =>
    rw [here] at found
    by_cases null : v = .null
    · rw [Option.map_some, canonicalAs_eq_null_iff.2 null] at found
      rw [Json.present?, Json.present?, here, found, null]
      rfl
    · rw [present?_eq_some here null, present?_eq_some found fun same =>
        null (canonicalAs_eq_null_iff.1 same)]
      rfl

/-- Looking up among the members whose keys are kept. -/
theorem find?_filter {α : Type} (p : String → Bool) (m : Keyed α) (key : String) :
    Keyed.find? key (m.filter fun x => p x.1) = if p key then Keyed.find? key m else none := by
  induction m with
  | nil => simp [Keyed.find?]
  | cons x m ih =>
    obtain ⟨k, v⟩ := x
    rw [List.filter_cons, Keyed.find?]
    by_cases same : k = key
    · subst same
      by_cases kept : p k = true
      · simp [kept, Keyed.find?]
      · simp [kept, ih]
    · split
      · simp [same, Keyed.find?, ih]
      · simp [ih]

theorem not_mem_fieldsOf_type (kind : String) : "type" ∉ fieldsOf kind := by
  unfold fieldsOf
  split <;> decide

theorem isIdle_type (members : List (String × Json)) : isIdle members "type" = false := by
  have refused : ((kindOf? members).elim [] fieldsOf).contains "type" = false := by
    cases kindOf? members with
    | none => rfl
    | some kind => simpa using not_mem_fieldsOf_type kind
  rw [isIdle, refused]
  rfl

theorem isIdle_children (members : List (String × Json)) : isIdle members "children" = false := by
  simp [isIdle]

theorem find?_withoutIdle (busy : isIdle members key = false) :
    Keyed.find? key (withoutIdle members) = Keyed.find? key members := by
  rw [withoutIdle, find?_filter fun key => !isIdle members key]
  simp [busy]

theorem present?_withoutIdle (key : String) (members : List (String × Json)) :
    Json.present? key (withoutIdle members) = Json.present? key members := by
  cases idle : isIdle members key with
  | false =>
    rw [Json.present?, Json.present?, find?_withoutIdle idle]
  | true =>
    have absent : Json.present? key members = none := by
      simp only [isIdle, Bool.and_eq_true, Option.isNone_iff_eq_none] at idle
      exact idle.2
    rw [absent, Json.present?, withoutIdle, find?_filter fun key => !isIdle members key]
    simp [idle]

/-- The canonical members of an object. -/
def tidy (members : List (String × Json)) : List (String × Json) :=
  withoutIdle (canonicalMembers members)

theorem find?_tidy_type (members : List (String × Json)) :
    Keyed.find? "type" (tidy members) =
      (Keyed.find? "type" members).map fun v => canonicalAs v .kind := by
  rw [tidy, find?_withoutIdle (isIdle_type _), find?_canonicalMembers]
  rfl

theorem find?_tidy_children (members : List (String × Json)) :
    Keyed.find? "children" (tidy members) =
      (Keyed.find? "children" members).map fun v => canonicalAs v .children := by
  rw [tidy, find?_withoutIdle (isIdle_children _), find?_canonicalMembers]
  rfl

theorem present?_tidy (key : String) (members : List (String × Json)) :
    Json.present? key (tidy members) =
      (Json.present? key members).map fun v => canonicalAs v (Role.ofKey key) := by
  rw [tidy, present?_withoutIdle, present?_canonicalMembers]

theorem kindOf?_canonicalMembers (members : List (String × Json)) :
    kindOf? (canonicalMembers members) = kindOf? members := by
  rw [kindOf?, kindOf?, find?_canonicalMembers]
  cases Keyed.find? "type" members with
  | none => rfl
  | some v =>
    cases v with
    | text s => exact congrArg some (Text.lowered_lowered s)
    | null | bool | int | float | array | object => rfl

theorem nodeType_tidy (members : List (String × Json)) (path : Path) :
    nodeType (readMembers (tidy members)) path = nodeType (readMembers members) path := by
  rw [nodeType, nodeType, find?_readMembers, find?_readMembers, find?_tidy_type]
  cases Keyed.find? "type" members with
  | none => rfl
  | some v =>
    cases v with
    | text s => exact congrArg Except.ok (Text.lowered_lowered s)
    | null | bool | int | float | array | object => rfl

theorem checkKeys_tidy {kind : String} (hkind : kindOf? members = some kind) (path : Path) :
    checkKeys (readMembers (tidy members)) (fieldsOf kind) path =
      checkKeys (readMembers members) (fieldsOf kind) path := by
  have same : (Keyed.keys (tidy members)).find?
        (fun key => key != "type" && !(fieldsOf kind).contains key) =
      (Keyed.keys members).find? fun key => key != "type" && !(fieldsOf kind).contains key := by
    have keys : Keyed.keys (tidy members) =
        (Keyed.keys members).filter fun key => !isIdle (canonicalMembers members) key := by
      rw [← keys_canonicalMembers members, tidy, withoutIdle, Keyed.keys, Keyed.keys,
        List.filter_map]
      rfl
    rw [keys, List.find?_filter]
    congr 1
    funext key
    -- an idle member is a field of the type, so it is not refused
    rw [isIdle, kindOf?_canonicalMembers, hkind, Option.elim_some]
    by_cases typed : key = "type" <;> cases (fieldsOf kind).contains key <;> simp [typed]
  rw [checkKeys, checkKeys, keys_readMembers, keys_readMembers, same]

/-! ## Alike fields -/

/-- The block that a member holds. -/
def Member.block (m : Member) : At Node := fun path =>
  match m.value with
  | .array _ => m.node path
  | v => failField path "children" (.expected "an array" v.kindName)

/-- The fields of two objects are alike for an instruction of a type: the same fields of the type
are there, and they are read as the same instructions and blocks. -/
structure Alike (kind : String) (fields fields' : Fields) : Prop where
  keys : ∀ path,
    checkKeys fields (fieldsOf kind) path = checkKeys fields' (fieldsOf kind) path
  other : ∀ key, Role.ofKey key = .other → optional? fields key = optional? fields' key
  node : ∀ key, (optional? fields key).map Member.node = (optional? fields' key).map Member.node
  block : (Keyed.find? "children" fields).map Member.block =
    (Keyed.find? "children" fields').map Member.block

section

variable {fields fields' : Fields} {kind : String} {path : Path}

theorem required_congr (alike : Alike kind fields fields') (key : String)
    (h : Role.ofKey key = .other) :
    required fields key path = required fields' key path := by
  rw [required, required, alike.other key h]

theorem textField_congr (alike : Alike kind fields fields') (key : String)
    (h : Role.ofKey key = .other) :
    textField fields key path = textField fields' key path := by
  rw [textField, textField, required_congr alike key h]

theorem targetField_congr (alike : Alike kind fields fields') (key : String)
    (h : Role.ofKey key = .other) :
    targetField fields key path = targetField fields' key path := by
  rw [targetField, targetField, textField_congr alike key h]

theorem optionalExpression_congr (alike : Alike kind fields fields') (key : String)
    (h : Role.ofKey key = .other) :
    optionalExpression fields key path = optionalExpression fields' key path := by
  rw [optionalExpression, optionalExpression, alike.other key h]

/-- The instruction of a field that must be there. -/
theorem node_congr (alike : Alike kind fields fields') (key : String) (path side : Path) :
    (do (← required fields key path).node side) =
      (do (← required fields' key path).node side) := by
  have same := alike.node key
  rw [required, required]
  cases here : optional? fields key with
  | none =>
    rw [here] at same
    rw [Option.map_eq_none_iff.1 same.symm]
  | some m =>
    rw [here] at same
    obtain ⟨m', here', same⟩ := Option.map_eq_some_iff.1 same.symm
    rw [here']
    exact congrFun same.symm side

/-- Of a block, the reading of its children is used only. -/
theorem readBlock_eq (fields : Fields) (path : Path) :
    readBlock fields path = (do
      checkKeys fields (fieldsOf "compound") path
      match (Keyed.find? "children" fields).map Member.block with
      | none => fail path (.missing "children")
      | some read => read path) := by
  rw [readBlock]
  cases Keyed.find? "children" fields <;> rfl

theorem readBlock_congr (alike : Alike "compound" fields fields') (path : Path) :
    readBlock fields path = readBlock fields' path := by
  rw [readBlock_eq, readBlock_eq, alike.keys path, alike.block]

/-- Of the sides of a branch, their readings are used only. -/
theorem readBranch_eq (fields : Fields) (path : Path) :
    readBranch fields path = (do
      checkKeys fields (fieldsOf "if") path
      let condition ← readCondition fields path
      let yes ← (do (← required fields "then" path).node path.yes)
      match (optional? fields "else").map Member.node with
      | none => return .branch condition yes none
      | some read => return .branch condition yes (some (← read path.no))) := by
  rw [readBranch]
  simp only [bind_assoc]
  cases optional? fields "else" <;> rfl

theorem readBranch_congr (alike : Alike "if" fields fields') (path : Path) :
    readBranch fields path = readBranch fields' path := by
  have condition : readCondition fields path = readCondition fields' path := by
    rw [readCondition, readCondition, required_congr alike "condition" rfl]
  rw [readBranch_eq, readBranch_eq, alike.keys path, condition, node_congr alike,
    alike.node "else"]

theorem readIndicator_congr (alike : Alike "indicator" fields fields') (path : Path) :
    readIndicator fields path = readIndicator fields' path := by
  have keys := alike.keys path
  simp only [fieldsOf] at keys
  rw [readIndicator, readIndicator, keys, textField_congr alike "name" rfl,
    targetField_congr alike "target" rfl, alike.other "params" rfl]

theorem readAssignment_congr (alike : Alike "operation" fields fields') (path : Path) :
    readAssignment fields path = readAssignment fields' path := by
  have keys := alike.keys path
  simp only [fieldsOf] at keys
  rw [readAssignment, readAssignment, keys, targetField_congr alike "target" rfl,
    required_congr alike "expression" rfl, alike.other "statement" rfl, alike.other "target" rfl,
    alike.other "expression" rfl]

theorem readOrder_congr (alike : Alike "trade" fields fields') (path : Path) :
    readOrder fields path = readOrder fields' path := by
  have keys := alike.keys path
  simp only [fieldsOf] at keys
  rw [readOrder, readOrder, keys, textField_congr alike "symbol" rfl,
    textField_congr alike "side" rfl, required_congr alike "size" rfl,
    optionalExpression_congr alike "price" rfl, optionalExpression_congr alike "stop" rfl]

theorem readWait_congr (alike : Alike "wait" fields fields') (path : Path) :
    readWait fields path = readWait fields' path := by
  have keys := alike.keys path
  simp only [fieldsOf] at keys
  rw [readWait, readWait, keys, textField_congr alike "until" rfl, alike.other "bars" rfl,
    alike.other "duration" rfl, alike.other "until" rfl]

/-- Alike objects are read as the same instruction, or they are refused with the same error. -/
theorem readTyped_congr (alike : Alike kind fields fields') (path : Path) :
    readTyped kind fields path = readTyped kind fields' path := by
  unfold readTyped
  split
  · exact readBlock_congr alike path
  · exact readBranch_congr alike path
  · exact readIndicator_congr alike path
  · exact readAssignment_congr alike path
  · exact readOrder_congr alike path
  · exact readWait_congr alike path
  · rfl

end

/-! ## Reading the canonical form -/

/-- A value is read as the same instruction in its role, whatever this is. -/
def Steady (v : Json) : Prop := ∀ role, readNode (canonicalAs v role) = readNode v

theorem block_canonicalAs {v : Json} (steady : Steady v) :
    Member.block ⟨canonicalAs v .children, readNode (canonicalAs v .children)⟩ =
      Member.block ⟨v, readNode v⟩ := by
  rw [steady .children]
  cases v <;> rfl

theorem canonicalAs_other (v : Json) : canonicalAs v .other = v := by
  cases v <;> rfl

theorem alike_tidy {kind : String} (steady : ∀ key v, Keyed.find? key members = some v → Steady v)
    (hkind : kindOf? members = some kind) :
    Alike kind (readMembers (tidy members)) (readMembers members) where
  keys := checkKeys_tidy hkind
  other := by
    intro key h
    rw [optional?_readMembers, optional?_readMembers, present?_tidy, h, Option.map_map]
    congr 1
    funext v
    exact congrArg (fun v => Member.mk v (readNode v)) (canonicalAs_other v)
  node := by
    intro key
    rw [optional?_readMembers, optional?_readMembers, present?_tidy]
    cases here : Json.present? key members with
    | none => rfl
    | some v =>
      exact congrArg some (steady key v (find?_of_present? here) (Role.ofKey key))
  block := by
    rw [find?_readMembers, find?_readMembers, find?_tidy_children]
    cases here : Keyed.find? "children" members with
    | none => rfl
    | some v => exact congrArg some (block_canonicalAs (steady "children" v here))

theorem readObject_tidy (steady : ∀ key v, Keyed.find? key members = some v → Steady v) :
    readObject (readMembers (tidy members)) = readObject (readMembers members) := by
  funext path
  rw [readObject, readObject, nodeType_tidy]
  cases typed : nodeType (readMembers members) path with
  | error e => rfl
  | ok kind => exact readTyped_congr (alike_tidy steady (nodeType_eq_ok.1 typed)) path

theorem readNode_array {items items' : List Json}
    (same : ∀ index path, readItems items' index path = readItems items index path) :
    readNode (.array items') = readNode (.array items) := by
  rw [readNode, readNode]
  funext path
  rw [same]

/-- An array is read as the object of a block with its items. -/
theorem readNode_blockObject (items : List Json) :
    readNode (.object [("children", .array items), ("type", .text "compound")]) =
      readNode (.array items) := by
  rw [readNode]
  funext path
  rfl

mutual
theorem steady (v : Json) : Steady v := by
  intro role
  match v with
  | .array items =>
    have same (index : Nat) (path : Path) := readItems_canonicalItems items index path
    cases role with
    | instruction =>
      rw [canonicalAs, readNode_blockObject]
      exact readNode_array same
    | children =>
      rw [canonicalAs]
      exact readNode_array same
    | kind | other => simp only [canonicalAs]
  | .object members =>
    cases role with
    | instruction =>
      rw [canonicalAs, readNode, readNode]
      exact readObject_tidy (steady_members members)
    | children | kind | other => simp only [canonicalAs]
  | .text s =>
    cases role with
    | kind =>
      rw [canonicalAs]
      simp only [readNode, Json.kindName]
    | instruction | children | other => simp only [canonicalAs]
  | .null => simp only [canonicalAs]
  | .bool b => simp only [canonicalAs]
  | .int n => simp only [canonicalAs]
  | .float x => simp only [canonicalAs]

theorem readItems_canonicalItems (items : List Json) (index : Nat) (path : Path) :
    readItems (canonicalItems items) index path = readItems items index path := by
  match items with
  | [] => rfl
  | v :: items =>
    rw [canonicalItems, readItems, readItems, steady v .instruction]
    dsimp only
    rw [readItems_canonicalItems items]

theorem steady_members (members : List (String × Json)) (key : String) (v : Json)
    (here : Keyed.find? key members = some v) : Steady v := by
  match members with
  | [] => cases here
  | (k, w) :: members =>
    rw [Keyed.find?] at here
    split at here
    · cases here
      exact steady v
    · exact steady_members members key v here
end

/-- A document and its canonical form are read as the same tree, or they are refused with the same
error. -/
theorem ofJson_canonical (v : Json) : Node.ofJson (canonical v) = Node.ofJson v := by
  have same := steady v .instruction
  cases v with
  | array items =>
    rw [canonical, canonicalAs, Node.ofJson, Node.ofJson]
    rw [canonicalAs] at same
    exact congrFun same []
  | object members =>
    rw [canonical, canonicalAs, Node.ofJson, Node.ofJson]
    rw [canonicalAs] at same
    rw [same]
    exact congrArg (· >>= _) (nodeType_tidy members [])
  | null | bool | int | float | text => simp only [canonical, canonicalAs]

theorem kindOf?_of_rooted {v : Json} (h : rooted v = .object members) :
    kindOf? members = some "compound" := by
  cases v with
  | object given =>
    rw [rooted] at h
    split at h
    · cases h
      assumption
    · cases h
  | null | bool | int | float | text | array => cases h

/-- The root of a tree is a block. -/
theorem exists_block_of_ofJson {v : Json} {tree : Node} (h : Node.ofJson v = .ok tree) :
    ∃ children, tree = .block children := by
  rcases readNode_cases (readNode_rooted h) with
    ⟨items, children, -, -, rfl⟩ | ⟨members, kind, object, typed, reads⟩
  · exact ⟨children, rfl⟩
  · have compound : kind = "compound" :=
      Option.some.inj (typed.symm.trans (kindOf?_of_rooted object))
    cases reads with
    | block found read => exact ⟨_, rfl⟩
    | branch | indicator | assign | order | wait => exact absurd compound (by decide)

/-- The target of an assignment is a possible name of a variable. -/
theorem isTarget_of_assign {v : Json} {path : Path} {target : String} {e : Expr}
    (h : readNode v path = .ok (.assign target e)) : Literal.isTarget target = true := by
  rcases readNode_cases h with ⟨items, ns, -, -, block⟩ | ⟨members, kind, -, -, reads⟩
  · cases block
  · cases reads with
    | assign bindable => exact bindable

/-- The target of an indicator is a possible name of a variable. -/
theorem isTarget_of_indicator {v : Json} {path : Path} {name target : String} {params : Params}
    (h : readNode v path = .ok (.indicator name params target)) :
    Literal.isTarget target = true := by
  rcases readNode_cases h with ⟨items, ns, -, -, block⟩ | ⟨members, kind, -, -, reads⟩
  · cases block
  · cases reads with
    | indicator bindable given => exact bindable

/-- How a definition is written does not matter: a document and its canonical form are read as the
same tree, or they are refused with the same error at the same place. Every tree that is read has a
block at its root, and its assignments and indicators bind possible names of variables only. -/
theorem surface_form (v : Json) :
    Node.ofJson (canonical v) = Node.ofJson v ∧
      ∀ tree, Node.ofJson v = .ok tree →
        (∃ children, tree = .block children) ∧
        (∀ path target e, tree.at? path = some (.assign target e) →
          Literal.isTarget target = true) ∧
        ∀ path name params target, tree.at? path = some (.indicator name params target) →
          Literal.isTarget target = true := by
  refine ⟨ofJson_canonical v, ?_⟩
  intro tree h
  refine ⟨exists_block_of_ofJson h, ?_, ?_⟩
  · intro path target e there
    obtain ⟨w, -, read⟩ := read_of_at h there
    exact isTarget_of_assign read
  · intro path name params target there
    obtain ⟨w, -, read⟩ := read_of_at h there
    exact isTarget_of_indicator read

/-- An array with a branch in it, whose types are written in capitals and with blanks and whose
fields may be null. -/
def loose : Json :=
  .array [.object [("condition", .bool true), ("else", .null),
    ("then", .array [.object [("expression", .int 1), ("statement", .null),
      ("target", .text "_y"), ("type", .text "OPERATION")]]), ("type", .text " If ")]]

theorem surface_form_loose :
    canonical loose = .object [("children", .array [.object [("condition", .bool true),
        ("then", .object [("children", .array [.object [("expression", .int 1),
          ("target", .text "_y"), ("type", .text "operation")]]), ("type", .text "compound")]),
        ("type", .text "if")]]), ("type", .text "compound")] ∧
      ∃ tree, Node.ofJson loose = .ok tree ∧ Node.ofJson (canonical loose) = .ok tree ∧
        (∃ children, tree = .block children) ∧
        tree.at? [.child 0, .yes, .child 0] = some (.assign "_y" (.number (Float.ofInt 1))) ∧
        Literal.isTarget "_y" = true := by
  have read : Node.ofJson loose = .ok (.block [.branch (.bool true)
      (.block [.assign "_y" (.number (Float.ofInt 1))]) none]) := rfl
  obtain ⟨same, trees⟩ := surface_form loose
  obtain ⟨root, targets, -⟩ := trees _ read
  refine ⟨rfl, _, read, same.trans read, root, rfl, ?_⟩
  exact targets [.child 0, .yes, .child 0] "_y" _ rfl

end Definition

end Stratagem
