import Stratagem.Plan.Definition
import Stratagem.Proofs.Chains
import Stratagem.Proofs.Plan.Agenda
import Stratagem.Proofs.Plan.Definitions
import Stratagem.Proofs.Plan.Statements

/-!
# Where instructions are written

Every instruction of a tree is read from a part of its document, and the place of the instruction in
the tree says which part this is.

* `Definition.Reads` lists the ways in which an instruction is read from an object, with what later
  proofs need to know of its fields. There are no others (`reads_of_readTyped`).
* `Definition.locate?` follows a path in a document, and `Definition.rooted` puts a single
  instruction into a block, as the root of a tree is one. What stands at a path of a tree is read
  from what is written at this path of its document (`read_of_at`).
-/

namespace Stratagem

namespace Definition

/-! ## Reading an object -/

section

variable {members : List (String × Json)} {path : Path} {n : Node}

/-- The parameters of an indicator are those of its object, if it gives any. -/
inductive GivesParams (members : List (String × Json)) (path : Path) : Params → Prop
  | none (absent : Json.present? "params" members = none) : GivesParams members path {}
  | given {written : List (String × Json)} {params : Params}
      (present : Json.present? "params" members = some (.object written))
      (set : setParams written {} path = .ok params) : GivesParams members path params

/-- The ways in which an instruction is read from an object of a type. -/
inductive Reads (members : List (String × Json)) (path : Path) : String → Node → Prop
  | block {items : List Json} {children : List Node}
      (found : Keyed.find? "children" members = some (.array items))
      (read : readItems items 0 path = .ok children) :
      Reads members path "compound" (.block children)
  | branch {e : Expr} {v : Json} {yes : Node} {no : Option Node}
      (onYes : Json.present? "then" members = some v) (read : readNode v path.yes = .ok yes)
      (onNo : ∀ n ∈ no, ∃ w, Json.present? "else" members = some w ∧ readNode w path.no = .ok n) :
      Reads members path "if" (.branch e yes no)
  | indicator {name target : String} {params : Params} (bindable : Literal.isTarget target = true)
      (given : GivesParams members path params) :
      Reads members path "indicator" (.indicator name params target)
  | assign {target : String} {e : Expr} (bindable : Literal.isTarget target = true) :
      Reads members path "operation" (.assign target e)
  | order (o : Order) : Reads members path "trade" (.order o)
  | wait {w : Wait}
      (ticks : ∀ count, w = .ticks count → ∃ v, Json.present? "bars" members = some v ∧
        readTicks v path = .ok w) : Reads members path "wait" (.wait w)

theorem optional?_readMembers_eq_some {key : String} {m : Member}
    (h : optional? (readMembers members) key = some m) :
    Json.present? key members = some m.value ∧ m.node = readNode m.value := by
  rw [optional?_readMembers] at h
  obtain ⟨v, present, rfl⟩ := Option.map_eq_some_iff.1 h
  exact ⟨present, rfl⟩

theorem optional?_of_required {fields : Fields} {key : String} {m : Member}
    (h : required fields key path = .ok m) : optional? fields key = some m := by
  unfold required at h
  split at h
  · cases h
    assumption
  · cases h

theorem isTarget_of_targetField {fields : Fields} {key target : String}
    (h : targetField fields key path = .ok target) : Literal.isTarget target = true := by
  obtain ⟨text, -, h⟩ := bind_eq_ok.1 h
  dsimp only at h
  split at h
  · cases h
    assumption
  · cases h

theorem reads_of_readBlock (h : readBlock (readMembers members) path = .ok n) :
    Reads members path "compound" n := by
  obtain ⟨_, -, h⟩ := bind_eq_ok.1 h
  rw [find?_readMembers] at h
  cases found : Keyed.find? "children" members with
  | none =>
    rw [found] at h
    cases h
  | some v =>
    rw [found, Option.map_some] at h
    cases v with
    | array items =>
      dsimp only at h
      rw [readNode] at h
      obtain ⟨children, read, h⟩ := bind_eq_ok.1 h
      cases h
      exact .block found read
    | null | bool | int | float | text | object => cases h

theorem reads_of_readBranch (h : readBranch (readMembers members) path = .ok n) :
    Reads members path "if" n := by
  obtain ⟨_, -, h⟩ := bind_eq_ok.1 h
  obtain ⟨e, -, h⟩ := bind_eq_ok.1 h
  obtain ⟨m, hm, h⟩ := bind_eq_ok.1 h
  obtain ⟨yes, hyes, h⟩ := bind_eq_ok.1 h
  obtain ⟨onYes, node⟩ := optional?_readMembers_eq_some (optional?_of_required hm)
  rw [node] at hyes
  split at h
  · cases h
    exact .branch onYes hyes (by simp)
  · rename_i m' given
    obtain ⟨no, hno, h⟩ := bind_eq_ok.1 h
    cases h
    obtain ⟨onNo, node'⟩ := optional?_readMembers_eq_some given
    rw [node'] at hno
    refine .branch onYes hyes ?_
    rintro n ⟨⟩
    exact ⟨_, onNo, hno⟩

theorem reads_of_readIndicator (h : readIndicator (readMembers members) path = .ok n) :
    Reads members path "indicator" n := by
  obtain ⟨_, -, h⟩ := bind_eq_ok.1 h
  obtain ⟨name, -, h⟩ := bind_eq_ok.1 h
  obtain ⟨target, htarget, h⟩ := bind_eq_ok.1 h
  have bindable := isTarget_of_targetField htarget
  split at h
  · rename_i absent
    cases h
    rw [optional?_readMembers, Option.map_eq_none_iff] at absent
    exact .indicator bindable (.none absent)
  · rename_i m given
    obtain ⟨present, -⟩ := optional?_readMembers_eq_some given
    obtain ⟨value, node⟩ := m
    dsimp only at h
    split at h
    · obtain ⟨params, set, h⟩ := bind_eq_ok.1 h
      cases h
      exact .indicator bindable (.given present set)
    · cases h

theorem reads_of_readAssignment (h : readAssignment (readMembers members) path = .ok n) :
    Reads members path "operation" n := by
  obtain ⟨_, -, h⟩ := bind_eq_ok.1 h
  split at h
  · split at h
    · cases h
    · split at h
      · split at h
        · rename_i parsed
          cases h
          exact .assign (Grammar.exists_of_parseAssignment parsed).1
        · cases h
      · cases h
  · cases h
  · obtain ⟨target, htarget, h⟩ := bind_eq_ok.1 h
    obtain ⟨m, -, h⟩ := bind_eq_ok.1 h
    obtain ⟨e, -, h⟩ := bind_eq_ok.1 h
    cases h
    exact .assign (isTarget_of_targetField htarget)

theorem reads_of_readOrder (h : readOrder (readMembers members) path = .ok n) :
    Reads members path "trade" n := by
  obtain ⟨_, -, h⟩ := bind_eq_ok.1 h
  obtain ⟨symbol, -, h⟩ := bind_eq_ok.1 h
  obtain ⟨side, -, h⟩ := bind_eq_ok.1 h
  obtain ⟨m, -, h⟩ := bind_eq_ok.1 h
  obtain ⟨size, -, h⟩ := bind_eq_ok.1 h
  obtain ⟨price, -, h⟩ := bind_eq_ok.1 h
  obtain ⟨stop, -, h⟩ := bind_eq_ok.1 h
  cases h
  exact .order _

theorem reads_of_readWait (h : readWait (readMembers members) path = .ok n) :
    Reads members path "wait" n := by
  obtain ⟨_, -, h⟩ := bind_eq_ok.1 h
  split at h
  · rename_i m given _ _
    obtain ⟨w, hw, h⟩ := bind_eq_ok.1 h
    cases h
    exact .wait fun count _ => ⟨m.value, (optional?_readMembers_eq_some given).1, hw⟩
  · obtain ⟨w, hw, h⟩ := bind_eq_ok.1 h
    cases h
    obtain ⟨span, rfl, -⟩ := exists_elapsed_of_readElapsed hw
    exact .wait nofun
  · obtain ⟨source, -, h⟩ := bind_eq_ok.1 h
    obtain ⟨e, -, h⟩ := bind_eq_ok.1 h
    cases h
    exact .wait nofun
  · cases h

/-- There are no other ways in which an instruction is read from an object. -/
theorem reads_of_readTyped {kind : String}
    (h : readTyped kind (readMembers members) path = .ok n) : Reads members path kind n := by
  unfold readTyped at h
  split at h
  · exact reads_of_readBlock h
  · exact reads_of_readBranch h
  · exact reads_of_readIndicator h
  · exact reads_of_readAssignment h
  · exact reads_of_readOrder h
  · exact reads_of_readWait h
  · cases h

end

/-! ## Places in documents -/

/-- What is written one step down in a document. -/
def part? : Json → Segment → Option Json
  | .array items, .child i => items[i]?
  | .object members, .child i =>
    match Keyed.find? "children" members with
    | some (.array items) => items[i]?
    | _ => none
  | .object members, .yes => Keyed.find? "then" members
  | .object members, .no => Keyed.find? "else" members
  | _, _ => none

/-- What is written at a path in a document. -/
def locate? (v : Json) : Path → Option Json
  | [] => some v
  | s :: rest => (part? v s).bind fun w => locate? w rest

variable {v : Json} {path : Path} {n : Node}

/-- The type that a document gives an instruction. -/
def kindOf? (members : List (String × Json)) : Option String :=
  match Keyed.find? "type" members with
  | some (.text s) => some (Text.asciiLower (Text.trim s))
  | _ => none

theorem nodeType_eq_ok {members : List (String × Json)} {kind : String} :
    nodeType (readMembers members) path = .ok kind ↔ kindOf? members = some kind := by
  unfold nodeType kindOf?
  rw [find?_readMembers]
  cases Keyed.find? "type" members with
  | none => simp [fail]
  | some v => cases v <;> simp [failField]

/-- An instruction is read from an array of its children or from an object with a type. -/
theorem readNode_cases (h : readNode v path = .ok n) :
    (∃ items children, v = .array items ∧ readItems items 0 path = .ok children ∧
        n = .block children) ∨
      ∃ members kind, v = .object members ∧ kindOf? members = some kind ∧
        Reads members path kind n := by
  cases v with
  | array items =>
    rw [readNode] at h
    obtain ⟨children, read, h⟩ := bind_eq_ok.1 h
    cases h
    exact .inl ⟨items, children, rfl, read, rfl⟩
  | object members =>
    rw [readNode] at h
    obtain ⟨kind, hkind, h⟩ := bind_eq_ok.1 h
    exact .inr ⟨members, kind, rfl, nodeType_eq_ok.1 hkind, reads_of_readTyped h⟩
  | null | bool | int | float | text => simp [readNode, fail] at h

theorem find?_of_present? {members : List (String × Json)} {key : String}
    (h : Json.present? key members = some v) : Keyed.find? key members = some v := by
  rw [Json.present?] at h
  split at h
  · cases h
  · cases h
  · cases h
    assumption

theorem exists_item_of_readItems {items : List Json} {index : Nat} {children : List Node}
    (h : readItems items index path = .ok children) {i : Nat} (here : children[i]? = some n) :
    ∃ w, items[i]? = some w ∧ readNode w (path.child (index + i)) = .ok n := by
  induction items generalizing index children i with
  | nil =>
    cases h
    cases here
  | cons v items ih =>
    rw [readItems] at h
    obtain ⟨first, hfirst, h⟩ := bind_eq_ok.1 h
    obtain ⟨later, hlater, h⟩ := bind_eq_ok.1 h
    cases h
    cases i with
    | zero =>
      cases here
      exact ⟨v, rfl, hfirst⟩
    | succ i =>
      obtain ⟨w, found, read⟩ := ih hlater here
      refine ⟨w, found, ?_⟩
      rwa [Nat.add_assoc, Nat.add_comm 1 i] at read

/-- What stands one step down from a block is read from one of the items that it is read from. -/
theorem read_of_step_block {items : List Json} {children : List Node}
    (h : readItems items 0 path = .ok children) {s : Segment} {m : Node}
    (step : (Node.block children).step? s = some m) :
    ∃ i w, s = .child i ∧ items[i]? = some w ∧ readNode w (path ++ [s]) = .ok m := by
  cases s with
  | child i =>
    obtain ⟨w, found, read⟩ := exists_item_of_readItems h step
    rw [Nat.zero_add] at read
    exact ⟨i, w, rfl, found, read⟩
  | yes => cases step
  | no => cases step

/-- What stands one step down from an instruction is read from what is written there. -/
theorem read_of_step (h : readNode v path = .ok n) {s : Segment} {m : Node}
    (step : n.step? s = some m) : ∃ w, part? v s = some w ∧ readNode w (path ++ [s]) = .ok m := by
  rcases readNode_cases h with
    ⟨items, children, rfl, items_read, rfl⟩ | ⟨members, kind, rfl, -, reads⟩
  · obtain ⟨i, w, rfl, found, read⟩ := read_of_step_block items_read step
    exact ⟨w, found, read⟩
  · cases reads with
    | block found items_read =>
      obtain ⟨i, w, rfl, there, read⟩ := read_of_step_block items_read step
      exact ⟨w, by simp only [part?, found, there], read⟩
    | branch onYes read onNo =>
      cases s with
      | child i => cases step
      | yes =>
        cases step
        exact ⟨_, find?_of_present? onYes, read⟩
      | no =>
        obtain ⟨other, given, read⟩ := onNo m step
        exact ⟨_, find?_of_present? given, read⟩
    | indicator bindable given => cases step
    | assign bindable => cases step
    | order o => cases step
    | wait ticks => cases step

/-- What stands at a path from an instruction is read from what is written there. -/
theorem read_of_path {rest : Path} (h : readNode v path = .ok n) {m : Node}
    (there : n.at? rest = some m) :
    ∃ w, locate? v rest = some w ∧ readNode w (path ++ rest) = .ok m := by
  induction rest generalizing v path n with
  | nil =>
    cases there
    exact ⟨v, rfl, by rwa [List.append_nil]⟩
  | cons s rest ih =>
    obtain ⟨next, step, there⟩ := Option.bind_eq_some_iff.1 there
    obtain ⟨w, part, read⟩ := read_of_step h step
    obtain ⟨w', located, read'⟩ := ih read there
    refine ⟨w', ?_, ?_⟩
    · rw [locate?, part]
      exact located
    · rwa [List.append_assoc] at read'

/-- A document whose root is a block: a single instruction is put into an array. -/
def rooted (v : Json) : Json :=
  match v with
  | .object members => if kindOf? members = some "compound" then v else .array [v]
  | _ => v

/-- A tree is read from its document with a block at the root. -/
theorem readNode_rooted {tree : Node} (h : Node.ofJson v = .ok tree) :
    readNode (rooted v) [] = .ok tree := by
  cases v with
  | array items => exact h
  | object members =>
    obtain ⟨kind, hkind, h⟩ := bind_eq_ok.1 h
    rw [nodeType_eq_ok] at hkind
    simp only [rooted, hkind]
    by_cases compound : kind = "compound"
    · rw [if_pos compound] at h
      rw [if_pos (congrArg some compound)]
      exact h
    · rw [if_neg compound] at h
      obtain ⟨n, hn, h⟩ := bind_eq_ok.1 h
      cases h
      rw [if_neg fun same => compound (Option.some.inj same), readNode, readItems]
      dsimp only
      rw [hn]
      rfl
  | null | bool | int | float | text => simp [Node.ofJson, fail] at h

/-- What stands at a path of a tree is read from what is written at this path of its document. -/
theorem read_of_at {tree : Node} (h : Node.ofJson v = .ok tree) (there : tree.at? path = some n) :
    ∃ w, locate? (rooted v) path = some w ∧ readNode w path = .ok n := by
  have read := read_of_path (readNode_rooted h) there
  rwa [List.nil_append] at read

end Definition

end Stratagem
