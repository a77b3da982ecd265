import Stratagem.Proofs.Plan.Located
import Stratagem.Proofs.Plan.PathTexts

/-!
# Where definitions are faulty

A definition that is refused has its fault at a place: an instruction or a field of one, under a
path that leads to a part of the document (`Definition.exists_place_of_ofJson`). Each reader reports
its own faults at the path that it is given, and hands the path of a part to the reader of the part
(`Faulty`). No field is named like a step of a path, so the path can be read off the place's text.
-/

namespace Stratagem

namespace Definition

variable {α β : Type}

/-- If there is a fault, it stands at a path that leads from `path` to a part of the value. -/
def Faulty (v : Json) (path : Path) (x : Except DefinitionError α) : Prop :=
  ∀ e, x = .error e → ∃ rest w, locate? v rest = some w ∧ e.place.Stands (path ++ rest)

namespace Faulty

variable {v w : Json} {path : Path} {x : Except DefinitionError α}

theorem ok (a : α) : Faulty v path (.ok a : Except DefinitionError α) := by
  intro e h
  cases h

theorem bind {f : α → Except DefinitionError β} (hx : Faulty v path x)
    (hf : ∀ a, Faulty v path (f a)) : Faulty v path (x >>= f) := by
  intro e h
  rcases bind_eq_error.1 h with h | ⟨a, -, h⟩
  · exact hx e h
  · exact hf a e h

theorem map (hx : Faulty v path x) (f : α → β) : Faulty v path (x.map f) := by
  cases x with
  | error e =>
    rintro _ ⟨⟩
    exact hx e rfl
  | ok a => exact .ok (f a)

/-- The value itself is at fault. -/
theorem own {e : DefinitionError} (here : e.place.Stands path) :
    Faulty v path (.error e : Except DefinitionError α) := by
  rintro _ ⟨⟩
  exact ⟨[], v, rfl, by rwa [List.append_nil]⟩

theorem fail (fault : DefinitionFault) :
    Faulty v path (Definition.fail path fault : Except DefinitionError α) :=
  own (.node path)

theorem failField {name : String} (plain : IsFieldName name) (fault : DefinitionFault) :
    Faulty v path (Definition.failField path name fault : Except DefinitionError α) :=
  own (.field path plain)

/-- A part of the value is at fault. -/
theorem part {s : Segment} (h : part? v s = some w) (hx : Faulty w (path ++ [s]) x) :
    Faulty v path x := by
  intro e failed
  obtain ⟨rest, u, located, stands⟩ := hx e failed
  refine ⟨s :: rest, u, by rw [locate?, h]; exact located, ?_⟩
  rwa [List.append_assoc] at stands

end Faulty

/-! ## Fields -/

section

variable {v : Json} {path : Path} {fields : Fields} {key : String}

theorem faulty_required (key : String) : Faulty v path (required fields key path) := by
  unfold required
  split
  · exact .ok _
  · exact .fail _

theorem faulty_checkKeys (allowed : List String) :
    Faulty v path (checkKeys fields allowed path) := by
  unfold checkKeys
  split
  · exact .fail _
  · exact .ok _

theorem faulty_nodeType : Faulty v path (nodeType fields path) := by
  unfold nodeType
  split
  · exact .ok _
  · exact .failField (by decide) _
  · exact .fail _

theorem faulty_textField (plain : IsFieldName key) : Faulty v path (textField fields key path) := by
  unfold textField
  refine (faulty_required key).bind fun m => ?_
  split
  · exact .ok _
  · exact .failField plain _

theorem faulty_targetField (plain : IsFieldName key) :
    Faulty v path (targetField fields key path) := by
  unfold targetField
  refine (faulty_textField plain).bind fun text => ?_
  dsimp only
  split
  · exact .ok _
  · exact .failField plain _

theorem faulty_expression (plain : IsFieldName key) (source : String) :
    Faulty v path (expression source key path) := by
  unfold expression
  split
  · exact .ok _
  · exact .failField plain _

theorem faulty_numericExpression (plain : IsFieldName key) (value : Json) :
    Faulty v path (numericExpression value key path) := by
  unfold numericExpression
  split
  · exact .ok _
  · exact .ok _
  · exact faulty_expression plain _
  · exact .failField plain _

theorem faulty_optionalExpression (plain : IsFieldName key) :
    Faulty v path (optionalExpression fields key path) := by
  unfold optionalExpression
  split
  · exact .ok _
  · exact (faulty_numericExpression plain _).map some

/-! ## Instructions without parts -/

theorem isFieldName_params (key : String) : IsFieldName ("params." ++ key) := by
  rintro ⟨s, start⟩
  have text : ("params." ++ key).toList = 'p' :: ("arams.".toList ++ key.toList) := by
    rw [String.toList_append]
    rfl
  rw [text] at start
  cases s <;> simp [Segment.word] at start

theorem faulty_integerParam (value : Json) (key : String) :
    Faulty v path (integerParam value key path) := by
  unfold integerParam
  have refused (fault : DefinitionFault) : Faulty v path
      (failField path ("params." ++ key) fault : Except DefinitionError Int) :=
    .failField (isFieldName_params key) fault
  dsimp only
  split
  · split
    · exact .ok _
    · exact refused _
  · split
    · split
      · exact .ok _
      · exact refused _
    · exact refused _
  · exact refused _

theorem faulty_setParam (params : Params) (key : String) (value : Json) :
    Faulty v path (setParam params key value path) := by
  unfold setParam
  split
  · exact (faulty_integerParam _ _).bind fun _ => .ok _
  · exact (faulty_integerParam _ _).bind fun _ => .ok _
  · exact (faulty_integerParam _ _).bind fun _ => .ok _
  · exact (faulty_integerParam _ _).bind fun _ => .ok _
  · exact (faulty_integerParam _ _).bind fun _ => .ok _
  · split
    · exact .ok _
    · exact .failField (isFieldName_params "multiplier") _
  · split
    · exact .ok _
    · exact .failField (isFieldName_params "mode") _
  · split
    · split
      · exact .ok _
      · exact .failField (isFieldName_params "source") _
    · exact .failField (isFieldName_params "source") _
  · exact .failField (by decide) _

theorem faulty_setParams (written : List (String × Json)) (params : Params) :
    Faulty v path (setParams written params path) := by
  induction written generalizing params with
  | nil => exact .ok _
  | cons entry written ih => exact (faulty_setParam _ _ _).bind fun params => ih params

theorem faulty_readIndicator : Faulty v path (readIndicator fields path) := by
  unfold readIndicator
  refine (faulty_checkKeys _).bind fun _ => ?_
  refine (faulty_textField (by decide)).bind fun name => ?_
  refine (faulty_targetField (by decide)).bind fun target => ?_
  split
  · exact .ok _
  · split
    · exact (faulty_setParams _ _).bind fun _ => .ok _
    · exact .failField (by decide) _

theorem faulty_readAssignment : Faulty v path (readAssignment fields path) := by
  unfold readAssignment
  refine (faulty_checkKeys _).bind fun _ => ?_
  split
  · split
    · exact .fail _
    · split
      · split
        · exact .ok _
        · exact .failField (by decide) _
      · exact .failField (by decide) _
  · exact .fail _
  · refine (faulty_targetField (by decide)).bind fun target => ?_
    refine (faulty_required _).bind fun m => ?_
    exact (faulty_numericExpression (by decide) _).bind fun _ => .ok _

theorem faulty_readOrder : Faulty v path (readOrder fields path) := by
  unfold readOrder
  refine (faulty_checkKeys _).bind fun _ => ?_
  refine (faulty_textField (by decide)).bind fun symbol => ?_
  refine (faulty_textField (by decide)).bind fun side => ?_
  refine (faulty_required _).bind fun m => ?_
  refine (faulty_numericExpression (by decide) _).bind fun size => ?_
  refine (faulty_optionalExpression (by decide)).bind fun price => ?_
  exact (faulty_optionalExpression (by decide)).bind fun stop => .ok _

theorem faulty_readTicks (value : Json) : Faulty v path (readTicks value path) := by
  unfold readTicks
  dsimp only
  split
  · exact .ok _
  · split
    · exact .ok _
    · exact .failField (by decide) _
  · exact .failField (by decide) _

theorem faulty_readElapsed (value : Json) : Faulty v path (readElapsed value path) := by
  unfold readElapsed
  dsimp only
  split
  · exact .ok _
  · exact .failField (by decide) _

theorem faulty_readWait : Faulty v path (readWait fields path) := by
  unfold readWait
  refine (faulty_checkKeys _).bind fun _ => ?_
  split
  · exact (faulty_readTicks _).bind fun _ => .ok _
  · exact (faulty_readElapsed _).bind fun _ => .ok _
  · refine (faulty_textField (by decide)).bind fun source => ?_
    exact (faulty_expression (by decide) _).bind fun _ => .ok _
  · exact .fail _

theorem faulty_readCondition : Faulty v path (readCondition fields path) := by
  unfold readCondition
  refine (faulty_required _).bind fun m => ?_
  split
  · exact faulty_expression (by decide) _
  · exact .ok _
  · exact .failField (by decide) _

end

/-! ## Instructions with parts -/

/-- A block and the array of its children have the same parts. -/
theorem Faulty.block {members : List (String × Json)} {items : List Json} {path : Path}
    {x : Except DefinitionError α}
    (found : Keyed.find? "children" members = some (.array items))
    (h : Faulty (.array items) path x) : Faulty (.object members) path x := by
  intro e failed
  obtain ⟨rest, w, located, stands⟩ := h e failed
  cases rest with
  | nil => exact ⟨[], _, rfl, stands⟩
  | cons s rest =>
    refine ⟨s :: rest, w, ?_, stands⟩
    cases s with
    | child i =>
      rw [locate?, part?, found]
      exact located
    | yes | no => cases located

/-- Wherever the value is read as an instruction, its faults stand at parts of it. -/
def Pinned (v : Json) : Prop := ∀ path, Faulty v path (readNode v path)

section

variable {members : List (String × Json)} {path : Path}
variable (pinned : ∀ key v, Keyed.find? key members = some v → Pinned v)
include pinned

theorem faulty_side {key : String} {m : Member} {s : Segment}
    (given : optional? (readMembers members) key = some m)
    (part : part? (.object members) s = Keyed.find? key members) :
    Faulty (.object members) path (m.node (path ++ [s])) := by
  obtain ⟨present, node⟩ := optional?_readMembers_eq_some given
  have found := find?_of_present? present
  rw [node]
  exact .part (part.trans found) (pinned key m.value found _)

theorem faulty_readBranch :
    Faulty (.object members) path (readBranch (readMembers members) path) := by
  unfold readBranch
  refine (faulty_checkKeys _).bind fun _ => ?_
  refine faulty_readCondition.bind fun condition => ?_
  intro e failed
  rcases bind_eq_error.1 failed with missing | ⟨m, given, failed⟩
  · exact faulty_required "then" e missing
  · have onYes := @faulty_side _ path pinned _ m .yes (optional?_of_required given) rfl
    refine onYes.bind (fun yes => ?_) e failed
    split
    · exact .ok _
    · rename_i m' given'
      exact (@faulty_side _ path pinned _ m' .no given' rfl).bind fun _ => .ok _

theorem faulty_readBlock :
    Faulty (.object members) path (readBlock (readMembers members) path) := by
  unfold readBlock
  refine (faulty_checkKeys _).bind fun _ => ?_
  rw [find?_readMembers]
  cases found : Keyed.find? "children" members with
  | none => exact .fail _
  | some v =>
    cases v with
    | array items => exact .block found (pinned "children" _ found path)
    | null | bool | int | float | text | object => exact .failField (by decide) _

theorem faulty_readObject :
    Faulty (.object members) path (readObject (readMembers members) path) := by
  unfold readObject
  refine faulty_nodeType.bind fun kind => ?_
  unfold readTyped
  split
  · exact faulty_readBlock pinned
  · exact faulty_readBranch pinned
  · exact faulty_readIndicator
  · exact faulty_readAssignment
  · exact faulty_readOrder
  · exact faulty_readWait
  · exact .failField (by decide) _

end

mutual
theorem pinned_readNode (v : Json) : Pinned v := by
  intro path
  match v with
  | .array items =>
    rw [readNode]
    exact (faulty_readItems items 0 (.array items) path fun _ => by rw [Nat.zero_add]; rfl).bind
      fun _ => .ok _
  | .object members =>
    rw [readNode]
    exact faulty_readObject (pinned_members members)
  | .null | .bool b | .int n | .float x | .text s => exact .fail _

/-- The faults in items that are children of a value from an index on stand at parts of it. -/
theorem faulty_readItems (items : List Json) (index : Nat) (v : Json) (path : Path)
    (parts : ∀ i, part? v (.child (index + i)) = items[i]?) :
    Faulty v path (readItems items index path) := by
  match items with
  | [] => exact .ok _
  | item :: items =>
    rw [readItems]
    have first : part? v (.child index) = some item := parts 0
    refine (Faulty.part first (pinned_readNode item _)).bind fun n => ?_
    refine (faulty_readItems items (index + 1) v path fun i => ?_).bind fun _ => .ok _
    rw [Nat.add_assoc, Nat.add_comm 1 i, parts (i + 1), List.getElem?_cons_succ]

theorem pinned_members (members : List (String × Json)) (key : String) (v : Json)
    (here : Keyed.find? key members = some v) : Pinned v := by
  match members with
  | [] => cases here
  | (k, w) :: members =>
    rw [Keyed.find?] at here
    split at here
    · cases here
      exact pinned_readNode v
    · exact pinned_members members key v here
end

/-! ## Definitions -/

/-- A definition that is refused has its fault at a path that leads to a part of its document. -/
theorem exists_place_of_ofJson {v : Json} {e : DefinitionError} (h : Node.ofJson v = .error e) :
    ∃ path w, locate? (rooted v) path = some w ∧ e.place.Stands path := by
  have top : ∀ v : Json, Faulty v [] (readNode v []) := fun v => pinned_readNode v []
  suffices faulty : Faulty (rooted v) [] (Node.ofJson v) from faulty e h
  unfold Node.ofJson
  split
  · exact top _
  · rename_i members
    cases kind : nodeType (readMembers members) [] with
    | error e =>
      have own := @faulty_nodeType (rooted (.object members)) [] (readMembers members)
      rw [kind] at own
      rintro _ ⟨⟩
      exact own e rfl
    | ok kind' =>
      rw [nodeType_eq_ok] at kind
      show Faulty _ _ (if kind' = "compound" then _ else _)
      simp only [rooted, kind]
      by_cases compound : kind' = "compound"
      · rw [if_pos compound, if_pos (congrArg some compound)]
        exact top _
      · rw [if_neg compound, if_neg fun same => compound (Option.some.inj same)]
        have single : part? (.array [.object members]) (.child 0) = some (.object members) := rfl
        exact (Faulty.part single (pinned_readNode _ _)).bind fun _ => .ok _
  · exact .fail _

end Definition

end Stratagem
