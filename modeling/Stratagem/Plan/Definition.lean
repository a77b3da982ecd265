import Stratagem.Formula.Grammar
import Stratagem.Json.Reading
import Stratagem.Json.Writing
import Stratagem.Plan.DefinitionFault

/-!
# Definitions

Reading a tree of instructions from JSON. An instruction is an object with a `type`; an array stands
for a block of its items. The root of a tree is always a block. Unknown types and keys, missing
fields, values of the wrong kind and syntax errors in expressions are reported with the place of the
instruction or field; expressions are read and not evaluated.

The reader of an object gets, for each member, its value together with the reading of that value as
an instruction (`Member`), so that the recursion follows the JSON value.
-/

namespace Stratagem

/-! ## Fields -/

namespace Definition

/-- Something that is read at a place in a tree. -/
abbrev At (α : Type) := Path → Except DefinitionError α

/-- A value inside an object, and its reading as an instruction. -/
structure Member where
  value : Json
  node : At Node

/-- An object whose members can be read as instructions. -/
abbrev Fields := Keyed Member

/-- An error at an instruction. -/
def fail {α : Type} (path : Path) (fault : DefinitionFault) : Except DefinitionError α :=
  .error ⟨.node path, fault⟩

/-- An error at a field of an instruction. -/
def failField {α : Type} (path : Path) (name : String) (fault : DefinitionFault) :
    Except DefinitionError α :=
  .error ⟨.field path name, fault⟩

/-- The value of a field that is not null. -/
def optional? (fields : Fields) (key : String) : Option Member :=
  match Keyed.find? key fields with
  | some ⟨.null, _⟩ | none => none
  | some m => some m

/-- The value of a field that must be there. -/
def required (fields : Fields) (key : String) : At Member := fun path =>
  match optional? fields key with
  | some m => .ok m
  | none => fail path (.missing key)

/-- Refuses fields other than those allowed and `type`. -/
def checkKeys (fields : Fields) (allowed : List String) : At Unit := fun path =>
  match (Keyed.keys fields).find? fun key => key != "type" && !allowed.contains key with
  | some key => fail path (.unknownField key allowed)
  | none => .ok ()

/-- The type of an instruction, in lower case. -/
def nodeType (fields : Fields) : At String := fun path =>
  match Keyed.find? "type" fields with
  | some ⟨.text s, _⟩ => .ok (Text.asciiLower (Text.trim s))
  | some m => failField path "type" (.expected "a string" m.value.kindName)
  | none => fail path (.missing "type")

/-- A field that is a text. -/
def textField (fields : Fields) (key : String) : At String := fun path => do
  match (← required fields key path).value with
  | .text s => return s
  | v => failField path key (.expected "a string" v.kindName)

/-- A field that is the name of a variable. -/
def targetField (fields : Fields) (key : String) : At String := fun path => do
  let target := Text.trim (← textField fields key path)
  if Literal.isTarget target then return target else failField path key (.invalidTarget target)

/-- The expression of a text. -/
def expression (source field : String) : At Expr := fun path =>
  match Expr.parse source with
  | .ok e => .ok e
  | .error e => failField path field (.expression e source)

/-- An expression that is written as a number or as a text. -/
def numericExpression (v : Json) (field : String) : At Expr := fun path =>
  match v with
  | .int n => .ok (.number (Float.ofInt n))
  | .float x => .ok (.number x)
  | .text s => expression s field path
  | v => failField path field (.expected "a number or expression" v.kindName)

/-- An expression that may be missing. -/
def optionalExpression (fields : Fields) (key : String) : At (Option Expr) := fun path =>
  match optional? fields key with
  | none => .ok none
  | some m => (numericExpression m.value key path).map some

/-! ## Instructions -/

/-- A whole number of 64 bits with a sign, possibly written with a point. -/
def integerParam (v : Json) (key : String) : At Int := fun path =>
  let refuse := failField path ("params." ++ key) (.expected "an integer" v.compact)
  match v with
  | .int n => if Decimal.isInt64 n then .ok n else refuse
  | .float x =>
    match (Decimal.Double.of x).whole? with
    | some n => if -Decimal.int64Limit < n && n < Decimal.int64Limit then .ok n else refuse
    | none => refuse
  | _ => refuse

/-- The parameters with one more of them set. -/
def setParam (params : Params) (key : String) (v : Json) : At Params := fun path =>
  match key with
  | "period" => do return { params with period := some (← integerParam v key path) }
  | "fast" => do return { params with fast := some (← integerParam v key path) }
  | "slow" => do return { params with slow := some (← integerParam v key path) }
  | "signal" => do return { params with signal := some (← integerParam v key path) }
  | "window" => do return { params with window := some (← integerParam v key path) }
  | "multiplier" =>
    match v.float? with
    | some x => .ok { params with multiplier := some x }
    | none => failField path "params.multiplier" (.expectedPlain "a number")
  | "mode" =>
    match v with
    | .text s => .ok { params with mode := some s }
    | _ => failField path "params.mode" (.expectedPlain "a string")
  | "source" =>
    match v with
    | .text s =>
      match PriceSource.ofWord? s with
      | some source => .ok { params with source := source }
      | none => failField path "params.source" (.unknownSource s)
    | _ => failField path "params.source" (.expectedPlain "a string")
  | other => failField path "params" (.unknownParameter other)

/-- Sets parameters one after the other. -/
def setParams : List (String × Json) → Params → At Params
  | [], params, _ => .ok params
  | (key, v) :: rest, params, path => do
    let params ← setParam params key v path
    setParams rest params path

/-- An indicator. -/
def readIndicator (fields : Fields) : At Node := fun path => do
  checkKeys fields ["name", "params", "target"] path
  let name := Text.trim (← textField fields "name" path)
  let target ← targetField fields "target" path
  match optional? fields "params" with
  | none => return .indicator name {} target
  | some m =>
    match m.value with
    | .object members => return .indicator name (← setParams members {} path) target
    | v => failField path "params" (.expected "an object" v.kindName)

/-- An assignment, as a statement or as a target and an expression. -/
def readAssignment (fields : Fields) : At Node := fun path => do
  checkKeys fields ["target", "expression", "statement"] path
  match optional? fields "statement", optional? fields "target" with
  | some statement, none =>
    if (optional? fields "expression").isSome then fail path .mixedForms
    else
      match statement.value with
      | .text source =>
        match Expr.parseAssignment source with
        | .ok (target, e) => return .assign target e
        | .error e => failField path "statement" (.expression e source)
      | _ => failField path "statement" (.expectedPlain "a string")
  | some _, some _ => fail path .mixedForms
  | none, _ =>
    let target ← targetField fields "target" path
    let m ← required fields "expression" path
    return .assign target (← numericExpression m.value "expression" path)

/-- A trade. -/
def readOrder (fields : Fields) : At Node := fun path => do
  checkKeys fields ["symbol", "side", "size", "price", "stop"] path
  let symbol ← textField fields "symbol" path
  let side ← textField fields "side" path
  let size ← numericExpression (← required fields "size" path).value "size" path
  let price ← optionalExpression fields "price" path
  let stop ← optionalExpression fields "stop" path
  return .order { symbol, side, size, price, stop }

/-- A number of ticks. Whole numbers beyond 64 bits count as the greatest or least of them. -/
def readTicks (v : Json) : At Wait := fun path =>
  let clamp := fun (n : Int) =>
    .ok (.ticks (max (-Decimal.int64Limit) (min n (Decimal.int64Limit - 1))))
  match v with
  | .int n => clamp n
  | .float x =>
    match (Decimal.Double.of x).whole? with
    | some n => clamp n
    | none => failField path "bars" (.expectedPlain "an integer")
  | _ => failField path "bars" (.expectedPlain "an integer")

/-- A duration in seconds or as a text. -/
def readElapsed (v : Json) : At Wait := fun path =>
  let span : Except DefinitionFault TimeSpan :=
    match v with
    | .int n => (Wait.ofSeconds (Float.ofInt n)).mapError .duration
    | .float x => (Wait.ofSeconds x).mapError .duration
    | .text s => (Wait.readDuration s).mapError .duration
    | v => .error (.expected "a duration" v.kindName)
  match span with
  | .ok span => .ok (.elapsed span)
  | .error fault => failField path "duration" fault

/-- A wait for exactly one of three things. -/
def readWait (fields : Fields) : At Node := fun path => do
  checkKeys fields ["bars", "duration", "until"] path
  match optional? fields "bars", optional? fields "duration", optional? fields "until" with
  | some m, none, none => return .wait (← readTicks m.value path)
  | none, some m, none => return .wait (← readElapsed m.value path)
  | none, none, some _ =>
    let source ← textField fields "until" path
    return .wait (.condition (← expression source "until" path))
  | _, _, _ => fail path .waitForms

/-- The condition of a branch, which may be a plain truth value. -/
def readCondition (fields : Fields) : At Expr := fun path => do
  match (← required fields "condition" path).value with
  | .text s => expression s "condition" path
  | .bool b => return .bool b
  | v => failField path "condition" (.expected "an expression string" v.kindName)

/-- A branch. -/
def readBranch (fields : Fields) : At Node := fun path => do
  checkKeys fields ["condition", "then", "else"] path
  let condition ← readCondition fields path
  let yes ← (← required fields "then" path).node path.yes
  match optional? fields "else" with
  | none => return .branch condition yes none
  | some m => return .branch condition yes (some (← m.node path.no))

/-- A block; its children stand in an array. -/
def readBlock (fields : Fields) : At Node := fun path => do
  checkKeys fields ["children"] path
  match Keyed.find? "children" fields with
  | none => fail path (.missing "children")
  | some m =>
    match m.value with
    | .array _ => m.node path
    | v => failField path "children" (.expected "an array" v.kindName)

/-- An instruction of a given type. -/
def readTyped (kind : String) (fields : Fields) : At Node := fun path =>
  match kind with
  | "compound" => readBlock fields path
  | "if" => readBranch fields path
  | "indicator" => readIndicator fields path
  | "operation" => readAssignment fields path
  | "trade" => readOrder fields path
  | "wait" => readWait fields path
  | other => failField path "type" (.unknownType other)

/-- An instruction that is written as an object. -/
def readObject (fields : Fields) : At Node := fun path => do
  readTyped (← nodeType fields path) fields path

/-! ## Trees -/

mutual
/-- The instruction of a JSON value. -/
def readNode : Json → At Node
  | .array items => fun path => do return .block (← readItems items 0 path)
  | .object members => readObject (readMembers members)
  | v => fun path => fail path (.expected "an instruction object" v.kindName)

/-- The instructions of a list, the first of which is a child of a given index. -/
def readItems : List Json → (index : Nat) → At (List Node)
  | [], _ => fun _ => .ok []
  | v :: vs, index => fun path => do
    let n ← readNode v (path.child index)
    let ns ← readItems vs (index + 1) path
    return n :: ns

/-- The members of an object with their readings as instructions. -/
def readMembers : List (String × Json) → Fields
  | [] => []
  | (key, v) :: rest => (key, ⟨v, readNode v⟩) :: readMembers rest
end

end Definition

namespace Node

/-- The tree of a JSON value. A single instruction becomes the only child of a block. -/
def ofJson (v : Json) : Except DefinitionError Node :=
  match v with
  | .array _ => Definition.readNode v []
  | .object members => do
    let kind ← Definition.nodeType (Definition.readMembers members) []
    if kind = "compound" then Definition.readNode v []
    else return .block [← Definition.readNode v (Path.child [] 0)]
  | v => Definition.fail [] (.expected "an object or array" v.kindName)

/-- The tree of a JSON text. -/
def ofText (source : String) : Except DefinitionError Node :=
  match Json.read? source with
  | some v => ofJson v
  | none => Definition.fail [] .invalidJson

end Node

end Stratagem
