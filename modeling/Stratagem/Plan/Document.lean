import Stratagem.Plan.Definition

/-!
# Documents

A document is a JSON object with the definition of a strategy and, if wanted, its name, a
description, and the symbol and interval it was written for. A definition alone is read as well.
-/

namespace Stratagem

namespace Strategy

/-- The keys of a document. -/
def documentKeys : List String := ["name", "description", "symbol", "interval", "definition"]

/-- A text of a document, which may be missing. -/
def documentText (members : Keyed Json) (key : String) : Except DefinitionError (Option String) :=
  match Json.present? key members with
  | none => .ok none
  | some (.text s) => .ok (some s)
  | some v => .error ⟨.documentField key, .expected "a string" v.kindName⟩

/-- A definition without a document. -/
def bare (definition : Node) : Strategy :=
  { name := "unnamed", description := "", symbol := none, interval := none, definition }

/-- The strategy of a JSON value: a document, which is an object with a definition, or a bare
definition. -/
def ofJson (v : Json) : Except DefinitionError Strategy :=
  match v with
  | .object members =>
    match Keyed.find? "definition" members with
    | none => (Node.ofJson v).map bare
    | some definition =>
      match (Keyed.keys members).find? fun key => !documentKeys.contains key with
      | some key => .error ⟨.document, .unknownField key documentKeys⟩
      | none => do
        let definition ← Node.ofJson definition
        let name ← documentText members "name"
        let description ← documentText members "description"
        let symbol ← documentText members "symbol"
        let interval ← documentText members "interval"
        return { name := name.getD "unnamed", description := description.getD "", symbol, interval,
                 definition }
  | v => (Node.ofJson v).map bare

/-- The strategy of a JSON text. -/
def ofText (source : String) : Except DefinitionError Strategy :=
  match Json.read? source with
  | some v => ofJson v
  | none => Definition.fail [] .invalidJson

end Strategy

end Stratagem
