import Stratagem.Formula.SyntaxError
import Stratagem.Plan.Duration

/-!
# Faults of definitions

What can be wrong with a definition or a document of a strategy, where, and in which words.
-/

namespace Stratagem

/-- Where something is wrong in a document. -/
inductive Place
  | node (path : Path)
  | field (path : Path) (name : String)
  | document
  | documentField (name : String)

/-- What is wrong with a definition. -/
inductive DefinitionFault
  | invalidJson
  | unknownField (key : String) (allowed : List String)
  | missing (field : String)
  /-- A value of another kind than the one that must stand here. -/
  | expected (wanted found : String)
  /-- The same, without a word about what was found. -/
  | expectedPlain (wanted : String)
  | unknownType (word : String)
  | expression (error : SyntaxError) (source : String)
  | invalidTarget (name : String)
  /-- A statement together with a target or an expression. -/
  | mixedForms
  | unknownParameter (name : String)
  | unknownSource (word : String)
  /-- A wait for none or several of the things that it can wait for. -/
  | waitForms
  | duration (fault : DurationFault)

/-- What is wrong with a definition, and where. -/
structure DefinitionError where
  place : Place
  fault : DefinitionFault

namespace Place

/-- A place in messages. -/
def render : Place → String
  | node path => path.render
  | field path name => path.render ++ "." ++ name
  | document => "document"
  | documentField name => "document." ++ name

end Place

namespace DefinitionFault

/-- What is wrong, in words. -/
def describe : DefinitionFault → String
  | invalidJson => "invalid JSON"
  | unknownField key allowed =>
    let keys := ", ".intercalate allowed
    s!"unknown field '{key}' (expected one of: {keys})"
  | missing field => s!"missing required field '{field}'"
  | expected wanted found => s!"expected {wanted}, found {found}"
  | expectedPlain wanted => s!"expected {wanted}"
  | unknownType word =>
    s!"unknown instruction type '{word}' " ++
      "(expected compound, if, indicator, operation, trade or wait)"
  | expression error source => s!"{error.render} in '{source}'"
  | invalidTarget name => s!"'{name}' is not a valid variable name"
  | mixedForms => "use either 'statement' or 'target'/'expression'"
  | unknownParameter name => s!"unknown parameter '{name}'"
  | unknownSource word => PriceSource.unknown word
  | waitForms => "wait needs exactly one of 'bars', 'duration' or 'until'"
  | duration fault => fault.describe

end DefinitionFault

end Stratagem
