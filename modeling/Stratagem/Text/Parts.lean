/-!
# Parts of texts

A text is cut into its parts between separators.
-/

namespace Stratagem

namespace Text

/-- The parts of a text between separators, of which there is always at least one. -/
def parts (separator : Char) : List Char → List (List Char)
  | [] => [[]]
  | c :: cs =>
    match parts separator cs with
    | [] => [[c]]
    | p :: ps => if c = separator then [] :: p :: ps else (c :: p) :: ps

end Text

end Stratagem
