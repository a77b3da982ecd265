/-!
# Paths

The place of an instruction in a tree: the steps from the root, rendered as
`root.children[2].then`.
-/

namespace Stratagem

/-- One step down a tree of instructions. -/
inductive Segment
  /-- To a child of a block. -/
  | child (index : Nat)
  /-- To the branch for a condition that holds. -/
  | yes
  /-- To the branch for a condition that does not hold. -/
  | no
  deriving DecidableEq, Repr

/-- The steps from the root of a tree to an instruction. -/
abbrev Path := List Segment

namespace Segment

/-- A step in messages. -/
def render : Segment → String
  | child i => s!".children[{toString i}]"
  | yes => ".then"
  | no => ".else"

end Segment

namespace Path

/-- A path in messages. -/
def render (p : Path) : String := "root" ++ String.join (p.map Segment.render)

/-- The path to a child. -/
def child (p : Path) (i : Nat) : Path := p ++ [.child i]

/-- The path to the branch for a condition that holds. -/
def yes (p : Path) : Path := p ++ [.yes]

/-- The path to the branch for a condition that does not hold. -/
def no (p : Path) : Path := p ++ [.no]

end Path

end Stratagem
