/-!
# Ranges of code points

A property of characters as data: closed ranges of code points, ascending and apart, and the
character is looked up among them.
-/

namespace Stratagem.Text

/-- Closed ranges of code points. -/
abbrev CodeRanges := List (Nat × Nat)

namespace CodeRanges

/-- Whether a character lies in one of the ranges. -/
def contains (ranges : CodeRanges) (c : Char) : Bool :=
  ranges.any fun r => r.1 ≤ c.toNat && c.toNat ≤ r.2

end CodeRanges

end Stratagem.Text
