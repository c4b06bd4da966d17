/-!
# Ranges of characters

Properties of characters are given by ascending tables of ranges.
-/

namespace Managed.Text

/-- Whether a code point is in one of the ranges of an ascending table. -/
def inRanges (code : Nat) : List (Nat × Nat) → Bool
  | [] => false
  | (first, last) :: rest => first ≤ code && (code ≤ last || inRanges code rest)

end Managed.Text
