/-!
This module contains classes of characters that are given by ranges of code points.
-/

namespace ContextFree

namespace Text

/--
The code point of the character lies in one of the ranges, which include both ends.
-/
def inRanges (ranges : List (Nat × Nat)) (c : Char) : Bool :=
  ranges.any fun range => range.1 ≤ c.toNat ∧ c.toNat ≤ range.2

end Text

end ContextFree
