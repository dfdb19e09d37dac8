/-!
# Ranges of code points

A character class beyond ASCII is a table of inclusive ranges in increasing order, and membership
is a search of the table.
-/

namespace Storyboard.Text

/-- The code point `n` lies in one of the ranges. -/
def inRanges (table : Array (Nat × Nat)) (n : Nat) : Bool :=
  table.any fun range => decide (range.1 ≤ n) && decide (n ≤ range.2)

end Storyboard.Text
