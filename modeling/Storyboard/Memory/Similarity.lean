/-!
# Similarity of texts

The edit distance counts the characters that have to be inserted, deleted or replaced to turn one
text into another; it is computed row by row.  The ratio sets it against the longer text.
-/

namespace Storyboard.Similarity

/-- The cells of a row that belong to a character, behind a cell `left`; `diagonal` and `above` are
the cells of the row before. -/
def rowCells (c : Char) : (diagonal : Nat) → (left : Nat) → List Char → List Nat → List Nat
  | diagonal, left, d :: ds, up :: above =>
    let cell := min (min (diagonal + if c = d then 0 else 1) (up + 1)) (left + 1)
    cell :: rowCells c up cell ds above
  | _, _, _, _ => []

/-- The row that follows a row. -/
def nextRow (b : List Char) (row : List Nat) (c : Char) : List Nat :=
  match row with
  | [] => []
  | first :: above => (first + 1) :: rowCells c first (first + 1) b above

/-- The edit distance of two texts. -/
def distance (a b : List Char) : Nat :=
  (a.foldl (nextRow b) (List.range (b.length + 1))).getLastD 0

/-- How similar two texts are: one when they are equal, and zero when nothing agrees. -/
def ratio (a b : String) : Float :=
  let longest := max a.length b.length
  if longest = 0 then 1.0
  else 1.0 - Float.ofNat (distance a.toList b.toList) / Float.ofNat longest

end Storyboard.Similarity
