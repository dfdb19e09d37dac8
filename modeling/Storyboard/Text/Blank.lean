import Storyboard.Text.Ranges

/-!
# Blank characters

The blanks that source text is trimmed and split at are the characters with the White_Space
property; the blanks that data formats know are the ASCII ones.
-/

namespace Storyboard.Text

/-- White_Space beyond ASCII. -/
def blankRanges : Array (Nat × Nat) := #[
  (0x85, 0x85), (0xA0, 0xA0), (0x1680, 0x1680), (0x2000, 0x200A), (0x2028, 0x2029), (0x202F, 0x202F),
  (0x205F, 0x205F), (0x3000, 0x3000)]

/-- White_Space: the ASCII blanks, the vertical tab among them, and those of the table. -/
def isBlank (c : Char) : Bool :=
  if c.val < 0x80 then c == ' ' || decide (9 ≤ c.val ∧ c.val ≤ 13)
  else inRanges blankRanges c.toNat

/-- The ASCII blanks without the vertical tab. -/
def isAsciiBlank (c : Char) : Bool :=
  c == ' ' || c == '\t' || c == '\n' || c == '\x0c' || c == '\r'

end Storyboard.Text
