import Storyboard.Text.Blank

/-!
# Trimming, words and lines

Cutting a text at its blanks and at its line ends.
-/

namespace Storyboard.Text

/-- The text without its leading blanks. -/
def trimStart (cs : List Char) : List Char := cs.dropWhile isBlank

/-- The text without its trailing characters that satisfy `p`. -/
def dropEndWhile (p : Char → Bool) (cs : List Char) : List Char :=
  (cs.reverse.dropWhile p).reverse

/-- The text without its trailing blanks. -/
def trimEnd (cs : List Char) : List Char := dropEndWhile isBlank cs

/-- The text without its outer blanks. -/
def trim (cs : List Char) : List Char := trimEnd (trimStart cs)

/-- A string without its outer blanks. -/
def trimmed (s : String) : String := String.ofList (trim s.toList)

/-- The words of a text whose current word is `word`, reversed. -/
def wordsFrom (word : List Char) : List Char → List (List Char)
  | [] => if word.isEmpty then [] else [word.reverse]
  | c :: cs =>
    if isBlank c then
      if word.isEmpty then wordsFrom [] cs else word.reverse :: wordsFrom [] cs
    else wordsFrom (c :: word) cs

/-- The maximal runs without blanks. -/
def words (cs : List Char) : List (List Char) := wordsFrom [] cs

/-- A line without the carriage return that belongs to its end. -/
def dropReturn (line : List Char) : List Char :=
  match line.reverse with
  | '\r' :: rest => rest.reverse
  | _ => line

/-- The lines of a text whose current line is `line`, reversed. -/
def linesFrom (line : List Char) : List Char → List (List Char)
  | [] => if line.isEmpty then [] else [line.reverse]
  | c :: cs =>
    if c == '\n' then dropReturn line.reverse :: linesFrom [] cs
    else linesFrom (c :: line) cs

/-- The lines of a text, without their ends; a line end at the very end starts no further line. -/
def lines (cs : List Char) : List (List Char) := linesFrom [] cs

end Storyboard.Text
