import Storyboard.Concept.Basic
import Storyboard.Text.Case
import Storyboard.Text.Search
import Storyboard.Text.Trim

/-!
# Kinds of linked list in source text

A link to the node before makes a list doubly linked, and a link or a test that leads from a node
to the head makes it circular.  Without either cue the kind that was asked for stands.
-/

namespace Storyboard.LinkedList

/-- A link to the node before: `.prev` or `.previous` as a whole word. -/
def hasPrevAt? (text : List Char) : Option Unit := do
  let rest ← Text.dropPrefix? ".prev".toList text
  let long := (Text.dropPrefix? "ious".toList rest).any Text.wordMayEnd
  if long || Text.wordMayEnd rest then some () else none

/-- The text links nodes backwards. -/
def isDoubly (text : List Char) : Bool := (Text.firstSuffix hasPrevAt? text).isSome

/-- The head at the front of the text, on its own or as a field. -/
def headAt (text : List Char) : Bool :=
  let head := fun text => (Text.dropPrefix? "head".toList text).any Text.wordMayEnd
  head text || (Text.dropPrefix? "self.".toList text).any head

/-- A link of the node before, an operator and the head, at the front of the text. -/
def nextHead (operator : List Char) (text : List Char) : Bool :=
  match Text.dropPrefix? ".next".toList text with
  | none => false
  | some rest =>
    match Text.dropPrefix? operator (Text.trimStart rest) with
    | none => false
    | some rest => headAt (Text.trimStart rest)

/-- A link that is compared with the head, before the end of the line. -/
def meetsHeadOnLine : List Char → Bool
  | [] => false
  | c :: cs =>
    if c == '\n' then false
    else nextHead "!=".toList (c :: cs) || meetsHeadOnLine cs

/-- A loop that lasts until a link leads to the head. -/
def loopsToHead (text : List Char) : Bool :=
  match (Text.dropPrefix? "while".toList text).bind Text.someBlanks? with
  | some condition => meetsHeadOnLine condition
  | none => false

/-- Names of the operation that closes a ring. -/
def makesCircular (text : List Char) : Bool :=
  "make_circular".toList.isPrefixOf text || "make circular".toList.isPrefixOf text

/-- A cue of a circular list at the front of a text without capitals. -/
def hasRingAt? (text : List Char) : Option Unit :=
  if nextHead ['='] text || loopsToHead text || makesCircular text then some () else none

/-- The text closes a list to a ring. -/
def isCircular (text : List Char) : Bool :=
  (Text.firstSuffix hasRingAt? (text.map Text.fold)).isSome

/-- The kind of list that a program builds, or `hint`. -/
def kindOf (code : String) (hint : ListKind) : ListKind :=
  match isDoubly code.toList, isCircular code.toList with
  | false, false => hint
  | true, true => .circularDoubly
  | true, false => .doubly
  | false, true => .circularSingly

end Storyboard.LinkedList
