import Storyboard.Source.Bindings
import Storyboard.Source.Call
import Storyboard.Text.Case

/-!
# Declared arrays and sizes

What a program declares about the data it works on: the array that it sorts, the capacity of a
buffer, an integer under a conventional name.
-/

namespace Storyboard.Source

/-- The array that is sorted when a program declares none. -/
def fallbackArray : List Int := [5, 3, 8, 1, 2]

/-- A nonempty list of integers at the front of the text. -/
def intListAt? (text : List Char) : Option (List Int) :=
  match Literal.readAt text with
  | .ok (.list (item :: rest), _) =>
    (item :: rest).mapM fun item => (Literal.int? item).map Int64.toInt
  | _ => none

/-- The names under which an array is declared. -/
def arrayNames : List (List Char) :=
  ["arr", "a", "nums", "num", "numbers", "array", "data", "lst", "values"].map String.toList

/-- The text from the opening bracket of an array that is assigned to a conventional name at the
front of the text, after blanks and line ends. -/
def arrayAssignment? (text : List Char) : Option (List Char) :=
  let start := text.dropWhile Text.isBlank
  arrayNames.findSome? fun name => do
    let rest ← Text.dropPrefix? name start
    let value ← Text.blanksThen? '=' rest
    let inside ← Text.blanksThen? '[' value
    return '[' :: inside

/-- The first integer array that is assigned to a conventional name. -/
def assignedArray? (code : String) : Option (List Int) :=
  (Text.lineStarts code.toList).findSome? fun text => (arrayAssignment? text).bind intListAt?

/-- The first integer array that is passed to a call. -/
def passedArray? (code : String) : Option (List Int) :=
  ((scan code).filter fun line => !line.isHeader).findSome? fun line =>
    (calls line.text).findSome? fun call => call.args.findSome? intListAt?

/-- The integer array that a program declares. -/
def declaredArray? (code : String) : Option (List Int) :=
  (assignedArray? code).orElse fun _ => passedArray? code

/-- The integer array that a program declares, or the fallback. -/
def declaredArray (code : String) : List Int := (declaredArray? code).getD fallbackArray

/-- Drops `word` at the front of the text, letters compared without case. -/
def dropFolded? : List Char → List Char → Option (List Char)
  | [], cs => some cs
  | _ :: _, [] => none
  | w :: ws, c :: cs => if Text.fold c == w then dropFolded? ws cs else none

/-- The names under which a capacity is declared. -/
def capacityNames : List (List Char) := ["size", "capacity", "cap", "max_size"].map String.toList

/-- The digits of a capacity that is assigned at a place where a word starts. -/
def assignedCapacity? (before : Option Char) (text : List Char) : Option (List Char) :=
  if Text.wordMayStart before then
    capacityNames.findSome? fun name => do
      let rest ← dropFolded? name text
      let value ← Text.blanksThen? '=' rest
      let (digits, _) ← Text.someRun? Text.isDigit (value.dropWhile Text.isBlank)
      return digits
  else none

/-- The word ends in the name of a buffer type. -/
def endsInBuffer (word : List Char) : Bool :=
  ["Queue", "Deque", "Buffer"].any fun name => name.toList.isSuffixOf word

/-- The digits of the first argument of a constructor, at a place where its word starts. -/
def constructedCapacity? (before : Option Char) (text : List Char) : Option (List Char) :=
  if Text.wordMayStart before then do
    let (word, rest) ← Text.someRun? Text.isWord text
    if endsInBuffer word then
      let inside ← Text.blanksThen? '(' rest
      let (digits, rest) ← Text.someRun? Text.isDigit (inside.dropWhile Text.isBlank)
      match rest.dropWhile Text.isBlank with
      | c :: _ => if c == ',' || c == ')' then some digits else none
      | [] => none
    else none
  else none

/-- The capacity that a line declares by an assignment or a constructor; it is positive. -/
def capacityHint? (text : List Char) : Option Nat := do
  let digits ← (Text.firstPlace assignedCapacity? none text).orElse fun _ =>
    Text.firstPlace constructedCapacity? none text
  let n ← Decimal.nat64? digits
  if n = 0 then none else some n

/-- The first integer that is assigned to one of the names. -/
def intAssignment? (code : String) (names : List String) : Option Int :=
  (scan code).findSome? fun line => do
    let (name, value) ← assignment? line.text
    if names.contains (String.ofList name) then
      let literal ← Literal.parse? value
      (Literal.int? literal).map Int64.toInt
    else none

/-- The dotted name before a subscript at the front of the text, where a word starts; `subscript`
is the text between the brackets, up to blanks. -/
def subscripted? (subscript : List Char) (before : Option Char) (text : List Char) :
    Option (List Char) :=
  if Text.wordMayStart before then do
    let (name, rest) ← Text.dottedName? text
    let inside ← Text.expect? '[' rest
    let afterIndex ← Text.dropPrefix? subscript (inside.dropWhile Text.isBlank)
    let _ ← Text.blanksThen? ']' afterIndex
    return name
  else none

/-- The first name on a line that has the given subscript. -/
def firstSubscripted? (subscript : String) (text : List Char) : Option (List Char) :=
  Text.firstPlace (subscripted? subscript.toList) none text

end Storyboard.Source
