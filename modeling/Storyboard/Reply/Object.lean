import Storyboard.Json.Reader
import Storyboard.Text.Search
import Storyboard.Text.Trim

/-!
# Objects in free text

A reply may wrap its object in prose and code fences, or break off in the middle.  The object is
looked for between the first opening and the last closing brace, and then in the text that is closed
by the brackets it lacks.
-/

namespace Storyboard.Reply

/-- The text without code fences, the first `skip` characters being part of one. -/
def dropFencesAfter : (skip : Nat) → List Char → List Char
  | _, [] => []
  | skip + 1, _ :: cs => dropFencesAfter skip cs
  | 0, c :: cs =>
    match Text.dropPrefix? ['\x60', '\x60', '\x60'] (c :: cs) with
    | some rest => dropFencesAfter (2 + (rest.takeWhile Char.isAlpha).length) cs
    | none => c :: dropFencesAfter 0 cs

/-- The text without code fences and the names of languages on them. -/
def dropFences (text : List Char) : List Char := dropFencesAfter 0 text

/-- Where a reader stands in the text of an object. -/
structure Nesting where
  /-- The brackets that close the open ones, innermost first. -/
  closers : List Char := []
  inString : Bool := false
  /-- The character before guards the next one. -/
  escaped : Bool := false

/-- The nesting after a character. -/
def Nesting.after (n : Nesting) (c : Char) : Nesting :=
  if n.inString then
    if n.escaped then { n with escaped := false }
    else if c == '\\' then { n with escaped := true }
    else if c == '"' then { n with inString := false }
    else n
  else if c == '"' then { n with inString := true }
  else if c == '\x7b' then { n with closers := '\x7d' :: n.closers }
  else if c == '[' then { n with closers := ']' :: n.closers }
  else if c == '\x7d' || c == ']' then { n with closers := n.closers.tail }
  else n

/-- The text with the quote and the brackets that it lacks at its end. -/
def balance (text : List Char) : List Char :=
  let nesting := text.foldl Nesting.after {}
  Text.dropEndWhile (· == ',') (Text.trimEnd text) ++
    ((if nesting.inString then ['"'] else []) ++ nesting.closers)

/-- The members of the object that a text denotes. -/
def members? (text : List Char) : Option (List (String × Json)) :=
  match Json.parse? (String.ofList text) with
  | some (.obj members) => some members
  | _ => none

/-- The members of the object in a text, which may be broken off. -/
def object? (text : String) : Option (List (String × Json)) :=
  let start := (dropFences text.toList).dropWhile (· != '\x7b')
  if start.isEmpty then none
  else
    let closed := Text.dropEndWhile (· != '\x7d') start
    (if closed.isEmpty then none else members? closed).orElse fun _ => members? (balance start)

end Storyboard.Reply
