import Storyboard.Text.Trim
import Storyboard.Text.Search

/-!
# Comments, arguments and brackets

Scanners that walk a line once and keep track of string quotes: `stripComment` cuts a trailing
comment, `splitArgs` splits at the commas outside brackets and quotes, and `enclosed?` finds the text
up to the bracket that closes an open one.
-/

namespace Storyboard.Source

/-- A quote that starts a string. -/
def isQuote (c : Char) : Bool := c == '"' || c == '\''

/-- An opening bracket. -/
def isOpening (c : Char) : Bool := c == '(' || c == '[' || c == '\x7b'

/-- A closing bracket. -/
def isClosing (c : Char) : Bool := c == ')' || c == ']' || c == '\x7d'

/-- The quote that is open after a character, given the one before it. -/
def quoteAfter (quote : Option Char) (c : Char) : Option Char :=
  match quote with
  | some q => if c == q then none else some q
  | none => if isQuote c then some c else none

/-- The text up to a comment, inside the quote that is open; a backslash guards the next
character. -/
def stripCommentFrom : Option Char → Bool → List Char → List Char
  | _, _, [] => []
  | quote, true, c :: cs => c :: stripCommentFrom quote false cs
  | quote, false, c :: cs =>
    if c == '\\' then c :: stripCommentFrom quote true cs
    else if quote.isNone && c == '#' then []
    else c :: stripCommentFrom (quoteAfter quote c) false cs

/-- The line without a trailing comment; a hash inside a string starts none. -/
def stripComment (line : List Char) : List Char := stripCommentFrom none false line

/-- Splits at top-level commas, with the current piece reversed. -/
def splitArgsFrom : Nat → Option Char → List Char → List Char → List (List Char)
  | _, _, piece, [] =>
    let last := Text.trim piece.reverse
    if last.isEmpty then [] else [last]
  | depth, some q, piece, c :: cs => splitArgsFrom depth (quoteAfter (some q) c) (c :: piece) cs
  | depth, none, piece, c :: cs =>
    if isQuote c then splitArgsFrom depth (some c) (c :: piece) cs
    else if isOpening c then splitArgsFrom (depth + 1) none (c :: piece) cs
    else if isClosing c then splitArgsFrom (depth - 1) none (c :: piece) cs
    else if c == ',' && depth == 0 then Text.trim piece.reverse :: splitArgsFrom 0 none [] cs
    else splitArgsFrom depth none (c :: piece) cs

/-- The arguments of an argument list, trimmed; an empty last one does not count. -/
def splitArgs (text : List Char) : List (List Char) := splitArgsFrom 0 none [] text

/-- The text before the parenthesis that closes the outermost of `depth + 1` open brackets. -/
def enclosed? : Nat → Option Char → List Char → Option (List Char)
  | _, _, [] => none
  | depth, some q, c :: cs => (enclosed? depth (quoteAfter (some q) c) cs).map (c :: ·)
  | depth, none, c :: cs =>
    if isQuote c then (enclosed? depth (some c) cs).map (c :: ·)
    else if isOpening c then (enclosed? (depth + 1) none cs).map (c :: ·)
    else if isClosing c then
      match depth with
      | 0 => if c == ')' then some [] else none
      | depth + 1 => (enclosed? depth none cs).map (c :: ·)
    else (enclosed? depth none cs).map (c :: ·)

/-- The first identifier of a dotted or subscripted name. -/
def baseName (name : List Char) : List Char :=
  name.takeWhile fun c => Text.isAlphanumeric c || c == '_'

end Storyboard.Source
