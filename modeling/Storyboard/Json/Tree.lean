import Storyboard.Json.Basic
import Storyboard.Text.Search

/-!
# The grammar of data text

`Tree.read?` accepts exactly the texts of the grammar and keeps numbers, escapes and repeated keys
as they are written.  What such a tree denotes, and whether it denotes anything, is said in
`Storyboard.Json.Reader`.
-/

namespace Storyboard.Json

/-- A piece of a string: a character, or a UTF-16 unit written as an escape. -/
inductive Piece where
  | char (c : Char)
  | unit (n : Nat)

/-- A number as written. -/
structure Numeral where
  negative : Bool
  whole : List Char
  /-- The digits after the point, if there is one. -/
  fraction : Option (List Char)
  /-- Whether the exponent is negative, and its digits. -/
  exponent : Option (Bool × List Char)

/-- A text of the grammar. -/
inductive Tree where
  | null
  | bool (b : Bool)
  | number (numeral : Numeral)
  | string (pieces : List Piece)
  | array (items : List Tree)
  | object (members : List (List Piece × Tree))

/-- The blanks between tokens. -/
def isSpace (c : Char) : Bool := c == ' ' || c == '\t' || c == '\n' || c == '\r'

/-- The text without its leading blanks. -/
def skip (cs : List Char) : List Char := cs.dropWhile isSpace

/-- The value of a hexadecimal digit. -/
def hexValue? (c : Char) : Option Nat :=
  if c.isDigit then some (c.toNat - '0'.toNat)
  else if 'a' ≤ c ∧ c ≤ 'f' then some (c.toNat - 'a'.toNat + 10)
  else if 'A' ≤ c ∧ c ≤ 'F' then some (c.toNat - 'A'.toNat + 10)
  else none

/-- The value of four hexadecimal digits. -/
def unit? (a b c d : Char) : Option Nat := do
  let a ← hexValue? a
  let b ← hexValue? b
  let c ← hexValue? c
  let d ← hexValue? d
  return ((a * 16 + b) * 16 + c) * 16 + d

/-- The character that a one-letter escape stands for. -/
def escape? (c : Char) : Option Char :=
  if c == '"' || c == '\\' || c == '/' then some c
  else if c == 'b' then some '\x08'
  else if c == 'f' then some '\x0c'
  else if c == 'n' then some '\n'
  else if c == 'r' then some '\r'
  else if c == 't' then some '\t'
  else none

/-- The pieces of a string up to its closing quote, and what follows the quote. -/
def stringBody : List Char → Option (List Piece × List Char)
  | [] => none
  | '"' :: rest => some ([], rest)
  | '\\' :: 'u' :: a :: b :: c :: d :: rest => do
    let n ← unit? a b c d
    let (pieces, rest) ← stringBody rest
    return (.unit n :: pieces, rest)
  | '\\' :: e :: rest => do
    let c ← escape? e
    let (pieces, rest) ← stringBody rest
    return (.char c :: pieces, rest)
  | c :: rest =>
    if c.toNat < 0x20 then none
    else do
      let (pieces, rest) ← stringBody rest
      return (.char c :: pieces, rest)

/-- A nonempty run of digits, and what follows it. -/
def digits? (cs : List Char) : Option (List Char × List Char) := Text.someRun? Char.isDigit cs

/-- The whole part of a number: no zero leads another digit. -/
def wholePart? (cs : List Char) : Option (List Char × List Char) := do
  let (digits, rest) ← digits? cs
  match digits with
  | '0' :: _ :: _ => none
  | _ => return (digits, rest)

/-- The fraction of a number, if a point follows. -/
def fractionPart? : List Char → Option (Option (List Char) × List Char)
  | '.' :: cs => (digits? cs).map fun (digits, rest) => (some digits, rest)
  | cs => some (none, cs)

/-- The exponent of a number, if one follows. -/
def exponentPart? : List Char → Option (Option (Bool × List Char) × List Char)
  | [] => some (none, [])
  | c :: cs =>
    if c == 'e' || c == 'E' then
      let (negative, body) := match cs with
        | '-' :: rest => (true, rest)
        | '+' :: rest => (false, rest)
        | _ => (false, cs)
      (digits? body).map fun (digits, rest) => (some (negative, digits), rest)
    else some (none, c :: cs)

/-- A number at the front of the text. -/
def numeral? (cs : List Char) : Option (Numeral × List Char) := do
  let (negative, body) := match cs with
    | '-' :: rest => (true, rest)
    | _ => (false, cs)
  let (whole, rest) ← wholePart? body
  let (fraction, rest) ← fractionPart? rest
  let (exponent, rest) ← exponentPart? rest
  return (⟨negative, whole, fraction, exponent⟩, rest)

/-- One of the three named values at the front of the text. -/
def word? (cs : List Char) : Option (Tree × List Char) :=
  match cs with
  | 't' :: 'r' :: 'u' :: 'e' :: rest => some (.bool true, rest)
  | 'f' :: 'a' :: 'l' :: 's' :: 'e' :: rest => some (.bool false, rest)
  | 'n' :: 'u' :: 'l' :: 'l' :: rest => some (.null, rest)
  | _ => none

mutual

/-- A value at the front of the text, after blanks. -/
def valueAt : Nat → List Char → Option (Tree × List Char)
  | 0, _ => none
  | fuel + 1, cs =>
    match skip cs with
    | [] => none
    | c :: rest =>
      if c == '"' then (stringBody rest).map fun (pieces, rest) => (.string pieces, rest)
      else if c == '[' then
        match skip rest with
        | ']' :: rest => some (.array [], rest)
        | rest => (itemsAt fuel rest).map fun (items, rest) => (.array items, rest)
      else if c == '\x7b' then
        match skip rest with
        | '\x7d' :: rest => some (.object [], rest)
        | rest => (membersAt fuel rest).map fun (members, rest) => (.object members, rest)
      else if c == '-' || c.isDigit then
        (numeral? (c :: rest)).map fun (numeral, rest) => (.number numeral, rest)
      else word? (c :: rest)

/-- The items of an array up to its closing bracket; there is at least one. -/
def itemsAt : Nat → List Char → Option (List Tree × List Char)
  | 0, _ => none
  | fuel + 1, cs =>
    match valueAt fuel cs with
    | none => none
    | some (item, rest) =>
      match skip rest with
      | ']' :: rest => some ([item], rest)
      | ',' :: rest => (itemsAt fuel rest).map fun (items, rest) => (item :: items, rest)
      | _ => none

/-- The members of an object up to its closing brace; there is at least one. -/
def membersAt : Nat → List Char → Option (List (List Piece × Tree) × List Char)
  | 0, _ => none
  | fuel + 1, cs =>
    match skip cs with
    | '"' :: rest =>
      match stringBody rest with
      | none => none
      | some (key, rest) =>
        match skip rest with
        | ':' :: rest =>
          match valueAt fuel rest with
          | none => none
          | some (value, rest) =>
            match skip rest with
            | '\x7d' :: rest => some ([(key, value)], rest)
            | ',' :: rest =>
              (membersAt fuel rest).map fun (members, rest) => ((key, value) :: members, rest)
            | _ => none
        | _ => none
    | _ => none

end

/-- Reads a whole text; nothing but blanks may follow the value. -/
def Tree.read? (text : String) : Option Tree :=
  let cs := text.toList
  match valueAt (2 * cs.length + 2) cs with
  | some (tree, rest) => if (skip rest).isEmpty then some tree else none
  | none => none

end Storyboard.Json
