import Storyboard.Literal.Basic
import Storyboard.Json.Basic

/-!
# Showing literals

`shown` is how a literal appears in prose, `nested` how it appears inside another one, where texts
keep quotes, and `toJson` the data value it becomes.
-/

namespace Storyboard.Literal

mutual

/-- The characters of a literal: inside another one, or else in prose. -/
def chars (inside : Bool) : Literal → List Char
  | none => ['N', 'o', 'n', 'e']
  | bool true => ['T', 'r', 'u', 'e']
  | bool false => ['F', 'a', 'l', 's', 'e']
  | int n => (Decimal.intText n.toInt).toList
  | float x => (Decimal.Style.shown.write x).toList
  | text s => if inside then '\'' :: (s.toList ++ ['\'']) else s.toList
  | tuple [] => ['(', ')']
  | tuple [item] => '(' :: (chars true item ++ [',', ')'])
  | tuple (item :: rest) => '(' :: (chars true item ++ itemsChars rest ++ [')'])
  | list [] => ['[', ']']
  | list (item :: rest) => '[' :: (chars true item ++ itemsChars rest ++ [']'])
  | dict [] => ['\x7b', '\x7d']
  | dict ((key, value) :: rest) =>
    '\x7b' :: (chars true key ++ ':' :: ' ' :: (chars true value ++ entriesChars rest ++ ['\x7d']))

/-- Further items, each after a comma and a blank. -/
def itemsChars : List Literal → List Char
  | [] => []
  | item :: rest => ',' :: ' ' :: (chars true item ++ itemsChars rest)

/-- Further entries, each after a comma and a blank. -/
def entriesChars : List (Literal × Literal) → List Char
  | [] => []
  | (key, value) :: rest =>
    ',' :: ' ' :: (chars true key ++ ':' :: ' ' :: (chars true value ++ entriesChars rest))

end

/-- A literal in prose. -/
def shown (value : Literal) : String := String.ofList (chars false value)

/-- A literal inside another one. -/
def nested (value : Literal) : String := String.ofList (chars true value)

/-- The name that a literal gives to a node or a key: its text, or how it is shown. -/
def label : Literal → String
  | text s => s
  | value => value.shown

mutual

/-- The data value of a literal; a dictionary becomes an object, where the last of equal keys
counts. -/
def toJson : Literal → Json
  | none => .null
  | bool b => .bool b
  | int n => .int n.toInt
  | float x => Json.ofFloat x
  | text s => .str s
  | tuple items => .arr (jsonItems items)
  | list items => .arr (jsonItems items)
  | dict entries => .object (jsonMembers entries)

/-- The data values of items. -/
def jsonItems : List Literal → List Json
  | [] => []
  | item :: rest => toJson item :: jsonItems rest

/-- The members that entries become. -/
def jsonMembers : List (Literal × Literal) → List (String × Json)
  | [] => []
  | (key, value) :: rest => (key.label, toJson value) :: jsonMembers rest

end

theorem jsonItems_eq_map (items : List Literal) : jsonItems items = items.map toJson := by
  induction items with
  | nil => rfl
  | cons item rest ih => rw [jsonItems, ih, List.map_cons]

/-- The data value of a last or first element that may be missing. -/
def toJson? (value : Option Literal) : Json := value.elim .null toJson

end Storyboard.Literal
