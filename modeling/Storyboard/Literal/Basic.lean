/-!
# Literals

The values that operands in source text are read as: the empty value, truth values, 64-bit
integers, doubles, texts, tuples, lists and dictionaries.  A dictionary keeps its entries in source
order, repeated keys included.
-/

namespace Storyboard

/-- A literal value of source text. -/
inductive Literal where
  | none
  | bool (b : Bool)
  | int (n : Int64)
  | float (x : Float)
  | text (s : String)
  | tuple (items : List Literal)
  | list (items : List Literal)
  | dict (entries : List (Literal × Literal))

namespace Literal

/-- The double has no fraction. -/
def isWhole (x : Float) : Bool := x.isFinite && x.floor == x

/-- The value as an integer: an integer, a whole double brought into range, or a truth value. -/
def int? : Literal → Option Int64
  | int n => some n
  | float x => if isWhole x then some x.toInt64 else Option.none
  | bool b => some (if b then 1 else 0)
  | _ => Option.none

/-- The value of a number as a double. -/
def float? : Literal → Option Float
  | int n => some n.toFloat
  | float x => some x
  | _ => Option.none

/-- The text of a text literal. -/
def text? : Literal → Option String
  | text s => some s
  | _ => Option.none

/-- The items of a list or tuple. -/
def items? : Literal → Option (List Literal)
  | tuple items | list items => some items
  | _ => Option.none

/-- An integer or a double. -/
def isNumber : Literal → Bool
  | int _ | float _ => true
  | _ => false

end Literal

end Storyboard
