import Storyboard.Decimal.Notation

/-!
# Data values

`Json` is the value that steps and headers carry and that all data text denotes.  The members of an
object stand in the order in which they are written; `canonical` is the form of a value whose
objects have their keys in increasing order, each once.
-/

namespace Storyboard

/-- A data value. -/
inductive Json where
  | null
  | bool (b : Bool)
  | int (n : Int)
  | float (x : Float)
  | str (s : String)
  | arr (items : List Json)
  | obj (members : List (String × Json))

namespace Json

/-- A number, or null where a number is not finite. -/
def ofFloat (x : Float) : Json := if x.isFinite then .float x else .null

/-- A natural number. -/
def ofNat (n : Nat) : Json := .int n

/-- A string or null. -/
def ofString? (s : Option String) : Json := s.elim .null .str

/-- Writes a member into members in increasing order of their keys. -/
def insertMember (key : String) (value : Json) :
    List (String × Json) → List (String × Json)
  | [] => [(key, value)]
  | (k, v) :: rest =>
    if k = key then (key, value) :: rest
    else if key < k then (key, value) :: (k, v) :: rest
    else (k, v) :: insertMember key value rest

/-- The members in increasing order of their keys; of equal keys the last one counts. -/
def sortMembers (members : List (String × Json)) : List (String × Json) :=
  members.foldl (fun sorted member => insertMember member.1 member.2 sorted) []

/-- The object with the given members, in increasing order of their keys. -/
def object (members : List (String × Json)) : Json := .obj (sortMembers members)

mutual

/-- The same value with the keys of every object in increasing order, each once. -/
def canonical : Json → Json
  | .arr items => .arr (canonicalItems items)
  | .obj members => .obj (sortMembers (canonicalMembers members))
  | value => value

/-- Every item in canonical form. -/
def canonicalItems : List Json → List Json
  | [] => []
  | item :: rest => canonical item :: canonicalItems rest

/-- Every member with its value in canonical form. -/
def canonicalMembers : List (String × Json) → List (String × Json)
  | [] => []
  | (key, value) :: rest => (key, canonical value) :: canonicalMembers rest

end

/-- The first member with the given key. -/
def get? (key : String) : Json → Option Json
  | .obj members => members.lookup key
  | _ => none

/-- The text of a string value. -/
def str? : Json → Option String
  | .str s => some s
  | _ => none

/-- The items of an array. -/
def items? : Json → Option (List Json)
  | .arr items => some items
  | _ => none

/-- A whole number that fits 64 bits with sign. -/
def int64? : Json → Option Int
  | .int n =>
    if decide (Int64.minValue.toInt ≤ n) && decide (n ≤ Int64.maxValue.toInt) then some n else none
  | _ => none

/-- A whole number from zero to below the bound. -/
def below? (bound : Nat) : Json → Option Nat
  | .int n => if 0 ≤ n ∧ n < bound then some n.toNat else none
  | _ => none

end Json

end Storyboard
