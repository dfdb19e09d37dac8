import Storyboard.Literal.Basic

/-!
# The order of literals

Kinds come in the order none, truth values, numbers, texts, tuples, lists, dictionaries; within a
kind the values are compared, containers item by item.  Two integers are compared as such and any
other two numbers as doubles in the total order of their representations.
-/

namespace Storyboard.Literal

/-- The place of a kind in the order. -/
def rank : Literal → Nat
  | none => 0
  | bool _ => 1
  | int _ | float _ => 2
  | text _ => 3
  | tuple _ => 4
  | list _ => 5
  | dict _ => 6

/-- A double as an integer, so that the order of doubles is that of the integers. -/
def floatKey (x : Float) : Int :=
  let bits := x.toBits.toNat
  if bits < Nat.pow 2 63 then bits else -((bits - Nat.pow 2 63 : Nat) : Int) - 1

/-- The order of doubles, which tells the two zeros apart. -/
def compareFloats (x y : Float) : Ordering := compare (floatKey x) (floatKey y)

mutual

/-- Compares two literals. -/
def cmp : Literal → Literal → Ordering
  | int a, int b => compare a.toInt b.toInt
  | int a, float b => compareFloats a.toFloat b
  | float a, int b => compareFloats a b.toFloat
  | float a, float b => compareFloats a b
  | bool a, bool b => compare a.toNat b.toNat
  | text a, text b => compare a b
  | tuple a, tuple b => cmpItems a b
  | list a, list b => cmpItems a b
  | dict a, dict b => cmpEntries a b
  | a, b => compare a.rank b.rank

/-- Compares two sequences item by item; a proper beginning comes first. -/
def cmpItems : List Literal → List Literal → Ordering
  | [], [] => .eq
  | [], _ :: _ => .lt
  | _ :: _, [] => .gt
  | a :: as, b :: bs => (cmp a b).then (cmpItems as bs)

/-- Compares two sequences of entries, each by key and then by value. -/
def cmpEntries : List (Literal × Literal) → List (Literal × Literal) → Ordering
  | [], [] => .eq
  | [], _ :: _ => .lt
  | _ :: _, [] => .gt
  | (k, v) :: as, (k', v') :: bs =>
    ((cmp k k').then (cmp v v')).then (cmpEntries as bs)

end

/-- The literals are equal in the order. -/
def same (a b : Literal) : Bool := cmp a b == .eq

/-- The first literal comes strictly before the second. -/
def before (a b : Literal) : Bool := cmp a b == .lt

/-- Inserts after every element whose key is not strictly greater, coming from the end. -/
def insertFromEnd {α : Type} (key : α → Literal) (value : α) (reversed : List α) : List α :=
  match reversed with
  | [] => [value]
  | last :: rest =>
    if (key value).before (key last) then last :: insertFromEnd key value rest
    else value :: last :: rest

/-- Insertion sort by a key: every element moves left past those with a strictly greater key. -/
def sortBy {α : Type} (key : α → Literal) (values : List α) : List α :=
  (values.foldl (fun reversed value => insertFromEnd key value reversed) []).reverse

/-- Insertion sort. -/
def sort (values : List Literal) : List Literal := sortBy id values

end Storyboard.Literal
