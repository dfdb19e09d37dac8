import Storyboard.Sorting.Recording

/-!
# Bubble, selection and insertion sort

The sorts that compare and move single values.  Comparisons are strict, so equal values are never
moved past each other by bubble and insertion sort.
-/

namespace Storyboard.Sorting

variable {n : Nat} {start : Vector Int n}

/-- A pass over the positions from `j` to `last` that swaps neighbours out of order; tells whether
it has swapped any. -/
def bubblePass (last : Nat) (h : last < n) (j : Nat) (swapped : Bool) (r : Recording start) :
    Bool × Recording start :=
  if hj : j < last then
    let here : Fin n := ⟨j, Nat.lt_trans hj h⟩
    let next : Fin n := ⟨j + 1, Nat.lt_of_le_of_lt hj h⟩
    let r := r.add (.compare here next)
    if r.now.get next < r.now.get here then bubblePass last h (j + 1) true (r.add (.swap here next))
    else bubblePass last h (j + 1) swapped r
  else (swapped, r)
termination_by last - j

/-- Passes over fewer and fewer positions, until one swaps nothing. -/
def bubbleDown : (last : Nat) → last < n → Recording start → Recording start
  | 0, _, r => r
  | last + 1, h, r =>
    match bubblePass (last + 1) h 0 false r with
    | (true, r) => bubbleDown last (Nat.lt_of_succ_lt h) r
    | (false, r) => r

/-- Bubble sort. -/
def bubble (r : Recording start) : Recording start :=
  if h : n = 0 then r else bubbleDown (n - 1) (Nat.sub_one_lt h) r

/-- The position of the least value among that at `least` and those from `j` on. -/
def leastFrom (i : Fin n) (j : Nat) (least : Fin n) (r : Recording start) :
    Fin n × Recording start :=
  if hj : j < n then
    let here : Fin n := ⟨j, hj⟩
    let r := r.add (.compare least here)
    if r.now.get here < r.now.get least then leastFrom i (j + 1) here (r.add (.selectMin i here))
    else leastFrom i (j + 1) least r
  else (least, r)
termination_by n - j

/-- Selection sort from position `i` on. -/
def selectionFrom (i : Nat) (r : Recording start) : Recording start :=
  if hi : i + 1 < n then
    let here : Fin n := ⟨i, Nat.lt_of_succ_lt hi⟩
    let (least, r) := leastFrom here (i + 1) here r
    selectionFrom (i + 1) (if least = here then r else r.add (.swap here least))
  else r
termination_by n - i

/-- Selection sort. -/
def selection (r : Recording start) : Recording start := selectionFrom 0 r

/-- Writes the key at the free position `j`, unless it has not moved. -/
def placeKey (i : Fin n) (key : Int) (j : Fin n) (r : Recording start) : Recording start :=
  if j = i then r else r.add (.insert i j key)

/-- Moves the values before the free position `j` up while they are greater than the key. -/
def sinkKey (i : Fin n) (key : Int) : (j : Nat) → j < n → Recording start → Recording start
  | 0, h, r => placeKey i key ⟨0, h⟩ r
  | j + 1, h, r =>
    let before : Fin n := ⟨j, Nat.lt_of_succ_lt h⟩
    let free : Fin n := ⟨j + 1, h⟩
    let r := r.add (.compareKey i before key)
    if r.now.get before ≤ key then placeKey i key free r
    else sinkKey i key j (Nat.lt_of_succ_lt h) (r.add (.shift i before free))

/-- Insertion sort from round `i` on. -/
def insertionFrom (i : Nat) (r : Recording start) : Recording start :=
  if hi : i < n then
    let here : Fin n := ⟨i, hi⟩
    let key := r.now.get here
    insertionFrom (i + 1) (sinkKey here key i hi (r.add (.selectKey here key)))
  else r
termination_by n - i

/-- Insertion sort. -/
def insertion (r : Recording start) : Recording start := insertionFrom 1 r

end Storyboard.Sorting
