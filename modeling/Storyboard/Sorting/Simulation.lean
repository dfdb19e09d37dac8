import Storyboard.Concept.Basic
import Storyboard.Sorting.Exchange
import Storyboard.Sorting.Heap
import Storyboard.Sorting.Merge
import Storyboard.Sorting.Quick
import Storyboard.Source.Hints
import Storyboard.Story.Basic
import Storyboard.Text.Trim

/-!
# Sorting

The algorithm is read off the text of a program, or is the one that was asked for, and is run on the
array that the program declares.  Every event but the silent writes of a merge becomes a step with
the array after it.
-/

namespace Storyboard.Sorting

/-- The algorithm that a program shows by its names and loops. -/
def detect? (code : String) : Option SortKind :=
  let compact := String.ofList (code.toList.filter fun c => !Text.isBlank c)
  if Text.contains code "min_idx" || Text.contains code "min_index" then some .selection
  else if Text.contains code "key" && Text.contains compact "whilej>=" then some .insertion
  else if Text.contains code "pivot" || Text.contains code "partition(" then some .quick
  else if Text.contains code "heapify" || Text.contains code "heapq" then some .heap
  else if Text.contains code "merge_sort(" && Text.contains code "mid" then some .merge
  else none

/-- The algorithm to run: the one that is shown, or else the one asked for. -/
def algorithm (requested : SortKind) (code : String) : SortKind :=
  match detect? code, requested with
  | some found, _ => found
  | none, .generic => .bubble
  | none, kind => kind

variable {n : Nat} {start : Vector Int n}

/-- Sorts by an algorithm. -/
def sort (kind : SortKind) (r : Recording start) : Recording start :=
  match kind with
  | .selection => selection r
  | .insertion => insertion r
  | .merge => merge r
  | .quick => quick r
  | .heap => heap r
  | .bubble | .generic => bubble r

/-- Marks the positions from `i` on as final. -/
def markFrom (i : Nat) (r : Recording start) : Recording start :=
  if h : i < n then markFrom (i + 1) (r.add (.markSorted ⟨i, h⟩)) else r
termination_by n - i

/-- A whole run: the array is sorted, and every position is marked. -/
def run (kind : SortKind) (start : Vector Int n) : Recording start := markFrom 0 (sort kind (.empty start))

/-- An array in words. -/
def arrayText (values : List Int) : String :=
  "[" ++ ", ".intercalate (values.map Decimal.intText) ++ "]"

/-- An array as a data value. -/
def arrayJson (values : List Int) : Json := .arr (values.map Json.int)

/-- A step on an array with two positions of interest. -/
def stepOn (arr : Vector Int n) (action description : String) (i j : Option Nat) : Step :=
  { action, description
    vars := [("arr", arrayJson arr.toList), ("i", i.elim .null .ofNat), ("j", j.elim .null .ofNat),
      ("n", .ofNat n)] }

/-- A position in words. -/
def slot (i : Nat) : String := s!"arr[{Decimal.intText i}]"

/-- The value at a position in words. -/
def valueText (arr : Vector Int n) (i : Fin n) : String := Decimal.intText (arr.get i)

/-- The step of an event, given the array after it; a silent write has none. -/
def stepOf? (event : Event n) (arr : Vector Int n) : Option Step :=
  match event with
  | .compare i j => some (stepOn arr "compare"
      s!"Compare {slot i} = {valueText arr i} with {slot j} = {valueText arr j}" (some i) (some j))
  | .swap i j => some (stepOn arr "swap"
      s!"Swap {slot i} and {slot j}: now {valueText arr i} and {valueText arr j}" (some i) (some j))
  | .selectMin i j => some (stepOn arr "select_min"
      s!"New minimum {valueText arr j} at index {Decimal.intText j}" (some i) (some j))
  | .selectKey i key => some (stepOn arr "select_key"
      s!"Take key {Decimal.intText key} from index {Decimal.intText i}" (some i) none)
  | .compareKey i j key => some (stepOn arr "compare"
      s!"Compare {slot j} = {valueText arr j} with key {Decimal.intText key}" (some i) (some j))
  | .shift i _ target => some (stepOn arr "shift"
      s!"Shift {valueText arr target} right to index {Decimal.intText target}"
      (some i) (some target))
  | .insert i j key => some (stepOn arr "insert"
      s!"Insert key {Decimal.intText key} at index {Decimal.intText j}" (some i) (some j))
  | .compareHalves i j left right => some (stepOn arr "compare"
      s!"Compare {Decimal.intText left} (left) with {Decimal.intText right} (right)"
      (some i) (some j))
  | .write _ _ => none
  | .merged first last => some (stepOn arr "merge"
      ("Merge indices " ++ Decimal.intText first ++ ".." ++ Decimal.intText last ++ " into " ++
        arrayText (segment arr first (last + 1))) (some first) (some last))
  | .pivot first last value => some (stepOn arr "pivot"
      s!"Choose pivot {Decimal.intText value} at index {Decimal.intText last}"
      (some first) (some last))
  | .partition place value => some (stepOn arr "partition"
      s!"Pivot {Decimal.intText value} placed at index {Decimal.intText place}" (some place) none)
  | .heapify root => some (stepOn arr "heapify"
      s!"Heapify subtree at index {Decimal.intText root}" (some root) none)
  | .markSorted i => some (stepOn arr "mark_sorted"
      s!"Index {Decimal.intText i} holds its final value {valueText arr i}" (some i) none)

/-- The step that shows the array before the run. -/
def openingStep (start : Vector Int n) : Step :=
  stepOn start "set_array" s!"Array to sort: {arrayText start.toList}" none none

/-- The steps of a run. -/
def steps (kind : SortKind) (start : Vector Int n) : List Step :=
  openingStep start :: (run kind start).frames.filterMap fun (event, arr) => stepOf? event arr

/-- The story of sorting the array in a program. -/
def simulate (requested : SortKind) (code : String) : Story :=
  let kind := algorithm requested code
  let start := (Source.declaredArray code).toArray.toVector
  ⟨steps kind start,
    ((Header.conventional (.sorting kind)).withExtra "algorithm" (.str kind.name)).withExtra
      "initial" (arrayJson start.toList)⟩

end Storyboard.Sorting
