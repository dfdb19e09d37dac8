import Storyboard.Literal.Order
import Storyboard.Simulation.Cue
import Storyboard.Story.Basic

/-!
# Double-ended priority queues

Both the least and the greatest item can be removed.  The items stand in increasing order, and a new
one goes behind those that are equal to it.
-/

namespace Storyboard.Queue.DoubleEnded

/-- One of the two ends. -/
inductive End where
  | least
  | greatest

/-- An operation on a double-ended priority queue. -/
inductive Op where
  | insert (value : Literal)
  | remove (at_ : End)
  | peek (at_ : End)

/-- Names of insertions. -/
def insertNames : List String := ["insert", "push", "enqueue", "add"]

/-- Names of removals at an end. -/
def removeNames : End → List String
  | .least => ["delete_min", "pop_min", "remove_min", "extract_min"]
  | .greatest => ["delete_max", "pop_max", "remove_max", "extract_max"]

/-- Names of looks at an end. -/
def peekNames : End → List String
  | .least => ["peek_min", "get_min", "find_min", "min_item"]
  | .greatest => ["peek_max", "get_max", "find_max", "max_item"]

/-- The operations that a call without operand asks for. -/
def opsAtEnds (rounds : Nat) (call : Source.Call) : List Op :=
  if call.isOneOf (removeNames .least) then List.replicate rounds (.remove .least)
  else if call.isOneOf (removeNames .greatest) then List.replicate rounds (.remove .greatest)
  else if call.isOneOf (peekNames .least) then [.peek .least]
  else if call.isOneOf (peekNames .greatest) then [.peek .greatest]
  else []

/-- The operations that a call asks for. -/
def opsOfCall (line : Source.Line) (bindings : Source.Bindings) (call : Source.Call) : List Op :=
  if call.isOneOf insertNames then
    match call.insertion? with
    | some (receiver, operand) =>
      if line.isDefinition receiver (some operand) then []
      else (bindings.expand operand).map .insert
    | none => []
  else if decide (1 < call.args.length) || line.isDefinition call.target none then []
  else opsAtEnds bindings.iterations call

/-- The operations that a program asks for. -/
def script (code : String) : List (Cue Op) :=
  (Source.boundLines code).flatMap fun (line, bindings) =>
    cuesOn line ((Source.calls line.text).flatMap (opsOfCall line bindings))

/-- Halves a range of `size` positions from `base` on, in which those that are not after `value`
come first, until one position is left. -/
def lastNotAfter (items : List Literal) (value : Literal) : Nat → Nat → Nat → Nat
  | 0, base, _ => base
  | fuel + 1, base, size =>
    if size ≤ 1 then base
    else
      let middle := base + size / 2
      let base' := match items[middle]? with
        | some item => if value.before item then base else middle
        | none => base
      lastNotAfter items value fuel base' (size - size / 2)

/-- Where a value belongs: behind all that are not greater, found by halving. -/
def position (items : List Literal) (value : Literal) : Nat :=
  let base := lastNotAfter items value items.length 0 items.length
  match items[base]? with
  | some item => if value.before item then base else base + 1
  | none => 0

/-- A step on the items. -/
def snapshot (items : List Literal) (line : Nat) (action description : String) : Step :=
  let shown := Literal.jsonItems items
  { stepAt line action description with
    heap := some shown
    vars := [("items", .arr shown), ("min", Literal.toJson? items.head?),
      ("max", Literal.toJson? items.getLast?)] }

/-- The item at an end. -/
def End.item? (items : List Literal) : End → Option Literal
  | least => items.head?
  | greatest => items.getLast?

/-- The items without the one at an end. -/
def End.rest (items : List Literal) : End → List Literal
  | least => items.tail
  | greatest => items.dropLast

/-- What a removal at an end is called. -/
def End.removal : End → String
  | least => "delete_min"
  | greatest => "delete_max"

/-- What a look at an end is called. -/
def End.look : End → String
  | least => "peek_min"
  | greatest => "peek_max"

/-- The word for the item at an end. -/
def End.noun : End → String
  | least => "minimum"
  | greatest => "maximum"

/-- The word for the item at an end, at the beginning of a sentence. -/
def End.title : End → String
  | least => "Minimum"
  | greatest => "Maximum"

/-- Performs an operation. -/
def perform (items : List Literal) (cue : Cue Op) : List Literal × List Step :=
  match cue.op with
  | .insert value =>
    let index := position items value
    let grown := items.insertIdx index value
    (grown, [((snapshot grown cue.line "insert" s!"Insert {value.shown}").withValue
      value.toJson).withExtra "index" (.ofNat index)])
  | .remove at_ =>
    match at_.item? items with
    | some value =>
      let left := at_.rest items
      (left, [(snapshot left cue.line at_.removal s!"Removed {at_.noun} {value.shown}").withValue
        value.toJson])
    | none => (items, [snapshot items cue.line "underflow" "Queue is empty"])
  | .peek at_ =>
    match at_.item? items with
    | some value =>
      (items, [(snapshot items cue.line at_.look s!"{at_.title} is {value.shown}").withValue
        value.toJson])
    | none => (items, [snapshot items cue.line "underflow" "Queue is empty"])

/-- The story of the double-ended priority queue in a program. -/
def simulate (code : String) : Story :=
  ⟨(replay perform [] (script code)).2, Header.conventional (.queue .doublePriority)⟩

end Storyboard.Queue.DoubleEnded
