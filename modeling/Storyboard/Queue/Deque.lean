import Storyboard.Simulation.Cue
import Storyboard.Source.Hints
import Storyboard.Queue.Circular

/-!
# Double-ended queues

Values come and go at both ends.  An input-restricted deque takes none at its front and an
output-restricted one gives none up there; a circular deque holds no more than its capacity.
-/

namespace Storyboard.Queue.Deque

/-- One of the two ends. -/
inductive End where
  | front
  | rear
  deriving DecidableEq

/-- What a call does to a deque. -/
inductive Verb where
  | insert (at_ : End)
  | remove (at_ : End)
  | peek (at_ : End)
  | display
  deriving DecidableEq

/-- An operation on a deque. -/
inductive Op where
  | declare (capacity : Nat)
  | insert (at_ : End) (value : Literal)
  | remove (at_ : End)
  | peek (at_ : End)
  | display
  | blocked (call reason : String)

/-- Which operation a deque refuses. -/
inductive Restriction where
  | none
  | input
  | output

/-- The verbs with the names of the calls that ask for them. -/
def verbs : List (Verb × List String) := [
  (.insert .rear, ["append", "insert_rear", "insert_last", "insertLast", "enqueue_rear",
    "enqueue_back", "push_back", "add_rear", "add_last", "enqueue"]),
  (.insert .front, ["appendleft", "insert_front", "insert_first", "insertFront", "enqueue_front",
    "push_front", "add_front", "add_first"]),
  (.remove .rear, ["pop", "delete_rear", "delete_last", "deleteLast", "dequeue_rear",
    "dequeue_back", "pop_back", "remove_rear", "remove_last"]),
  (.remove .front, ["popleft", "delete_front", "delete_first", "deleteFront", "dequeue_front",
    "pop_front", "remove_front", "remove_first", "dequeue"]),
  (.peek .front, ["peek_front", "get_front", "getFront", "front", "peek_first", "peek"]),
  (.peek .rear, ["peek_rear", "get_rear", "getRear", "rear", "peek_last"]),
  (.display, ["display", "show", "print_deque"])]

/-- The verb of a call. -/
def verb? (call : Source.Call) : Option Verb :=
  (verbs.find? fun entry => call.isOneOf entry.2).map Prod.fst

/-- The restriction of a kind of queue. -/
def restriction : QueueKind → Restriction
  | .inputRestrictedDeque => .input
  | .outputRestrictedDeque => .output
  | _ => .none

/-- Why a restricted deque refuses a verb. -/
def Restriction.refusal? : Restriction → Verb → Option String
  | input, .insert .front => some "insertion at front not allowed in input-restricted deque"
  | output, .remove .front => some "deletion at front not allowed in output-restricted deque"
  | _, _ => Option.none

/-- Receiver and operand of a call, which an insertion has and no other verb. -/
def operands? (verb : Verb) (call : Source.Call) :
    Option (Option (List Char) × Option (List Char)) :=
  match verb with
  | .insert _ => call.insertion?.map fun (receiver, operand) => (receiver, some operand)
  | _ => call.nullary?.map fun receiver => (receiver, none)

/-- A call as it is shown when it is refused. -/
def shownCall (call : Source.Call) : String :=
  call.name ++ "(" ++ ", ".intercalate (call.args.map String.ofList) ++ ")"

/-- The operations of a verb with its operand. -/
def opsOfVerb (bindings : Source.Bindings) (verb : Verb) (operand : Option (List Char)) : List Op :=
  match verb, operand with
  | .insert at_, some operand => (bindings.expand operand).map (.insert at_)
  | .insert _, none => []
  | .remove at_, _ => List.replicate bindings.iterations (.remove at_)
  | .peek at_, _ => [.peek at_]
  | .display, _ => [.display]

/-- The operations that a call asks for. -/
def opsOfCall? (kind : QueueKind) (line : Source.Line) (bindings : Source.Bindings)
    (call : Source.Call) : Option (List Op) := do
  let verb ← verb? call
  let (receiver, operand) ← operands? verb call
  if line.isDefinition receiver operand then none
  else
    match (restriction kind).refusal? verb with
    | some reason => some [.blocked (shownCall call) reason]
    | none => some (opsOfVerb bindings verb operand)

/-- The declaration of a capacity before the first operation. -/
def opsOfDeclaration (kind : QueueKind) (started : Bool) (line : Source.Line) : List Op :=
  if kind = .circularDeque ∧ !started then
    (Source.capacityHint? line.text).toList.map .declare
  else []

/-- The operations of lines; `started` says whether a call has asked for one before. -/
def scriptFrom (kind : QueueKind) :
    Bool → List (Source.Line × Source.Bindings) → List (Cue Op)
  | _, [] => []
  | started, (line, bindings) :: rest =>
    let found := (Source.calls line.text).filterMap (opsOfCall? kind line bindings)
    cuesOn line (opsOfDeclaration kind started line ++ found.flatten) ++
      scriptFrom kind (started || !found.isEmpty) rest

/-- The operations that a program asks for. -/
def script (kind : QueueKind) (code : String) : List (Cue Op) :=
  scriptFrom kind false (Source.boundLines code)

/-- The items of a deque, front first, and its capacity if it has one. -/
structure State where
  items : List Literal
  capacity : Option Nat

namespace State

/-- There is no room. -/
def isFull (state : State) : Bool :=
  match state.capacity with
  | some capacity => decide (capacity ≤ state.items.length)
  | none => false

/-- A step on the deque. -/
def snapshot (state : State) (line : Nat) (action description : String) : Step :=
  let shown := Literal.jsonItems state.items
  { stepAt line action description with
    buffer := some shown
    head := some (if state.items.isEmpty then -1 else 0)
    tail := some ((state.items.length : Int) - 1)
    vars := [("deque_state", .arr shown), ("front", Literal.toJson? state.items.head?),
      ("rear", Literal.toJson? state.items.getLast?), ("size", .ofNat state.items.length)]
      ++ optionalMember "capacity" Json.ofNat state.capacity }

end State

namespace End

/-- The items with a value at an end. -/
def add (value : Literal) (items : List Literal) : End → List Literal
  | front => value :: items
  | rear => items ++ [value]

/-- The item at an end. -/
def item? (items : List Literal) : End → Option Literal
  | front => items.head?
  | rear => items.getLast?

/-- The items without the one at an end. -/
def rest (items : List Literal) : End → List Literal
  | front => items.tail
  | rear => items.dropLast

/-- The name of an end. -/
def name : End → String
  | front => "front"
  | rear => "rear"

/-- The name of an end at the beginning of a sentence. -/
def title : End → String
  | front => "Front"
  | rear => "Rear"

/-- What an insertion at an end is called. -/
def insertion : End → String
  | front => "enqueue_front"
  | rear => "enqueue_back"

/-- What a removal at an end is called. -/
def removal : End → String
  | front => "dequeue_front"
  | rear => "dequeue_back"

/-- What a look at an end is called. -/
def look : End → String
  | front => "peek_front"
  | rear => "peek_back"

end End

/-- Performs an operation. -/
def perform (state : State) (cue : Cue Op) : State × List Step :=
  match cue.op with
  | .declare capacity => ({ state with capacity := some capacity }, [])
  | .insert at_ value =>
    if state.isFull then
      (state, [(state.snapshot cue.line "overflow" s!"Deque is full - {value.shown} ignored").withValue
        value.toJson])
    else
      let grown := { state with items := at_.add value state.items }
      (grown, [(grown.snapshot cue.line at_.insertion
        s!"Inserted {value.shown} at {at_.name}").withValue value.toJson])
  | .remove at_ =>
    match at_.item? state.items with
    | some value =>
      let left := { state with items := at_.rest state.items }
      (left, [(left.snapshot cue.line at_.removal
        s!"Removed {value.shown} from {at_.name}").withValue value.toJson])
    | none =>
      (state, [state.snapshot cue.line "underflow"
        s!"Deque is empty - cannot remove from {at_.name}"])
  | .peek at_ =>
    match at_.item? state.items with
    | some value =>
      (state, [(state.snapshot cue.line at_.look
        s!"{at_.title} element is {value.shown}").withValue value.toJson])
    | none => (state, [state.snapshot cue.line at_.look "Deque is empty"])
  | .display =>
    let shown := Json.compact (.arr (Literal.jsonItems state.items))
    (state, [state.snapshot cue.line "display" s!"Display deque {shown}"])
  | .blocked call reason =>
    (state, [(state.snapshot cue.line "error" s!"{call} blocked: {reason}").withExtra "blocked"
      (.str call)])

/-- The deque before the first operation. -/
def initial (kind : QueueKind) : State :=
  ⟨[], if kind = .circularDeque then some Circular.defaultCapacity else none⟩

/-- The story of the deque in a program. -/
def simulate (kind : QueueKind) (code : String) : Story :=
  let (state, steps) := replay perform (initial kind) (script kind code)
  let header := Header.conventional (.queue kind)
  ⟨steps, match state.capacity with
    | some capacity => header.withExtra "capacity" (.ofNat capacity)
    | none => header⟩

end Storyboard.Queue.Deque
