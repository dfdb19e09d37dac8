import Storyboard.Queue.Ring
import Storyboard.Source.Hints
import Storyboard.Story.Basic

/-!
# Circular queues

A circular queue is a ring whose capacity the program declares.  A declaration before the first
operation sets the capacity, a later one replaces the ring by an empty one.
-/

namespace Storyboard.Queue.Circular

/-- The capacity of a ring when none is declared. -/
def defaultCapacity : Nat := 8

/-- An operation on a circular queue. -/
inductive Op where
  | declare (capacity : Nat)
  | resize (capacity : Nat)
  | enqueue (value : Literal)
  | dequeue
  | peek
  | display
  | clear

/-- Names of insertions. -/
def enqueueNames : List String := ["enqueue", "en_queue", "enQueue", "insert", "append", "push"]

/-- Names of removals. -/
def dequeueNames : List String := ["dequeue", "de_queue", "deQueue", "delete", "popleft"]

/-- Names of looks at the front. -/
def peekNames : List String := ["peek", "front", "Front", "get_front"]

/-- Names of displays. -/
def displayNames : List String := ["display", "show", "print_queue"]

/-- Names of resets. -/
def clearNames : List String := ["clear", "reset"]

/-- The operations that a call asks for. -/
def opsOfCall? (line : Source.Line) (bindings : Source.Bindings) (call : Source.Call) :
    Option (List Op) :=
  if call.isOneOf enqueueNames then
    match call.insertion? with
    | some (receiver, operand) =>
      if line.isDefinition receiver (some operand) then none
      else some ((bindings.expand operand).map .enqueue)
    | none => none
  else
    let ops : List Op :=
      if call.isOneOf dequeueNames then List.replicate bindings.iterations .dequeue
      else if call.isOneOf peekNames then [.peek]
      else if call.isOneOf displayNames then [.display]
      else [.clear]
    if call.isOneOf (dequeueNames ++ peekNames ++ displayNames ++ clearNames) then
      match call.nullary? with
      | some receiver => if line.isDefinition receiver none then none else some ops
      | none => none
    else none

/-- The operation that a declaration of a capacity asks for. -/
def opsOfDeclaration (started : Bool) (line : Source.Line) : List Op :=
  match Source.capacityHint? line.text with
  | some capacity =>
    if !started then [.declare capacity]
    else if line.isDefinition none none then []
    else [.resize capacity]
  | none => []

/-- The operations of lines; `started` says whether a call has asked for one before. -/
def scriptFrom : Bool → List (Source.Line × Source.Bindings) → List (Cue Op)
  | _, [] => []
  | started, (line, bindings) :: rest =>
    let found := (Source.calls line.text).filterMap (opsOfCall? line bindings)
    cuesOn line (opsOfDeclaration started line ++ found.flatten) ++
      scriptFrom (started || !found.isEmpty) rest

/-- The operations that a program asks for. -/
def script (code : String) : List (Cue Op) := scriptFrom false (Source.boundLines code)

/-- Performs an operation. -/
def perform (ring : Ring) (cue : Cue Op) : Ring × List Step :=
  match cue.op with
  | .declare capacity => (Ring.ofCapacity capacity, [])
  | .resize capacity =>
    let fresh := Ring.ofCapacity capacity
    (fresh, [fresh.snapshot cue.line "resize" s!"Resize buffer to {capacity}; queue reset"])
  | .enqueue value =>
    let (grown, step) := ring.enqueue value cue.line
    (grown, [step])
  | .dequeue =>
    let (left, step) := ring.dequeue cue.line
    (left, [step])
  | .peek => (ring, [ring.peek cue.line])
  | .display =>
    let shown := Json.compact (.arr (Literal.jsonItems ring.values))
    (ring, [ring.snapshot cue.line "display" s!"Display queue {shown}"])
  | .clear =>
    let fresh := Ring.ofCapacity ring.capacity
    (fresh, [fresh.snapshot cue.line "clear" "Clear queue"])

/-- The story of the circular queue in a program. -/
def simulate (code : String) : Story :=
  let (ring, steps) := replay perform (Ring.ofCapacity defaultCapacity) (script code)
  ⟨steps, (Header.conventional (.queue .circular)).withExtra "capacity" (.ofNat ring.capacity)⟩

end Storyboard.Queue.Circular
