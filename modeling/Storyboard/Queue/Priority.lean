import Storyboard.Queue.MinHeap
import Storyboard.Simulation.Cue
import Storyboard.Source.Hints
import Storyboard.Story.Basic

/-!
# Priority queues

A priority queue is a binary heap.  A tuple is keyed by its first item and any other single value by
itself; of two operands a number next to something else is the priority, and otherwise the second.
-/

namespace Storyboard.Queue.Priority

/-- An operation on a priority queue. -/
inductive Op where
  | heapify (name : List Char) (keyed : List (Literal × Literal))
  | push (priority item : Literal)
  | pop
  | peek
  | peekUnlessEmpty

/-- Names of insertions. -/
def pushNames : List String := ["heappush", "enqueue", "push", "insert", "put", "add"]

/-- Names of removals. -/
def popNames : List String :=
  ["heappop", "dequeue", "pop", "get", "dequeue_highest", "extract_min", "delete_min", "poll"]

/-- Names of looks at the first item. -/
def peekNames : List String := ["peek", "peek_highest", "top", "get_min"]

/-- Priority and item of a single value. -/
def keyedValue (value : Literal) : Literal × Literal :=
  match value with
  | .tuple (priority :: _) => (priority, value)
  | _ => (value, value)

/-- Priority and item of two values. -/
def keyedPair (a b : Literal) : Literal × Literal :=
  if a.isNumber && !b.isNumber then (a, .tuple [a, b]) else (b, .tuple [b, a])

/-- The value of a round; the last value stays when there are no more. -/
def valueOfRound? (values : List Literal) (round : Nat) : Option Literal :=
  values[min round (values.length - 1)]?

/-- The insertions that one or two operands ask for, one in each round. -/
def insertions (expanded : List (List Literal)) : List Op :=
  let rounds := (expanded.map List.length).foldl max 0
  (List.range rounds).filterMap fun round =>
    match expanded.map fun values => valueOfRound? values round with
    | [some value] =>
      let (priority, item) := keyedValue value
      some (.push priority item)
    | [some a, some b] =>
      let (priority, item) := keyedPair a b
      some (.push priority item)
    | _ => none

/-- The call is to a function, not a method: it has no receiver, or the heap library as one. -/
def isFunctional (call : Source.Call) : Bool :=
  call.receiver.isNone || call.receiver == some "heapq".toList

/-- Receiver and operands of an insertion. -/
def operandsOfPush (call : Source.Call) : Option (List Char) × List (List Char) :=
  match isFunctional call, call.args with
  | true, heap :: operand :: rest => (some heap, operand :: rest)
  | _, args => (call.receiver, args)

/-- The operations that an insertion asks for. -/
def opsOfPush? (line : Source.Line) (bindings : Source.Bindings) (call : Source.Call) :
    Option (List Op) :=
  let (receiver, operands) := operandsOfPush call
  if operands.isEmpty || decide (2 < operands.length) then none
  else if line.isDefinition receiver operands.head? ||
      operands.any fun operand => line.isDefinition none (some operand) then none
  else
    let expanded := operands.map bindings.expand
    if expanded.any List.isEmpty then none else some (insertions expanded)

/-- The receiver of a removal. -/
def receiverOfPop? (call : Source.Call) : Option (Option (List Char)) :=
  match call.args with
  | [] => some call.receiver
  | [heap] => if isFunctional call then some (some heap) else none
  | _ => none

/-- The operations that making a heap of a constant list asks for. -/
def opsOfHeapify? (line : Source.Line) (bindings : Source.Bindings) (call : Source.Call) :
    Option (List Op) :=
  match call.args with
  | [] => none
  | target :: _ =>
    if line.isDefinition (some target) none then none
    else
      match bindings.constant? target with
      | some (.list items) => some [.heapify target (items.map keyedValue)]
      | _ => none

/-- The operations that a call asks for. -/
def opsOfCall? (line : Source.Line) (bindings : Source.Bindings) (call : Source.Call) :
    Option (List Op) :=
  if call.name == "heapify" then opsOfHeapify? line bindings call
  else if call.isOneOf pushNames then opsOfPush? line bindings call
  else if call.isOneOf popNames then
    match receiverOfPop? call with
    | some receiver =>
      if line.isDefinition receiver none then none
      else some (List.replicate bindings.iterations .pop)
    | none => none
  else if call.isOneOf peekNames && decide (call.args.length ≤ 1) then
    if line.isDefinition call.target none then none else some [.peek]
  else none

/-- The operations that a line asks for by calls, or else by a subscript. -/
def opsOfLine (line : Source.Line) (bindings : Source.Bindings) : List Op :=
  match (Source.calls line.text).filterMap (opsOfCall? line bindings) with
  | [] =>
    match Source.firstSubscripted? "0" line.text with
    | some name => if line.isDefinition (some name) none then [] else [.peekUnlessEmpty]
    | none => []
  | found => found.flatten

/-- The operations that a program asks for. -/
def script (code : String) : List (Cue Op) :=
  (Source.boundLines code).flatMap fun (line, bindings) => cuesOn line (opsOfLine line bindings)

/-- A step on the heap. -/
def snapshot (heap : MinHeap) (line : Nat) (action description : String) : Step :=
  let layout := Literal.jsonItems heap.items
  { stepAt line action description with
    heap := some layout
    vars := [("heap", .arr layout), ("size", .ofNat heap.size),
      ("min", Literal.toJson? (heap.peek?.map Entry.item))] }

/-- Shows the first item. -/
def peekStep (heap : MinHeap) (line : Nat) : Step :=
  match heap.peek? with
  | some entry =>
    (snapshot heap line "peek" s!"Highest priority item is {entry.item.shown}").withValue
      entry.item.toJson
  | none => snapshot heap line "peek" "Priority queue is empty"

/-- Performs an operation. -/
def perform (heap : MinHeap) (cue : Cue Op) : MinHeap × List Step :=
  match cue.op with
  | .heapify name keyed =>
    let filled := keyed.foldl (fun heap pair => heap.push pair.1 pair.2) heap
    (filled, [snapshot filled cue.line "heapify" s!"Heapify {String.ofList name}"])
  | .push priority item =>
    let grown := heap.push priority item
    (grown, [(snapshot grown cue.line "enqueue"
      s!"Inserted {item.shown} with priority {priority.shown}").withValue item.toJson])
  | .pop =>
    match heap.pop? with
    | some (entry, left) =>
      (left, [(snapshot left cue.line "dequeue"
        s!"Removed {entry.item.shown} with highest priority ({entry.priority.shown})").withValue
          entry.item.toJson])
    | none => (heap, [snapshot heap cue.line "underflow" "Priority queue is empty"])
  | .peek => (heap, [peekStep heap cue.line])
  | .peekUnlessEmpty => (heap, if heap.size = 0 then [] else [peekStep heap cue.line])

/-- The story of the priority queue in a program. -/
def simulate (code : String) : Story :=
  ⟨(replay perform .empty (script code)).2, Header.conventional (.queue .priority)⟩

end Storyboard.Queue.Priority
