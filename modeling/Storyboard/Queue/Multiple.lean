import Storyboard.Simulation.Cue
import Storyboard.Source.Hints
import Storyboard.Story.Basic

/-!
# Several queues in one array

A number of queues share one capacity.  An operation names its queue by a number, by `q` and a
number, or by a constant; a queue that does not exist is an error and changes nothing.
-/

namespace Storyboard.Queue.Multiple

/-- The number of queues when none is declared. -/
def defaultCount : Nat := 3

/-- The shared capacity when none is declared. -/
def defaultCapacity : Nat := 10

/-- An operation on the queues. -/
inductive Op where
  | enqueue (queue : Nat) (value : Literal)
  | dequeue (queue : Nat)

/-- The queues, each oldest value first, and what they can hold together. -/
structure State where
  queues : List (List Literal)
  capacity : Nat

namespace State

/-- How many values are stored. -/
def used (state : State) : Nat := (state.queues.map List.length).foldl (· + ·) 0

/-- A step on one of the queues. -/
def snapshot (state : State) (line : Nat) (action description : String) (queue : Nat) : Step :=
  { stepAt line action description with
    vars := [("queues", .arr (state.queues.map fun items => .arr (Literal.jsonItems items))),
      ("free", .ofNat (state.capacity - state.used))]
    extra := [("queue", .ofNat queue)] }

end State

/-- Performs an operation. -/
def perform (state : State) (cue : Cue Op) : State × List Step :=
  match cue.op with
  | .enqueue queue value =>
    match state.queues[queue]? with
    | none => (state, [state.snapshot cue.line "error" s!"Queue {queue} does not exist" queue])
    | some items =>
      if state.capacity ≤ state.used then
        (state, [(state.snapshot cue.line "overflow"
          s!"No free slot for {value.shown} in queue {queue}" queue).withValue value.toJson])
      else
        let grown := { state with queues := state.queues.set queue (items ++ [value]) }
        (grown, [(grown.snapshot cue.line "enqueue"
          s!"Enqueued {value.shown} into queue {queue}" queue).withValue value.toJson])
  | .dequeue queue =>
    match state.queues[queue]? with
    | none => (state, [state.snapshot cue.line "error" s!"Queue {queue} does not exist" queue])
    | some [] => (state, [state.snapshot cue.line "underflow" s!"Queue {queue} is empty" queue])
    | some (value :: left) =>
      let rest := { state with queues := state.queues.set queue left }
      (rest, [(rest.snapshot cue.line "dequeue"
        s!"Dequeued {value.shown} from queue {queue}" queue).withValue value.toJson])

/-- The text without a leading `q` or `Q`. -/
def withoutQ (text : List Char) : List Char :=
  match text with
  | c :: rest => if c == 'q' || c == 'Q' then rest else text
  | [] => []

/-- The text is `q` or `Q` and a number. -/
def isQueueName (text : List Char) : Bool :=
  let text := Text.trim text
  match text with
  | c :: d :: rest => (c == 'q' || c == 'Q') && (d :: rest).all Char.isDigit
  | _ => false

/-- An integer as an unsigned word of 64 bits. -/
def wordOf (n : Int64) : Nat := n.toUInt64.toNat

/-- The number of the queue that an argument names. -/
def queueNumber? (bindings : Source.Bindings) (arg : List Char) : Option Nat :=
  let arg := Text.trim arg
  (Decimal.nat64? (withoutQ arg)).orElse fun _ =>
    ((bindings.constant? arg).bind Literal.int?).map wordOf

/-- The argument that names the queue and the one that is enqueued: a queue name and the first
argument of a function come first, and a method takes the value first. -/
def splitEnqueue (call : Source.Call) (a b : List Char) : List Char × List Char :=
  if isQueueName a || call.receiver.isNone then (a, b) else (b, a)

/-- The operations that a call asks for. -/
def opsOfCall (line : Source.Line) (bindings : Source.Bindings) (call : Source.Call) : List Op :=
  match call.name, call.args with
  | "enqueue", [a, b] =>
    let (queue, operand) := splitEnqueue call a b
    if line.isDefinition call.receiver (some operand) || line.isDefinition none (some queue) then []
    else
      match queueNumber? bindings queue with
      | some number => (bindings.expand operand).map (.enqueue number)
      | none => []
  | "dequeue", [a] =>
    if line.isDefinition call.receiver (some a) then []
    else
      match queueNumber? bindings a with
      | some number => List.replicate bindings.iterations (.dequeue number)
      | none => []
  | _, _ => []

/-- The operations that a program asks for. -/
def script (code : String) : List (Cue Op) :=
  (Source.boundLines code).flatMap fun (line, bindings) =>
    cuesOn line ((Source.calls line.text).flatMap (opsOfCall line bindings))

/-- A declared size, at least one, or the default. -/
def declared (code : String) (names : List String) (default : Nat) : Nat :=
  ((Source.intAssignment? code names).map fun n => (max n 1).toNat).getD default

/-- The story of the queues in a program. -/
def simulate (code : String) : Story :=
  let count := declared code ["k", "K", "num_queues"] defaultCount
  let capacity := declared code ["n", "N", "capacity", "size", "cap"] defaultCapacity
  let start : State := ⟨List.replicate count [], capacity⟩
  ⟨(replay perform start (script code)).2,
    ((Header.conventional (.queue .multiple)).withExtra "k" (.ofNat count)).withExtra "capacity"
      (.ofNat capacity)⟩

end Storyboard.Queue.Multiple
