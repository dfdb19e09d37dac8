import Storyboard.Simulation.Cue
import Storyboard.Source.Hints
import Storyboard.Story.Basic

/-!
# Linear queues

A linear queue takes values at its rear and gives them up at its front.  A subscript or a loop over
a name counts as an operation only where the name has been enqueued to before.
-/

namespace Storyboard.Queue.Linear

/-- An operation on a linear queue. -/
inductive Op where
  | enqueue (value : Literal)
  | dequeue
  | peek
  | display
  | traverse

/-- Names of insertions. -/
def enqueueNames : List String := ["enqueue", "append", "put", "offer"]

/-- Names of removals. -/
def dequeueNames : List String := ["dequeue", "popleft", "get", "poll"]

/-- Names of looks at the front. -/
def peekNames : List String := ["peek", "front"]

/-- Names of displays. -/
def displayNames : List String := ["display", "show", "print_queue"]

/-- The receiver and operand of an insertion outside of definitions. -/
def enqueue? (line : Source.Line) (call : Source.Call) :
    Option (Option (List Char) × List Char) :=
  if call.isOneOf enqueueNames then
    match call.insertion? with
    | some (receiver, operand) =>
      if line.isDefinition receiver (some operand) then none else some (receiver, operand)
    | none => none
  else none

/-- An operation without operand, unless its receiver marks it as part of a definition. -/
def nullaryOps? (line : Source.Line) (call : Source.Call) (ops : List Op) : Option (List Op) :=
  match call.nullary? with
  | some receiver => if line.isDefinition receiver none then none else some ops
  | none => none

/-- The operations that a call asks for. -/
def opsOfCall? (line : Source.Line) (bindings : Source.Bindings) (call : Source.Call) :
    Option (List Op) :=
  if call.isOneOf enqueueNames then
    (enqueue? line call).map fun (_, operand) => (bindings.expand operand).map .enqueue
  else if call.isOneOf dequeueNames then
    nullaryOps? line call (List.replicate bindings.iterations .dequeue)
  else if call.name == "pop" && call.args == [['0']] then
    if line.isDefinition call.receiver none then none
    else some (List.replicate bindings.iterations .dequeue)
  else if call.isOneOf peekNames then nullaryOps? line call [.peek]
  else if call.isOneOf displayNames then nullaryOps? line call [.display]
  else none

/-- The name that a loop header runs over. -/
def loopSubject? (text : List Char) : Option (List Char) := do
  let afterFor ← (Text.dropPrefix? "for".toList text).bind Text.someBlanks?
  let (_, afterName) ← Text.someRun? Text.isWord afterFor
  let afterIn ← (Text.someBlanks? afterName).bind (Text.dropPrefix? "in".toList)
  let (subject, rest) ← (Text.someBlanks? afterIn).bind Text.dottedName?
  let _ ← Text.blanksThen? ':' rest
  return subject

/-- The names that a line enqueues to. -/
def receiversOfLine (line : Source.Line) : List (List Char) :=
  (Source.calls line.text).filterMap fun call =>
    match enqueue? line call with
    | some (some receiver, _) => some (Source.baseName receiver)
    | _ => none

/-- The line traverses one of the known queues. -/
def isTraversal (known : List (List Char)) (line : Source.Line) : Bool :=
  match loopSubject? line.text with
  | some subject => known.contains (Source.baseName subject) && !line.isDefinition none none
  | none => false

/-- The line looks at the front of one of the known queues by its subscript. -/
def looksAtFront (known : List (List Char)) (line : Source.Line) : Bool :=
  match Source.firstSubscripted? "0" line.text with
  | some name =>
    let base := Source.baseName name
    known.contains base && !line.isDefinition (some base) none
  | none => false

/-- The operations that a line asks for by calls, or else by a subscript. -/
def opsOfLine (known : List (List Char)) (line : Source.Line) (bindings : Source.Bindings) :
    List Op :=
  match (Source.calls line.text).filterMap (opsOfCall? line bindings) with
  | [] => if looksAtFront known line then [.peek] else []
  | found => found.flatten

/-- The operations of lines, given the names that have been enqueued to before. -/
def scriptFrom : List (List Char) → List (Source.Line × Source.Bindings) → List (Cue Op)
  | _, [] => []
  | known, (line, bindings) :: rest =>
    if isTraversal known line then ⟨line.number, .traverse⟩ :: scriptFrom known rest
    else
      let known := known ++ receiversOfLine line
      cuesOn line (opsOfLine known line bindings) ++ scriptFrom known rest

/-- The operations that a program asks for. -/
def script (code : String) : List (Cue Op) := scriptFrom [] (Source.boundLines code)

/-- A step on the given items, front first. -/
def snapshot (items : List Literal) (line : Nat) (action description : String) : Step :=
  let shown := Literal.jsonItems items
  { stepAt line action description with
    buffer := some shown
    head := some (if items.isEmpty then -1 else 0)
    tail := some ((items.length : Int) - 1)
    vars := [("queue", .arr shown), ("front", Literal.toJson? items.head?),
      ("rear", Literal.toJson? items.getLast?)] }

/-- One visit for each item, from the given position on. -/
def visits (items : List Literal) (line : Nat) : Nat → List Literal → List Step
  | _, [] => []
  | position, item :: rest =>
    (snapshot items line "visit" s!"Visit {item.shown} at position {position}").withValue item.toJson
      :: visits items line (position + 1) rest

/-- Performs an operation. -/
def perform (items : List Literal) (cue : Cue Op) : List Literal × List Step :=
  match cue.op with
  | .enqueue value =>
    let grown := items ++ [value]
    (grown, [(snapshot grown cue.line "enqueue" s!"Enqueued {value.shown} at rear").withValue
      value.toJson])
  | .dequeue =>
    match items with
    | [] => (items, [snapshot items cue.line "underflow" "Queue is empty; nothing to dequeue"])
    | value :: left =>
      (left, [(snapshot left cue.line "dequeue" s!"Dequeued {value.shown} from front").withValue
        value.toJson])
  | .peek =>
    match items with
    | [] => (items, [snapshot items cue.line "peek" "Queue is empty; no front element"])
    | value :: _ =>
      (items, [(snapshot items cue.line "peek" s!"Front element is {value.shown}").withValue
        value.toJson])
  | .display =>
    let shown := Json.compact (.arr (Literal.jsonItems items))
    (items, [snapshot items cue.line "display" s!"Display queue {shown}"])
  | .traverse =>
    (items, snapshot items cue.line "traverse" "Traverse queue from front to rear" ::
      visits items cue.line 0 items)

/-- The story of the queue in a program. -/
def simulate (code : String) : Story :=
  ⟨(replay perform [] (script code)).2, Header.conventional (.queue .linear)⟩

end Storyboard.Queue.Linear
