import Storyboard.Simulation.Cue
import Storyboard.Source.Hints
import Storyboard.Story.Basic

/-!
# Stacks

A stack grows and shrinks at its end.  `Stack.script` reads the pushes, pops and peeks of a program,
and `Stack.perform` plays them; a pop of the empty stack is a step of its own and changes nothing.
-/

namespace Storyboard.Stack

/-- An operation on a stack. -/
inductive Op where
  | push (value : Literal)
  | pop
  | peek

/-- Names of insertions. -/
def pushNames : List String := ["push", "append"]

/-- Names of removals. -/
def popNames : List String := ["pop"]

/-- Names of looks at the top. -/
def peekNames : List String := ["peek", "top"]

/-- The operations that a call asks for, if it is one on a stack and not part of a definition. -/
def opsOfCall? (line : Source.Line) (bindings : Source.Bindings) (call : Source.Call) :
    Option (List Op) :=
  if call.isOneOf pushNames then
    match call.insertion? with
    | some (receiver, operand) =>
      if line.isDefinition receiver (some operand) then none
      else some ((bindings.expand operand).map .push)
    | none => none
  else if call.isOneOf popNames then
    match call.nullary? with
    | some receiver =>
      if line.isDefinition receiver none then none
      else some (List.replicate bindings.iterations .pop)
    | none => none
  else if call.isOneOf peekNames && decide (call.args.length ≤ 1) then
    if line.isDefinition call.target none then none else some [.peek]
  else none

/-- The operations that a line asks for; the last item of a name is looked at only where no call
asks for anything. -/
def opsOfLine (line : Source.Line) (bindings : Source.Bindings) : List Op :=
  match (Source.calls line.text).filterMap (opsOfCall? line bindings) with
  | [] =>
    match Source.firstSubscripted? "-1" line.text with
    | some name => if line.isDefinition (some name) none then [] else [.peek]
    | none => []
  | found => found.flatten

/-- The operations that a program asks for. -/
def script (code : String) : List (Cue Op) :=
  (Source.boundLines code).flatMap fun (line, bindings) => cuesOn line (opsOfLine line bindings)

/-- A step on the given items, of which the last is the top. -/
def snapshot (items : List Literal) (line : Nat) (action description : String) : Step :=
  { stepAt line action description with
    vars := [("stack", .arr (Literal.jsonItems items)), ("top", Literal.toJson? items.getLast?),
      ("size", .ofNat items.length)] }

/-- Performs an operation. -/
def perform (items : List Literal) (cue : Cue Op) : List Literal × List Step :=
  match cue.op with
  | .push value =>
    let pushed := items ++ [value]
    (pushed, [(snapshot pushed cue.line "push" s!"Pushed {value.shown} onto stack").withValue
      value.toJson])
  | .pop =>
    match items.getLast? with
    | some value =>
      let left := items.dropLast
      (left, [(snapshot left cue.line "pop" s!"Popped {value.shown} from stack").withValue
        value.toJson])
    | none => (items, [snapshot items cue.line "pop_empty" "Tried to pop from empty stack"])
  | .peek =>
    match items.getLast? with
    | some value =>
      (items, [(snapshot items cue.line "peek" s!"Peeked at top element {value.shown}").withValue
        value.toJson])
    | none => (items, [snapshot items cue.line "peek" "Stack is empty; nothing to peek"])

/-- The story of the stack in a program. -/
def simulate (code : String) : Story :=
  let (items, steps) := replay perform [] (script code)
  ⟨steps, (Header.conventional .stack).withExtra "final_size" (.ofNat items.length)⟩

end Storyboard.Stack
