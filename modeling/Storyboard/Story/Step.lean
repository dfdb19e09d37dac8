import Storyboard.Json.Basic
import Storyboard.Ordered

/-!
# Steps

A step of a story: an action with its description, a snapshot of variables, and what else a
renderer needs.  In data text a step is one flat object; members that have no field of their own
are its extras.
-/

namespace Storyboard

/-- One atomic step of a simulated run. -/
structure Step where
  action : String
  description : String
  /-- Variables in order of insertion. -/
  vars : List (String × Json) := []
  /-- The source line that caused the step, counted from one. -/
  line : Option Nat := none
  value : Option Json := none
  nodeId : Option String := none
  buffer : Option (List Json) := none
  head : Option Int := none
  tail : Option Int := none
  heap : Option (List Json) := none
  stackSnapshot : Option (List Json) := none
  source : Option String := none
  target : Option String := none
  /-- Further members in order of insertion. -/
  extra : List (String × Json) := []

/-- A member that is written only when it has a value. -/
def optionalMember {α : Type} (key : String) (encode : α → Json) (value : Option α) :
    List (String × Json) :=
  match value with
  | none => []
  | some x => [(key, encode x)]

/-- No key of `keys` stands twice among the members. -/
def eachOnce (keys : List String) (members : List (String × Json)) : Bool :=
  keys.all fun key => decide ((members.filter fun member => member.1 == key).length ≤ 1)

/-- The members whose keys are not among `keys`, in canonical form and in order of insertion. -/
def otherMembers (keys : List String) (members : List (String × Json)) : List (String × Json) :=
  Ordered.ofList ((members.filter fun member => !keys.contains member.1).map
    fun member => (member.1, member.2.canonical))

/-- Reads a member that may be missing or null. -/
def readOptional {α : Type} (decode : Json → Option α) : Option Json → Option (Option α)
  | none => some none
  | some .null => some none
  | some value => (decode value).map some

/-- Reads a member that has a default but may not be null. -/
def readDefault {α : Type} (default : α) (decode : Json → Option α) : Option Json → Option α
  | none => some default
  | some value => decode value

/-- The items of an array, in canonical form. -/
def canonicalItems? : Json → Option (List Json)
  | .arr items => some (Json.canonicalItems items)
  | _ => none

/-- The members of an object in order of insertion, with values in canonical form. -/
def variables? : Json → Option (List (String × Json))
  | .obj members => some (Ordered.ofList (Json.canonicalMembers members))
  | _ => none

namespace Step

/-- A step that only explains. -/
def note (description : String) : Step := { action := "note", description }

/-- The step is a note. -/
def isNote (step : Step) : Bool := step.action == "note"

/-- Adds a variable. -/
def withVar (step : Step) (name : String) (value : Json) : Step :=
  { step with vars := Ordered.put name value step.vars }

/-- Adds a further member. -/
def withExtra (step : Step) (name : String) (value : Json) : Step :=
  { step with extra := Ordered.put name value step.extra }

/-- Adds the value that the step is about. -/
def withValue (step : Step) (value : Json) : Step := { step with value := some value }

/-- Adds the node that the step is about. -/
def withNode (step : Step) (node : String) : Step := { step with nodeId := some node }

/-- Adds the edge that the step is about. -/
def withEdge (step : Step) (source target : String) : Step :=
  { step with source := some source, target := some target }

/-- The keys of the fields. -/
def keys : List String :=
  ["action", "description", "vars", "line", "value", "node_id", "buffer", "head", "tail", "heap",
    "stack_snapshot", "source", "target"]

/-- The members of the flat object that a step is written as. -/
def members (step : Step) : List (String × Json) :=
  [("action", .str step.action), ("description", .str step.description), ("vars", .obj step.vars)]
    ++ optionalMember "line" Json.ofNat step.line
    ++ optionalMember "value" id step.value
    ++ optionalMember "node_id" .str step.nodeId
    ++ optionalMember "buffer" .arr step.buffer
    ++ optionalMember "head" .int step.head
    ++ optionalMember "tail" .int step.tail
    ++ optionalMember "heap" .arr step.heap
    ++ optionalMember "stack_snapshot" .arr step.stackSnapshot
    ++ optionalMember "source" .str step.source
    ++ optionalMember "target" .str step.target
    ++ step.extra

/-- The data value of a step. -/
def toJson (step : Step) : Json := .obj step.members

/-- Reads a step; a field that stands twice or has a value of another kind is refused. -/
def ofMembers? (members : List (String × Json)) : Option Step :=
  if eachOnce keys members then do
    let action ← (members.lookup "action").bind Json.str?
    let description ← readDefault "" Json.str? (members.lookup "description")
    let vars ← readDefault [] variables? (members.lookup "vars")
    let line ← readOptional (Json.below? UInt64.size) (members.lookup "line")
    let value ← readOptional (fun value => some value.canonical) (members.lookup "value")
    let nodeId ← readOptional Json.str? (members.lookup "node_id")
    let buffer ← readOptional canonicalItems? (members.lookup "buffer")
    let head ← readOptional Json.int64? (members.lookup "head")
    let tail ← readOptional Json.int64? (members.lookup "tail")
    let heap ← readOptional canonicalItems? (members.lookup "heap")
    let stackSnapshot ← readOptional canonicalItems? (members.lookup "stack_snapshot")
    let source ← readOptional Json.str? (members.lookup "source")
    let target ← readOptional Json.str? (members.lookup "target")
    let extra := otherMembers keys members
    return { action, description, vars, line, value, nodeId, buffer, head, tail, heap,
             stackSnapshot, source, target, extra }
  else none

/-- Reads a step from a data value. -/
def ofJson? : Json → Option Step
  | .obj members => ofMembers? members
  | _ => none

/-- Reads steps from an array. -/
def listOfJson? : Json → Option (List Step)
  | .arr items => items.mapM ofJson?
  | _ => none

/-- The data value of steps. -/
def listToJson (steps : List Step) : Json := .arr (steps.map toJson)

end Step

end Storyboard
