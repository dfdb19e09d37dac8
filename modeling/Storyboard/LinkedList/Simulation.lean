import Storyboard.LinkedList.Kind
import Storyboard.LinkedList.Script
import Storyboard.Literal.Order
import Storyboard.Story.Basic

/-!
# Linked lists

The nodes of a list are its values in order.  `LinkedList.perform` plays a statement on them; every
insertion and deletion tells the position at which it took place.
-/

namespace Storyboard.LinkedList

/-- A step on the given nodes. -/
def snapshot (nodes : List Literal) (line : Nat) (action description : String) : Step :=
  { stepAt line action description with
    vars := [("head", Literal.toJson? nodes.head?), ("tail", Literal.toJson? nodes.getLast?),
      ("length", .ofNat nodes.length), ("list_state", .arr (Literal.jsonItems nodes))] }

/-- The position of the first node with the value. -/
def position? (nodes : List Literal) (value : Literal) : Option Nat :=
  nodes.findIdx? fun node => node.same value

/-- Inserts at a position, or at the end of a shorter list. -/
def insertAt (nodes : List Literal) (line : Nat) (position : Nat) (value : Literal)
    (description : String) : List Literal × List Step :=
  let index := min position nodes.length
  let grown := nodes.insertIdx index value
  (grown, [((snapshot grown line "insert" description).withValue value.toJson).withExtra
    "index" (.ofNat index)])

/-- Deletes the node at a position; `label` says which one it is. -/
def deleteAt (nodes : List Literal) (line index : Nat) (value : Literal) (label : String) :
    List Literal × List Step :=
  let left := nodes.eraseIdx index
  (left, [((snapshot left line "delete" s!"Deleted {label}{value.shown}").withValue
    value.toJson).withExtra "index" (.ofNat index)])

/-- The position that an anchor denotes. -/
def Anchor.target? (nodes : List Literal) : Anchor → Option Nat
  | position literal => (Literal.int? literal).map fun n => n.toInt.toNat
  | after literal => (position? nodes literal).map (· + 1)
  | before literal => position? nodes literal

/-- The literal of an anchor. -/
def Anchor.literal : Anchor → Literal
  | position literal | after literal | before literal => literal

/-- Where an anchor puts a value, in words. -/
def Anchor.place (target : Nat) : Anchor → String
  | position _ => s!"at position {Decimal.intText target}"
  | after literal => s!"after {literal.shown}"
  | before literal => s!"before {literal.shown}"

/-- Inserts a value with respect to another one. -/
def insertBy (nodes : List Literal) (line : Nat) (anchor : Anchor) (value : Literal) :
    List Literal × List Step :=
  match anchor.target? nodes with
  | some target =>
    insertAt nodes line target value s!"Inserted {value.shown} {anchor.place target}"
  | none =>
    (nodes, [(snapshot nodes line "not_found"
      s!"Cannot insert {value.shown}: {anchor.literal.shown} not found").withValue value.toJson])

/-- Deletes the first node with a value. -/
def delete (nodes : List Literal) (line : Nat) (value : Literal) : List Literal × List Step :=
  match position? nodes value with
  | some index => deleteAt nodes line index (nodes.getD index value) ""
  | none =>
    (nodes, [(snapshot nodes line "not_found"
      s!"Attempted delete of {value.shown} (not found)").withValue value.toJson])

/-- Deletes the node at an end. -/
def deleteEnd (nodes : List Literal) (line : Nat) (place : End) : List Literal × List Step :=
  match nodes.head?, nodes.getLast?, place with
  | some first, _, .front => deleteAt nodes line 0 first "head "
  | _, some last, .back => deleteAt nodes line (nodes.length - 1) last "tail "
  | _, _, _ => (nodes, [snapshot nodes line "underflow" "List is empty; nothing to delete"])

/-- The text between two nodes. -/
def arrow (kind : ListKind) : String := if kind.isDoubly then " <-> " else " -> "

/-- A list in words. -/
def rendered (kind : ListKind) (nodes : List Literal) : String :=
  if nodes.isEmpty then "empty"
  else
    (arrow kind).intercalate (nodes.map Literal.shown) ++
      (if kind.isCircular then " -> (back to head)" else " -> None")

/-- The step of a display. -/
def displayStep (kind : ListKind) (nodes : List Literal) (line : Nat) (backward : Bool) : Step :=
  let direction := if backward then "backward" else "forward"
  let text := rendered kind (if backward then nodes.reverse else nodes)
  (snapshot nodes line "display" s!"Display list {direction}: {text}").withExtra
    "direction" (.str direction)

/-- The steps of a traversal. -/
def traversalSteps (nodes : List Literal) (line : Nat) : List Step :=
  snapshot nodes line "traverse" "Traverse list from head" ::
    nodes.mapIdx fun index node =>
      ((snapshot nodes line "visit" s!"Visit {node.shown}").withValue node.toJson).withExtra
        "index" (.ofNat index)

/-- The steps of a search among `rest`, which starts at position `index`. -/
def searchFrom (nodes : List Literal) (line : Nat) (target : Literal) :
    Nat → List Literal → List Step
  | _, [] => [(snapshot nodes line "not_found" s!"{target.shown} not found in list").withValue
      target.toJson]
  | index, node :: rest =>
    if node.same target then
      [(snapshot nodes line "found"
        s!"Found {target.shown} at position {Decimal.intText index}").withExtra
          "index" (.ofNat index)]
    else
      (snapshot nodes line "visit" s!"Compare {node.shown} with {target.shown}").withExtra
        "index" (.ofNat index) :: searchFrom nodes line target (index + 1) rest

/-- Performs an operation. -/
def performOp (kind : ListKind) (nodes : List Literal) (cue : Cue Op) :
    List Literal × List Step :=
  let line := cue.line
  match cue.op with
  | .createHead value => insertAt nodes line 0 value s!"Created head node {value.shown}"
  | .linkLast value =>
    insertAt nodes line nodes.length value s!"Linked new node {value.shown} at end"
  | .insert .front value => insertAt nodes line 0 value s!"Inserted {value.shown} at front"
  | .insert .back value =>
    insertAt nodes line nodes.length value s!"Inserted {value.shown} at end"
  | .insertBy anchor value => insertBy nodes line anchor value
  | .delete value => delete nodes line value
  | .deleteEnd place => deleteEnd nodes line place
  | .display backward => (nodes, [displayStep kind nodes line backward])
  | .traverse => (nodes, traversalSteps nodes line)
  | .search target => (nodes, searchFrom nodes line target 0 nodes)
  | .reverse => (nodes.reverse, [snapshot nodes.reverse line "reverse" "Reversed list"])

/-- The operations of a statement on a list that is empty or not. -/
def Statement.ops (statement : Statement) (isEmpty : Bool) : List Op :=
  match statement.head, isEmpty with
  | some value, true => [.createHead value]
  | _, _ => statement.otherwise

/-- Performs a statement. -/
def perform (kind : ListKind) (nodes : List Literal) (cue : Cue Statement) :
    List Literal × List Step :=
  replay (performOp kind) nodes ((cue.op.ops nodes.isEmpty).map fun op => ⟨cue.line, op⟩)

/-- The story of the linked list in a program. -/
def simulate (hint : ListKind) (code : String) : Story :=
  let kind := kindOf code hint
  ⟨(replay (perform kind) [] (script code)).2,
    ((Header.conventional (.linkedList kind)).withExtra "doubly" (.bool kind.isDoubly)).withExtra
      "circular" (.bool kind.isCircular)⟩

end Storyboard.LinkedList
