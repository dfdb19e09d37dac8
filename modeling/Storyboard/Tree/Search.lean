import Storyboard.Simulation.Cue
import Storyboard.Story.Basic
import Storyboard.Tree.Binary

/-!
# Search trees in programs

The values that a program inserts are sorted, each kept once, and inserted first; its deletions,
searches and traversals follow in source order.  `SearchTree.perform` plays an operation of either
sort on any tree.
-/

namespace Storyboard.Tree.SearchTree

/-- An operation on a search tree. -/
inductive Op where
  | insert (value : Literal)
  | delete (value : Literal)
  | search (value : Literal)
  | traverse (order : Order)

/-- Names of insertions. -/
def insertNames : List String :=
  ["insert", "add", "insert_node", "insert_key", "insert_value", "put"]

/-- Names of deletions. -/
def deleteNames : List String := ["delete", "remove", "delete_node", "delete_key", "remove_node"]

/-- Names of searches. -/
def searchNames : List String := ["search", "find", "contains", "search_node", "lookup"]

/-- The order that the name of a call speaks of. -/
def orderOfName? (name : String) : Option Order :=
  let plain := String.ofList ((Text.asciiLower name).toList.filter (· != '_'))
  if Text.contains plain "inorder" then some .inorder
  else if Text.contains plain "preorder" then some .preorder
  else if Text.contains plain "postorder" then some .postorder
  else if Text.contains plain "levelorder" then some .levels
  else none

/-- The operations that a call asks for. -/
def opsOfCall (line : Source.Line) (bindings : Source.Bindings) (call : Source.Call) : List Op :=
  let operand := call.args.getLast?
  if line.isDefinition call.subject operand then []
  else
    match orderOfName? call.name, operand with
    | some order, _ => [.traverse order]
    | none, none => []
    | none, some operand =>
      if call.isOneOf insertNames then (bindings.expandKnown operand).map .insert
      else if call.isOneOf deleteNames then (bindings.expandKnown operand).map .delete
      else if call.isOneOf searchNames then (bindings.expandKnown operand).map .search
      else []

/-- The operations of a program in source order. -/
def requests (code : String) : List (Cue Op) :=
  (Source.boundLines code).flatMap fun (line, bindings) =>
    cuesOn line ((Source.calls line.text).flatMap (opsOfCall line bindings))

/-- The value that a request inserts, with its line. -/
def insertion? (cue : Cue Op) : Option (Literal × Nat) :=
  match cue.op with
  | .insert value => some (value, cue.line)
  | _ => none

/-- Drops every value that is the same as the last one kept. -/
def eachKeptOnce : Option Literal → List (Literal × Nat) → List (Literal × Nat)
  | _, [] => []
  | last, (value, line) :: rest =>
    if last.any value.same then eachKeptOnce last rest
    else (value, line) :: eachKeptOnce (some value) rest

theorem eachKeptOnce_sublist (last : Option Literal) (entries : List (Literal × Nat)) :
    (eachKeptOnce last entries).Sublist entries := by
  induction entries generalizing last with
  | nil => exact .slnil
  | cons entry rest ih =>
    rw [eachKeptOnce]
    split
    next => exact (ih last).cons _
    next => exact (ih _).cons_cons _

/-- The values to insert, in increasing order and each once. -/
def insertions (requests : List (Cue Op)) : List (Literal × Nat) :=
  eachKeptOnce none (Literal.sortBy Prod.fst (requests.filterMap insertion?))

/-- The operations that a program asks for, the insertions first. -/
def script (code : String) : List (Cue Op) :=
  let all := requests code
  (insertions all).map (fun (value, line) => ⟨line, .insert value⟩) ++
    all.filter fun cue => (insertion? cue).isNone

/-- A step on the given tree. -/
def snapshot (t : SearchTree) (line : Nat) (action description : String) : Step :=
  { stepAt line action description with
    vars := [("size", .ofNat t.values.length), ("inorder", .arr (Literal.jsonItems t.values)),
      ("root", Literal.toJson? (t.tree.root?.map Node.value))] }

/-- A step on the given tree about a node and a value. -/
def snapshotAt (t : SearchTree) (line : Nat) (node : Node) (value : Literal)
    (action description : String) : Step :=
  ((snapshot t line action description).withNode node.id).withValue value.toJson

/-- The comparisons on the way of an insertion. -/
def descentSteps (t : SearchTree) (line : Nat) (value : Literal) : List Step :=
  (t.tree.descent value).map fun (node, side) =>
    (snapshotAt t line node value "compare"
      s!"Compare {value.shown} with {node.value.shown}: go {side.name}").withExtra
        "direction" (.str side.name)

/-- The step that hangs a new node below its parent, or makes it the root. -/
def linkStep (grown : SearchTree) (line : Nat) (node : Node) (parent : Option (Node × Side)) :
    Step :=
  match parent with
  | none =>
    (snapshot grown line "set_root" s!"{node.value.shown} becomes the root").withNode node.id
  | some (parent, side) =>
    (((snapshot grown line "link_child"
      s!"Attach {node.value.shown} as {side.name} child of {parent.value.shown}").withNode
        node.id).withEdge parent.id node.id).withExtra "side" (.str side.name)

/-- Inserts a value. -/
def performInsert (t : SearchTree) (line : Nat) (value : Literal) : SearchTree × List Step :=
  let grown := t.insert value
  let node := t.nextNode value
  (grown, descentSteps t line value ++
    [snapshotAt grown line node value "create_node" s!"Create node {value.shown}",
      linkStep grown line node (t.tree.descent value).getLast?])

/-- The comparisons of a search. -/
def probeSteps (t : SearchTree) (line : Nat) (value : Literal) : List Step :=
  (t.tree.probes value).map fun node =>
    snapshotAt t line node value "compare" s!"Compare {value.shown} with {node.value.shown}"

/-- Deletes a value. -/
def performDelete (t : SearchTree) (line : Nat) (value : Literal) : SearchTree × List Step :=
  let (left, last) :=
    match t.tree.remove? value with
    | none => (t, (snapshot t line "not_found"
        s!"Cannot delete {value.shown}: not in the tree").withValue value.toJson)
    | some (tree, .unlinked node) =>
      let left := { t with tree }
      (left, snapshotAt left line node value "delete" s!"Delete node {value.shown}")
    | some (tree, .replaced node successor) =>
      let left := { t with tree }
      (left, snapshotAt left line node successor "replace"
        s!"Replace {value.shown} with inorder successor {successor.shown}")
  (left, probeSteps t line value ++ [last])

/-- Searches for a value. -/
def searchSteps (t : SearchTree) (line : Nat) (value : Literal) : List Step :=
  let last :=
    match t.tree.find? value with
    | some node => snapshotAt t line node value "found" s!"Found {value.shown}"
    | none =>
      (snapshot t line "not_found" s!"{value.shown} is not in the tree").withValue value.toJson
  probeSteps t line value ++ [last]

/-- How an order is spoken of. -/
def orderName : Order → String
  | .inorder => "inorder"
  | .preorder => "preorder"
  | .postorder => "postorder"
  | .levels => "level-order"

/-- Visits all nodes. -/
def traversalSteps (t : SearchTree) (line : Nat) (order : Order) : List Step :=
  (snapshot t line "traverse" s!"Start {orderName order} traversal").withExtra
      "order" (.str (orderName order)) ::
    (t.tree.walk order).map fun node =>
      snapshotAt t line node node.value "visit" s!"Visit {node.value.shown}"

/-- Performs an operation. -/
def perform (t : SearchTree) (cue : Cue Op) : SearchTree × List Step :=
  match cue.op with
  | .insert value => performInsert t cue.line value
  | .delete value => performDelete t cue.line value
  | .search value => (t, searchSteps t cue.line value)
  | .traverse order => (t, traversalSteps t cue.line order)

/-- The story of the search tree in a program. -/
def simulate (kind : TreeKind) (code : String) : Story :=
  let (t, steps) := replay perform {} (script code)
  ⟨steps, (Header.conventional (.tree kind)).withExtra "node_count" (.ofNat t.values.length)⟩

end Storyboard.Tree.SearchTree
