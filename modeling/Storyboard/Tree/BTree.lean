import Storyboard.Literal.Order
import Storyboard.Simulation.Cue
import Storyboard.Story.Basic

/-!
# B-trees

A schematic run: the keys arrive one after the other in a leaf window that holds at most
`2 * degree - 1` of them; the key that fills it splits it around its median, and the median is
promoted to the parent.
-/

namespace Storyboard.Tree.BTree

/-- The minimum degree. -/
def degree : Nat := 3

/-- The number of keys that a node holds at most. -/
def maxKeys : Nat := 2 * degree - 1

/-- Names of insertions. -/
def insertNames : List String := ["insert", "add", "insert_key", "insert_non_full", "put"]

/-- The keys that a call inserts. -/
def keysOfCall (line : Source.Line) (bindings : Source.Bindings) (call : Source.Call) :
    List Literal :=
  match call.args.getLast? with
  | none => []
  | some operand =>
    if !call.isOneOf insertNames || line.isDefinition call.subject (some operand) then []
    else bindings.expandKnown operand

/-- The keys that a program inserts, in the order of their first insertion. -/
def keys (code : String) : List Literal :=
  let all := (Source.boundLines code).flatMap fun (line, bindings) =>
    (Source.calls line.text).flatMap (keysOfCall line bindings)
  all.foldl (fun kept key => if kept.any key.same then kept else kept ++ [key]) []

/-- Keys as a data value. -/
def keysJson (keys : List Literal) : Json := .arr (Literal.jsonItems keys)

/-- A step without a source line. -/
def stepWith (action description : String) (vars : List (String × Json)) : Step :=
  { action, description, vars }

/-- The keys around the median of a full window. -/
structure Split where
  left : List Literal
  median : Literal
  right : List Literal

/-- The window that the last key of `soFar` fills, if it fills one. -/
def split? (soFar : List Literal) : Option Split :=
  if soFar.length % maxKeys = 0 then
    match (soFar.drop (soFar.length - maxKeys)).splitAt (degree - 1) with
    | (left, median :: right) => some ⟨left, median, right⟩
    | _ => none
  else none

/-- The steps of a split; `promoted` are the medians with the new one. -/
def splitSteps (split : Split) (promoted : List Literal) : List Step :=
  let median := split.median
  [(stepWith "split_node"
      s!"Node is full ({Decimal.intText maxKeys} keys): split around median {median.shown}"
      [("left", keysJson split.left), ("right", keysJson split.right),
        ("median", median.toJson)]).withValue median.toJson,
    (stepWith "promote" s!"Promote {median.shown} to the parent node"
      [("promoted", keysJson promoted)]).withValue median.toJson]

/-- The step of a key that finds room in the leaf. -/
def leafStep (soFar : List Literal) (key : Literal) : Step :=
  (stepWith "insert_leaf" s!"Place {key.shown} in leaf node"
    [("inserted", keysJson soFar)]).withValue key.toJson

/-- Inserts keys behind those of `before`; returns the promoted medians and the steps. -/
def insertAll : List Literal → List Literal → List Literal → List Literal × List Step
  | _, promoted, [] => (promoted, [])
  | before, promoted, key :: rest =>
    let soFar := before ++ [key]
    let arrival := (stepWith "insert" s!"Insert key {key.shown}"
      [("inserted", keysJson soFar), ("promoted", keysJson promoted)]).withValue key.toJson
    match split? soFar with
    | some split =>
      let promoted := promoted ++ [split.median]
      let (last, more) := insertAll soFar promoted rest
      (last, arrival :: (splitSteps split promoted ++ more))
    | none =>
      let (last, more) := insertAll soFar promoted rest
      (last, arrival :: leafStep soFar key :: more)

/-- The steps before the first key. -/
def openingSteps (keys : List Literal) : List Step :=
  [stepWith "init" s!"Initialize B-Tree with minimum degree t = {Decimal.intText degree}"
      [("t", .ofNat degree), ("keys", keysJson keys)],
    stepWith "info"
      s!"Each node holds at most {Decimal.intText maxKeys} keys; a full node splits at its median"
      [("max_keys", .ofNat maxKeys), ("min_keys", .ofNat (degree - 1))],
    (stepWith "create_node" "Create empty root node" [("node_keys", .arr [])]).withNode "root"]

/-- The steps of a run that inserts the keys. -/
def stepsOf (keys : List Literal) : List Step :=
  let (promoted, steps) := insertAll [] [] keys
  openingSteps keys ++ steps ++
    [stepWith "finish" s!"B-Tree holds {Decimal.intText keys.length} keys"
      [("keys", keysJson keys), ("promoted", keysJson promoted)]]

/-- The story of the B-tree in a program. -/
def simulate (code : String) : Story :=
  match keys code with
  | [] => ⟨[], Header.conventional (.tree .bTree)⟩
  | keys =>
    ⟨stepsOf keys, (Header.conventional (.tree .bTree)).withExtra "degree" (.ofNat degree)⟩

end Storyboard.Tree.BTree
