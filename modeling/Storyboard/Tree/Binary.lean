import Storyboard.Decimal.Notation
import Storyboard.Literal.Order

/-!
# Binary search trees

The nodes of a tree are numbered in the order of their creation.  A value goes to the left of the
nodes that it comes strictly before and to the right of all others; `SearchTree` adds the count of
nodes created so far to a tree.
-/

namespace Storyboard.Tree

/-- A node without its subtrees. -/
structure Node where
  number : Nat
  value : Literal

/-- The name of a node. -/
def Node.id (node : Node) : String := "n" ++ Decimal.intText node.number

/-- The side of a node on which a subtree hangs. -/
inductive Side where
  | left
  | right

/-- The name of a side. -/
def Side.name : Side → String
  | .left => "left"
  | .right => "right"

/-- An order in which the nodes of a tree are visited. -/
inductive Order where
  | inorder
  | preorder
  | postorder
  | levels

/-- A binary tree. -/
inductive Binary where
  | leaf
  | branch (node : Node) (left right : Binary)

namespace Binary

/-- The node at the root. -/
def root? : Binary → Option Node
  | leaf => none
  | branch node _ _ => some node

/-- The nodes from left to right. -/
def inorder : Binary → List Node
  | leaf => []
  | branch node left right => left.inorder ++ node :: right.inorder

/-- The nodes, each before those below it. -/
def preorder : Binary → List Node
  | leaf => []
  | branch node left right => node :: (left.preorder ++ right.preorder)

/-- The nodes, each after those below it. -/
def postorder : Binary → List Node
  | leaf => []
  | branch node left right => left.postorder ++ (right.postorder ++ [node])

/-- Joins two lists of levels level by level. -/
def joinLevels : List (List Node) → List (List Node) → List (List Node)
  | [], levels => levels
  | levels, [] => levels
  | upper :: rest, upper' :: rest' => (upper ++ upper') :: joinLevels rest rest'

/-- The nodes of each level. -/
def levels : Binary → List (List Node)
  | leaf => []
  | branch node left right => [node] :: joinLevels left.levels right.levels

/-- The nodes in an order. -/
def walk (tree : Binary) : Order → List Node
  | .inorder => tree.inorder
  | .preorder => tree.preorder
  | .postorder => tree.postorder
  | .levels => tree.levels.flatten

/-- The nodes that a value passes on its way to a free place, each with the side it turns to. -/
def descent (value : Literal) : Binary → List (Node × Side)
  | leaf => []
  | branch node left right =>
    if value.before node.value then (node, .left) :: left.descent value
    else (node, .right) :: right.descent value

/-- Hangs a new node where its value belongs. -/
def insert (new : Node) : Binary → Binary
  | leaf => branch new leaf leaf
  | branch node left right =>
    if new.value.before node.value then branch node (left.insert new) right
    else branch node left (right.insert new)

/-- The nodes that are compared with a value in the search for it. -/
def probes (value : Literal) : Binary → List Node
  | leaf => []
  | branch node left right =>
    if value.same node.value then [node]
    else if value.before node.value then node :: left.probes value
    else node :: right.probes value

/-- The node of a value. -/
def find? (value : Literal) : Binary → Option Node
  | leaf => none
  | branch node left right =>
    if value.same node.value then some node
    else if value.before node.value then left.find? value
    else right.find? value

/-- The leftmost value, and the tree without its node. -/
def popLeftmost? : Binary → Option (Literal × Binary)
  | leaf => none
  | branch node left right =>
    match left.popLeftmost? with
    | some (value, rest) => some (value, branch node rest right)
    | none => some (node.value, right)

/-- How a node was removed. -/
inductive Removal where
  /-- It had at most one subtree, which took its place. -/
  | unlinked (node : Node)
  /-- It kept its place and took the value that followed its own. -/
  | replaced (node : Node) (successor : Literal)

/-- Removes the node at the root of a nonempty tree. -/
def removeRoot (node : Node) (left right : Binary) : Binary × Removal :=
  match left, right.popLeftmost? with
  | branch .., some (successor, rest) =>
    (branch { node with value := successor } left rest, .replaced node successor)
  | left, none => (left, .unlinked node)
  | leaf, some _ => (right, .unlinked node)

/-- Removes the node of a value. -/
def remove? (value : Literal) : Binary → Option (Binary × Removal)
  | leaf => none
  | branch node left right =>
    if value.same node.value then some (removeRoot node left right)
    else if value.before node.value then
      (left.remove? value).map fun (left, removal) => (branch node left right, removal)
    else
      (right.remove? value).map fun (right, removal) => (branch node left right, removal)

end Binary

/-- A binary tree and the number of nodes created for it so far. -/
structure SearchTree where
  tree : Binary := .leaf
  created : Nat := 0

namespace SearchTree

/-- The node that the next insertion creates. -/
def nextNode (t : SearchTree) (value : Literal) : Node := ⟨t.created + 1, value⟩

/-- The tree with one more node. -/
def insert (t : SearchTree) (value : Literal) : SearchTree :=
  ⟨t.tree.insert (t.nextNode value), t.created + 1⟩

/-- The values from left to right. -/
def values (t : SearchTree) : List Literal := t.tree.inorder.map Node.value

end SearchTree

end Storyboard.Tree
