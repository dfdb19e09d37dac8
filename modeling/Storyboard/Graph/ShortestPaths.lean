import Storyboard.Graph.Adjacency
import Storyboard.Ordered

/-!
# Shortest paths

Nodes are finished in the order of their distance from the start; a node that is finished relaxes
its edges to the unfinished ones.  Weights are any type with an addition and two comparisons, whose
laws the run does not rely on: every turn finishes one more node.
-/

namespace Storyboard.Graph

/-- The arithmetic of weights. -/
structure Arithmetic (W : Type) where
  zero : W
  /-- The weight of an edge that has none. -/
  one : W
  add : W → W → W
  atMost : W → W → Bool
  below : W → W → Bool

/-- The arithmetic of doubles. -/
def Arithmetic.float : Arithmetic Float where
  zero := 0.0
  one := 1.0
  add x y := x + y
  atMost x y := x ≤ y
  below x y := x < y

variable {W : Type}

/-- The weight of an edge. -/
def Arithmetic.weight (arithmetic : Arithmetic W) (edge : Edge W) : W :=
  edge.weight.getD arithmetic.one

/-- What happens in a run. -/
inductive PathEvent (W : Type) where
  | start (node : String)
  | finish (node : String) (distance : W)
  | relax (source target : String) (weight : W)
  | improve (node : String) (distance : W)

/-- The distances known so far, in the order of the nodes, and the nodes that are finished. -/
structure Distances (W : Type) where
  known : List (String × Option W)
  finished : List String := []

/-- An event and the distances after it. -/
structure PathMoment (W : Type) where
  event : PathEvent W
  distances : Distances W

namespace Distances

/-- The distances when only the start is known. -/
def starting (arithmetic : Arithmetic W) (nodes : List String) (start : String) : Distances W :=
  { known := Ordered.put start (some arithmetic.zero) (nodes.map fun node => (node, none)) }

/-- The distance of a node. -/
def distance? (d : Distances W) (node : String) : Option W := (Ordered.find? node d.known).join

/-- Writes the distance of a node. -/
def improve (d : Distances W) (node : String) (distance : W) : Distances W :=
  { d with known := Ordered.put node (some distance) d.known }

/-- Finishes a node. -/
def finish (d : Distances W) (node : String) : Distances W :=
  { d with finished := d.finished ++ [node] }

/-- The nodes that have a distance and are not finished. -/
def candidates (d : Distances W) : List (String × W) :=
  d.known.filterMap fun (node, distance) =>
    if d.finished.contains node then none else distance.map fun distance => (node, distance)

/-- The closest of some nodes; the earlier of two that are equally close. -/
def closestOf (arithmetic : Arithmetic W) (best : String × W) : List (String × W) → String × W
  | [] => best
  | next :: rest =>
    closestOf arithmetic (if arithmetic.atMost best.2 next.2 then best else next) rest

/-- The closest node that is not finished. -/
def closest? (arithmetic : Arithmetic W) (d : Distances W) : Option (String × W) :=
  match d.candidates with
  | [] => none
  | first :: rest => some (closestOf arithmetic first rest)

/-- The distance improves what is known of a node. -/
def improves (arithmetic : Arithmetic W) (d : Distances W) (node : String) (distance : W) : Bool :=
  match d.distance? node with
  | none => true
  | some known => arithmetic.below distance known

end Distances

/-- Relaxes edges of a node at the given distance. -/
def relaxEdges (arithmetic : Arithmetic W) (distance : W) (d : Distances W) :
    List (Edge W) → Distances W × List (PathMoment W)
  | [] => (d, [])
  | edge :: rest =>
    if d.finished.contains edge.target then relaxEdges arithmetic distance d rest
    else
      let weight := arithmetic.weight edge
      let candidate := arithmetic.add distance weight
      -- the look at the edge shows the distances as they were before it
      let look : PathMoment W := ⟨.relax edge.source edge.target weight, d⟩
      if d.improves arithmetic edge.target candidate then
        let better := d.improve edge.target candidate
        let (last, more) := relaxEdges arithmetic distance better rest
        (last, look :: ⟨.improve edge.target candidate, better⟩ :: more)
      else
        let (last, more) := relaxEdges arithmetic distance d rest
        (last, look :: more)

/-- At most `turns` turns. -/
def pathTurns (arithmetic : Arithmetic W) (graph : Adjacency W) :
    (turns : Nat) → Distances W → List (PathMoment W)
  | 0, _ => []
  | turns + 1, d =>
    match d.closest? arithmetic with
    | none => []
    | some (node, distance) =>
      let finished := d.finish node
      let (next, moments) := relaxEdges arithmetic distance finished (graph.edgesFrom node)
      ⟨.finish node distance, finished⟩ :: (moments ++ pathTurns arithmetic graph turns next)

/-- The run from a node. -/
def shortestPaths (arithmetic : Arithmetic W) (graph : Adjacency W) (start : String) :
    List (PathMoment W) :=
  let first := Distances.starting arithmetic graph.nodes start
  ⟨.start start, first⟩ :: pathTurns arithmetic graph (graph.nodes.length + 1) first

end Storyboard.Graph
