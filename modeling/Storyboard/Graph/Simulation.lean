import Storyboard.Graph.Declared
import Storyboard.Graph.ShortestPaths
import Storyboard.Graph.Traversal
import Storyboard.Story.Basic

/-!
# Graphs

The graph that a program declares is traversed in the way that was asked for; a general request is
settled by the weights of the graph and the words of the program.
-/

namespace Storyboard.Graph

/-- Labels as a data value. -/
def labelsJson (labels : List String) : Json := .arr (labels.map Json.str)

/-- A step without a source line. -/
def plainStep (action description : String) : Step := { action, description }

/-- The step of an event of a breadth-first traversal, without its variables. -/
def breadthStep : Event → Step
  | .start node => (plainStep "enqueue" s!"Enqueue start node {node}").withNode node
  | .take node => (plainStep "dequeue" s!"Dequeue {node}").withNode node
  | .visit node => (plainStep "visit" s!"Visit {node}").withNode node
  | .explore source target =>
    (plainStep "connect" s!"Explore edge {source} -> {target}").withEdge source target
  | .defer node => (plainStep "enqueue" s!"Enqueue {node}").withNode node

/-- The step of a moment of a breadth-first traversal. -/
def breadthStepAt (moment : Moment) : Step :=
  ((breadthStep moment.event).withVar "queue" (labelsJson moment.progress.waiting)).withVar
    "visited" (labelsJson moment.progress.visited)

/-- The step of an event of a depth-first traversal, without its variables. -/
def depthStep : Event → Step
  | .start node => (plainStep "push" s!"Push start node {node}").withNode node
  | .take node => (plainStep "pop" s!"Pop {node}").withNode node
  | .visit node => (plainStep "visit" s!"Visit {node}").withNode node
  | .explore source target =>
    (plainStep "connect" s!"Explore edge {source} -> {target}").withEdge source target
  | .defer node => (plainStep "push" s!"Push {node}").withNode node

/-- The step of a moment of a depth-first traversal. -/
def depthStepAt (moment : Moment) : Step :=
  let step := { depthStep moment.event with
    stackSnapshot := some (moment.progress.waiting.map Json.str) }
  (step.withVar "stack" (labelsJson moment.progress.waiting)).withVar
    "visited" (labelsJson moment.progress.visited)

/-- A weight in words. -/
def weightText (weight : Float) : String := Decimal.Style.prose.write weight

/-- The step of an event of a search for shortest paths, without its variables. -/
def pathStep : PathEvent Float → Step
  | .start node =>
    (plainStep "init" s!"Set distance of {node} to 0, all others to infinity").withNode node
  | .finish node distance =>
    (plainStep "visit" s!"Visit {node} (distance {weightText distance})").withNode node
  | .relax source target weight =>
    ((plainStep "relax"
      s!"Relax edge {source} -> {target} (weight {weightText weight})").withEdge
        source target).withExtra "weight" (Json.ofFloat weight)
  | .improve node distance =>
    ((plainStep "update_distance" s!"Distance of {node} becomes {weightText distance}").withNode
      node).withValue (Json.ofFloat distance)

/-- The distances as a data value. -/
def distancesJson (known : List (String × Option Float)) : Json :=
  Json.object (known.map fun (node, distance) => (node, distance.elim (.str "inf") Json.ofFloat))

/-- The step of a moment of a search for shortest paths. -/
def pathStepAt (moment : PathMoment Float) : Step :=
  ((pathStep moment.event).withVar "dist" (distancesJson moment.distances.known)).withVar
    "visited" (labelsJson moment.distances.finished)

/-- The traversal to run. -/
def traversalOf (requested : GraphKind) (code : String) (graph : Adjacency Float) : GraphKind :=
  match requested with
  | .generic =>
    let lowered := Text.asciiLower code
    if graph.isWeighted || Text.contains lowered "dijkstra" then .weighted
    else if Text.contains lowered "dfs" || Text.contains lowered "depth" then .dfs
    else .bfs
  | kind => kind

/-- The steps of a traversal from a node. -/
def steps (kind : GraphKind) (graph : Adjacency Float) (start : String) : List Step :=
  match kind with
  | .dfs => (depthFirst graph start).map depthStepAt
  | .weighted => (shortestPaths .float graph start).map pathStepAt
  | .bfs | .generic => (breadthFirst graph start).map breadthStepAt

/-- An edge as a data value. -/
def edgeJson (edge : Edge Float) : Json :=
  .obj ([("source", .str edge.source), ("target", .str edge.target)] ++
    optionalMember "weight" Json.ofFloat edge.weight)

/-- The header of a traversal. -/
def header (kind : GraphKind) (graph : Adjacency Float) (start : String) : Header :=
  (((Header.conventional (.graph kind)).withExtra "graph_nodes" (labelsJson graph.nodes)).withExtra
    "graph_edges" (.arr (graph.edges.map edgeJson))).withExtra "start_node" (.str start)

/-- Why a program has no graph to traverse. -/
inductive Failure where
  | undeclared
  | withoutNodes

/-- The message of a failure. -/
def Failure.message : Failure → String
  | undeclared => "no adjacency map or add_edge calls found"
  | withoutNodes => "graph has no nodes"

/-- The story of the graph in a program. -/
def simulate (requested : GraphKind) (code : String) : Except Failure Story :=
  match declared? code with
  | none => .error .undeclared
  | some graph =>
    match startNode? graph code with
    | none => .error .withoutNodes
    | some start =>
      let kind := traversalOf requested code graph
      .ok ⟨steps kind graph start, header kind graph start⟩

end Storyboard.Graph
