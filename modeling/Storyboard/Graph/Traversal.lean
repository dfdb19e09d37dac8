import Storyboard.Graph.Adjacency

/-!
# Breadth first and depth first

A traversal keeps the nodes that it has visited and the nodes that wait for their turn: a queue, or
a stack whose top is its last element.  It is recorded as moments, each an event with both lists as
they are after it.  A node waits at most once and is visited at most once, so the number of nodes
bounds the turns.
-/

namespace Storyboard.Graph

/-- What happens in a traversal. -/
inductive Event where
  /-- The first node starts to wait. -/
  | start (node : String)
  /-- A node has its turn. -/
  | take (node : String)
  | visit (node : String)
  /-- An edge is looked at. -/
  | explore (source target : String)
  /-- A node starts to wait. -/
  | defer (node : String)

/-- The lists of a traversal. -/
structure Progress where
  waiting : List String := []
  visited : List String := []

/-- An event and the lists after it. -/
structure Moment where
  event : Event
  progress : Progress

namespace Progress

/-- A node that neither waits nor has been visited. -/
def isNew (p : Progress) (node : String) : Bool :=
  !p.visited.contains node && !p.waiting.contains node

/-- Lets a node wait. -/
def await (p : Progress) (node : String) : Progress := { p with waiting := p.waiting ++ [node] }

/-- Visits a node. -/
def visit (p : Progress) (node : String) : Progress := { p with visited := p.visited ++ [node] }

end Progress

/-- Lets the new ones among some nodes wait, one after the other. -/
def deferNew (p : Progress) : List String → Progress × List Moment
  | [] => (p, [])
  | node :: rest =>
    if p.isNew node then
      let grown := p.await node
      let (last, more) := deferNew grown rest
      (last, ⟨.defer node, grown⟩ :: more)
    else deferNew p rest

/-- Looks at the edges to some nodes, and lets each new one wait at once. -/
def exploreAndDefer (source : String) (p : Progress) : List String → Progress × List Moment
  | [] => (p, [])
  | node :: rest =>
    let (next, deferred) := deferNew p [node]
    let (last, more) := exploreAndDefer source next rest
    (last, ⟨.explore source node, p⟩ :: (deferred ++ more))

/-- Looks at the edges to all of some nodes, and then lets the new ones wait, the last one
first. -/
def exploreThenDefer (source : String) (p : Progress) (nodes : List String) :
    Progress × List Moment :=
  let (last, deferred) := deferNew p nodes.reverse
  (last, nodes.map (fun node => ⟨.explore source node, p⟩) ++ deferred)

/-- At most `limit` turns, one after the other, until there is none to take. -/
def takeTurns (turn : Progress → Option (Progress × List Moment)) :
    (limit : Nat) → Progress → List Moment
  | 0, _ => []
  | limit + 1, p =>
    match turn p with
    | none => []
    | some (next, moments) => moments ++ takeTurns turn limit next

variable {W : Type}

/-- A turn of a breadth-first traversal, unless no node waits. -/
def breadthTurn (graph : Adjacency W) (p : Progress) : Option (Progress × List Moment) :=
  match p.waiting with
  | [] => none
  | node :: waiting =>
    let taken := { p with waiting }
    let visited := taken.visit node
    let (next, moments) := exploreAndDefer node visited (graph.neighbors node)
    some (next, ⟨.take node, taken⟩ :: ⟨.visit node, visited⟩ :: moments)

/-- A turn of a depth-first traversal, unless no node waits. -/
def depthTurn (graph : Adjacency W) (p : Progress) : Option (Progress × List Moment) :=
  match p.waiting.getLast? with
  | none => none
  | some node =>
    let taken := { p with waiting := p.waiting.dropLast }
    -- a node is visited once, however often it is taken
    if taken.visited.contains node then some (taken, [⟨.take node, taken⟩])
    else
      let visited := taken.visit node
      let (next, moments) := exploreThenDefer node visited (graph.neighbors node)
      some (next, ⟨.take node, taken⟩ :: ⟨.visit node, visited⟩ :: moments)

/-- The number of turns that a traversal takes at most. -/
def turnLimit (graph : Adjacency W) : Nat := graph.nodes.length + 1

/-- The lists when only the first node waits. -/
def Progress.starting (node : String) : Progress := { waiting := [node] }

/-- The breadth-first traversal from a node. -/
def breadthFirst (graph : Adjacency W) (start : String) : List Moment :=
  ⟨.start start, .starting start⟩ ::
    takeTurns (breadthTurn graph) (turnLimit graph) (.starting start)

/-- The depth-first traversal from a node. -/
def depthFirst (graph : Adjacency W) (start : String) : List Moment :=
  ⟨.start start, .starting start⟩ ::
    takeTurns (depthTurn graph) (turnLimit graph) (.starting start)

end Storyboard.Graph
