/-!
# Directed graphs

Nodes are labels in the order in which they are declared, and edges stand in the order in which
they are added; of two edges between the same nodes the first counts.  Edges may carry a weight.  A graph
carries the proofs that its nodes are distinct, its edges are too, and the ends of an edge are nodes.
-/

namespace Storyboard.Graph

/-- An edge with an optional weight. -/
structure Edge (W : Type) where
  source : String
  target : String
  weight : Option W

/-- A directed graph. -/
structure Adjacency (W : Type) where
  nodes : List String
  edges : List (Edge W)
  /-- No node is declared twice. -/
  nodes_nodup : nodes.Nodup
  /-- The ends of an edge are nodes. -/
  ends_mem : ∀ edge ∈ edges, edge.source ∈ nodes ∧ edge.target ∈ nodes
  /-- No two edges have the same ends. -/
  edges_distinct : edges.Pairwise fun a b => ¬(a.source = b.source ∧ a.target = b.target)

namespace Adjacency

variable {W : Type}

/-- The graph without nodes. -/
def empty : Adjacency W where
  nodes := []
  edges := []
  nodes_nodup := List.nodup_nil
  ends_mem := fun _ h => absurd h List.not_mem_nil
  edges_distinct := List.Pairwise.nil

/-- Declares a node. -/
def addNode (graph : Adjacency W) (label : String) : Adjacency W :=
  if h : label ∈ graph.nodes then graph
  else
    { nodes := graph.nodes ++ [label]
      edges := graph.edges
      nodes_nodup := by
        refine List.nodup_append.mpr ⟨graph.nodes_nodup, by simp, fun a ha b hb => ?_⟩
        rw [List.mem_singleton.mp hb]
        exact fun hab => h (hab ▸ ha)
      ends_mem := fun edge hedge =>
        have hends := graph.ends_mem edge hedge
        ⟨List.mem_append_left _ hends.1, List.mem_append_left _ hends.2⟩
      edges_distinct := graph.edges_distinct }

@[simp] theorem mem_nodes_addNode {graph : Adjacency W} {label node : String} :
    node ∈ (graph.addNode label).nodes ↔ node = label ∨ node ∈ graph.nodes := by
  unfold addNode
  split
  next h =>
    constructor
    · exact Or.inr
    · rintro (rfl | hn)
      · exact h
      · exact hn
  next => simp [or_comm]

/-- There is an edge between the two nodes. -/
def hasEdge (graph : Adjacency W) (source target : String) : Bool :=
  graph.edges.any fun edge => edge.source == source && edge.target == target

theorem hasEdge_eq_true_iff {graph : Adjacency W} {source target : String} :
    graph.hasEdge source target = true ↔
      ∃ edge ∈ graph.edges, edge.source = source ∧ edge.target = target := by
  simp [hasEdge]

/-- Adds an edge between two nodes, unless there is one. -/
def addEdge (graph : Adjacency W) (source target : String) (weight : Option W)
    (hsource : source ∈ graph.nodes) (htarget : target ∈ graph.nodes) : Adjacency W :=
  if h : graph.hasEdge source target then graph
  else
    { nodes := graph.nodes
      edges := graph.edges ++ [⟨source, target, weight⟩]
      nodes_nodup := graph.nodes_nodup
      ends_mem := by
        intro edge hedge
        rcases List.mem_append.mp hedge with hedge | hedge
        · exact graph.ends_mem edge hedge
        · rw [List.mem_singleton.mp hedge]
          exact ⟨hsource, htarget⟩
      edges_distinct := by
        refine List.pairwise_append.mpr
          ⟨graph.edges_distinct, List.pairwise_singleton .., fun a ha b hb => ?_⟩
        rw [List.mem_singleton.mp hb]
        exact fun hends => h (hasEdge_eq_true_iff.mpr ⟨a, ha, hends⟩) }

/-- Adds an edge, and its nodes where they are new. -/
def connect (graph : Adjacency W) (source target : String) (weight : Option W) : Adjacency W :=
  ((graph.addNode source).addNode target).addEdge source target weight (by simp) (by simp)

/-- The nodes of an edge are nodes of the graph. -/
theorem mem_nodes_connect {graph : Adjacency W} {source target node : String}
    {weight : Option W} : node ∈ (graph.connect source target weight).nodes ↔
      node = target ∨ node = source ∨ node ∈ graph.nodes := by
  unfold connect addEdge
  split <;> rw [mem_nodes_addNode, mem_nodes_addNode]

/-- Some edge has a weight. -/
def isWeighted (graph : Adjacency W) : Bool := graph.edges.any fun edge => edge.weight.isSome

/-- The edges that leave a node, in order. -/
def edgesFrom (graph : Adjacency W) (label : String) : List (Edge W) :=
  graph.edges.filter fun edge => edge.source == label

/-- The nodes that the edges of a node lead to, in order. -/
def neighbors (graph : Adjacency W) (label : String) : List String :=
  (graph.edgesFrom label).map Edge.target

end Adjacency

end Storyboard.Graph
