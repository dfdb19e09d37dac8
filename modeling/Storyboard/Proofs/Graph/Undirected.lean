import Mathlib.Logic.Basic
import Storyboard.Graph.Declared

/-!
# Graphs without directions

A program that adds its edges by calls, and does not speak of a directed graph, means each of them both
ways.  An edge and its opposite are added one after the other, each only where there is none yet.  So
the two are always there together, and both have the weight of the first call that joins their nodes,
in whichever direction (`weight?_foldl_connectBoth`).
-/

namespace Storyboard.Graph

variable {W : Type} {graph : Adjacency W} {u v : String}

/-- The edge joins two nodes, in one direction or the other. -/
def Edge.joins (edge : Edge W) (u v : String) : Bool :=
  (edge.source == u && edge.target == v) || (edge.source == v && edge.target == u)

theorem Edge.joins_comm (edge : Edge W) (u v : String) : edge.joins u v = edge.joins v u :=
  Bool.or_comm _ _

/-- The weight of the first edge that joins two nodes, if one does. -/
def firstJoining? (edges : List (Edge W)) (u v : String) : Option (Option W) :=
  (edges.find? fun edge => edge.joins u v).map Edge.weight

theorem firstJoining?_comm (edges : List (Edge W)) (u v : String) :
    firstJoining? edges u v = firstJoining? edges v u := by
  simp only [firstJoining?, Edge.joins_comm _ u v]

theorem firstJoining?_cons (edge : Edge W) (edges : List (Edge W)) (u v : String) :
    firstJoining? (edge :: edges) u v =
      (if edge.joins u v then some edge.weight else none).or (firstJoining? edges u v) := by
  rw [firstJoining?, List.find?_cons]
  cases edge.joins u v <;> rfl

namespace Adjacency

/-- The weight of the edge from a node to another, if there is such an edge. -/
def weight? (graph : Adjacency W) (u v : String) : Option (Option W) :=
  (graph.edges.find? fun edge => edge.source == u && edge.target == v).map Edge.weight

/-- The weight of an edge is the one that it carries, as no other edge has its ends. -/
theorem weight?_eq_some_iff {w : Option W} : graph.weight? u v = some w ↔ ⟨u, v, w⟩ ∈ graph.edges := by
  constructor
  · intro h
    obtain ⟨⟨source, target, weight⟩, hfound, rfl⟩ := Option.map_eq_some_iff.mp h
    have hends := List.find?_some hfound
    rw [Bool.and_eq_true, beq_iff_eq, beq_iff_eq] at hends
    obtain ⟨rfl, rfl⟩ := hends
    exact List.mem_of_find?_eq_some hfound
  · intro h
    obtain ⟨before, after, hedges⟩ := List.append_of_mem h
    -- an earlier edge with the same ends would be a second one
    have hbefore : before.find? (fun edge => edge.source == u && edge.target == v) = none := by
      rw [List.find?_eq_none]
      intro other hother hends
      rw [Bool.and_eq_true, beq_iff_eq, beq_iff_eq] at hends
      have hdistinct := graph.edges_distinct
      rw [hedges, List.pairwise_append] at hdistinct
      exact hdistinct.2.2 other hother _ List.mem_cons_self hends
    rw [weight?, hedges, List.find?_append, hbefore, List.find?_cons]
    simp

/-- There is an edge where one has a weight. -/
theorem hasEdge_iff : graph.hasEdge u v = true ↔ (graph.weight? u v).isSome = true := by
  rw [hasEdge_eq_true_iff, weight?, Option.isSome_map, List.find?_isSome]
  simp only [Bool.and_eq_true, beq_iff_eq]

theorem weight?_addNode (label : String) : (graph.addNode label).weight? u v = graph.weight? u v := by
  unfold addNode
  split <;> rfl

/-- An edge that is added counts where there is none yet. -/
theorem weight?_connect (source target : String) (weight : Option W) :
    (graph.connect source target weight).weight? u v =
      (graph.weight? u v).or (if source = u ∧ target = v then some weight else none) := by
  have hnodes : ((graph.addNode source).addNode target).weight? u v = graph.weight? u v := by
    rw [weight?_addNode, weight?_addNode]
  rw [← hnodes]
  unfold connect addEdge
  split
  next hedge =>
    split
    next hends =>
      obtain ⟨rfl, rfl⟩ := hends
      rw [Option.or_of_isSome (hasEdge_iff.mp hedge)]
    next => exact (Option.or_none).symm
  next =>
    rw [weight?, List.find?_append, Option.map_or, List.find?_singleton]
    by_cases hends : source = u ∧ target = v
    · simp [weight?, hends]
    · simp [weight?, hends]

/-- Every edge has an opposite with the same weight, and no two edges have the same ends. -/
structure IsUndirected (graph : Adjacency W) : Prop where
  symmetric : ∀ u v w, ⟨u, v, w⟩ ∈ graph.edges ↔ ⟨v, u, w⟩ ∈ graph.edges
  distinct : (graph.edges.map fun edge => (edge.source, edge.target)).Nodup

theorem nodup_ends (graph : Adjacency W) :
    (graph.edges.map fun edge => (edge.source, edge.target)).Nodup := by
  rw [List.Nodup, List.pairwise_map]
  exact graph.edges_distinct.imp fun hne heq => hne (Prod.mk.inj heq)

end Adjacency

/-! ## Edges that calls add -/

/-- An edge that is added both ways counts in both directions where there is none yet. -/
theorem weight?_connectBoth (graph : Adjacency Float) (edge : Edge Float) (u v : String) :
    (connectBoth false graph edge).weight? u v =
      (graph.weight? u v).or (if edge.joins u v then some edge.weight else none) := by
  have hboth : connectBoth false graph edge =
      (graph.connect edge.source edge.target edge.weight).connect edge.target edge.source
        edge.weight := rfl
  have hjoins : edge.joins u v = true ↔
      (edge.source = u ∧ edge.target = v) ∨ (edge.target = u ∧ edge.source = v) := by
    simp [Edge.joins, and_comm]
  rw [hboth, Adjacency.weight?_connect, Adjacency.weight?_connect, Option.or_assoc]
  by_cases hthere : edge.source = u ∧ edge.target = v
  · rw [if_pos hthere, Option.some_or, if_pos (hjoins.mpr (.inl hthere))]
  · rw [if_neg hthere, Option.none_or, if_congr (hjoins.trans (or_iff_right hthere)) rfl rfl]

/-- Of the edges that are added both ways, the first that joins two nodes counts, in both directions. -/
theorem weight?_foldl_connectBoth (edges : List (Edge Float)) (graph : Adjacency Float)
    (u v : String) : (edges.foldl (connectBoth false) graph).weight? u v =
      (graph.weight? u v).or (firstJoining? edges u v) := by
  induction edges generalizing graph with
  | nil => exact Option.or_none.symm
  | cons edge rest ih =>
    rw [List.foldl_cons, ih, weight?_connectBoth, firstJoining?_cons, Option.or_assoc]

theorem isDirected_eq_false {code : String}
    (h : Text.contains code "directed" = false ∨ Text.contains code "undirected" = true) :
    isDirected code = false := by
  unfold isDirected
  rcases h with h | h
  · rw [h, Bool.false_and]
  · rw [h, Bool.not_true, Bool.and_false]

/-- Where no dictionary declares the graph, its edges are those of the calls. -/
theorem declared?_eq_graphOfCalls? {code : String}
    (h : (Text.lineStarts code.toList).findSome? assignedGraph? = none) :
    declared? code = graphOfCalls? code := by
  rw [declared?, h]
  rfl

/-- A graph whose edges a program adds by calls, without speaking of a directed graph, is undirected: an
edge is there exactly when its opposite is, with the same weight, which is that of the first call that
joins the two nodes in either direction; and no two edges have the same ends. -/
theorem declared?_isUndirected {code : String} {graph : Adjacency Float}
    (hcalls : (Text.lineStarts code.toList).findSome? assignedGraph? = none)
    (hgraph : declared? code = some graph)
    (hwords : Text.contains code "directed" = false ∨ Text.contains code "undirected" = true) :
    graph.IsUndirected ∧ ∀ u v w,
      ⟨u, v, w⟩ ∈ graph.edges ↔ firstJoining? (edgesOfCalls code) u v = some w := by
  have hfirst : ∀ u v, graph.weight? u v = firstJoining? (edgesOfCalls code) u v := by
    intro u v
    rw [declared?_eq_graphOfCalls? hcalls, graphOfCalls?, isDirected_eq_false hwords] at hgraph
    split at hgraph
    next => cases hgraph
    next =>
      obtain rfl := Option.some.inj hgraph
      exact weight?_foldl_connectBoth (edgesOfCalls code) .empty u v
  have hmem : ∀ u v w,
      ⟨u, v, w⟩ ∈ graph.edges ↔ firstJoining? (edgesOfCalls code) u v = some w := by
    intro u v w
    rw [← Adjacency.weight?_eq_some_iff, hfirst]
  refine ⟨⟨fun u v w => ?_, graph.nodup_ends⟩, hmem⟩
  rw [hmem, hmem, firstJoining?_comm]

/-- An edge that is declared again the other way round with another weight, a loop, and an edge without
a weight that is declared twice. -/
def repeatedCode : String :=
  "# an undirected graph\ng.add_edge('A', 'B', 2.0)\ng.add_edge('B', 'A', 5.0)\n" ++
    "g.add_edge('A', 'A', 1.0)\ng.add_edge('B', 'C')\ng.add_edge('B', 'C', 3.0)\n"

theorem declared?_isUndirected_repeated :
    (Text.lineStarts repeatedCode.toList).findSome? assignedGraph? = none ∧
      Text.contains repeatedCode "undirected" = true ∧
      ∃ graph, declared? repeatedCode = some graph ∧
        graph.edges.map (fun edge => (edge.source, edge.target, edge.weight.map Float.toBits)) =
          [("A", "B", some (2.0 : Float).toBits), ("B", "A", some (2.0 : Float).toBits),
            ("A", "A", some (1.0 : Float).toBits), ("B", "C", none), ("C", "B", none)] ∧
        graph.IsUndirected := by
  have hcalls : (Text.lineStarts repeatedCode.toList).findSome? assignedGraph? = none :=
    Option.isNone_iff_eq_none.mp (by decide +kernel)
  have hwords : Text.contains repeatedCode "undirected" = true := by decide +kernel
  have hrun : (declared? repeatedCode).map (fun graph => graph.edges.map fun edge =>
      (edge.source, edge.target, edge.weight.map Float.toBits)) =
      some [("A", "B", some (2.0 : Float).toBits), ("B", "A", some (2.0 : Float).toBits),
        ("A", "A", some (1.0 : Float).toBits), ("B", "C", none), ("C", "B", none)] := by
    decide +kernel
  obtain ⟨graph, hgraph, hedges⟩ := Option.map_eq_some_iff.mp hrun
  exact ⟨hcalls, hwords, graph, hgraph, hedges,
    (declared?_isUndirected hcalls hgraph (.inr hwords)).1⟩

end Storyboard.Graph
