import Storyboard.Graph.Declared

/-!
# A declared graph has a node to start from

Adding to a graph never takes a node away, and a dictionary or a call that declares a graph adds a
node to it.  Every way to choose the node to start from chooses a node of the graph.
-/

namespace Storyboard.Graph

variable {α : Type} {graph next : Adjacency Float}

/-- No node of the graph is missing in the next one. -/
def Extends (graph next : Adjacency Float) : Prop := graph.nodes ⊆ next.nodes

theorem addNode_extends (graph : Adjacency Float) (label : String) :
    Extends graph (graph.addNode label) :=
  fun _ h => Adjacency.mem_nodes_addNode.mpr (.inr h)

theorem connect_extends (graph : Adjacency Float) (source target : String) (weight : Option Float) :
    Extends graph (graph.connect source target weight) :=
  fun _ h => Adjacency.mem_nodes_connect.mpr (.inr (.inr h))

theorem foldl_extends {add : Adjacency Float → α → Adjacency Float}
    (hadd : ∀ graph item, Extends graph (add graph item)) (items : List α)
    (graph : Adjacency Float) : Extends graph (items.foldl add graph) := by
  induction items generalizing graph with
  | nil => exact fun _ h => h
  | cons item rest ih => exact fun _ h => ih (add graph item) (hadd graph item h)

theorem foldlM_extends {add? : Adjacency Float → α → Option (Adjacency Float)}
    (hadd : ∀ graph item next, add? graph item = some next → Extends graph next) {items : List α}
    (h : items.foldlM add? graph = some next) : Extends graph next := by
  induction items generalizing graph with
  | nil =>
    cases h
    exact fun _ hnode => hnode
  | cons item rest ih =>
    rw [List.foldlM_cons] at h
    obtain ⟨grown, hgrown, hrest⟩ := Option.bind_eq_some_iff.mp h
    exact fun _ hnode => ih hrest (hadd graph item grown hgrown hnode)

theorem connectItem?_extends {source : String} {item : Literal}
    (h : connectItem? source graph item = some next) : Extends graph next := by
  unfold connectItem? at h
  split at h
  next =>
    cases h
    exact connect_extends ..
  next =>
    split at h
    next =>
      cases h
      exact connect_extends ..
    next => cases h
  next => cases h

theorem connectEntry?_extends {entry : Literal × Literal}
    (h : connectEntry? graph entry = some next) : Extends graph next := by
  unfold connectEntry? at h
  dsimp only at h
  split at h
  next => exact foldlM_extends (fun _ _ _ => connectItem?_extends) h
  next => exact foldlM_extends (fun _ _ _ => connectItem?_extends) h
  next =>
    cases h
    exact foldl_extends (fun graph target => connect_extends graph ..) _ graph
  next => cases h

/-- The key of the first entry is a node. -/
theorem ofEntries?_nodes_ne_nil {entries : List (Literal × Literal)}
    (h : ofEntries? entries = some graph) : graph.nodes ≠ [] := by
  unfold ofEntries? at h
  cases entries with
  | nil => cases h
  | cons entry rest =>
    -- all keys are declared before the first edge is added
    have hkey : entry.1.label ∈ ((Adjacency.empty (W := Float)).addNode entry.1.label).nodes :=
      Adjacency.mem_nodes_addNode.mpr (.inl rfl)
    have hdeclared := foldl_extends (fun graph entry => addNode_extends graph entry.1.label) rest _ hkey
    exact List.ne_nil_of_mem (foldlM_extends (fun _ _ _ => connectEntry?_extends) h hdeclared)

theorem assignedGraph?_nodes_ne_nil {text : List Char} (h : assignedGraph? text = some graph) :
    graph.nodes ≠ [] := by
  unfold assignedGraph? at h
  obtain ⟨start, _, h⟩ := Option.bind_eq_some_iff.mp h
  split at h
  next => exact ofEntries?_nodes_ne_nil h
  next => cases h

theorem graphOfCalls?_nodes_ne_nil {code : String} (h : graphOfCalls? code = some graph) :
    graph.nodes ≠ [] := by
  unfold graphOfCalls? at h
  dsimp only at h
  split at h
  next => cases h
  next hnodes =>
    cases h
    exact fun hnil => hnodes (List.isEmpty_iff.mpr hnil)

/-- A graph that a program declares has a node. -/
theorem declared?_nodes_ne_nil {code : String} (h : declared? code = some graph) :
    graph.nodes ≠ [] := by
  unfold declared? at h
  cases hassigned : (Text.lineStarts code.toList).findSome? assignedGraph? with
  | some assigned =>
    rw [hassigned] at h
    cases h
    obtain ⟨text, _, htext⟩ := List.exists_of_findSome?_eq_some hassigned
    exact assignedGraph?_nodes_ne_nil htext
  | none =>
    rw [hassigned] at h
    exact graphOfCalls?_nodes_ne_nil h

/-! ## The node to start from -/

theorem startOfCall?_mem {line : Source.Line} {call : Source.Call} {start : String}
    (h : startOfCall? graph line call = some start) : start ∈ graph.nodes := by
  unfold startOfCall? at h
  dsimp only at h
  split at h
  next => cases h
  next =>
    split at h
    next => cases h
    next =>
      split at h
      next hmem =>
        cases h
        exact hmem
      next => cases h

theorem startOfCalls?_mem {code start : String} (h : startOfCalls? graph code = some start) :
    start ∈ graph.nodes := by
  obtain ⟨line, _, hline⟩ := List.exists_of_findSome?_eq_some h
  obtain ⟨call, _, hcall⟩ := List.exists_of_findSome?_eq_some hline
  exact startOfCall?_mem hcall

theorem assignedStart?_mem {code start : String} (h : assignedStart? graph code = some start) :
    start ∈ graph.nodes := by
  unfold assignedStart? at h
  split at h
  next =>
    split at h
    next hmem =>
      cases h
      exact hmem
    next => cases h
  next => cases h

/-- In a graph that has a node, a node to start from is found. -/
theorem exists_startNode? (hnodes : graph.nodes ≠ []) (code : String) :
    ∃ start ∈ graph.nodes, startNode? graph code = some start := by
  unfold startNode?
  cases hcall : startOfCalls? graph code with
  | some start => exact ⟨start, startOfCalls?_mem hcall, rfl⟩
  | none =>
    cases hassigned : assignedStart? graph code with
    | some start => exact ⟨start, assignedStart?_mem hassigned, rfl⟩
    | none => exact ⟨graph.nodes.head hnodes, List.head_mem hnodes, List.head?_eq_some_head hnodes⟩

end Storyboard.Graph
