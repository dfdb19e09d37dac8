import Mathlib.Data.List.Nodup
import Storyboard.Graph.Simulation
import Storyboard.Proofs.Graph.Declared
import Storyboard.Proofs.Graph.Traversal

/-!
# The steps of a traversal

What a traversal does can be read off its steps (`Traverses`): which nodes they visit, which nodes
they show as waiting, and which edges they look at.  The two traversals name the step that takes a
node, and the variable with the waiting nodes, in their own way (`Tells`).
-/

namespace Storyboard.Graph

/-- The step visits a node. -/
def isVisit (step : Step) : Bool := step.action == "visit"

/-- The step looks at the edge between two nodes. -/
def isConnect (source target : String) (step : Step) : Bool :=
  step.action == "connect" && step.source == some source && step.target == some target

/-- The nodes that the steps visit, in order. -/
def visitedNodes (steps : List Step) : List (Option String) :=
  (steps.filter isVisit).map Step.nodeId

/-- The step shows the nodes that wait, under a name and in its snapshot of the stack, if any. -/
structure ShowsWaiting (list : String) (step : Step) (waiting : List String) : Prop where
  variable_eq : step.vars.lookup list = some (labelsJson waiting)
  snapshot_eq : ∀ items, step.stackSnapshot = some items → items = waiting.map Json.str

variable {W : Type}

/-- The steps traverse a graph from a node.  A step with the action `take` takes a node, and `list`
is the variable with the nodes that wait. -/
structure Traverses (graph : Adjacency W) (start take list : String) (steps : List Step) :
    Prop where
  /-- The visits name each reachable node once, and the first node first. -/
  visits : ∃ nodes : List String, visitedNodes steps = nodes.map some ∧ nodes.Nodup ∧
    nodes.head? = some start ∧ ∀ node, node ∈ nodes ↔ graph.Reaches start node
  /-- A node that is taken is visited by the very next step. -/
  take_visit : ∀ before step rest, steps = before ++ step :: rest → step.action = take →
    ∃ node next more, step.nodeId = some node ∧ rest = next :: more ∧
      isVisit next = true ∧ next.nodeId = some node
  /-- A step shows no node as waiting twice, and none that has been visited so far. -/
  waiting : ∀ before step rest, steps = before ++ step :: rest →
    ∃ nodes, ShowsWaiting list step nodes ∧ nodes.Nodup ∧
      ∀ node ∈ nodes, some node ∉ visitedNodes (before ++ [step])
  /-- Each edge that leaves a reachable node is looked at once. -/
  connect_once : ∀ edge ∈ graph.edges, graph.Reaches start edge.source →
    steps.countP (isConnect edge.source edge.target) = 1

/-! ## Telling moments -/

/-- The steps tell what happens at their moments. -/
structure Tells (take list : String) (stepAt : Moment → Step) : Prop where
  isVisit_eq : ∀ moment, isVisit (stepAt moment) = moment.event.visited?.isSome
  isTake_eq : ∀ moment, ((stepAt moment).action == take) = moment.event.taken?.isSome
  isConnect_eq : ∀ source target moment, isConnect source target (stepAt moment) =
    (moment.event.edge? == some (source, target))
  visit_node : ∀ moment node, moment.event.visited? = some node →
    (stepAt moment).nodeId = some node
  take_node : ∀ moment node, moment.event.taken? = some node →
    (stepAt moment).nodeId = some node
  shows : ∀ moment, ShowsWaiting list (stepAt moment) moment.progress.waiting

theorem breadthStepAt_tells : Tells "dequeue" "queue" breadthStepAt where
  isVisit_eq := fun ⟨event, _⟩ => by cases event <;> rfl
  isTake_eq := fun ⟨event, _⟩ => by cases event <;> rfl
  isConnect_eq := fun _ _ ⟨event, _⟩ => by cases event <;> rfl
  visit_node := fun ⟨event, _⟩ node h => by cases event <;> cases h; rfl
  take_node := fun ⟨event, _⟩ node h => by cases event <;> cases h; rfl
  shows := fun ⟨event, _⟩ => by cases event <;> exact ⟨rfl, fun _ h => nomatch h⟩

theorem depthStepAt_tells : Tells "pop" "stack" depthStepAt where
  isVisit_eq := fun ⟨event, _⟩ => by cases event <;> rfl
  isTake_eq := fun ⟨event, _⟩ => by cases event <;> rfl
  isConnect_eq := fun _ _ ⟨event, _⟩ => by cases event <;> rfl
  visit_node := fun ⟨event, _⟩ node h => by cases event <;> cases h; rfl
  take_node := fun ⟨event, _⟩ node h => by cases event <;> cases h; rfl
  shows := fun ⟨event, _⟩ => by
    cases event <;> exact ⟨rfl, fun _ h => (Option.some.inj h).symm⟩

variable {take list : String} {stepAt : Moment → Step} {moments : List Moment}

/-- When the visits of a story are told from moments, so are the nodes that it visits. -/
theorem visitedNodes_map {μ : Type} {stepAt : μ → Step} {visited? : μ → Option String}
    (hvisit : ∀ moment, isVisit (stepAt moment) = (visited? moment).isSome)
    (hnode : ∀ moment node, visited? moment = some node → (stepAt moment).nodeId = some node)
    (moments : List μ) :
    visitedNodes (moments.map stepAt) = (moments.filterMap visited?).map some := by
  unfold visitedNodes
  induction moments with
  | nil => rfl
  | cons moment rest ih =>
    rw [List.map_cons, List.filter_cons, List.filterMap_cons, hvisit]
    cases hvisited : visited? moment with
    | none => exact ih
    | some node =>
      rw [Option.isSome_some, if_pos rfl, List.map_cons, List.map_cons, ih,
        hnode moment node hvisited]

theorem Tells.visitedNodes_eq (h : Tells take list stepAt) (moments : List Moment) :
    visitedNodes (moments.map stepAt) = (visits moments).map some :=
  visitedNodes_map h.isVisit_eq h.visit_node moments

theorem Tells.countP_isConnect (h : Tells take list stepAt) (moments : List Moment)
    (source target : String) : (moments.map stepAt).countP (isConnect source target) =
      (explored moments).count (source, target) := by
  unfold explored
  rw [List.countP_map, List.count_eq_countP, List.countP_filterMap]
  refine List.countP_congr fun moment _ => ?_
  rw [Function.comp_apply, h.isConnect_eq]
  cases moment.event.edge? <;> rfl

/-- The moment from which a step in the middle of a story is told. -/
theorem exists_moment {μ : Type} {stepAt : μ → Step} {moments : List μ} {before rest : List Step}
    {step : Step} (h : moments.map stepAt = before ++ step :: rest) :
    ∃ earlier moment later, moments = earlier ++ moment :: later ∧
      before = earlier.map stepAt ∧ step = stepAt moment ∧ rest = later.map stepAt := by
  obtain ⟨earlier, others, rfl, hbefore, hothers⟩ := List.map_eq_append_iff.mp h
  obtain ⟨moment, later, rfl, hstep, hrest⟩ := List.map_eq_cons_iff.mp hothers
  exact ⟨earlier, moment, later, rfl, hbefore.symm, hstep.symm, hrest.symm⟩

/-- Each edge that leaves a reachable node is looked at once. -/
theorem Traversed.count_explored {graph : Adjacency W} {start : String}
    (h : Traversed graph start moments) {edge : Edge W} (hmem : edge ∈ graph.edges)
    (hreaches : graph.Reaches start edge.source) :
    (Graph.explored moments).count (edge.source, edge.target) = 1 := by
  rw [h.explored]
  -- the edges of one node differ in their targets, and those of two nodes in their sources
  refine List.count_eq_one_of_mem (List.nodup_flatMap.mpr ⟨?_, ?_⟩) (List.mem_flatMap.mpr ?_)
  · intro node _
    exact (graph.neighbors_nodup node).map fun a b hab => (Prod.mk.inj hab).2
  · refine h.visits_nodup.imp ?_
    intro a b hne pair ha hb
    obtain ⟨_, _, rfl⟩ := List.mem_map.mp ha
    obtain ⟨_, _, hpair⟩ := List.mem_map.mp hb
    exact hne (Prod.mk.inj hpair).1.symm
  · have hneighbor : edge.target ∈ graph.neighbors edge.source :=
      Adjacency.mem_neighbors_iff.mpr ⟨edge, hmem, rfl, rfl⟩
    exact ⟨edge.source, (h.mem_visits _).mpr hreaches, List.mem_map.mpr ⟨_, hneighbor, rfl⟩⟩

/-- The steps that tell a traversal traverse the graph. -/
theorem Traversed.traverses {graph : Adjacency W} {start : String}
    (h : Traversed graph start moments) (htells : Tells take list stepAt) :
    Traverses graph start take list (moments.map stepAt) where
  visits := ⟨visits moments, htells.visitedNodes_eq moments, h.visits_nodup, h.visits_head,
    h.mem_visits⟩
  take_visit before step rest hsteps htake := by
    obtain ⟨earlier, moment, later, hmoments, _, rfl, rfl⟩ := exists_moment hsteps
    have htaken := htells.isTake_eq moment
    rw [htake, beq_self_eq_true] at htaken
    obtain ⟨node, hnode⟩ := Option.isSome_iff_exists.mp htaken.symm
    have hvisits := h.visitsTaken
    obtain ⟨event, progress⟩ := moment
    -- the step is told from the moment that takes the node
    obtain rfl : event = .take node := by cases event <;> cases hnode; rfl
    rw [hmoments] at hvisits
    obtain ⟨visited, more, rfl⟩ := hvisits.next_visit
    exact ⟨node, _, _, htells.take_node _ node hnode, rfl, htells.isVisit_eq _,
      htells.visit_node _ node rfl⟩
  waiting before step rest hsteps := by
    obtain ⟨earlier, moment, later, hmoments, rfl, rfl, _⟩ := exists_moment hsteps
    obtain ⟨last, hleads⟩ := h.records
    -- the run up to this step visits exactly what its lists hold as visited
    rw [hmoments, List.append_cons] at hleads
    obtain ⟨after, hearlier, _⟩ := hleads.exists_between
    have hvisited : after.visited = visits (earlier ++ [moment]) := visited_eq_of_leads hearlier
    obtain ⟨rfl, htidy⟩ := shown_of_leads hearlier
    refine ⟨moment.progress.waiting, htells.shows moment, htidy.waiting_nodup, ?_⟩
    intro node hnode hmem
    have hsofar : earlier.map stepAt ++ [stepAt moment] = (earlier ++ [moment]).map stepAt := by
      rw [List.map_append, List.map_singleton]
    rw [hsofar, htells.visitedNodes_eq, ← hvisited] at hmem
    obtain ⟨_, hmem, heq⟩ := List.mem_map.mp hmem
    exact htidy.unvisited node hnode (Option.some.inj heq ▸ hmem)
  connect_once edge hmem hreaches := by
    rw [htells.countP_isConnect]
    exact h.count_explored hmem hreaches

/-! ## Stories -/

/-- A program that declares a graph has a story. -/
theorem simulate_ne_withoutNodes (requested : GraphKind) (code : String) :
    simulate requested code ≠ .error .withoutNodes := by
  unfold simulate
  split
  next => exact nofun
  next graph hgraph =>
    obtain ⟨start, _, hstart⟩ := exists_startNode? (declared?_nodes_ne_nil hgraph) code
    rw [hstart]
    exact nofun

/-- The turns from a node come to an end within the limit. -/
def Terminates (graph : Adjacency W) (start : String)
    (turn : Progress → Option (Progress × List Moment)) : Prop :=
  ∃ last, Finishes turn (.starting start)
    (takeTurns turn (turnLimit graph) (.starting start)) last

theorem TakesTurns.terminates {graph : Adjacency W} {start : String}
    {turn : Progress → Option (Progress × List Moment)} (hturn : TakesTurns graph turn)
    (hstart : start ∈ graph.nodes) : Terminates graph start turn :=
  takeTurns_finishes hturn hstart (starting_fit graph start) (Nat.lt_succ_self _)

/-- A declared graph has a node to start from, so no program fails for the lack of one.  From every
node of a graph both traversals come to an end and traverse the graph. -/
theorem traversals_traverse :
    (∀ (code : String) (graph : Adjacency Float), declared? code = some graph →
      ∃ start ∈ graph.nodes, startNode? graph code = some start) ∧
    (∀ (requested : GraphKind) (code : String), simulate requested code ≠ .error .withoutNodes) ∧
    ∀ (graph : Adjacency Float), ∀ start ∈ graph.nodes,
      (Terminates graph start (breadthTurn graph) ∧
        Traverses graph start "dequeue" "queue" (steps .bfs graph start)) ∧
      (Terminates graph start (depthTurn graph) ∧
        Traverses graph start "pop" "stack" (steps .dfs graph start)) := by
  refine ⟨fun code graph h => exists_startNode? (declared?_nodes_ne_nil h) code,
    simulate_ne_withoutNodes, ?_⟩
  intro graph start hstart
  have hbreadth := breadthTurn_takesTurns graph
  have hdepth := depthTurn_takesTurns graph
  obtain ⟨_, hqueue⟩ := hbreadth.terminates hstart
  obtain ⟨_, hstack⟩ := hdepth.terminates hstart
  exact ⟨⟨⟨_, hqueue⟩, (finishes_traversed hbreadth hqueue).traverses breadthStepAt_tells⟩,
    ⟨⟨_, hstack⟩, (finishes_traversed hdepth hstack).traverses depthStepAt_tells⟩⟩

/-- A graph with a loop, a cycle and a node that the start does not lead to. -/
def cyclicCode : String :=
  "graph = \x7b'A': ['B'], 'B': ['B', 'C'], 'C': ['B', 'D'], 'D': []\x7d\nbfs(graph, 'B')\n"

theorem traversals_traverse_cyclic :
    ∃ graph, declared? cyclicCode = some graph ∧ startNode? graph cyclicCode = some "B" ∧
      "B" ∈ graph.nodes ∧
      visitedNodes (steps .bfs graph "B") = [some "B", some "C", some "D"] ∧
      Traverses graph "B" "dequeue" "queue" (steps .bfs graph "B") ∧
      Traverses graph "B" "pop" "stack" (steps .dfs graph "B") := by
  have hrun : (declared? cyclicCode).map (fun graph =>
      (startNode? graph cyclicCode, visitedNodes (steps .bfs graph "B"))) =
      some (some "B", [some "B", some "C", some "D"]) := by
    decide +kernel
  obtain ⟨graph, hgraph, hrun⟩ := Option.map_eq_some_iff.mp hrun
  obtain ⟨hstart, hvisited⟩ := Prod.mk.inj hrun
  obtain ⟨start, hmem, hfound⟩ := traversals_traverse.1 cyclicCode graph hgraph
  obtain rfl : start = "B" := Option.some.inj (hfound.symm.trans hstart)
  have htraverse := traversals_traverse.2.2 graph "B" hmem
  exact ⟨graph, hgraph, hstart, hmem, hvisited, htraverse.1.2, htraverse.2.2⟩

end Storyboard.Graph
