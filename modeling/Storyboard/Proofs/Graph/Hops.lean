import Storyboard.Proofs.Graph.Simulation

/-!
# Breadth first, by distance

The nodes of a breadth-first traversal are visited in the order in which they start to wait
(`Finishes.visits_eq`), and those that the same node lets wait come in the order of its edges
(`Finishes.deferredBy_sublist`).

Each node that is met has a depth (`Layered`): one more than the node that let it wait.  Along the visited
nodes and the queue behind them the depth never falls, and the queue spans at most two depths.  When the
queue is empty no edge leads more than one depth further down, so the depth is the least number of edges
on a walk from the start.
-/

namespace Storyboard.Graph

variable {W : Type} {graph : Adjacency W} {p next last : Progress} {moments more : List Moment}
  {start node source : String} {nodes rest : List String}

/-! ## Nodes that start to wait -/

/-- The node that starts to wait. -/
def Event.awaited? : Event → Option String
  | .start node => some node
  | .defer node => some node
  | _ => none

/-- The nodes that start to wait, in order, each with the node that has been visited last. -/
def deferrals (moments : List Moment) : List (String × String) :=
  moments.filterMap fun moment =>
    moment.event.awaited?.bind fun node =>
      moment.progress.visited.getLast?.map fun source => (source, node)

/-- The nodes that start to wait, in order. -/
def awaited (moments : List Moment) : List String :=
  moments.filterMap fun moment => moment.event.awaited?

theorem mem_deferrals_iff : (source, node) ∈ deferrals moments ↔ ∃ moment ∈ moments,
    moment.event.awaited? = some node ∧ moment.progress.visited.getLast? = some source := by
  simp only [deferrals, List.mem_filterMap, Option.bind_eq_some_iff, Option.map_eq_some_iff]
  constructor
  · rintro ⟨moment, hmem, _, hnode, _, hlast, heq⟩
    obtain ⟨rfl, rfl⟩ := Prod.mk.inj heq
    exact ⟨moment, hmem, hnode, hlast⟩
  · rintro ⟨moment, hmem, hnode, hlast⟩
    exact ⟨moment, hmem, node, hnode, source, hlast, rfl⟩

theorem deferrals_append (moments more : List Moment) :
    deferrals (moments ++ more) = deferrals moments ++ deferrals more := List.filterMap_append

/-- The nodes that one node lets wait, in order. -/
def deferredBy (source : String) (moments : List Moment) : List String :=
  ((deferrals moments).filter fun pair => pair.1 == source).map Prod.snd

theorem mem_deferredBy_iff : node ∈ deferredBy source moments ↔ (source, node) ∈ deferrals moments := by
  simp [deferredBy]

theorem deferredBy_append (source : String) (moments more : List Moment) :
    deferredBy source (moments ++ more) =
      deferredBy source moments ++ deferredBy source more := by
  rw [deferredBy, deferrals_append, List.filter_append, List.map_append]
  rfl

theorem deferredBy_eq_nil (h : ∀ pair ∈ deferrals moments, pair.1 ≠ source) :
    deferredBy source moments = [] := by
  have hnone : (deferrals moments).filter (fun pair => pair.1 == source) = [] :=
    List.filter_eq_nil_iff.mpr fun pair hpair heq => h pair hpair (beq_iff_eq.mp heq)
  rw [deferredBy, hnone, List.map_nil]

theorem deferredBy_eq_nodes (h : deferrals moments = nodes.map fun other => (source, other)) :
    deferredBy source moments = nodes := by
  have hall : (deferrals moments).filter (fun pair => pair.1 == source) = deferrals moments :=
    List.filter_eq_self.mpr (by simp [h])
  rw [deferredBy, hall, h, List.map_map]
  exact List.map_id nodes

/-- A node starts to wait right after the look at an edge that leads to it from the node that has been
visited last. -/
inductive FollowsEdges : List Moment → Prop
  | nil : FollowsEdges []
  | other {moment : Moment} {rest : List Moment} (none : moment.event.awaited? = none)
      (later : FollowsEdges rest) : FollowsEdges (moment :: rest)
  | defer {source node : String} {look grown : Progress} {rest : List Moment}
      (visited : grown.visited.getLast? = some source) (later : FollowsEdges rest) :
      FollowsEdges (⟨.explore source node, look⟩ :: ⟨.defer node, grown⟩ :: rest)

namespace FollowsEdges

theorem append (h : FollowsEdges moments) (h' : FollowsEdges more) :
    FollowsEdges (moments ++ more) := by
  induction h with
  | nil => exact h'
  | other none _ ih => exact .other none ih
  | defer visited _ ih => exact .defer visited ih

theorem awaited_eq (h : FollowsEdges moments) :
    awaited moments = (deferrals moments).map Prod.snd := by
  unfold awaited deferrals
  induction h with
  | nil => rfl
  | other none _ ih =>
    rw [List.filterMap_cons, List.filterMap_cons, none]
    exact ih
  | @defer _ node _ _ _ visited _ ih =>
    simp only [List.filterMap_cons, Event.awaited?, visited, Option.bind_some, Option.map_some,
      Option.bind_none, List.map_cons]
    exact congrArg (node :: ·) ih

/-- The moment before a node starts to wait. -/
theorem look_before {before after : List Moment} {moment : Moment}
    (h : FollowsEdges (before ++ moment :: after)) (hnode : moment.event.awaited? = some node) :
    ∃ earlier source look, before = earlier ++ [⟨.explore source node, look⟩] ∧
      moment.event = .defer node ∧ moment.progress.visited.getLast? = some source := by
  generalize hall : before ++ moment :: after = moments at h
  induction h generalizing before with
  | nil => exact absurd hall (by simp)
  | other none _ ih =>
    cases before with
    | nil =>
      obtain ⟨rfl, _⟩ := List.cons.inj hall
      exact absurd (none.symm.trans hnode) (by simp)
    | cons first before =>
      obtain ⟨earlier, source, look, rfl, hmoment⟩ := ih (List.cons.inj hall).2
      exact ⟨first :: earlier, source, look, rfl, hmoment⟩
  | @defer source' node' look grown rest visited _ ih =>
    match before, hall with
    | [], hall =>
      -- the look at the edge lets no node wait
      obtain ⟨rfl, _⟩ := List.cons.inj hall
      cases hnode
    | [_], hall =>
      obtain ⟨rfl, hmore⟩ := List.cons.inj hall
      obtain ⟨rfl, _⟩ := List.cons.inj hmore
      obtain rfl : node' = node := Option.some.inj hnode
      exact ⟨[], source', look, rfl, rfl, visited⟩
    | first :: second :: before, hall =>
      obtain ⟨earlier, source, look, rfl, hmoment⟩ :=
        ih (List.cons.inj (List.cons.inj hall).2).2
      exact ⟨first :: second :: earlier, source, look, rfl, hmoment⟩

end FollowsEdges

theorem exploreAndDefer_deferrals (hlast : p.visited.getLast? = some source)
    (hnodup : nodes.Nodup) : deferrals (exploreAndDefer source p nodes).2 =
      (nodes.filter p.isNew).map fun node => (source, node) := by
  induction nodes generalizing p with
  | nil => rfl
  | cons node rest ih =>
    obtain ⟨hnode, hrest⟩ := List.nodup_cons.mp hnodup
    by_cases hnew : p.isNew node = true
    · have hgrown : (p.await node).visited.getLast? = some source := hlast
      simp only [exploreAndDefer, deferNew, if_pos hnew, List.filter_cons_of_pos hnew,
        List.map_cons]
      rw [← filter_isNew_await hnode, ← ih hgrown hrest]
      simp [deferrals, Event.awaited?, hgrown]
    · simp only [exploreAndDefer, deferNew, if_neg hnew, List.filter_cons_of_neg hnew]
      rw [← ih hlast hrest]
      simp [deferrals, Event.awaited?]

theorem exploreAndDefer_followsEdges (hlast : p.visited.getLast? = some source) :
    FollowsEdges (exploreAndDefer source p nodes).2 := by
  induction nodes generalizing p with
  | nil => exact .nil
  | cons node rest ih =>
    by_cases hnew : p.isNew node = true
    · simp only [exploreAndDefer, deferNew, if_pos hnew]
      exact .defer hlast (ih hlast)
    · simp only [exploreAndDefer, deferNew, if_neg hnew]
      exact .other rfl (ih hlast)

/-! ## Turns -/

/-- What a turn of a breadth-first traversal does with its queue: the node at its front is visited, and
its new neighbours come to the end, in the order of its edges. -/
structure QueueTurn (graph : Adjacency W) (p : Progress) (node : String) (rest new : List String)
    (moments : List Moment) (next : Progress) : Prop where
  waiting : p.waiting = node :: rest
  new_eq : new = (graph.neighbors node).filter (Progress.isNew ⟨rest, p.visited ++ [node]⟩)
  visits : visits moments = [node]
  visited : next.visited = p.visited ++ [node]
  next_waiting : next.waiting = rest ++ new
  deferrals : deferrals moments = new.map fun other => (node, other)
  follows : FollowsEdges moments

theorem breadthTurn_queueTurn (tidy : p.Tidy) (h : breadthTurn graph p = some (next, moments)) :
    ∃ node rest new, QueueTurn graph p node rest new moments next := by
  obtain ⟨taken, hturn⟩ := (breadthTurn_takesTurns graph).turns tidy h
  unfold breadthTurn at h
  split at h
  next => cases h
  next node rest hwaiting =>
    obtain ⟨rfl, rfl⟩ := Prod.mk.inj (Option.some.inj h)
    obtain ⟨_, _, _, hbegins, _⟩ := hturn.begins
    obtain rfl : node = taken := Event.take.inj (Moment.mk.inj (List.cons.inj hbegins).1).1
    have hnodup : (graph.neighbors node).Nodup := graph.neighbors_nodup node
    have hlast : (p.visited ++ [node]).getLast? = some node := by simp
    refine ⟨node, rest, _, hwaiting, rfl, ?_, hturn.visited, ?_, ?_, ?_⟩
    · -- what a turn adds to the visited nodes is what its moments visit
      exact List.append_cancel_left ((visited_eq_of_leads hturn.leads).symm.trans hturn.visited)
    · rw [exploreAndDefer_fst, deferNew_waiting hnodup]
      rfl
    · exact exploreAndDefer_deferrals hlast hnodup
    · exact .other rfl (.other rfl (exploreAndDefer_followsEdges hlast))

/-- The nodes are visited in the order in which they start to wait. -/
theorem Finishes.visits_eq (h : Finishes (breadthTurn graph) p moments last) (tidy : p.Tidy) :
    visits moments = p.waiting ++ (deferrals moments).map Prod.snd := by
  induction h with
  | done ends =>
    rw [(breadthTurn_takesTurns graph).ends _ ends]
    rfl
  | @more p next last moments later taken _ ih =>
    obtain ⟨node, rest, new, hturn⟩ := breadthTurn_queueTurn tidy taken
    obtain ⟨_, hfirst⟩ := (breadthTurn_takesTurns graph).turns tidy taken
    rw [visits_append, hturn.visits, ih (tidy_of_leads hfirst.leads tidy), hturn.next_waiting,
      hturn.waiting, deferrals_append, hturn.deferrals]
    simp [Function.comp_def]

/-- Only nodes that are still to be visited let others wait. -/
theorem Finishes.deferrals_unvisited (h : Finishes (breadthTurn graph) p moments last)
    (tidy : p.Tidy) : ∀ pair ∈ deferrals moments, pair.1 ∉ p.visited := by
  induction h with
  | done => exact fun _ h => absurd h List.not_mem_nil
  | @more p next last moments later taken _ ih =>
    obtain ⟨node, rest, new, hturn⟩ := breadthTurn_queueTurn tidy taken
    obtain ⟨_, hfirst⟩ := (breadthTurn_takesTurns graph).turns tidy taken
    have hunvisited := ih (tidy_of_leads hfirst.leads tidy)
    rw [hturn.visited] at hunvisited
    intro pair hpair hvisited
    rw [deferrals_append, hturn.deferrals] at hpair
    rcases List.mem_append.mp hpair with hpair | hpair
    · obtain ⟨other, _, rfl⟩ := List.mem_map.mp hpair
      exact tidy.unvisited node (by simp [hturn.waiting]) hvisited
    · exact hunvisited pair hpair (List.mem_append_left _ hvisited)

/-- The nodes that a node lets wait are neighbours of it, in the order of its edges. -/
theorem Finishes.deferredBy_sublist (h : Finishes (breadthTurn graph) p moments last)
    (tidy : p.Tidy) (source : String) :
    (deferredBy source moments).Sublist (graph.neighbors source) := by
  induction h with
  | done => exact List.nil_sublist _
  | @more p next last moments later taken hlater ih =>
    obtain ⟨node, rest, new, hturn⟩ := breadthTurn_queueTurn tidy taken
    obtain ⟨_, hfirst⟩ := (breadthTurn_takesTurns graph).turns tidy taken
    have htidy := tidy_of_leads hfirst.leads tidy
    rw [deferredBy_append]
    by_cases hsource : node = source
    · -- the node has been visited, so it lets no more nodes wait later
      subst hsource
      have hnone : deferredBy node later = [] := by
        refine deferredBy_eq_nil fun pair hpair heq => ?_
        exact hlater.deferrals_unvisited htidy pair hpair (by simp [hturn.visited, heq])
      rw [hnone, List.append_nil, deferredBy_eq_nodes hturn.deferrals, hturn.new_eq]
      exact List.filter_sublist
    · have hnone : deferredBy source moments = [] := by
        refine deferredBy_eq_nil fun pair hpair heq => ?_
        rw [hturn.deferrals] at hpair
        obtain ⟨other, _, rfl⟩ := List.mem_map.mp hpair
        exact hsource heq
      rw [hnone]
      exact ih htidy

theorem Finishes.followsEdges (h : Finishes (breadthTurn graph) p moments last) (tidy : p.Tidy) :
    FollowsEdges moments := by
  induction h with
  | done => exact .nil
  | more taken _ ih =>
    obtain ⟨_, _, _, hturn⟩ := breadthTurn_queueTurn tidy taken
    obtain ⟨_, hfirst⟩ := (breadthTurn_takesTurns graph).turns tidy taken
    exact hturn.follows.append (ih (tidy_of_leads hfirst.leads tidy))

/-! ## Depths -/

/-- The nodes that have been met have depths. -/
structure Layered (graph : Adjacency W) (start : String) (p : Progress) (depth : String → ℕ) :
    Prop where
  start_mem : start ∈ p.visited ++ p.waiting
  start_depth : depth start = 0
  /-- The depth never falls. -/
  sorted : (p.visited ++ p.waiting).Pairwise fun a b => depth a ≤ depth b
  /-- The queue spans at most two depths. -/
  narrow : ∀ node rest, p.waiting = node :: rest → ∀ other ∈ rest, depth other ≤ depth node + 1
  walk : ∀ node ∈ p.visited ++ p.waiting, ∃ edges, graph.Walk start edges node ∧
    edges.length = depth node
  /-- No edge of a visited node leads more than one depth further down. -/
  closed : ∀ node ∈ p.visited, ∀ other ∈ graph.neighbors node,
    other ∈ p.visited ++ p.waiting ∧ depth other ≤ depth node + 1

theorem starting_layered (graph : Adjacency W) (start : String) :
    Layered graph start (.starting start) fun _ => 0 where
  start_mem := List.mem_singleton.mpr rfl
  start_depth := rfl
  sorted := List.pairwise_singleton ..
  narrow _ _ _ _ _ := Nat.zero_le _
  walk node h := by
    obtain rfl : node = start := List.mem_singleton.mp h
    exact ⟨[], .nil, rfl⟩
  closed _ h := absurd h List.not_mem_nil

/-- After a turn the nodes met before have kept their depths, and the new ones are one deeper than the node
that was visited. -/
structure Deepens (p : Progress) (node : String) (new : List String) (next : Progress)
    (depth deeper : String → ℕ) : Prop where
  seen : next.visited ++ next.waiting = (p.visited ++ p.waiting) ++ new
  node_mem : node ∈ p.visited ++ p.waiting
  kept : ∀ other ∈ p.visited ++ p.waiting, deeper other = depth other
  deeper : ∀ other ∈ new, deeper other = depth node + 1
  /-- The node that was visited was at the front of the queue. -/
  le : ∀ other ∈ p.visited ++ p.waiting, depth other ≤ depth node + 1

variable {new : List String} {depth deeper : String → ℕ}

theorem QueueTurn.mem_new_iff (h : QueueTurn graph p node rest new moments next) {other : String} :
    other ∈ new ↔ other ∈ graph.neighbors node ∧ other ∉ p.visited ++ p.waiting := by
  rw [h.new_eq, List.mem_filter, Progress.isNew_iff, h.waiting]
  simp only [List.mem_append, List.mem_cons, List.not_mem_nil, or_false, not_or]
  tauto

/-- What follows the front of the queue is no less deep. -/
theorem Layered.depth_le_of_rest (h : Layered graph start p depth) (hwaiting : p.waiting = node :: rest) :
    ∀ other ∈ rest, depth node ≤ depth other := by
  have hsorted := h.sorted
  rw [hwaiting, List.pairwise_append, List.pairwise_cons] at hsorted
  exact hsorted.2.1.1

theorem QueueTurn.exists_deepens (h : QueueTurn graph p node rest new moments next)
    (layered : Layered graph start p depth) : ∃ deeper, Deepens p node new next depth deeper := by
  refine ⟨fun other => if other ∈ p.visited ++ p.waiting then depth other else depth node + 1,
    ?_, by simp [h.waiting], fun other hother => if_pos hother,
    fun other hother => if_neg (h.mem_new_iff.mp hother).2, fun other hother => ?_⟩
  · rw [h.visited, h.next_waiting, h.waiting]
    simp
  · have hsorted := layered.sorted
    rw [h.waiting, List.pairwise_append] at hsorted
    rw [h.waiting, List.mem_append, List.mem_cons] at hother
    rcases hother with hother | rfl | hother
    · exact (hsorted.2.2 other hother node List.mem_cons_self).trans (Nat.le_succ _)
    · exact Nat.le_succ _
    · exact layered.narrow node rest h.waiting other hother

namespace Deepens

theorem sorted (h : Deepens p node new next depth deeper) (layered : Layered graph start p depth) :
    (next.visited ++ next.waiting).Pairwise fun a b => deeper a ≤ deeper b := by
  rw [h.seen, List.pairwise_append]
  refine ⟨layered.sorted.imp_of_mem ?_, List.pairwise_of_forall_mem_list ?_, ?_⟩
  · intro a b ha hb hab
    rwa [h.kept a ha, h.kept b hb]
  · intro a ha b hb
    rw [h.deeper a ha, h.deeper b hb]
  · intro a ha b hb
    rw [h.kept a ha, h.deeper b hb]
    exact h.le a ha

/-- The queue behind the node that was visited spans that node's depth and one more. -/
theorem narrow (h : Deepens p node new next depth deeper) (layered : Layered graph start p depth)
    (turn : QueueTurn graph p node rest new moments next) :
    ∀ other ∈ next.waiting, depth node ≤ deeper other ∧ deeper other ≤ depth node + 1 := by
  intro other hother
  rw [turn.next_waiting, List.mem_append] at hother
  rcases hother with hother | hother
  · have hmem : other ∈ p.visited ++ p.waiting := by simp [turn.waiting, hother]
    rw [h.kept other hmem]
    exact ⟨layered.depth_le_of_rest turn.waiting other hother, h.le other hmem⟩
  · rw [h.deeper other hother]
    omega

theorem walk (h : Deepens p node new next depth deeper) (layered : Layered graph start p depth)
    (turn : QueueTurn graph p node rest new moments next) :
    ∀ other ∈ next.visited ++ next.waiting, ∃ edges, graph.Walk start edges other ∧
      edges.length = deeper other := by
  rw [h.seen]
  intro other hother
  rcases List.mem_append.mp hother with hother | hother
  · rw [h.kept other hother]
    exact layered.walk other hother
  · obtain ⟨edge, hmem, rfl, rfl⟩ := Adjacency.mem_neighbors_iff.mp (turn.mem_new_iff.mp hother).1
    obtain ⟨edges, hwalk, hlength⟩ := layered.walk _ h.node_mem
    refine ⟨edges ++ [edge], .concat hwalk hmem, ?_⟩
    rw [h.deeper _ hother, List.length_append, hlength]
    rfl

theorem closed (h : Deepens p node new next depth deeper) (layered : Layered graph start p depth)
    (turn : QueueTurn graph p node rest new moments next) :
    ∀ other ∈ next.visited, ∀ target ∈ graph.neighbors other,
      target ∈ next.visited ++ next.waiting ∧ deeper target ≤ deeper other + 1 := by
  rw [h.seen, turn.visited]
  intro other hother target htarget
  rcases List.mem_append.mp hother with hother | hother
  · obtain ⟨hmem, hdepth⟩ := layered.closed other hother target htarget
    rw [h.kept target hmem, h.kept other (List.mem_append_left _ hother)]
    exact ⟨List.mem_append_left _ hmem, hdepth⟩
  · obtain rfl : other = node := List.mem_singleton.mp hother
    rw [h.kept other h.node_mem]
    by_cases hmem : target ∈ p.visited ++ p.waiting
    · rw [h.kept target hmem]
      exact ⟨List.mem_append_left _ hmem, h.le target hmem⟩
    · have hfresh : target ∈ new := turn.mem_new_iff.mpr ⟨htarget, hmem⟩
      rw [h.deeper target hfresh]
      exact ⟨List.mem_append_right _ hfresh, le_rfl⟩

end Deepens

/-- The nodes that a turn lets wait are one deeper than the node that it visits. -/
theorem QueueTurn.layered (h : QueueTurn graph p node rest new moments next)
    (layered : Layered graph start p depth) : ∃ depth, Layered graph start next depth := by
  obtain ⟨deeper, hdeepens⟩ := h.exists_deepens layered
  have hnarrow := hdeepens.narrow layered h
  refine ⟨deeper, ?_, ?_, hdeepens.sorted layered, ?_, hdeepens.walk layered h,
    hdeepens.closed layered h⟩
  · rw [hdeepens.seen]
    exact List.mem_append_left _ layered.start_mem
  · rw [hdeepens.kept start layered.start_mem, layered.start_depth]
  · intro front others hfront other hother
    have hfirst := hnarrow front (hfront ▸ List.mem_cons_self)
    have hsecond := hnarrow other (hfront ▸ List.mem_cons_of_mem _ hother)
    omega

theorem Finishes.layered (h : Finishes (breadthTurn graph) p moments last) (tidy : p.Tidy)
    (layered : ∃ depth, Layered graph start p depth) : ∃ depth, Layered graph start last depth := by
  induction h with
  | done => exact layered
  | more taken _ ih =>
    obtain ⟨_, _, _, hturn⟩ := breadthTurn_queueTurn tidy taken
    obtain ⟨_, hfirst⟩ := (breadthTurn_takesTurns graph).turns tidy taken
    obtain ⟨_, hlayered⟩ := layered
    exact ih (tidy_of_leads hfirst.leads tidy) (hturn.layered hlayered)

/-- When no node waits, no walk is shorter than the depth of the node that it leads to. -/
theorem Layered.le_length {depth : String → ℕ} {edges : List (Edge W)}
    (h : Layered graph start p depth) (hends : p.waiting = [])
    (hwalk : graph.Walk start edges node) : node ∈ p.visited ∧ depth node ≤ edges.length := by
  have hstart := h.start_mem
  have hclosed := h.closed
  rw [hends, List.append_nil] at hstart hclosed
  induction hwalk with
  | nil => exact ⟨hstart, h.start_depth.le⟩
  | @concat edges edge _ mem ih =>
    obtain ⟨hsource, hdepth⟩ := ih
    have hneighbor : edge.target ∈ graph.neighbors edge.source :=
      Adjacency.mem_neighbors_iff.mpr ⟨edge, mem, rfl, rfl⟩
    obtain ⟨htarget, hdeeper⟩ := hclosed edge.source hsource edge.target hneighbor
    refine ⟨htarget, ?_⟩
    rw [List.length_append, List.length_singleton]
    omega

theorem Layered.isHopDistance {depth : String → ℕ} (h : Layered graph start p depth)
    (hends : p.waiting = []) (hnode : node ∈ p.visited) :
    graph.IsHopDistance start node (depth node) :=
  ⟨h.walk node (List.mem_append_left _ hnode), fun _ hwalk => (h.le_length hends hwalk).2⟩

/-! ## Stories -/

/-- The step lets the node wait. -/
def isEnqueue (node : String) (step : Step) : Bool :=
  step.action == "enqueue" && step.nodeId == some node

/-- When the node starts to wait for the first time, the step before looks at the edge to it from the
other one. -/
def FirstEnqueuedBy (steps : List Step) (source node : String) : Prop :=
  ∃ before look enqueue after, steps = before ++ look :: enqueue :: after ∧
    isConnect source node look = true ∧ isEnqueue node enqueue = true ∧
    ∀ step ∈ before, isEnqueue node step = false

theorem isEnqueue_breadthStepAt (node : String) (moment : Moment) :
    isEnqueue node (breadthStepAt moment) = (moment.event.awaited? == some node) := by
  obtain ⟨event, _⟩ := moment
  cases event <;> rfl

/-- A step that enqueues a node right after the look at an edge shows which node lets it wait. -/
theorem mem_deferrals_of_firstEnqueuedBy (hfollows : FollowsEdges moments)
    (h : FirstEnqueuedBy ((⟨.start start, p⟩ :: moments).map breadthStepAt) source node) :
    (source, node) ∈ deferrals moments := by
  obtain ⟨before, look, enqueue, after, hsteps, hlook, henqueue, -⟩ := h
  obtain ⟨earlier, first, later, hmoments, -, rfl, hlater⟩ := exists_moment hsteps
  obtain ⟨second, others, rfl, rfl, -⟩ := List.map_eq_cons_iff.mp hlater.symm
  rw [breadthStepAt_tells.isConnect_eq, beq_iff_eq] at hlook
  rw [isEnqueue_breadthStepAt, beq_iff_eq] at henqueue
  cases earlier with
  | nil =>
    -- the traversal does not start with the look at an edge
    obtain ⟨rfl, -⟩ := List.cons.inj hmoments
    cases hlook
  | cons _ earlier =>
    rw [List.cons_append] at hmoments
    obtain ⟨-, rfl⟩ := List.cons.inj hmoments
    rw [List.append_cons] at hfollows
    obtain ⟨earlier', source', _, hbefore, -, hlast⟩ := hfollows.look_before henqueue
    obtain ⟨-, rfl⟩ := List.append_inj' hbefore rfl |>.imp id List.singleton_inj.mp
    obtain rfl : source' = source := (Prod.mk.inj (Option.some.inj hlook)).1
    exact mem_deferrals_iff.mpr ⟨second, by simp, henqueue, hlast⟩

/-- A node that waits once only is enqueued by the node that lets it wait. -/
theorem firstEnqueuedBy_of_mem_deferrals (hfollows : FollowsEdges moments)
    (honce : (awaited (⟨.start start, p⟩ :: moments)).Nodup)
    (h : (source, node) ∈ deferrals moments) :
    FirstEnqueuedBy ((⟨.start start, p⟩ :: moments).map breadthStepAt) source node := by
  obtain ⟨moment, hmoment, hnode, hlast⟩ := mem_deferrals_iff.mp h
  obtain ⟨before, after, rfl⟩ := List.append_of_mem hmoment
  obtain ⟨earlier, source', look, rfl, hevent, hlast'⟩ := hfollows.look_before hnode
  obtain rfl : source' = source := Option.some.inj (hlast'.symm.trans hlast)
  refine ⟨(⟨.start start, p⟩ :: earlier).map breadthStepAt,
    breadthStepAt ⟨.explore source' node, look⟩, breadthStepAt moment, after.map breadthStepAt,
    by simp, ?_, ?_, ?_⟩
  · rw [breadthStepAt_tells.isConnect_eq]
    exact beq_iff_eq.mpr rfl
  · rw [isEnqueue_breadthStepAt]
    exact beq_iff_eq.mpr hnode
  · intro step hstep
    obtain ⟨other, hother, rfl⟩ := List.mem_map.mp hstep
    rw [isEnqueue_breadthStepAt, beq_eq_false_iff_ne]
    intro hagain
    have hsplit : awaited (⟨.start start, p⟩ :: (earlier ++ [⟨.explore source' node, look⟩] ++
        moment :: after)) = awaited (⟨.start start, p⟩ :: earlier) ++ node :: awaited after := by
      simp [awaited, List.filterMap_append, hevent, Event.awaited?]
    rw [hsplit, List.nodup_append] at honce
    exact honce.2.2 node (List.mem_filterMap.mpr ⟨other, hother, hagain⟩) node List.mem_cons_self rfl

/-- The steps of a traversal show which node lets another one wait. -/
theorem firstEnqueuedBy_iff (hfollows : FollowsEdges moments)
    (honce : (awaited (⟨.start start, p⟩ :: moments)).Nodup) :
    FirstEnqueuedBy ((⟨.start start, p⟩ :: moments).map breadthStepAt) source node ↔
      (source, node) ∈ deferrals moments :=
  ⟨mem_deferrals_of_firstEnqueuedBy hfollows, firstEnqueuedBy_of_mem_deferrals hfollows honce⟩

/-- A breadth-first traversal visits the nodes in the order of their distance from the start.  Every node
but the start is enqueued over an edge of some node, and those that the same node enqueues are visited in
the order in which its edges are declared. -/
theorem breadthFirst_visits_by_distance (graph : Adjacency Float) (start : String)
    (hstart : start ∈ graph.nodes) :
    ∃ (nodes : List String) (hops : String → ℕ),
      visitedNodes (steps .bfs graph start) = nodes.map some ∧ nodes.Nodup ∧
      (∀ node ∈ nodes, graph.IsHopDistance start node (hops node)) ∧
      (nodes.Pairwise fun a b => hops a ≤ hops b) ∧
      (∀ node ∈ nodes, node = start ∨
        ∃ source, FirstEnqueuedBy (steps .bfs graph start) source node) ∧
      ∀ source, ∃ own : List String,
        (∀ node, node ∈ own ↔ FirstEnqueuedBy (steps .bfs graph start) source node) ∧
        own.Sublist nodes ∧ own.Sublist (graph.neighbors source) := by
  have hturns := breadthTurn_takesTurns graph
  have htidy := starting_tidy start
  obtain ⟨last, hfinishes⟩ := hturns.terminates hstart
  simp only [steps, breadthFirst]
  generalize takeTurns (breadthTurn graph) (turnLimit graph) (.starting start) = run at hfinishes ⊢
  have htraversed := finishes_traversed hturns hfinishes
  have hfollows := hfinishes.followsEdges htidy
  have hvisits : visits run = start :: (deferrals run).map Prod.snd := hfinishes.visits_eq htidy
  have hlast : last.visited = visits run := visited_eq_of_leads (hfinishes.leads hturns htidy)
  -- a node is awaited once only, so the first edge that enqueues it is the one that did
  have hby : ∀ source node,
      FirstEnqueuedBy ((⟨.start start, .starting start⟩ :: run).map breadthStepAt) source node ↔
        (source, node) ∈ deferrals run := by
    intro source node
    refine firstEnqueuedBy_iff hfollows ?_
    show (start :: awaited run).Nodup
    rw [hfollows.awaited_eq, ← hvisits]
    exact htraversed.visits_nodup
  obtain ⟨hfit, hends⟩ := hfinishes.fit hturns (starting_fit graph start)
  -- when no node waits any more, the layers hold all that was visited
  obtain ⟨hops, hlayered⟩ := hfinishes.layered htidy ⟨_, starting_layered graph start⟩
  refine ⟨visits run, hops, breadthStepAt_tells.visitedNodes_eq _, htraversed.visits_nodup,
    ?_, ?_, ?_, ?_⟩
  · intro node hnode
    exact hlayered.isHopDistance hends (hlast ▸ hnode)
  · have hsorted := hlayered.sorted
    rwa [hends, List.append_nil, hlast] at hsorted
  · intro node hnode
    rw [hvisits, List.mem_cons] at hnode
    rcases hnode with heq | hmem
    · exact Or.inl heq
    · obtain ⟨⟨source, _⟩, hpair, rfl⟩ := List.mem_map.mp hmem
      exact Or.inr ⟨source, (hby source _).mpr hpair⟩
  · intro source
    refine ⟨deferredBy source run, ?_, ?_, ?_⟩
    · intro node
      rw [hby source node, mem_deferredBy_iff]
    · rw [hvisits]
      exact (List.filter_sublist.map Prod.snd).trans (List.sublist_cons_self ..)
    · exact hfinishes.deferredBy_sublist htidy source

/-- A cycle with a short cut. -/
def shortCutCode : String :=
  "graph = \x7b'A': ['B', 'C'], 'B': ['D'], 'C': ['E', 'D'], 'D': ['A'], 'E': ['D']\x7d\nbfs(graph, 'A')\n"

theorem breadthFirst_visits_by_distance_shortCut :
    ∃ graph, declared? shortCutCode = some graph ∧ startNode? graph shortCutCode = some "A" ∧
      "A" ∈ graph.nodes ∧
      visitedNodes (steps .bfs graph "A") = ["A", "B", "C", "D", "E"].map some ∧
      ∃ hops : String → ℕ,
        (∀ node ∈ ["A", "B", "C", "D", "E"], graph.IsHopDistance "A" node (hops node)) ∧
        (["A", "B", "C", "D", "E"].Pairwise fun a b => hops a ≤ hops b) ∧
        ∃ own : List String,
          (∀ node, node ∈ own ↔ FirstEnqueuedBy (steps .bfs graph "A") "C" node) ∧
          own.Sublist ["A", "B", "C", "D", "E"] ∧ own.Sublist ["E", "D"] := by
  have hrun : (declared? shortCutCode).map (fun graph =>
      (startNode? graph shortCutCode, graph.nodes, visitedNodes (steps .bfs graph "A"),
        graph.neighbors "C")) =
      some (some "A", ["A", "B", "C", "D", "E"], ["A", "B", "C", "D", "E"].map some,
        ["E", "D"]) := by
    decide +kernel
  obtain ⟨graph, hgraph, hrun⟩ := Option.map_eq_some_iff.mp hrun
  obtain ⟨hstart, hnodes, hvisited, hneighbors⟩ := by simpa only [Prod.mk.injEq] using hrun
  have hmem : "A" ∈ graph.nodes := by simp [hnodes]
  obtain ⟨nodes, hops, horder, -, hdistances, hsorted, -, howns⟩ :=
    breadthFirst_visits_by_distance graph "A" hmem
  obtain rfl : nodes = ["A", "B", "C", "D", "E"] :=
    List.map_injective_iff.mpr (fun _ _ => Option.some.inj) (horder.symm.trans hvisited)
  exact ⟨graph, hgraph, hstart, hmem, hvisited, hops, hdistances, hsorted, hneighbors ▸ howns "C"⟩

end Storyboard.Graph
