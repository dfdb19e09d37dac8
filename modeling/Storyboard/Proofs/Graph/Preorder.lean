import Storyboard.Proofs.Graph.Simulation

/-!
# Depth first, by recursion

A recursive depth-first search comes to a node, and then to each of its neighbours in the order in
which they are declared (`Preorder`).  It skips the nodes that it has visited.  A search that *yields*
also skips the nodes that wait: a node that was visited before has them among its later neighbours,
and comes to them itself.

The traversal with a stack is the search that yields, since a node that waits is not put on the stack
again.  The two searches differ only where an edge leads to a node that waits: they agree on every
story in which no step looks at such an edge (`meetsWaiting`).

The order is read off the stack from the back of the run to its front: what the stack holds above some
nodes is searched before them (`Preorder.split`).
-/

namespace Storyboard.Graph

variable {W : Type}

/-- A depth-first search passes over the node: it has been visited, or it waits and the search
yields. -/
def Skips (yields : Bool) (visited waiting : List String) (node : String) : Prop :=
  node ∈ visited ∨ yields = true ∧ node ∈ waiting

/-- A recursive depth-first search that comes to some nodes, one after the other, visits new ones in
this order.  When it comes to them it has visited some nodes already, and others wait. -/
inductive Preorder (graph : Adjacency W) (yields : Bool) :
    (visited waiting nodes order : List String) → Prop
  | done {visited waiting : List String} : Preorder graph yields visited waiting [] []
  | skip {visited waiting : List String} {node : String} {rest order : List String}
      (skips : Skips yields visited waiting node)
      (later : Preorder graph yields visited waiting rest order) :
      Preorder graph yields visited waiting (node :: rest) order
  | visit {visited waiting : List String} {node : String} {rest inner order : List String}
      (new : ¬Skips yields visited waiting node)
      -- below the node, what comes after it waits
      (below : Preorder graph yields (visited ++ [node]) (rest ++ waiting) (graph.neighbors node)
        inner)
      (later : Preorder graph yields (visited ++ node :: inner) waiting rest order) :
      Preorder graph yields visited waiting (node :: rest) (node :: (inner ++ order))

variable {graph : Adjacency W} {yields : Bool} {visited waiting nodes order : List String}

instance (yields : Bool) (visited waiting : List String) (node : String) :
    Decidable (Skips yields visited waiting node) :=
  inferInstanceAs (Decidable (_ ∨ _))

theorem Skips.append {node : String} (h : Skips yields visited waiting node)
    (more : List String) : Skips yields (visited ++ more) waiting node := by
  rcases h with h | h
  · exact Or.inl (List.mem_append_left _ h)
  · exact Or.inr h

theorem Skips.congr_waiting {waiting' : List String}
    (hwaiting : yields = true → ∀ node, node ∉ visited → (node ∈ waiting' ↔ node ∈ waiting))
    (node : String) : Skips yields visited waiting' node ↔ Skips yields visited waiting node := by
  unfold Skips
  by_cases hvisited : node ∈ visited
  · simp [hvisited]
  · cases yields with
    | false => simp
    | true => simp [hwaiting rfl node hvisited]

namespace Preorder

/-- A search visits the nodes in one order only. -/
theorem unique {order' : List String} (h : Preorder graph yields visited waiting nodes order)
    (h' : Preorder graph yields visited waiting nodes order') : order' = order := by
  induction h generalizing order' with
  | done =>
    cases h'
    rfl
  | skip skips _ ih =>
    cases h' with
    | skip _ later' => exact ih later'
    | visit new' => exact absurd skips new'
  | visit new _ _ ihBelow ihLater =>
    cases h' with
    | skip skips' => exact absurd skips' new
    | visit _ below' later' =>
      obtain rfl := ihBelow below'
      obtain rfl := ihLater later'
      rfl

/-- Which nodes wait matters only for a search that yields, and only for nodes that have not been
visited. -/
theorem congr_waiting {waiting' : List String}
    (h : Preorder graph yields visited waiting nodes order)
    (hwaiting : yields = true → ∀ node, node ∉ visited → (node ∈ waiting' ↔ node ∈ waiting)) :
    Preorder graph yields visited waiting' nodes order := by
  induction h generalizing waiting' with
  | done => exact .done
  | skip skips _ ih => exact .skip ((Skips.congr_waiting hwaiting _).mpr skips) (ih hwaiting)
  | @visit visited waiting node rest _ _ new _ _ ihBelow ihLater =>
    -- below the node, what comes after it waits as well, on both sides
    refine .visit (fun skips => new ((Skips.congr_waiting hwaiting _).mp skips)) (ihBelow ?_)
      (ihLater ?_)
    · intro hyields other hother
      have hunvisited : other ∉ visited := fun hmem => hother (List.mem_append_left _ hmem)
      rw [List.mem_append, List.mem_append, hwaiting hyields other hunvisited]
    · intro hyields other hother
      have hunvisited : other ∉ visited := fun hmem => hother (List.mem_append_left _ hmem)
      exact hwaiting hyields other hunvisited

/-- A search that comes to some nodes and then to more searches the first ones while the others
wait. -/
theorem split {more : List String}
    (h : Preorder graph yields visited waiting (nodes ++ more) order)
    (hapart : yields = true → ∀ node ∈ nodes, node ∉ more) :
    ∃ first second, order = first ++ second ∧
      Preorder graph yields visited (more ++ waiting) nodes first ∧
      Preorder graph yields (visited ++ first) waiting more second := by
  induction nodes generalizing visited order with
  | nil => exact ⟨[], order, rfl, .done, by rwa [List.append_nil]⟩
  | cons node rest ih =>
    have hrest : yields = true → ∀ other ∈ rest, other ∉ more := fun hyields other hother =>
      hapart hyields other (List.mem_cons_of_mem node hother)
    rw [List.cons_append] at h
    cases h with
    | skip skips later =>
      obtain ⟨first, second, horder, hfirst, hsecond⟩ := ih later hrest
      refine ⟨first, second, horder, .skip ?_ hfirst, hsecond⟩
      rcases skips with hvisited | ⟨hyields, hwaits⟩
      · exact Or.inl hvisited
      · exact Or.inr ⟨hyields, List.mem_append_right _ hwaits⟩
    | visit new below later =>
      -- what the node leads to is searched whole, and goes to the first part
      obtain ⟨first, second, rfl, hfirst, hsecond⟩ := ih later hrest
      rw [List.append_assoc] at below
      refine ⟨node :: (_ ++ first), second, ?_, .visit ?_ below hfirst, ?_⟩
      · simp
      · rintro (hvisited | ⟨hyields, hwaits⟩)
        · exact new (Or.inl hvisited)
        · rcases List.mem_append.mp hwaits with hmore | hwaits
          · exact hapart hyields node List.mem_cons_self hmore
          · exact new (Or.inr ⟨hyields, hwaits⟩)
      · simpa using hsecond

/-- Nodes that are skipped anyway may be left out beforehand. -/
theorem of_filter {keep : String → Bool}
    (h : Preorder graph yields visited waiting (nodes.filter keep) order)
    (hskips : ∀ node ∈ nodes, keep node = false → Skips yields visited waiting node) :
    Preorder graph yields visited waiting nodes order := by
  induction nodes generalizing visited order with
  | nil => exact h
  | cons node rest ih =>
    obtain ⟨hnode, hrest⟩ := List.forall_mem_cons.mp hskips
    cases hkeep : keep node with
    | false =>
      rw [List.filter_cons_of_neg (by simp [hkeep])] at h
      exact .skip (hnode hkeep) (ih h hrest)
    | true =>
      rw [List.filter_cons_of_pos hkeep] at h
      cases h with
      | skip skips later => exact .skip skips (ih later hrest)
      | visit new below later =>
        refine .visit new (below.congr_waiting ?_) (ih later ?_)
        · -- what is left out of the rest waits already, or has been visited
          intro hyields other hother
          have hunvisited : other ∉ visited := fun hmem => hother (List.mem_append_left _ hmem)
          rw [List.mem_append, List.mem_append, List.mem_filter]
          constructor
          · rintro (hmem | hwaits)
            · cases hkept : keep other with
              | true => exact Or.inl ⟨hmem, rfl⟩
              | false => exact Or.inr ((hrest other hmem hkept).resolve_left hunvisited).2
            · exact Or.inr hwaits
          · rintro (hmem | hwaits)
            · exact Or.inl hmem.1
            · exact Or.inr hwaits
        · intro other hmem hdropped
          exact (hrest other hmem hdropped).append _

end Preorder

/-! ## Turns of a depth-first traversal -/

variable {p next last : Progress} {moments : List Moment} {start : String}

/-- What a turn of a depth-first traversal does with its stack: the node at its end is visited, and its
new neighbours come in its place, the first one last. -/
structure StackTurn (graph : Adjacency W) (p : Progress) (node : String) (below : List String)
    (moments : List Moment) (next : Progress) : Prop where
  waiting : p.waiting = below ++ [node]
  visits : visits moments = [node]
  visited : next.visited = p.visited ++ [node]
  next_waiting : next.waiting = below ++
    ((graph.neighbors node).filter (Progress.isNew ⟨below, p.visited ++ [node]⟩)).reverse
  explores : ∀ other ∈ graph.neighbors node, ∃ moment ∈ moments,
    moment.event = .explore node other ∧ moment.progress.waiting = below

theorem depthTurn_stackTurn (tidy : p.Tidy) (h : depthTurn graph p = some (next, moments)) :
    ∃ node below, StackTurn graph p node below moments next := by
  obtain ⟨taken, hturn⟩ := (depthTurn_takesTurns graph).turns tidy h
  unfold depthTurn at h
  split at h
  next => cases h
  next node hlast =>
    have hwaiting : p.waiting = p.waiting.dropLast ++ [node] :=
      (List.dropLast_append_getLast? node hlast).symm
    have hunvisited : node ∉ p.visited := tidy.unvisited node (List.mem_of_getLast? hlast)
    dsimp only at h
    rw [if_neg (by simpa using hunvisited)] at h
    obtain ⟨rfl, rfl⟩ := Prod.mk.inj (Option.some.inj h)
    obtain ⟨_, _, _, hbegins, _⟩ := hturn.begins
    -- the turn takes the node on top of the stack
    obtain rfl : node = taken := Event.take.inj (Moment.mk.inj (List.cons.inj hbegins).1).1
    have hreverse : (graph.neighbors node).reverse.Nodup :=
      List.nodup_reverse.mpr (graph.neighbors_nodup node)
    refine ⟨node, p.waiting.dropLast, hwaiting, ?_, hturn.visited, ?_, ?_⟩
    · -- what a turn adds to the visited nodes is what its moments visit
      exact List.append_cancel_left ((visited_eq_of_leads hturn.leads).symm.trans hturn.visited)
    · show (deferNew _ (graph.neighbors node).reverse).1.waiting = _
      rw [deferNew_waiting hreverse, List.filter_reverse]
      rfl
    · intro other hother
      refine ⟨⟨.explore node other, ⟨p.waiting.dropLast, p.visited ++ [node]⟩⟩, ?_, rfl, rfl⟩
      refine List.mem_cons_of_mem _ (List.mem_cons_of_mem _ (List.mem_append_left _ ?_))
      exact List.mem_map_of_mem hother

/-- No edge is looked at that leads to a node that waits. -/
def MeetsNoneWaiting (moments : List Moment) : Prop :=
  ∀ moment ∈ moments, ∀ source target, moment.event = .explore source target →
    target ∉ moment.progress.waiting

/-- From a turn on, the visits are the search that comes to the nodes on the stack, from its end to its
front. -/
theorem StackTurn.preorder {node : String} {below : List String}
    (h : StackTurn graph p node below moments next) (tidy : p.Tidy)
    (hmeets : yields = false → MeetsNoneWaiting moments)
    (hlater : Preorder graph yields next.visited [] next.waiting.reverse order) :
    Preorder graph yields p.visited [] p.waiting.reverse (node :: order) := by
  have hunvisited : node ∉ p.visited := tidy.unvisited node (by simp [h.waiting])
  have hstack : next.waiting.reverse =
      (graph.neighbors node).filter (Progress.isNew ⟨below, p.visited ++ [node]⟩) ++
        below.reverse := by
    rw [h.next_waiting, List.reverse_append, List.reverse_reverse]
  rw [hstack, h.visited] at hlater
  -- what the stack holds above the nodes below is searched before them
  obtain ⟨inner, rest, rfl, hinner, hrest⟩ := hlater.split <| by
    intro _ other hother hbelow
    have hnew := Progress.isNew_iff.mp (List.mem_filter.mp hother).2
    exact hnew.2 (List.mem_reverse.mp hbelow)
  rw [h.waiting, List.reverse_append, List.reverse_singleton, List.singleton_append]
  refine .visit ?_ (hinner.of_filter ?_) (by simpa using hrest)
  · rintro (hvisited | ⟨_, hwaits⟩)
    · exact hunvisited hvisited
    · exact absurd hwaits List.not_mem_nil
  · -- a neighbour that is not new has been visited, or it waits
    intro other hother hknown
    by_cases hvisited : other ∈ p.visited ++ [node]
    · exact Or.inl hvisited
    · have hwaits : other ∈ below := by
        by_contra hnot
        exact Bool.false_ne_true (hknown.symm.trans (Progress.isNew_iff.mpr ⟨hvisited, hnot⟩))
      cases hyields : yields with
      | true => exact Or.inr ⟨rfl, by simpa using hwaits⟩
      | false =>
        obtain ⟨moment, hmoment, hevent, hshown⟩ := h.explores other hother
        exact absurd (hshown ▸ hwaits) (hmeets hyields moment hmoment node other hevent)

/-- The visits of a whole traversal are such a search as well. -/
theorem Finishes.preorder (h : Finishes (depthTurn graph) p moments last) (tidy : p.Tidy)
    (hmeets : yields = false → MeetsNoneWaiting moments) :
    Preorder graph yields p.visited [] p.waiting.reverse (visits moments) := by
  induction h with
  | done ends =>
    rw [(depthTurn_takesTurns graph).ends _ ends]
    exact .done
  | @more p next last moments later taken _ ih =>
    obtain ⟨node, below, hturn⟩ := depthTurn_stackTurn tidy taken
    obtain ⟨_, hfirst⟩ := (depthTurn_takesTurns graph).turns tidy taken
    have hlater := ih (tidy_of_leads hfirst.leads tidy) fun hyields moment hmoment =>
      hmeets hyields moment (List.mem_append_right _ hmoment)
    rw [visits_append, hturn.visits]
    exact hturn.preorder tidy
      (fun hyields moment hmoment => hmeets hyields moment (List.mem_append_left _ hmoment)) hlater

/-! ## Stories -/

/-- The step looks at an edge to a node that it shows on the stack. -/
def meetsWaiting (step : Step) : Bool :=
  match step.target, step.stackSnapshot with
  | some target, some items => items.any fun item => item.str? == some target
  | _, _ => false

theorem meetsWaiting_depthStepAt {moment : Moment} {source target : String}
    (h : moment.event = .explore source target) :
    meetsWaiting (depthStepAt moment) = moment.progress.waiting.contains target := by
  obtain ⟨_, progress⟩ := moment
  obtain rfl := h
  show (progress.waiting.map Json.str).any _ = _
  rw [List.any_map, List.contains_eq_any_beq]
  refine congrArg progress.waiting.any (funext fun node => ?_)
  show (some node == some target) = (target == node)
  rw [Option.some_beq_some, Bool.beq_comm]

/-- The visits of a depth-first traversal are the order of the recursive search that yields, and of no
other: the neighbours of a node are tried in the order of their declaration, but for those that have been
visited and those that wait.  When no step looks at an edge to a node that waits, they are also the order
of the search that skips nothing but visited nodes. -/
theorem depthFirst_visits_preorder (graph : Adjacency Float) (start : String)
    (hstart : start ∈ graph.nodes) :
    ∃ order, visitedNodes (steps .dfs graph start) = order.map some ∧
      (∀ order', Preorder graph true [] [] [start] order' ↔ order' = order) ∧
      ((∀ step ∈ steps .dfs graph start, meetsWaiting step = false) →
        ∀ order', Preorder graph false [] [] [start] order' ↔ order' = order) := by
  obtain ⟨last, hfinishes⟩ := (depthTurn_takesTurns graph).terminates hstart
  have hsearch : ∀ yields, (yields = false → MeetsNoneWaiting (depthFirst graph start)) →
      Preorder graph yields [] [] [start] (visits (depthFirst graph start)) := by
    intro yields hmeets
    exact hfinishes.preorder (starting_tidy start) fun hyields moment hmoment =>
      hmeets hyields moment (List.mem_cons_of_mem _ hmoment)
  have hunique : ∀ yields, Preorder graph yields [] [] [start] (visits (depthFirst graph start)) →
      ∀ order', Preorder graph yields [] [] [start] order' ↔
        order' = visits (depthFirst graph start) := by
    intro yields h order'
    constructor
    · exact h.unique
    · rintro rfl
      exact h
  refine ⟨visits (depthFirst graph start), depthStepAt_tells.visitedNodes_eq _,
    hunique true (hsearch true nofun), fun hmeets => hunique false (hsearch false fun _ => ?_)⟩
  -- a step that looks at an edge to a waiting node would be one that meets it
  intro moment hmoment source target hevent hwaits
  have hstep := hmeets _ (List.mem_map_of_mem hmoment)
  rw [meetsWaiting_depthStepAt hevent, List.contains_eq_mem, decide_eq_false_iff_not] at hstep
  exact hstep hwaits

/-- A tree whose edges lead both ways. -/
def twoWayTreeCode : String :=
  "g.add_edge(0, 1)\ng.add_edge(0, 2)\ng.add_edge(1, 3)\ng.dfs(0)\n"

theorem depthFirst_visits_preorder_twoWayTree :
    ∃ graph, declared? twoWayTreeCode = some graph ∧ startNode? graph twoWayTreeCode = some "0" ∧
      "0" ∈ graph.nodes ∧
      visitedNodes (steps .dfs graph "0") = [some "0", some "1", some "3", some "2"] ∧
      (∀ step ∈ steps .dfs graph "0", meetsWaiting step = false) ∧
      Preorder graph true [] [] ["0"] ["0", "1", "3", "2"] ∧
      Preorder graph false [] [] ["0"] ["0", "1", "3", "2"] := by
  have hrun : (declared? twoWayTreeCode).map (fun graph =>
      (startNode? graph twoWayTreeCode, graph.nodes, visitedNodes (steps .dfs graph "0"),
        (steps .dfs graph "0").all fun step => !meetsWaiting step)) =
      some (some "0", ["0", "1", "2", "3"], [some "0", some "1", some "3", some "2"], true) := by
    decide +kernel
  obtain ⟨graph, hgraph, hrun⟩ := Option.map_eq_some_iff.mp hrun
  simp only [Prod.mk.injEq, List.all_eq_true, Bool.not_eq_true'] at hrun
  obtain ⟨hstart, hnodes, hvisited, hmeets⟩ := hrun
  have hmem : "0" ∈ graph.nodes := by simp [hnodes]
  obtain ⟨order, horder, hyields, hplain⟩ := depthFirst_visits_preorder graph "0" hmem
  obtain rfl : order = ["0", "1", "3", "2"] :=
    List.map_injective_iff.mpr (fun _ _ => Option.some.inj) (horder.symm.trans hvisited)
  exact ⟨graph, hgraph, hstart, hmem, hvisited, hmeets, (hyields _).mpr rfl,
    (hplain hmeets _).mpr rfl⟩

/-- A graph in which the last neighbour of the first node is a neighbour of the second one too. -/
def forkedCode : String :=
  "graph = \x7b'A': ['B', 'C', 'D'], 'B': ['D']\x7d\ndfs(graph, 'A')\n"

/-- The search that skips nothing but visited nodes comes to the last node from the second one; in the
story that node waits for the first one, and is visited last. -/
theorem depthFirst_visits_late_forked :
    ∃ graph, declared? forkedCode = some graph ∧ startNode? graph forkedCode = some "A" ∧
      "A" ∈ graph.nodes ∧
      visitedNodes (steps .dfs graph "A") = [some "A", some "B", some "C", some "D"] ∧
      ∀ order, Preorder graph false [] [] ["A"] order ↔ order = ["A", "B", "D", "C"] := by
  have hrun : (declared? forkedCode).map (fun graph =>
      (startNode? graph forkedCode, graph.nodes, visitedNodes (steps .dfs graph "A"),
        graph.nodes.map graph.neighbors)) =
      some (some "A", ["A", "B", "C", "D"], [some "A", some "B", some "C", some "D"],
        [["B", "C", "D"], ["D"], [], []]) := by
    decide +kernel
  obtain ⟨graph, hgraph, hrun⟩ := Option.map_eq_some_iff.mp hrun
  simp only [Prod.mk.injEq] at hrun
  obtain ⟨hstart, hnodes, hvisited, hneighbors⟩ := hrun
  rw [hnodes] at hneighbors
  simp only [List.map_cons, List.map_nil, List.cons.injEq, and_true] at hneighbors
  obtain ⟨hA, hB, hC, hD⟩ := hneighbors
  -- the order is built from its innermost search outwards: below D and C, below B, below A
  have hafter : ∀ visited waiting, Preorder graph false visited waiting [] [] := fun _ _ => .done
  have hbelowC : Preorder graph false ["A", "B", "D", "C"] ["D"] (graph.neighbors "C") [] := by
    rw [hC]
    exact .done
  have hbelowD : Preorder graph false ["A", "B", "D"] ["C", "D"] (graph.neighbors "D") [] := by
    rw [hD]
    exact .done
  have hbelowB : Preorder graph false ["A", "B"] ["C", "D"] (graph.neighbors "B") ["D"] := by
    rw [hB]
    show Preorder graph false ["A", "B"] ["C", "D"] ["D"] ("D" :: ([] ++ []))
    exact .visit (by decide) hbelowD (hafter _ _)
  have hafterB : Preorder graph false ["A", "B", "D"] [] ["C", "D"] ["C"] := by
    show Preorder graph false ["A", "B", "D"] [] ["C", "D"] ("C" :: ([] ++ []))
    exact .visit (by decide) hbelowC (.skip (by decide) (hafter _ _))
  have hbelowA : Preorder graph false ["A"] [] (graph.neighbors "A") ["B", "D", "C"] := by
    rw [hA]
    show Preorder graph false ["A"] [] ["B", "C", "D"] ("B" :: (["D"] ++ ["C"]))
    exact .visit (by decide) hbelowB hafterB
  have hsearch : Preorder graph false [] [] ["A"] ["A", "B", "D", "C"] := by
    show Preorder graph false [] [] ["A"] ("A" :: (["B", "D", "C"] ++ []))
    exact .visit (by decide) hbelowA (hafter _ _)
  refine ⟨graph, hgraph, hstart, by simp [hnodes], hvisited, fun order => ⟨hsearch.unique, ?_⟩⟩
  rintro rfl
  exact hsearch

end Storyboard.Graph
