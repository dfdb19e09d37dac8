import Mathlib.Data.List.Perm.Subperm
import Mathlib.Logic.Relation
import Storyboard.Graph.Traversal
import Storyboard.Proofs.Simulation.Leads

/-!
# Traversals visit what can be reached

Both traversals take turns of one kind (`Turn`): a waiting node is taken and visited, the edges that
leave it are looked at, and what they lead to waits unless it has been visited.  In a turn every
moment leaves the lists tidy (`Records`), so a node that waits has not been visited, and the turn
that drops a visited node is never taken.

`Fit` is what every turn keeps.  Each turn visits one more node of the graph, so there are fewer
turns than the limit allows, and when no node waits the visited ones are closed under edges.
-/

namespace Storyboard.Graph

variable {W : Type}

/-! ## Reachable nodes -/

namespace Adjacency

/-- An edge leads from one node to the other. -/
def Joins (graph : Adjacency W) (source target : String) : Prop :=
  ∃ edge ∈ graph.edges, edge.source = source ∧ edge.target = target

/-- A path leads from one node to the other. -/
def Reaches (graph : Adjacency W) : String → String → Prop := Relation.ReflTransGen graph.Joins

variable {graph : Adjacency W} {source target : String}

theorem mem_neighbors_iff : target ∈ graph.neighbors source ↔ graph.Joins source target := by
  unfold neighbors edgesFrom Joins
  simp only [List.mem_map, List.mem_filter, beq_iff_eq]
  constructor
  · rintro ⟨edge, ⟨hmem, hsource⟩, htarget⟩
    exact ⟨edge, hmem, hsource, htarget⟩
  · rintro ⟨edge, hmem, hsource, htarget⟩
    exact ⟨edge, ⟨hmem, hsource⟩, htarget⟩

/-- No two edges lead from a node to the same node. -/
theorem neighbors_nodup (graph : Adjacency W) (source : String) :
    (graph.neighbors source).Nodup := by
  unfold neighbors edgesFrom List.Nodup
  rw [List.pairwise_map, List.pairwise_filter]
  refine graph.edges_distinct.imp ?_
  intro a b hdistinct ha hb htarget
  exact hdistinct ⟨(beq_iff_eq.mp ha).trans (beq_iff_eq.mp hb).symm, htarget⟩

/-- A path does not leave the graph. -/
theorem Reaches.mem_nodes (h : graph.Reaches source target) (hsource : source ∈ graph.nodes) :
    target ∈ graph.nodes := by
  induction h with
  | refl => exact hsource
  | tail _ hjoins _ =>
    obtain ⟨edge, hmem, _, rfl⟩ := hjoins
    exact (graph.ends_mem edge hmem).2

/-! A walk is the list of the edges that it takes.  It grows at its end, where a traversal adds to
it. -/

section Walk

variable {start node : String}

/-- The edges lead from the first node to another one. -/
inductive Walk (graph : Adjacency W) (start : String) : List (Edge W) → String → Prop
  | nil : Walk graph start [] start
  | concat {edges : List (Edge W)} {edge : Edge W} (before : Walk graph start edges edge.source)
      (mem : edge ∈ graph.edges) : Walk graph start (edges ++ [edge]) edge.target

theorem Walk.reaches {edges : List (Edge W)} (h : graph.Walk start edges node) :
    graph.Reaches start node := by
  induction h with
  | nil => exact .refl
  | @concat _ edge _ mem ih => exact ih.tail ⟨edge, mem, rfl, rfl⟩

/-- A node can be reached when a walk leads to it. -/
theorem reaches_iff_exists_walk :
    graph.Reaches start node ↔ ∃ edges, graph.Walk start edges node := by
  constructor
  · intro h
    induction h with
    | refl => exact ⟨[], .nil⟩
    | tail _ hjoins ih =>
      obtain ⟨edges, hwalk⟩ := ih
      obtain ⟨edge, hmem, rfl, rfl⟩ := hjoins
      exact ⟨edges ++ [edge], .concat hwalk hmem⟩
  · rintro ⟨edges, hwalk⟩
    exact hwalk.reaches

/-- The least number of edges on a walk to the node. -/
def IsHopDistance (graph : Adjacency W) (start node : String) (hops : Nat) : Prop :=
  (∃ edges, graph.Walk start edges node ∧ edges.length = hops) ∧
    ∀ edges, graph.Walk start edges node → hops ≤ edges.length

end Walk

end Adjacency

/-! ## Moments -/

namespace Event

/-- The node that is taken. -/
def taken? : Event → Option String
  | .take node => some node
  | _ => none

/-- The node that is visited. -/
def visited? : Event → Option String
  | .visit node => some node
  | _ => none

/-- The edge that is looked at. -/
def edge? : Event → Option (String × String)
  | .explore source target => some (source, target)
  | _ => none

end Event

/-- The nodes that are visited, in order. -/
def visits (moments : List Moment) : List String :=
  moments.filterMap fun moment => moment.event.visited?

/-- The edges that are looked at, in order. -/
def explored (moments : List Moment) : List (String × String) :=
  moments.filterMap fun moment => moment.event.edge?

theorem visits_append (moments more : List Moment) :
    visits (moments ++ more) = visits moments ++ visits more := List.filterMap_append

theorem explored_append (moments more : List Moment) :
    explored (moments ++ more) = explored moments ++ explored more := List.filterMap_append

/-- A node that is new to a list may be put at its end. -/
theorem nodup_concat {nodes : List String} {node : String} (h : nodes.Nodup) (hnew : node ∉ nodes) :
    (nodes ++ [node]).Nodup :=
  (List.perm_append_singleton node nodes).nodup_iff.mpr (List.nodup_cons.mpr ⟨hnew, h⟩)

/-- No node waits twice or has been visited twice, and none that waits has been visited. -/
structure Progress.Tidy (p : Progress) : Prop where
  waiting_nodup : p.waiting.Nodup
  visited_nodup : p.visited.Nodup
  unvisited : ∀ node ∈ p.waiting, node ∉ p.visited

theorem Progress.isNew_iff {p : Progress} {node : String} :
    p.isNew node = true ↔ node ∉ p.visited ∧ node ∉ p.waiting := by
  simp [Progress.isNew]

/-- A moment records the lists that it leaves: they are tidy, and only a visit adds to the visited
nodes. -/
structure Records (before : Progress) (moment : Moment) (after : Progress) : Prop where
  shown : moment.progress = after
  visited : after.visited = before.visited ++ moment.event.visited?.toList
  tidy : after.Tidy

variable {p next last : Progress} {moments more : List Moment} {node : String}

theorem visited_eq_of_leads (h : Leads Records p moments last) :
    last.visited = p.visited ++ visits moments := by
  induction h with
  | nil => exact (List.append_nil _).symm
  | @cons before between after moment rest first _ ih =>
    rw [ih, first.visited, List.append_assoc]
    congr 1
    unfold visits
    rw [List.filterMap_cons]
    cases moment.event.visited? <;> rfl

theorem tidy_of_leads (h : Leads Records p moments last) (tidy : p.Tidy) : last.Tidy := by
  induction h with
  | nil => exact tidy
  | cons first _ ih => exact ih first.tidy

/-- The last moment shows the lists that are left. -/
theorem shown_of_leads {moment : Moment} (h : Leads Records p (moments ++ [moment]) last) :
    moment.progress = last ∧ last.Tidy := by
  obtain ⟨before, _, hmoment⟩ := h.exists_between
  cases hmoment with
  | cons first later =>
    cases later
    exact ⟨first.shown, first.tidy⟩

/-! ## Looking at edges -/

/-- Some edges are looked at and some nodes are let wait: those of them wait that were not visited
before. -/
structure Grows (p : Progress) (edges : List (String × String)) (nodes : List String)
    (moments : List Moment) (next : Progress) : Prop where
  leads : Leads Records p moments next
  visited : next.visited = p.visited
  mem_waiting : ∀ node, node ∈ next.waiting ↔
    node ∈ p.waiting ∨ node ∈ nodes ∧ node ∉ p.visited
  explored : explored moments = edges
  untaken : ∀ moment ∈ moments, moment.event.taken? = none

namespace Grows

variable {edges edges' : List (String × String)} {nodes nodes' : List String}

theorem refl (p : Progress) : Grows p [] [] [] p where
  leads := .nil
  visited := rfl
  mem_waiting node := by simp
  explored := rfl
  untaken _ h := absurd h List.not_mem_nil

theorem append (h : Grows p edges nodes moments next)
    (h' : Grows next edges' nodes' more last) :
    Grows p (edges ++ edges') (nodes ++ nodes') (moments ++ more) last where
  leads := h.leads.append h'.leads
  visited := h'.visited.trans h.visited
  mem_waiting node := by
    rw [h'.mem_waiting, h.mem_waiting, h.visited, List.mem_append, or_and_right, or_assoc]
  explored := by rw [explored_append, h.explored, h'.explored]
  untaken moment hmem := (List.mem_append.mp hmem).elim (h.untaken moment) (h'.untaken moment)

/-- The nodes may come in another order. -/
theorem of_perm (h : Grows p edges nodes moments next) (hperm : nodes.Perm nodes') :
    Grows p edges nodes' moments next :=
  { h with mem_waiting := fun node => by rw [h.mem_waiting, hperm.mem_iff] }

/-- Looking at an edge changes nothing. -/
theorem explore (tidy : p.Tidy) (source target : String) :
    Grows p [(source, target)] [] [⟨.explore source target, p⟩] p where
  leads := .single ⟨rfl, (List.append_nil _).symm, tidy⟩
  visited := rfl
  mem_waiting node := by simp
  explored := rfl
  untaken moment hmem := by rw [List.mem_singleton.mp hmem]; rfl

theorem exploreAll (tidy : p.Tidy) (source : String) (nodes : List String) :
    Grows p (nodes.map fun node => (source, node)) []
      (nodes.map fun node => ⟨.explore source node, p⟩) p := by
  induction nodes with
  | nil => exact .refl p
  | cons node rest ih => exact (Grows.explore tidy source node).append ih

/-- A node that waits or has been visited is passed over. -/
theorem skip (h : ¬p.isNew node = true) : Grows p [] [node] [] p where
  leads := .nil
  visited := rfl
  mem_waiting other := by
    refine ⟨Or.inl, ?_⟩
    rintro (hwaits | ⟨hother, hunvisited⟩)
    · exact hwaits
    · rw [List.mem_singleton.mp hother] at hunvisited ⊢
      by_contra hnew
      exact h (Progress.isNew_iff.mpr ⟨hunvisited, hnew⟩)
  explored := rfl
  untaken _ h := absurd h List.not_mem_nil

/-- A node that is new starts to wait. -/
theorem await (tidy : p.Tidy) (h : p.isNew node = true) :
    Grows p [] [node] [⟨.defer node, p.await node⟩] (p.await node) where
  leads := by
    obtain ⟨hunvisited, hnew⟩ := Progress.isNew_iff.mp h
    refine .single ⟨rfl, (List.append_nil _).symm, ?_, tidy.visited_nodup, ?_⟩
    · exact nodup_concat tidy.waiting_nodup hnew
    · intro other hother
      rcases List.mem_append.mp hother with hother | hother
      · exact tidy.unvisited other hother
      · rw [List.mem_singleton.mp hother]
        exact hunvisited
  visited := rfl
  mem_waiting other := by
    have hunvisited := (Progress.isNew_iff.mp h).1
    show other ∈ p.waiting ++ [node] ↔ _
    rw [List.mem_append, List.mem_singleton]
    refine or_congr_right ⟨?_, And.left⟩
    rintro rfl
    exact ⟨rfl, hunvisited⟩
  explored := rfl
  untaken moment hmem := by rw [List.mem_singleton.mp hmem]; rfl

end Grows

theorem deferNew_grows (tidy : p.Tidy) (nodes : List String) :
    Grows p [] nodes (deferNew p nodes).2 (deferNew p nodes).1 := by
  induction nodes generalizing p with
  | nil => exact .refl p
  | cons node rest ih =>
    rw [deferNew]
    split
    next hnew =>
      have hgrown := Grows.await tidy hnew
      exact hgrown.append (ih (tidy_of_leads hgrown.leads tidy))
    next hknown => exact (Grows.skip hknown).append (ih tidy)

theorem exploreAndDefer_grows (tidy : p.Tidy) (source : String) (nodes : List String) :
    Grows p (nodes.map fun node => (source, node)) nodes (exploreAndDefer source p nodes).2
      (exploreAndDefer source p nodes).1 := by
  induction nodes generalizing p with
  | nil => exact .refl p
  | cons node rest ih =>
    have hdeferred := deferNew_grows tidy [node]
    have hlater := ih (tidy_of_leads hdeferred.leads tidy)
    exact (Grows.explore tidy source node).append (hdeferred.append hlater)

theorem exploreThenDefer_grows (tidy : p.Tidy) (source : String) (nodes : List String) :
    Grows p (nodes.map fun node => (source, node)) nodes (exploreThenDefer source p nodes).2
      (exploreThenDefer source p nodes).1 := by
  have hdeferred := (deferNew_grows tidy nodes.reverse).of_perm (List.reverse_perm nodes)
  have hall := (Grows.exploreAll tidy source nodes).append hdeferred
  rw [List.append_nil, List.nil_append] at hall
  exact hall

/-- A node that starts to wait is no longer new, and that makes no difference to the others. -/
theorem filter_isNew_await {rest : List String} (h : node ∉ rest) :
    rest.filter (p.await node).isNew = rest.filter p.isNew := by
  refine List.filter_congr fun other hother => ?_
  have hne : other ≠ node := fun heq => h (heq ▸ hother)
  simp [Progress.isNew, Progress.await, hne]

/-- The new ones among some nodes wait behind those that wait already. -/
theorem deferNew_waiting {nodes : List String} (hnodup : nodes.Nodup) :
    (deferNew p nodes).1.waiting = p.waiting ++ nodes.filter p.isNew := by
  induction nodes generalizing p with
  | nil => exact (List.append_nil _).symm
  | cons node rest ih =>
    obtain ⟨hnode, hrest⟩ := List.nodup_cons.mp hnodup
    rw [deferNew]
    split
    next hnew =>
      show (deferNew (p.await node) rest).1.waiting = _
      rw [ih hrest, filter_isNew_await hnode, List.filter_cons_of_pos hnew]
      simp [Progress.await]
    next hknown => rw [ih hrest, List.filter_cons_of_neg hknown]

theorem exploreAndDefer_fst (source : String) (nodes : List String) :
    (exploreAndDefer source p nodes).1 = (deferNew p nodes).1 := by
  induction nodes generalizing p with
  | nil => rfl
  | cons node rest ih =>
    show (exploreAndDefer source (deferNew p [node]).1 rest).1 = _
    rw [ih]
    by_cases hnew : p.isNew node = true
    · simp only [deferNew, if_pos hnew]
    · simp only [deferNew, if_neg hnew]

/-! ## Turns -/

/-- The turn of a waiting node: it is taken and then visited, and its edges are looked at. -/
structure Turn (graph : Adjacency W) (p : Progress) (node : String) (moments : List Moment)
    (next : Progress) : Prop where
  waits : node ∈ p.waiting
  begins : ∃ taken visited more,
    moments = ⟨.take node, taken⟩ :: ⟨.visit node, visited⟩ :: more ∧
      ∀ moment ∈ more, moment.event.taken? = none
  leads : Leads Records p moments next
  visited : next.visited = p.visited ++ [node]
  mem_waiting : ∀ other, other ∈ next.waiting ↔
    (other ∈ p.waiting ∧ other ≠ node) ∨
      (graph.Joins node other ∧ other ∉ p.visited ∧ other ≠ node)
  explored : explored moments = (graph.neighbors node).map fun other => (node, other)

/-- Taking a waiting node, from wherever it stands, and looking at its edges is a turn. -/
theorem turn_of_grows {graph : Adjacency W} {rest : List String} (tidy : p.Tidy)
    (hperm : p.waiting.Perm (node :: rest))
    (hgrows : ∀ visited : Progress, visited = ⟨rest, p.visited ++ [node]⟩ → visited.Tidy →
      Grows visited ((graph.neighbors node).map fun other => (node, other))
        (graph.neighbors node) more next) :
    Turn graph p node
      (⟨.take node, ⟨rest, p.visited⟩⟩ :: ⟨.visit node, ⟨rest, p.visited ++ [node]⟩⟩ :: more)
      next := by
  have hnodup : (node :: rest).Nodup := hperm.nodup_iff.mp tidy.waiting_nodup
  have hunvisited : ∀ other ∈ node :: rest, other ∉ p.visited := fun other hother =>
    tidy.unvisited other (hperm.mem_iff.mpr hother)
  obtain ⟨hnode, hrest⟩ := List.nodup_cons.mp hnodup
  have htaken : Progress.Tidy ⟨rest, p.visited⟩ :=
    ⟨hrest, tidy.visited_nodup, fun other hother =>
      hunvisited other (List.mem_cons_of_mem node hother)⟩
  have hvisited : Progress.Tidy ⟨rest, p.visited ++ [node]⟩ := by
    refine ⟨hrest, nodup_concat tidy.visited_nodup (hunvisited node List.mem_cons_self), ?_⟩
    · intro other hother hmem
      rcases List.mem_append.mp hmem with hmem | hmem
      · exact htaken.unvisited other hother hmem
      · exact hnode (List.mem_singleton.mp hmem ▸ hother)
  have hlater := hgrows _ rfl hvisited
  constructor
  case waits => exact hperm.mem_iff.mpr List.mem_cons_self
  case begins => exact ⟨_, _, _, rfl, hlater.untaken⟩
  case leads =>
    exact .cons ⟨rfl, (List.append_nil _).symm, htaken⟩ (.cons ⟨rfl, rfl, hvisited⟩ hlater.leads)
  case visited => exact hlater.visited
  case mem_waiting =>
    intro other
    -- the node itself has been visited, so that it does not start to wait again
    rw [hlater.mem_waiting, Adjacency.mem_neighbors_iff, hperm.mem_iff, List.mem_cons]
    simp only [List.mem_append, List.mem_singleton, not_or]
    refine or_congr_left ⟨?_, ?_⟩
    · intro hother
      refine ⟨Or.inr hother, ?_⟩
      rintro rfl
      exact hnode hother
    · rintro ⟨heq | hother, hne⟩
      · exact absurd heq hne
      · exact hother
  case explored => exact hlater.explored

/-- A way of taking turns: as long as nodes wait, one of them has its turn. -/
structure TakesTurns (graph : Adjacency W) (turn : Progress → Option (Progress × List Moment)) :
    Prop where
  ends : ∀ p, turn p = none → p.waiting = []
  turns : ∀ {p next moments}, p.Tidy → turn p = some (next, moments) →
    ∃ node, Turn graph p node moments next

theorem breadthTurn_takesTurns (graph : Adjacency W) : TakesTurns graph (breadthTurn graph) where
  ends p h := by
    unfold breadthTurn at h
    split at h
    next hwaiting => exact hwaiting
    next => cases h
  turns {p next moments} tidy h := by
    unfold breadthTurn at h
    split at h
    next => cases h
    next node rest hwaiting =>
      cases h
      refine ⟨node, turn_of_grows tidy (.of_eq hwaiting) ?_⟩
      rintro _ rfl hvisited
      exact exploreAndDefer_grows hvisited node _

/-- The last node that waits has not been visited, so it is never dropped without a visit. -/
theorem depthTurn_takesTurns (graph : Adjacency W) : TakesTurns graph (depthTurn graph) where
  ends p h := by
    unfold depthTurn at h
    split at h
    next hlast => exact List.getLast?_eq_none_iff.mp hlast
    next =>
      dsimp only at h
      split at h <;> cases h
  turns {p next moments} tidy h := by
    unfold depthTurn at h
    split at h
    next => cases h
    next node hlast =>
      have hwaiting : p.waiting = p.waiting.dropLast ++ [node] :=
        (List.dropLast_append_getLast? node hlast).symm
      have hmem : node ∈ p.waiting := List.mem_of_getLast? hlast
      dsimp only at h
      split at h
      -- a visited node that waits would be dropped, but none does
      next hvisited => exact absurd (List.contains_iff_mem.mp hvisited) (tidy.unvisited node hmem)
      next =>
        cases h
        have hperm : p.waiting.Perm (node :: p.waiting.dropLast) :=
          (List.Perm.of_eq hwaiting).trans (List.perm_append_singleton ..)
        refine ⟨node, turn_of_grows tidy hperm ?_⟩
        rintro _ rfl hvisited
        exact exploreThenDefer_grows hvisited node _

/-! ## Whole traversals -/

/-- What every turn keeps: the lists are tidy, they hold only reachable nodes, and what a visited
node leads to is in one of them. -/
structure Fit (graph : Adjacency W) (start : String) (p : Progress) : Prop where
  tidy : p.Tidy
  reached : ∀ node, node ∈ p.visited ∨ node ∈ p.waiting → graph.Reaches start node
  closed : ∀ node ∈ p.visited, ∀ other, graph.Joins node other →
    other ∈ p.visited ∨ other ∈ p.waiting
  first : p = .starting start ∨ p.visited.head? = some start

variable {graph : Adjacency W} {start : String}
  {turn : Progress → Option (Progress × List Moment)}

theorem starting_tidy (start : String) : (Progress.starting start).Tidy :=
  ⟨List.pairwise_singleton .., List.nodup_nil, fun _ _ => List.not_mem_nil⟩

theorem starting_fit (graph : Adjacency W) (start : String) :
    Fit graph start (.starting start) where
  tidy := starting_tidy start
  reached node h := by
    rcases h with h | h
    · exact absurd h List.not_mem_nil
    · rw [List.mem_singleton.mp h]
      exact .refl
  closed node h := absurd h List.not_mem_nil
  first := .inl rfl

theorem Turn.fit (h : Turn graph p node moments next) (fit : Fit graph start p) :
    Fit graph start next where
  tidy := tidy_of_leads h.leads fit.tidy
  reached other hother := by
    rw [h.visited, List.mem_append, List.mem_singleton, h.mem_waiting] at hother
    have hnode : graph.Reaches start node := fit.reached node (.inr h.waits)
    rcases hother with (hvisited | rfl) | (⟨hwaits, _⟩ | ⟨hjoins, _⟩)
    · exact fit.reached other (.inl hvisited)
    · exact hnode
    · exact fit.reached other (.inr hwaits)
    · exact hnode.tail hjoins
  closed other hother target hjoins := by
    rw [h.visited, List.mem_append, List.mem_singleton] at hother ⊢
    rw [h.mem_waiting]
    by_cases htarget : target = node
    · exact .inl (.inr htarget)
    · by_cases hvisited : target ∈ p.visited
      · exact .inl (.inl hvisited)
      · -- a node visited before had this one waiting; the one visited now lets it wait
        rcases hother with hother | rfl
        · have hwaits := (fit.closed other hother target hjoins).resolve_left hvisited
          exact .inr (.inl ⟨hwaits, htarget⟩)
        · exact .inr (.inr ⟨hjoins, hvisited, htarget⟩)
  first := by
    right
    rw [h.visited, List.head?_append]
    -- at first the start is the only node that waits
    rcases fit.first with rfl | hfirst
    · exact congrArg some (List.mem_singleton.mp h.waits)
    · rw [hfirst]
      rfl

/-- The turns come to an end. -/
inductive Finishes (turn : Progress → Option (Progress × List Moment)) :
    Progress → List Moment → Progress → Prop
  | done {p : Progress} (ends : turn p = none) : Finishes turn p [] p
  | more {p next last : Progress} {moments later : List Moment}
      (taken : turn p = some (next, moments)) (rest : Finishes turn next later last) :
      Finishes turn p (moments ++ later) last

/-- Fit lists visit no more nodes than the graph has. -/
theorem Fit.visited_length_le (fit : Fit graph start p) (hstart : start ∈ graph.nodes) :
    p.visited.length ≤ graph.nodes.length := by
  refine (List.subperm_of_subset fit.tidy.visited_nodup ?_).length_le
  intro node hnode
  exact (fit.reached node (.inl hnode)).mem_nodes hstart

/-- When there are more turns left than unvisited nodes, the turns come to an end. -/
theorem takeTurns_finishes (hturn : TakesTurns graph turn) (hstart : start ∈ graph.nodes)
    {limit : Nat} (fit : Fit graph start p)
    (hlimit : graph.nodes.length < limit + p.visited.length) :
    ∃ last, Finishes turn p (takeTurns turn limit p) last := by
  induction limit generalizing p with
  | zero =>
    -- more nodes would have been visited than the graph has
    have hle := fit.visited_length_le hstart
    omega
  | succ limit ih =>
    rw [takeTurns]
    split
    next hends => exact ⟨p, .done hends⟩
    next next moments htaken =>
      obtain ⟨node, h⟩ := hturn.turns fit.tidy htaken
      have hlonger : next.visited.length = p.visited.length + 1 := by rw [h.visited]; simp
      obtain ⟨last, hrest⟩ := ih (h.fit fit) (by omega)
      exact ⟨last, .more htaken hrest⟩

/-- Every node that is taken is visited at the next moment. -/
inductive VisitsTaken : List Moment → Prop
  | nil : VisitsTaken []
  | other {moment : Moment} {rest : List Moment} (untaken : moment.event.taken? = none)
      (later : VisitsTaken rest) : VisitsTaken (moment :: rest)
  | take {node : String} {taken visited : Progress} {rest : List Moment}
      (later : VisitsTaken rest) :
      VisitsTaken (⟨.take node, taken⟩ :: ⟨.visit node, visited⟩ :: rest)

theorem VisitsTaken.of_untaken (h : ∀ moment ∈ moments, moment.event.taken? = none)
    (later : VisitsTaken more) : VisitsTaken (moments ++ more) := by
  induction moments with
  | nil => exact later
  | cons moment rest ih =>
    obtain ⟨hmoment, hrest⟩ := List.forall_mem_cons.mp h
    exact .other hmoment (ih hrest)

theorem VisitsTaken.next_visit {before rest : List Moment} {taken : Progress}
    (h : VisitsTaken (before ++ ⟨.take node, taken⟩ :: rest)) :
    ∃ visited more, rest = ⟨.visit node, visited⟩ :: more := by
  generalize hall : before ++ (⟨.take node, taken⟩ :: rest : List Moment) = moments at h
  induction h generalizing before with
  | nil => exact absurd hall (by simp)
  | other untaken _ ih =>
    cases before with
    | nil =>
      obtain ⟨rfl, _⟩ := List.cons.inj hall
      cases untaken
    | cons _ before => exact ih (List.cons.inj hall).2
  | @take node' taken' visited rest' later ih =>
    -- the moment that takes `node` is this one, never the visit behind it, or a later one
    match before, hall with
    | [], hall =>
      obtain ⟨hmoment, rfl⟩ := List.cons.inj hall
      cases hmoment
      exact ⟨visited, rest', rfl⟩
    | [_], hall => cases (List.cons.inj (List.cons.inj hall).2).1
    | _ :: _ :: before, hall => exact ih (List.cons.inj (List.cons.inj hall).2).2

/-- A whole traversal from a node. -/
structure Traversed (graph : Adjacency W) (start : String) (moments : List Moment) : Prop where
  records : ∃ last, Leads Records {} moments last
  visits_nodup : (visits moments).Nodup
  visits_head : (visits moments).head? = some start
  mem_visits : ∀ node, node ∈ visits moments ↔ graph.Reaches start node
  visitsTaken : VisitsTaken moments
  explored : explored moments = (visits moments).flatMap fun node =>
    (graph.neighbors node).map fun other => (node, other)

/-- From fit lists the turns keep them fit until no node waits. -/
theorem Finishes.fit (hturn : TakesTurns graph turn) (h : Finishes turn p moments last)
    (fit : Fit graph start p) : Fit graph start last ∧ last.waiting = [] := by
  induction h with
  | done ends => exact ⟨fit, hturn.ends _ ends⟩
  | more taken _ ih =>
    obtain ⟨node, hnode⟩ := hturn.turns fit.tidy taken
    exact ih (hnode.fit fit)

theorem Finishes.leads (hturn : TakesTurns graph turn) (h : Finishes turn p moments last)
    (tidy : p.Tidy) : Leads Records p moments last := by
  induction h with
  | done => exact .nil
  | more taken _ ih =>
    obtain ⟨node, hnode⟩ := hturn.turns tidy taken
    exact hnode.leads.append (ih (tidy_of_leads hnode.leads tidy))

theorem Finishes.visitsTaken (hturn : TakesTurns graph turn) (h : Finishes turn p moments last)
    (tidy : p.Tidy) : VisitsTaken moments := by
  induction h with
  | done => exact .nil
  | more taken _ ih =>
    obtain ⟨node, hnode⟩ := hturn.turns tidy taken
    obtain ⟨_, _, more, rfl, huntaken⟩ := hnode.begins
    exact .take (.of_untaken huntaken (ih (tidy_of_leads hnode.leads tidy)))

/-- The edges of the nodes that are visited are looked at, in the order of the visits. -/
theorem Finishes.explored_eq (hturn : TakesTurns graph turn) (h : Finishes turn p moments last)
    (tidy : p.Tidy) : explored moments = (visits moments).flatMap fun node =>
      (graph.neighbors node).map fun other => (node, other) := by
  induction h with
  | done => rfl
  | @more p next last moments later taken _ ih =>
    obtain ⟨node, hnode⟩ := hturn.turns tidy taken
    -- what a turn adds to the visited nodes is what its moments visit
    have hvisits : visits moments = [node] :=
      List.append_cancel_left ((visited_eq_of_leads hnode.leads).symm.trans hnode.visited)
    rw [explored_append, visits_append, hnode.explored, ih (tidy_of_leads hnode.leads tidy),
      hvisits]
    rfl

/-- Fit lists in which no node waits hold exactly the reachable nodes. -/
theorem Fit.mem_visited_iff (fit : Fit graph start p) (hends : p.waiting = []) :
    node ∈ p.visited ↔ graph.Reaches start node := by
  have hstart : start ∈ p.visited := by
    rcases fit.first with rfl | hfirst
    · cases hends
    · exact List.mem_of_head? hfirst
  constructor
  · exact fun h => fit.reached node (.inl h)
  · -- the visited nodes hold the start and are closed under edges
    intro h
    induction h with
    | refl => exact hstart
    | tail _ hjoins ih =>
      rcases fit.closed _ ih _ hjoins with h | h
      · exact h
      · rw [hends] at h
        exact absurd h List.not_mem_nil

theorem finishes_traversed (hturn : TakesTurns graph turn)
    (h : Finishes turn (.starting start) moments last) :
    Traversed graph start (⟨.start start, .starting start⟩ :: moments) := by
  have htidy := starting_tidy start
  have hleads := h.leads hturn htidy
  obtain ⟨hfit, hends⟩ := h.fit hturn (starting_fit graph start)
  have hvisits : visits (⟨.start start, .starting start⟩ :: moments) = last.visited :=
    (visited_eq_of_leads hleads).symm
  have hexplored := h.explored_eq hturn htidy
  constructor
  case records => exact ⟨last, .cons ⟨rfl, rfl, htidy⟩ hleads⟩
  case visits_nodup =>
    rw [hvisits]
    exact hfit.tidy.visited_nodup
  case visits_head =>
    rw [hvisits]
    rcases hfit.first with rfl | hfirst
    · cases hends
    · exact hfirst
  case mem_visits =>
    intro node
    rw [hvisits]
    exact hfit.mem_visited_iff hends
  case visitsTaken => exact .other rfl (h.visitsTaken hturn htidy)
  case explored => exact hexplored

end Storyboard.Graph
