import Storyboard.Dispatch
import Storyboard.Proofs.Concept.Resolve
import Storyboard.Proofs.Dispatch.Cascade

/-!
# The animator of a story

A story is tagged with the animator of the concept that it was dispatched under, while its header has
the kind that its simulator found in the program.  The two go together but for two simulators: that of
linked lists tells the kind of list that the program builds, and that of graphs chooses a traversal
where none was asked for.
-/

namespace Storyboard.Dispatch

/-! ## The kinds that simulators tell -/

/-- The simulator of a concept tells its story under another kind, which it has found in the
program. -/
inductive Overrules (code : String) : Concept → Concept → Prop
  | list {hint : ListKind} (built : LinkedList.kindOf code hint ≠ hint) :
      Overrules code (.linkedList hint) (.linkedList (LinkedList.kindOf code hint))
  | graph {graph : Graph.Adjacency Float} (declared : Graph.declared? code = some graph) :
      Overrules code (.graph .generic) (.graph (Graph.traversalOf .generic code graph))

/-- The kinds under which a program is told for a concept. -/
inductive ToldAs (code : String) : Concept → Concept → Prop
  | asked (concept : Concept) : ToldAs code concept concept
  | sorted (kind other : SortKind) : ToldAs code (.sorting kind) (.sorting other)
  | overruled {concept kind : Concept} (h : Overrules code concept kind) : ToldAs code concept kind

variable {code : String} {concept kind : Concept}

theorem traversalOf_generic_ne (code : String) (graph : Graph.Adjacency Float) :
    Graph.traversalOf .generic code graph ≠ .generic := by
  unfold Graph.traversalOf
  dsimp only
  split
  next => nofun
  next => split <;> nofun

/-- The lists of different kinds are played by different animators. -/
theorem animator_linkedList_inj {kind other : ListKind}
    (h : (Concept.linkedList kind).animator = (Concept.linkedList other).animator) :
    kind = other := by
  cases kind <;> cases other <;> first | rfl | cases h

theorem animator_graph_ne {kind : GraphKind} (h : kind ≠ .generic) :
    (Concept.graph .generic).animator ≠ (Concept.graph kind).animator := by
  cases kind with
  | generic => exact absurd rfl h
  | bfs | dfs | weighted => decide

theorem Overrules.animator_ne (h : Overrules code concept kind) :
    concept.animator ≠ kind.animator := by
  cases h with
  | list built => exact fun heq => built (animator_linkedList_inj heq).symm
  | graph declared => exact animator_graph_ne (traversalOf_generic_ne _ _)

/-- The animator of a concept plays what is told for it, unless its simulator overrules it. -/
theorem ToldAs.animator_ne_iff (h : ToldAs code concept kind) :
    concept.animator ≠ kind.animator ↔ Overrules code concept kind := by
  refine ⟨fun hne => ?_, Overrules.animator_ne⟩
  cases h with
  | asked => exact absurd rfl hne
  | sorted => exact absurd rfl hne
  | overruled h => exact h

theorem ToldAs.family_eq (h : ToldAs code concept kind) : kind.family = concept.family := by
  cases h with
  | asked => rfl
  | sorted => rfl
  | overruled h => cases h <;> rfl

/-- What is outside the vocabulary is told as it is. -/
theorem ToldAs.eq_of_other {label : String} (h : ToldAs code concept (.other label)) :
    concept = .other label := by
  cases h with
  | asked => rfl
  | overruled h => cases h

/-! ## The headers of simulators -/

/-- The header is one of the kind. -/
structure IsHeaderOf (kind : Concept) (header : Header) : Prop where
  kind_eq : header.kind = kind
  family_eq : header.family = kind.family

theorem isHeaderOf_conventional (kind : Concept) : IsHeaderOf kind (Header.conventional kind) :=
  ⟨rfl, rfl⟩

theorem isHeaderOf_plain (kind : Concept) : IsHeaderOf kind (Header.plain kind) := ⟨rfl, rfl⟩

theorem IsHeaderOf.withExtra {header : Header} (h : IsHeaderOf kind header) (name : String)
    (value : Json) : IsHeaderOf kind (header.withExtra name value) :=
  ⟨h.kind_eq, h.family_eq⟩

theorem isHeaderOf_queueStory (kind : QueueKind) (code : String) :
    IsHeaderOf (.queue kind) (Simulator.queueStory kind code).header := by
  cases kind with
  | linear | priority | doublePriority => exact isHeaderOf_conventional _
  | circular => exact (isHeaderOf_conventional _).withExtra _ _
  | multiple => exact ((isHeaderOf_conventional _).withExtra _ _).withExtra _ _
  | deque | circularDeque | inputRestrictedDeque | outputRestrictedDeque =>
    rw [Simulator.queueStory, Queue.Deque.simulate]
    dsimp only
    split
    next => exact (isHeaderOf_conventional _).withExtra _ _
    next => exact isHeaderOf_conventional _

theorem isHeaderOf_searchTree (kind : TreeKind) (code : String) :
    IsHeaderOf (.tree kind) (Tree.SearchTree.simulate kind code).header := by
  unfold Tree.SearchTree.simulate
  generalize replay Tree.SearchTree.perform {} (Tree.SearchTree.script code) = told
  obtain ⟨t, steps⟩ := told
  exact (isHeaderOf_conventional _).withExtra _ _

theorem isHeaderOf_bTree (code : String) :
    IsHeaderOf (.tree .bTree) (Tree.BTree.simulate code).header := by
  unfold Tree.BTree.simulate
  split
  next => exact isHeaderOf_conventional _
  next => exact (isHeaderOf_conventional _).withExtra _ _

theorem isHeaderOf_graph {requested : GraphKind} {story : Story}
    (h : Graph.simulate requested code = .ok story) : ∃ graph, Graph.declared? code = some graph ∧
      IsHeaderOf (.graph (Graph.traversalOf requested code graph)) story.header := by
  unfold Graph.simulate at h
  split at h
  next => cases h
  next graph hgraph =>
    split at h
    next => cases h
    next start _ =>
      obtain rfl := Except.ok.inj h
      refine ⟨graph, hgraph, ?_⟩
      exact (((isHeaderOf_conventional _).withExtra _ _).withExtra _ _).withExtra _ _

/-- A graph is traversed as asked, unless nothing was asked for. -/
theorem toldAs_traversalOf {graph : Graph.Adjacency Float} (h : Graph.declared? code = some graph)
    (requested : GraphKind) :
    ToldAs code (.graph requested) (.graph (Graph.traversalOf requested code graph)) := by
  cases requested with
  | generic => exact .overruled (.graph h)
  | bfs | dfs | weighted => exact .asked _

theorem toldAs_kindOf (code : String) (hint : ListKind) :
    ToldAs code (.linkedList hint) (.linkedList (LinkedList.kindOf code hint)) := by
  by_cases h : LinkedList.kindOf code hint = hint
  · rw [h]
    exact .asked _
  · exact .overruled (.list h)

/-- The simulator of a concept tells its story under the concept, or overrules it. -/
theorem exists_toldAs {simulator : Simulator} {story : Story}
    (hroute : Simulator.ofConcept? concept = some simulator)
    (htold : simulator.simulate concept code = .ok story) :
    ∃ kind, ToldAs code concept kind ∧ IsHeaderOf kind story.header := by
  -- graphs and sorting may be told as what the code shows, and the others as they were asked for
  cases concept with
  | stack =>
    obtain rfl := Option.some.inj hroute
    obtain rfl := Except.ok.inj htold
    exact ⟨_, .asked _, (isHeaderOf_conventional _).withExtra _ _⟩
  | queue kind =>
    obtain rfl := Option.some.inj hroute
    obtain rfl := Except.ok.inj htold
    exact ⟨_, .asked _, isHeaderOf_queueStory kind code⟩
  | linkedList hint =>
    obtain rfl := Option.some.inj hroute
    obtain rfl := Except.ok.inj htold
    exact ⟨_, toldAs_kindOf code hint,
      ((isHeaderOf_conventional _).withExtra _ _).withExtra _ _⟩
  | tree kind =>
    cases kind with
    | bTree =>
      obtain rfl := Option.some.inj hroute
      obtain rfl := Except.ok.inj htold
      exact ⟨_, .asked _, isHeaderOf_bTree code⟩
    | generic | bst | avl | redBlack =>
      obtain rfl := Option.some.inj hroute
      obtain rfl := Except.ok.inj htold
      exact ⟨_, .asked _, isHeaderOf_searchTree _ code⟩
  | graph requested =>
    obtain rfl := Option.some.inj hroute
    rw [Simulator.simulate] at htold
    split at htold
    next told hsimulate =>
      obtain rfl := Except.ok.inj htold
      obtain ⟨graph, hgraph, hheader⟩ := isHeaderOf_graph hsimulate
      exact ⟨_, toldAs_traversalOf hgraph requested, hheader⟩
    next => cases htold
  | sorting requested =>
    obtain rfl := Option.some.inj hroute
    obtain rfl := Except.ok.inj htold
    exact ⟨_, .sorted requested (Sorting.algorithm requested code),
      ((isHeaderOf_conventional _).withExtra _ _).withExtra _ _⟩
  | searching | unknown | other => cases hroute

/-! ## Stories that are told locally -/

/-- A story that simulators or notes tell for a concept. -/
def IsToldLocally (code : String) (concept : Concept) (story : Story) : Prop :=
  ∃ kind, ToldAs code concept kind ∧ IsHeaderOf kind story.header

theorem isToldLocally_of_asked {story : Story} (h : IsHeaderOf concept story.header) :
    IsToldLocally code concept story :=
  ⟨concept, .asked concept, h⟩

theorem isToldLocally_universal {story : Story}
    (h : Simulator.universal.simulate concept code = .ok story) :
    IsToldLocally code concept story := by
  obtain rfl := Except.ok.inj h
  exact isToldLocally_of_asked (isHeaderOf_conventional concept)

/-- What a run has told, complete or not, was simulated. -/
theorem simulate_of_run {simulator : Simulator} {story : Story}
    (h : (simulator.run concept code).story? = some story) :
    simulator.simulate concept code = .ok story := by
  unfold Simulator.run at h
  split at h
  next => cases h
  next told htold =>
    rw [htold]
    split at h <;> exact congrArg Except.ok (Option.some.inj h)

/-- Of two stories one is kept. -/
theorem better_cases (first : Option Story) (second : Story) :
    better first second = second ∨ first = some (better first second) := by
  cases first with
  | none => exact Or.inl rfl
  | some story =>
    unfold better
    dsimp only
    split
    next => exact Or.inl rfl
    next => exact Or.inr rfl

theorem isToldLocally_bestPartial {first : Option Story}
    (hfirst : ∀ story ∈ first, IsToldLocally code concept story) :
    ∀ story ∈ bestPartial concept code first, IsToldLocally code concept story := by
  intro story hstory
  obtain ⟨hbest, -⟩ := Option.filter_eq_some_iff.mp hstory
  cases huniversal : (Simulator.universal.run concept code).story? with
  | none =>
    rw [huniversal] at hbest
    exact hfirst story hbest
  | some second =>
    rw [huniversal] at hbest
    obtain rfl : better first second = story := Option.some.inj hbest
    rcases better_cases first second with h | h
    · rw [h]
      exact isToldLocally_universal (simulate_of_run huniversal)
    · exact hfirst _ h

variable {σ : Type}

theorem isToldLocally_fallBack (actions : Option (Memory.Actions σ)) (config : Config)
    {first : Option Story} (hfirst : ∀ story ∈ first, IsToldLocally code concept story) (state : σ) :
    IsToldLocally code concept (fallBack { actions } config concept code first state).1 := by
  rcases run_cases .universal concept code with ⟨story, hrun⟩ | hshort
  · rw [fallBack_of_complete hrun]
    exact isToldLocally_universal (simulate_of_run (congrArg Outcome.story? hrun))
  · rw [fallBack_of_fallsShort hshort]
    show IsToldLocally code concept ((bestPartial concept code first).getD _)
    cases hbest : bestPartial concept code first with
    | none => exact isToldLocally_of_asked (isHeaderOf_plain concept)
    | some story => exact isToldLocally_bestPartial hfirst story hbest

/-- With neither records nor a reconstructor, a story is told locally. -/
theorem isToldLocally_resolve (actions : Option (Memory.Actions σ)) (config : Config)
    (concept : Concept) (code : String) (state : σ) :
    IsToldLocally code concept (resolve { actions } config concept code state).1 := by
  have hexact : exactStory? { actions } config concept code state = (none, state) := rfl
  have hsimilar : similarStory? { actions } config concept code state = (none, state) := rfl
  cases hroute : Simulator.ofConcept? concept with
  | none =>
    rw [resolve_unrouted hexact hroute]
    exact isToldLocally_fallBack actions config
      (fun story hstory => absurd hstory (Option.not_mem_none story)) state
  | some simulator =>
    rw [resolve_routed hexact hroute]
    rcases run_cases simulator concept code with ⟨story, hrun⟩ | hshort
    · rw [simulated_of_complete hrun]
      exact exists_toldAs hroute (simulate_of_run (congrArg Outcome.story? hrun))
    · rw [simulated_of_fallsShort hshort, hsimilar]
      exact isToldLocally_fallBack actions config
        (fun story hstory => exists_toldAs hroute (simulate_of_run hstory)) state

/-! ## The tag -/

/-- Polishing leaves the kind of a story that was told for a reconsidered concept. -/
theorem isHeaderOf_reconsiderKind {header : Header} (h : IsHeaderOf kind header)
    (htold : ToldAs code concept.reconsider kind) : IsHeaderOf kind (reconsiderKind header) := by
  unfold reconsiderKind
  split
  next label hlabel =>
    obtain rfl : kind = .other label := h.kind_eq.symm.trans hlabel
    have hasked := htold.eq_of_other
    have hresolve : Concept.resolve label = .other label := by
      have htwice := concept.reconsider_reconsider
      rwa [hasked] at htwice
    rw [hresolve]
    exact ⟨rfl, rfl⟩
  next => exact h

/-- With neither records nor a reconstructor, a story has the animator of the concept that it was
dispatched under, reconsidered if it was outside the vocabulary, and a header of the same family.  Its
own kind has that animator exactly when no simulator overrules the concept. -/
theorem dispatch_animator (actions : Option (Memory.Actions σ)) (config : Config)
    (concept : Concept) (code : String) (state : σ) :
    (dispatch { actions } config concept code state).1.header.animator =
        some concept.reconsider.animator ∧
      (dispatch { actions } config concept code state).1.header.family =
        (dispatch { actions } config concept code state).1.header.kind.family ∧
      (dispatch { actions } config concept code state).1.header.kind.family =
        concept.reconsider.family ∧
      ((dispatch { actions } config concept code state).1.header.animator ≠
          some (dispatch { actions } config concept code state).1.header.kind.animator ↔
        Overrules code concept.reconsider
          (dispatch { actions } config concept code state).1.header.kind) := by
  obtain ⟨kind, htold, hheader⟩ := isToldLocally_resolve actions config concept.reconsider code state
  have hpolished := isHeaderOf_reconsiderKind hheader htold
  have hkind : (dispatch { actions } config concept code state).1.header.kind = kind :=
    hpolished.kind_eq
  have hfamily : (dispatch { actions } config concept code state).1.header.family = kind.family :=
    hpolished.family_eq
  have hanimator : (dispatch { actions } config concept code state).1.header.animator =
    some concept.reconsider.animator := rfl
  rw [hkind, hfamily, hanimator]
  refine ⟨rfl, rfl, htold.family_eq, ?_⟩
  rw [← htold.animator_ne_iff]
  exact not_congr Option.some_inj

/-- Two nodes of a list that links back. -/
def linkedBack : String := "head = Node(1)\nhead.next = Node(2)\nhead.next.prev = head\n"

/-- A list that links back is told as a doubly linked one and played as a singly linked one. -/
theorem dispatch_animator_overruled :
    (dispatch {} {} (.linkedList .singly) linkedBack ()).1.header.animator ≠
      some (dispatch {} {} (.linkedList .singly) linkedBack ()).1.header.kind.animator := by
  decide +kernel

end Storyboard.Dispatch
