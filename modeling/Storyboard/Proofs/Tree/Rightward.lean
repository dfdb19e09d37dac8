import Storyboard.Proofs.Simulation.Answers
import Storyboard.Proofs.Tree.Search

/-!
# Search trees in programs grow to the right

The values that a program inserts are sorted, each is kept once, and all are inserted before anything
else is done.  So each of them comes after all that stand in the tree, and is hung to the right of the
last one.  As long as insertions come in increasing order, whatever is done between them, no node ever
has a left subtree (`replay_answers_of_ascending`): what hangs below a node takes its place when it goes,
and no node has two subtrees.  The nodes from the root down are what every traversal visits, in this
order or, after those below them, in the opposite one.
-/

namespace Storyboard.Tree

/-- The nodes as they are visited in an order when each hangs to the right of the one before. -/
def Order.along : Order → List Node → List Node
  | .postorder, nodes => nodes.reverse
  | .inorder, nodes | .preorder, nodes | .levels, nodes => nodes

namespace Binary

variable {t t' : Binary} {new : Node} {value : Literal} {removal : Removal}

/-- No node has a left subtree. -/
def NoLeft : Binary → Prop
  | leaf => True
  | branch _ left right => left = leaf ∧ right.NoLeft

theorem NoLeft.root? (h : t.NoLeft) : t.root? = t.inorder.head? := by
  cases t with
  | leaf => rfl
  | branch node left right =>
    obtain ⟨rfl, -⟩ := h
    rfl

/-! ## Walks -/

theorem NoLeft.preorder (h : t.NoLeft) : t.preorder = t.inorder := by
  induction t with
  | leaf => rfl
  | branch node left right _ ih =>
    obtain ⟨rfl, hright⟩ := h
    exact congrArg (node :: ·) (ih hright)

theorem NoLeft.postorder (h : t.NoLeft) : t.postorder = t.inorder.reverse := by
  induction t with
  | leaf => rfl
  | branch node left right _ ih =>
    obtain ⟨rfl, hright⟩ := h
    show right.postorder ++ [node] = (node :: right.inorder).reverse
    rw [ih hright, List.reverse_cons]

theorem NoLeft.flatten_levels (h : t.NoLeft) : t.levels.flatten = t.inorder := by
  induction t with
  | leaf => rfl
  | branch node left right _ ih =>
    obtain ⟨rfl, hright⟩ := h
    exact congrArg (node :: ·) (ih hright)

/-- Every walk visits the nodes from the root down, or the other way round. -/
theorem NoLeft.walk (h : t.NoLeft) (order : Order) : t.walk order = order.along t.inorder := by
  cases order with
  | inorder => rfl
  | preorder => exact h.preorder
  | postorder => exact h.postorder
  | levels => exact h.flatten_levels

/-! ## Insertion and removal -/

/-- A value that comes before none of the nodes turns right at each of them. -/
theorem NoLeft.descent (h : t.NoLeft)
    (hlast : ∀ node ∈ t.inorder, ¬ value.before node.value = true) :
    t.descent value = t.inorder.map fun node => (node, Side.right) := by
  induction t with
  | leaf => rfl
  | branch node left right _ ih =>
    obtain ⟨rfl, hright⟩ := h
    obtain ⟨hnode, hbelow⟩ := List.forall_mem_cons.mp hlast
    rw [Binary.descent, if_neg hnode, ih hright hbelow]
    rfl

/-- A node whose value comes before none of the others is hung below the last of them. -/
theorem NoLeft.insert (h : t.NoLeft) (new : Node)
    (hlast : ∀ node ∈ t.inorder, ¬ new.value.before node.value = true) :
    (t.insert new).NoLeft ∧ (t.insert new).inorder = t.inorder ++ [new] := by
  induction t with
  | leaf => exact ⟨⟨rfl, trivial⟩, rfl⟩
  | branch node left right _ ih =>
    obtain ⟨rfl, hright⟩ := h
    obtain ⟨hnode, hbelow⟩ := List.forall_mem_cons.mp hlast
    obtain ⟨hnoLeft, hinorder⟩ := ih hright hbelow
    rw [Binary.insert, if_neg hnode]
    exact ⟨⟨rfl, hnoLeft⟩, congrArg (node :: ·) hinorder⟩

theorem removeRoot_leaf (node : Node) (right : Binary) :
    removeRoot node leaf right = (right, .unlinked node) := by
  cases hpop : right.popLeftmost? with
  | none =>
    rw [popLeftmost?_eq_none.mp hpop]
    rfl
  | some popped => simp only [removeRoot, hpop]

/-- A node that is removed has at most one subtree, which takes its place. -/
theorem NoLeft.remove? (h : t.NoLeft) (hremove : t.remove? value = some (t', removal)) :
    t'.NoLeft ∧ ∃ above node below, removal = .unlinked node ∧ value.same node.value = true ∧
      t.inorder = above ++ node :: below ∧ t'.inorder = above ++ below := by
  induction t generalizing t' with
  | leaf => cases hremove
  | branch node left right _ ih =>
    obtain ⟨rfl, hright⟩ := h
    rw [Binary.remove?] at hremove
    split at hremove
    next hsame =>
      rw [removeRoot_leaf] at hremove
      cases hremove
      exact ⟨hright, [], node, right.inorder, rfl, hsame, rfl, rfl⟩
    next =>
      split at hremove
      next => cases hremove
      next =>
        obtain ⟨⟨right', removal'⟩, hrest, heq⟩ := Option.map_eq_some_iff.mp hremove
        cases heq
        obtain ⟨hnoLeft, above, found, below, hremoval, hsame, hold, hnew⟩ := ih hright hrest
        exact ⟨⟨rfl, hnoLeft⟩, node :: above, found, below, hremoval, hsame,
          congrArg (node :: ·) hold, congrArg (node :: ·) hnew⟩

end Binary

namespace SearchTree

variable {t : SearchTree} {cue : Cue Op} {cues : List (Cue Op)} {nodes : List Node} {step : Step}

/-! ## What a step does -/

/-- What a step does to the nodes from the root down. -/
inductive Moves : List Node → Step → List Node → Prop
  | create {nodes : List Node} {new : Node} {step : Step}
      (last : ∀ node ∈ nodes, node.value.before new.value = true)
      (action : step.action = "create_node") (named : step.nodeId = some new.id) :
      Moves nodes step (nodes ++ [new])
  | delete {above below : List Node} {node : Node} {step : Step} (action : step.action = "delete")
      (named : step.nodeId = some node.id) : Moves (above ++ node :: below) step (above ++ below)
  | keep {nodes : List Node} {step : Step}
      (quiet : step.action ∈
        ["compare", "set_root", "link_child", "found", "not_found", "traverse", "visit"]) :
      Moves nodes step nodes

theorem Moves.action_ne_replace {before after : List Node} (h : Moves before step after) :
    step.action ≠ "replace" := by
  intro haction
  cases h with
  | create last action named => exact absurd (action.symm.trans haction) (by decide)
  | delete action named => exact absurd (action.symm.trans haction) (by decide)
  | keep quiet =>
    rw [haction] at quiet
    exact absurd quiet (by decide)

/-- The step shows the values with their number, and the first of them at the root. -/
structure Shows (step : Step) (nodes : List Node) : Prop where
  size : step.vars.lookup "size" = some (.ofNat nodes.length)
  values : step.vars.lookup "inorder" = some (.arr (Literal.jsonItems (nodes.map Node.value)))
  root : step.vars.lookup "root" = some (Literal.toJson? (nodes.head?.map Node.value))

/-- The step moves the nodes as its action says, and shows them as they are afterwards. -/
structure Obeys (before : List Node) (step : Step) (after : List Node) : Prop where
  moves : Moves before step after
  shows : Shows step after

/-- An insertion is compared with a node and turns right there. -/
structure PassesRight (node : Node) (step : Step) : Prop where
  action : step.action = "compare"
  named : step.nodeId = some node.id
  direction : step.extra.lookup "direction" = some (.str "right")

/-- The step hangs a new node to the right of its parent, or makes it the root if it has none. -/
inductive Hangs (new : Node) : Option Node → Step → Prop
  | root {step : Step} (action : step.action = "set_root") (named : step.nodeId = some new.id) :
      Hangs new none step
  | right {parent : Node} {step : Step} (action : step.action = "link_child")
      (source : step.source = some parent.id) (target : step.target = some new.id)
      (side : step.extra.lookup "side" = some (.str "right")) : Hangs new (some parent) step

/-- The step compares a value with a node without going anywhere. -/
structure Probes (step : Step) : Prop where
  action : step.action = "compare"
  direction : step.extra.lookup "direction" = none

/-- The step visits a node. -/
structure Visits (node : Node) (step : Step) : Prop where
  action : step.action = "visit"
  named : step.nodeId = some node.id
  told : step.value = some node.value.toJson

/-- The steps that tell of an operation on nodes that hang to the right of each other. -/
inductive Tells : List Node → Op → List Step → Prop
  | insert {nodes : List Node} (new : Node) {compares : List Step} {create link : Step}
      (passed : List.Forall₂ PassesRight nodes compares) (action : create.action = "create_node")
      (named : create.nodeId = some new.id) (hung : Hangs new nodes.getLast? link) :
      Tells nodes (.insert new.value) (compares ++ [create, link])
  | delete {nodes : List Node} {value : Literal} {node : Node} {probes : List Step} {last : Step}
      (probed : ∀ step ∈ probes, Probes step) (held : node ∈ nodes)
      (same : value.same node.value = true) (action : last.action = "delete")
      (named : last.nodeId = some node.id) : Tells nodes (.delete value) (probes ++ [last])
  | missing {nodes : List Node} {value : Literal} {probes : List Step} {last : Step}
      (probed : ∀ step ∈ probes, Probes step) (action : last.action = "not_found") :
      Tells nodes (.delete value) (probes ++ [last])
  | search {nodes : List Node} {value : Literal} {probes : List Step} {last : Step}
      (probed : ∀ step ∈ probes, Probes step) (ended : last.action ∈ ["found", "not_found"]) :
      Tells nodes (.search value) (probes ++ [last])
  | traverse {nodes : List Node} {order : Order} {first : Step} {visits : List Step}
      (action : first.action = "traverse")
      (named : first.extra.lookup "order" = some (.str (orderName order)))
      (visited : List.Forall₂ Visits (order.along nodes) visits) :
      Tells nodes (.traverse order) (first :: visits)

/-! ## Performing an operation -/

theorem snapshot_shows (h : t.tree.NoLeft) (line : Nat) (action description : String) :
    Shows (snapshot t line action description) t.tree.inorder where
  size := by
    rw [← List.length_map Node.value]
    rfl
  values := rfl
  root := by
    rw [← h.root?]
    rfl

theorem Shows.withValue (h : Shows step nodes) (value : Json) : Shows (step.withValue value) nodes :=
  { h with }

theorem Shows.withNode (h : Shows step nodes) (node : String) : Shows (step.withNode node) nodes :=
  { h with }

theorem Shows.withEdge (h : Shows step nodes) (source target : String) :
    Shows (step.withEdge source target) nodes := { h with }

theorem Shows.withExtra (h : Shows step nodes) (name : String) (value : Json) :
    Shows (step.withExtra name value) nodes := { h with }

theorem snapshotAt_shows (h : t.tree.NoLeft) (line : Nat) (node : Node) (value : Literal)
    (action description : String) :
    Shows (snapshotAt t line node value action description) t.tree.inorder :=
  ((snapshot_shows h line action description).withNode _).withValue _

/-- The comparisons of a search leave the tree as it is. -/
theorem probeSteps_answer (h : t.tree.NoLeft) (line : Nat) (value : Literal) :
    (∀ step ∈ probeSteps t line value, Probes step) ∧
      Leads Obeys t.tree.inorder (probeSteps t line value) t.tree.inorder := by
  refine ⟨fun step hstep => ?_, .of_forall_keeps fun step hstep => ?_⟩
  · obtain ⟨node, -, rfl⟩ := List.mem_map.mp hstep
    exact ⟨rfl, rfl⟩
  · obtain ⟨node, -, rfl⟩ := List.mem_map.mp hstep
    exact ⟨.keep (List.mem_of_elem_eq_true rfl), snapshotAt_shows h line node value _ _⟩

/-- An insertion behind all nodes is compared with each of them, and turns right there. -/
theorem descentSteps_answer {value : Literal} (h : t.tree.NoLeft)
    (hlast : ∀ node ∈ t.tree.inorder, ¬ value.before node.value = true) (line : Nat) :
    List.Forall₂ PassesRight t.tree.inorder (descentSteps t line value) ∧
      Leads Obeys t.tree.inorder (descentSteps t line value) t.tree.inorder := by
  rw [descentSteps, h.descent hlast, List.map_map]
  refine ⟨?_, .of_forall_keeps fun step hstep => ?_⟩
  · rw [List.forall₂_map_right_iff, List.forall₂_same]
    exact fun node _ => ⟨rfl, rfl, rfl⟩
  · obtain ⟨node, -, rfl⟩ := List.mem_map.mp hstep
    exact ⟨.keep (List.mem_of_elem_eq_true rfl), (snapshotAt_shows h line node value _ _).withExtra _ _⟩

theorem performInsert_answer {value : Literal} (h : t.tree.NoLeft)
    (hlast : ∀ node ∈ t.tree.inorder, node.value.before value = true) (line : Nat) :
    (performInsert t line value).1.tree.NoLeft ∧
      Answer Obeys Tells t.tree.inorder (.insert value) (performInsert t line value).2
        (performInsert t line value).1.tree.inorder := by
  have hafter : ∀ node ∈ t.tree.inorder, ¬ value.before node.value = true :=
    fun node hnode => Literal.not_before_of_before (hlast node hnode)
  obtain ⟨hgrown, hinorder⟩ := h.insert (t.nextNode value) hafter
  obtain ⟨hpasses, hleads⟩ := descentSteps_answer h hafter line
  have hshows : ∀ action description, Shows (snapshot (t.insert value) line action description)
      (t.tree.inorder ++ [t.nextNode value]) := by
    intro action description
    rw [← hinorder]
    exact snapshot_shows hgrown line action description
  have hlink : Hangs (t.nextNode value) t.tree.inorder.getLast?
      (linkStep (t.insert value) line (t.nextNode value) (t.tree.descent value).getLast?) ∧
      Obeys (t.tree.inorder ++ [t.nextNode value])
        (linkStep (t.insert value) line (t.nextNode value) (t.tree.descent value).getLast?)
        (t.tree.inorder ++ [t.nextNode value]) := by
    rw [h.descent hafter, List.getLast?_map]
    -- the first node is the root, and any other one hangs to the right of the last
    cases t.tree.inorder.getLast? with
    | none =>
      exact ⟨.root rfl rfl, .keep (List.mem_of_elem_eq_true rfl), (hshows _ _).withNode _⟩
    | some parent =>
      exact ⟨.right rfl rfl rfl rfl, .keep (List.mem_of_elem_eq_true rfl),
        (((hshows _ _).withNode _).withEdge _ _).withExtra _ _⟩
  refine ⟨hgrown, .insert (t.nextNode value) hpasses rfl rfl hlink.1, hleads.append ?_⟩
  show Leads Obeys t.tree.inorder _ (t.insert value).tree.inorder
  rw [show (t.insert value).tree.inorder = t.tree.inorder ++ [t.nextNode value] from hinorder]
  exact .cons ⟨.create hlast rfl rfl, ((hshows _ _).withNode _).withValue _⟩ (.single hlink.2)

theorem performDelete_answer (h : t.tree.NoLeft) (line : Nat) (value : Literal) :
    (performDelete t line value).1.tree.NoLeft ∧
      Answer Obeys Tells t.tree.inorder (.delete value) (performDelete t line value).2
        (performDelete t line value).1.tree.inorder := by
  obtain ⟨hprobes, hleads⟩ := probeSteps_answer h line value
  unfold performDelete
  cases hremove : t.tree.remove? value with
  | none =>
    refine ⟨h, .missing hprobes rfl, hleads.append (.single ⟨.keep ?_, ?_⟩)⟩
    · exact List.mem_of_elem_eq_true rfl
    · exact (snapshot_shows h line _ _).withValue _
  | some removed =>
    obtain ⟨tree, removal⟩ := removed
    obtain ⟨hleft, above, node, below, rfl, hsame, hold, hnew⟩ := h.remove? hremove
    have hheld : node ∈ t.tree.inorder := by
      rw [hold]
      exact List.mem_append_right above List.mem_cons_self
    refine ⟨hleft, .delete hprobes hheld hsame rfl rfl, hleads.append (.single ⟨?_, ?_⟩)⟩
    · show Moves t.tree.inorder _ tree.inorder
      rw [hold, hnew]
      exact .delete rfl rfl
    · exact snapshotAt_shows (t := { t with tree }) hleft line node value _ _

theorem searchSteps_answer (h : t.tree.NoLeft) (line : Nat) (value : Literal) :
    Answer Obeys Tells t.tree.inorder (.search value) (searchSteps t line value) t.tree.inorder := by
  obtain ⟨hprobes, hleads⟩ := probeSteps_answer h line value
  unfold searchSteps
  cases t.tree.find? value with
  | some node =>
    refine ⟨.search hprobes (List.mem_of_elem_eq_true rfl), hleads.append (.single ⟨.keep ?_, ?_⟩)⟩
    · exact List.mem_of_elem_eq_true rfl
    · exact snapshotAt_shows h line node value _ _
  | none =>
    refine ⟨.search hprobes (List.mem_of_elem_eq_true rfl), hleads.append (.single ⟨.keep ?_, ?_⟩)⟩
    · exact List.mem_of_elem_eq_true rfl
    · exact (snapshot_shows h line _ _).withValue _

theorem traversalSteps_answer (h : t.tree.NoLeft) (line : Nat) (order : Order) :
    Answer Obeys Tells t.tree.inorder (.traverse order) (traversalSteps t line order)
      t.tree.inorder := by
  unfold traversalSteps
  rw [h.walk]
  refine ⟨.traverse rfl rfl ?_, .cons ⟨.keep (List.mem_of_elem_eq_true rfl), ?_⟩ ?_⟩
  · rw [List.forall₂_map_right_iff, List.forall₂_same]
    exact fun node _ => ⟨rfl, rfl, rfl⟩
  · exact (snapshot_shows h line _ _).withExtra _ _
  · refine .of_forall_keeps fun step hstep => ?_
    obtain ⟨node, -, rfl⟩ := List.mem_map.mp hstep
    exact ⟨.keep (List.mem_of_elem_eq_true rfl), snapshotAt_shows h line node node.value _ _⟩

/-- An operation is answered and leaves no node with a left subtree, when what it inserts comes after all
nodes. -/
theorem perform_answer (h : t.tree.NoLeft) (cue : Cue Op)
    (hlast : ∀ value, cue.op = .insert value → ∀ node ∈ t.tree.inorder,
      node.value.before value = true) :
    (perform t cue).1.tree.NoLeft ∧
      Answer Obeys Tells t.tree.inorder cue.op (perform t cue).2 (perform t cue).1.tree.inorder := by
  obtain ⟨line, op⟩ := cue
  cases op with
  | insert value => exact performInsert_answer h (hlast value rfl) line
  | delete value => exact performDelete_answer h line value
  | search value => exact ⟨h, searchSteps_answer h line value⟩
  | traverse order => exact ⟨h, traversalSteps_answer h line order⟩

/-! ## Insertions in increasing order -/

/-- An operation leaves values that were there, in their order, and behind them the one it inserts. -/
theorem values_perform_sublist (h : t.tree.NoLeft) (cue : Cue Op)
    (hlast : ∀ value, cue.op = .insert value → ∀ node ∈ t.tree.inorder,
      node.value.before value = true) :
    (perform t cue).1.values.Sublist (t.values ++ ((insertion? cue).map Prod.fst).toList) := by
  obtain ⟨line, op⟩ := cue
  cases op with
  | insert value =>
    have hinsert := h.insert (t.nextNode value) fun node hnode =>
      Literal.not_before_of_before (hlast value rfl node hnode)
    show ((t.insert value).tree.inorder.map Node.value).Sublist (t.values ++ [value])
    rw [show (t.insert value).tree.inorder = _ from hinsert.2, List.map_append]
    exact List.Sublist.refl _
  | delete value =>
    refine List.Sublist.trans ?_ (List.sublist_append_left t.values [])
    show (performDelete t line value).1.values.Sublist t.values
    obtain ⟨-, hsame, -⟩ | ⟨tree, removal, hremove, hleft, -⟩ := performDelete_cases t line value
    · rw [hsame]
    · obtain ⟨before, found, after, -, hold, hnew⟩ := Binary.values_remove? hremove
      rw [hleft, show t.values = _ from hold, show SearchTree.values { t with tree } = _ from hnew]
      exact (List.sublist_cons_self found after).append_left before
  | search value => exact List.sublist_append_left t.values []
  | traverse order => exact List.sublist_append_left t.values []

/-- Operations are answered and leave no node with a left subtree, when what they insert comes after the
values of the tree and in increasing order. -/
theorem replay_answers_of_ascending (h : t.tree.NoLeft)
    (hascending : (t.values ++ inserted cues).Pairwise fun a b => a.before b = true) :
    (replay perform t cues).1.tree.NoLeft ∧
      Answers Obeys Tells t.tree.inorder (cues.map Cue.op) (replay perform t cues).2
        (replay perform t cues).1.tree.inorder := by
  induction cues generalizing t with
  | nil => exact ⟨h, .nil⟩
  | cons cue rest ih =>
    rw [inserted_cons] at hascending
    have hlast : ∀ value, cue.op = .insert value → ∀ node ∈ t.tree.inorder,
        node.value.before value = true := by
      intro value hop node hnode
      have hvalue : value ∈ ((insertion? cue).map Prod.fst).toList ++ inserted rest := by
        rw [insertion?, hop]
        exact List.mem_cons_self
      exact (List.pairwise_append.mp hascending).2.2 _ (List.mem_map_of_mem hnode) _ hvalue
    obtain ⟨hnext, hanswer⟩ := perform_answer h cue hlast
    rw [← List.append_assoc] at hascending
    obtain ⟨hnoLeft, hanswers⟩ :=
      ih hnext (hascending.sublist ((values_perform_sublist h cue hlast).append_right _))
    exact ⟨hnoLeft, .cons hanswer hanswers⟩

/-- From the empty tree on it is enough that the insertions come in increasing order. -/
theorem replay_answers_of_inserted
    (hascending : (inserted cues).Pairwise fun a b => a.before b = true) :
    (replay perform {} cues).1.tree.NoLeft ∧
      Answers Obeys Tells [] (cues.map Cue.op) (replay perform {} cues).2
        (replay perform {} cues).1.tree.inorder :=
  replay_answers_of_ascending (t := {}) trivial hascending

/-! ## The script of a program -/

/-- Keeping each value of a sorted list once leaves the values in increasing order. -/
theorem eachKeptOnce_pairwise (last : Option Literal) {entries : List (Literal × Nat)}
    (hfree : ∀ value ∈ last.toList ++ entries.map Prod.fst, value.isFloatFree = true)
    (hsorted : (last.toList ++ entries.map Prod.fst).Pairwise fun a b => ¬ b.before a = true) :
    (last.toList ++ (eachKeptOnce last entries).map Prod.fst).Pairwise
      fun a b => a.before b = true := by
  induction entries generalizing last with
  | nil => cases last <;> simp [eachKeptOnce]
  | cons entry rest ih =>
    obtain ⟨value, line⟩ := entry
    have hdropped : (last.toList ++ rest.map Prod.fst).Sublist
        (last.toList ++ ((value, line) :: rest).map Prod.fst) :=
      (List.sublist_cons_self _ _).append_left _
    rw [eachKeptOnce]
    split
    next => exact ih last (fun v hv => hfree v (hdropped.mem hv)) (hsorted.sublist hdropped)
    next hnew =>
      have hkept := ih (some value) (fun v hv => hfree v (List.mem_append_right _ hv))
        (List.pairwise_append.mp hsorted).2.1
      cases last with
      | none => exact hkept
      | some v =>
        rw [Option.any_some, Literal.same_iff (hfree value (by simp)) (hfree v (by simp))] at hnew
        -- in a sorted list a value that is not the last one again comes behind it
        have hfirst : v.before value = true := by
          obtain hlt | heq | hgt := Literal.before_trichotomy (hfree v (by simp)) (hfree value (by simp))
          · exact hlt
          · exact absurd heq.symm hnew
          · exact absurd hgt ((List.pairwise_cons.mp hsorted).1 value List.mem_cons_self)
        refine List.pairwise_cons.mpr ⟨fun other hother => ?_, hkept⟩
        rcases List.mem_cons.mp hother with rfl | hother
        · exact hfirst
        · have hheld := ((eachKeptOnce_sublist _ rest).map Prod.fst).mem hother
          exact Literal.before_trans (hfree v (by simp)) (hfree value (by simp))
            (hfree other (by simp [hheld])) hfirst ((List.pairwise_cons.mp hkept).1 other hother)

/-- Keeping each value once loses none of them. -/
theorem mem_of_eachKeptOnce (last : Option Literal) {entries : List (Literal × Nat)}
    (hfree : ∀ value ∈ last.toList ++ entries.map Prod.fst, value.isFloatFree = true) :
    ∀ value ∈ entries.map Prod.fst,
      value ∈ last.toList ++ (eachKeptOnce last entries).map Prod.fst := by
  induction entries generalizing last with
  | nil => exact fun value hvalue => absurd hvalue List.not_mem_nil
  | cons entry rest ih =>
    obtain ⟨value, line⟩ := entry
    rw [eachKeptOnce]
    split
    next hsame =>
      refine List.forall_mem_cons.mpr ⟨?_, ih last fun v hv => hfree v ?_⟩
      · cases last with
        | none => exact absurd hsame Bool.false_ne_true
        | some v =>
          have hvalue := (Literal.same_iff (hfree value (by simp)) (hfree v (by simp))).mp hsame
          exact List.mem_append_left _ (List.mem_singleton.mpr hvalue)
      · exact ((List.sublist_cons_self _ _).append_left _).mem hv
    next =>
      refine List.forall_mem_cons.mpr ⟨by simp, fun other hother => ?_⟩
      exact List.mem_append_right _
        (ih (some value) (fun v hv => hfree v (List.mem_append_right _ hv)) other hother)

/-- Sorted, each kept once, the values that requests insert are the same and come in increasing order. -/
theorem insertions_pairwise {requests : List (Cue Op)}
    (hfree : ∀ value ∈ inserted requests, value.isFloatFree = true) :
    (((insertions requests).map Prod.fst).Pairwise fun a b => a.before b = true) ∧
      ∀ value, value ∈ (insertions requests).map Prod.fst ↔ value ∈ inserted requests := by
  unfold inserted at hfree ⊢
  unfold insertions
  generalize requests.filterMap insertion? = entries at hfree ⊢
  have hperm := (Literal.sortBy_perm Prod.fst entries).map Prod.fst
  have hsorted : ((Literal.sortBy Prod.fst entries).map Prod.fst).Pairwise
      fun a b => ¬ b.before a = true := by
    rw [List.pairwise_map]
    exact Literal.sortBy_pairwise Prod.fst fun entry hentry => hfree _ (List.mem_map_of_mem hentry)
  have hfree' : ∀ value ∈ (Literal.sortBy Prod.fst entries).map Prod.fst, value.isFloatFree = true :=
    fun value hvalue => hfree value (hperm.mem_iff.mp hvalue)
  refine ⟨eachKeptOnce_pairwise none hfree' hsorted, fun value => ⟨fun h => ?_, fun h => ?_⟩⟩
  · exact hperm.mem_iff.mp (((eachKeptOnce_sublist _ _).map Prod.fst).mem h)
  · exact mem_of_eachKeptOnce none hfree' value (hperm.mem_iff.mpr h)

/-- Cues that insert values insert just these. -/
theorem filterMap_insertion?_map (entries : List (Literal × Nat)) :
    (entries.map fun (value, line) => (⟨line, .insert value⟩ : Cue Op)).filterMap insertion? =
      entries := by
  rw [List.filterMap_map]
  exact List.filterMap_some

/-- The script inserts the sorted values of the requests, and nothing else. -/
theorem inserted_script (code : String) :
    inserted (script code) = (insertions (requests code)).map Prod.fst := by
  have hnone : ((requests code).filter fun cue => (insertion? cue).isNone).filterMap insertion? = [] := by
    rw [List.filterMap_eq_nil_iff]
    exact fun cue hcue => Option.isNone_iff_eq_none.mp (List.mem_filter.mp hcue).2
  rw [inserted, script, List.filterMap_append, hnone, List.append_nil, filterMap_insertion?_map]

theorem steps_simulate (kind : TreeKind) (code : String) :
    (simulate kind code).steps = (replay perform {} (script code)).2 := by
  unfold simulate
  generalize replay perform {} (script code) = told
  rfl

/-- What is told of a search tree in a program. -/
structure GrowsRightward (kind : TreeKind) (code : String) : Prop where
  /-- The insertions come in increasing order. -/
  ascending : (inserted (script code)).Pairwise fun a b => a.before b = true
  /-- They are the insertions that the program asks for. -/
  collected : ∀ value, value ∈ inserted (script code) ↔ value ∈ inserted (requests code)
  /-- At no time has a node a left subtree. -/
  noLeft : ∀ before after, script code = before ++ after →
    (replay perform {} before).1.tree.NoLeft
  /-- At any time all orders visit the same nodes one after the other, postorder the other way
  round. -/
  walks : ∀ before after, script code = before ++ after → ∀ order,
    (replay perform {} before).1.tree.walk order =
      order.along (replay perform {} before).1.tree.inorder
  /-- The story replays the script from the empty tree: what is inserted turns right at every node and
  is hung to the right, and what is traversed is visited from the root down. -/
  replays : Replays Obeys Tells [] ((script code).map Cue.op) (simulate kind code).steps
  /-- No value is replaced by the one that follows it. -/
  replacesNothing : ∀ step ∈ (simulate kind code).steps, step.action ≠ "replace"

/-- Where no double is inserted, the search tree of a program grows to the right only, whatever is
deleted from it. -/
theorem simulate_growsRightward (kind : TreeKind) (code : String)
    (hfree : ∀ value ∈ inserted (requests code), value.isFloatFree = true) :
    GrowsRightward kind code := by
  obtain ⟨hascending, hcollected⟩ := insertions_pairwise hfree
  rw [← inserted_script] at hascending
  simp only [← inserted_script] at hcollected
  have hnoLeft : ∀ before after, script code = before ++ after →
      (replay perform {} before).1.tree.NoLeft := by
    intro before after hscript
    rw [hscript, inserted, List.filterMap_append, List.map_append] at hascending
    exact (replay_answers_of_inserted (List.pairwise_append.mp hascending).1).1
  have hanswers := (replay_answers_of_inserted hascending).2
  rw [← steps_simulate kind] at hanswers
  constructor
  case ascending => exact hascending
  case collected => exact hcollected
  case noLeft => exact hnoLeft
  case walks => exact fun before after hscript order => (hnoLeft before after hscript).walk order
  case replays => exact hanswers.replays
  case replacesNothing =>
    intro step hstep haction
    obtain ⟨nodes, left, hobeys⟩ := hanswers.leads.exists_of_mem hstep
    exact hobeys.moves.action_ne_replace haction

/-- A value that is inserted twice, the deletion of a node with others above and below it, and
traversals. -/
def shuffledCode : String :=
  "t.insert(20)\nt.insert(10)\nt.delete(20)\nt.insert(30)\nt.insert(10)\nt.preorder()\nt.postorder()\n"

theorem simulate_growsRightward_shuffled :
    (∀ value ∈ inserted (requests shuffledCode), value.isFloatFree = true) ∧
      ((simulate .bst shuffledCode).steps.filter fun step => step.action == "visit").map Step.nodeId =
        [some "n1", some "n3", some "n3", some "n1"] ∧
      GrowsRightward .bst shuffledCode := by
  have hfree : ∀ value ∈ inserted (requests shuffledCode), value.isFloatFree = true := by
    decide +kernel
  exact ⟨hfree, by decide +kernel, simulate_growsRightward .bst shuffledCode hfree⟩

end SearchTree

end Storyboard.Tree
