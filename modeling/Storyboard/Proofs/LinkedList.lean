import Storyboard.LinkedList.Simulation
import Storyboard.Proofs.Simulation.Answers
import Mathlib.Data.List.InsertIdx

/-!
# Linked lists change by the operation that a step names

A step tells of one insertion or removal at a position of the list that the step before it has shown,
or of its reversal, or it repeats that list (`Obeys`).  A value is removed where it is met first, and is
reported missing only when no node equals it; a position that is asked for is brought into the list
before anything is inserted there (`Tells`).
-/

namespace Storyboard.LinkedList

variable {nodes : List Literal} {value node : Literal} {step : Step} {index : Nat}

/-! ## What a step does -/

/-- The step names that position. -/
def IsAt (step : Step) (index : Nat) : Prop := step.extra.lookup "index" = some (.ofNat index)

/-- What a step does to the values of the nodes, head first. -/
inductive Moves : List Json → Step → List Json → Prop
  | insert {items : List Json} {step : Step} {index : Nat} {value : Json}
      (action : step.action = "insert") (place : IsAt step index) (inside : index ≤ items.length)
      (told : step.value = some value) : Moves items step (items.insertIdx index value)
  | delete {items : List Json} {step : Step} {index : Nat} {value : Json}
      (action : step.action = "delete") (place : IsAt step index)
      (held : items[index]? = some value) (told : step.value = some value) :
      Moves items step (items.eraseIdx index)
  | reverse {items : List Json} {step : Step} (action : step.action = "reverse") :
      Moves items step items.reverse
  | keep {items : List Json} {step : Step}
      (quiet : step.action ∈ ["not_found", "underflow", "display", "traverse", "visit", "found"]) :
      Moves items step items

/-- The step shows the list with its ends and its length. -/
structure Shows (step : Step) (items : List Json) : Prop where
  state : step.vars.lookup "list_state" = some (.arr items)
  head : step.vars.lookup "head" = some (items.head?.getD .null)
  tail : step.vars.lookup "tail" = some (items.getLast?.getD .null)
  length : step.vars.lookup "length" = some (.ofNat items.length)

/-- The step moves the list as its action says, and shows it as it is afterwards. -/
structure Obeys (before : List Json) (step : Step) (after : List Json) : Prop where
  moves : Moves before step after
  shows : Shows step after

/-- What a step does to the nodes. -/
def Does (before : List Literal) (step : Step) (after : List Literal) : Prop :=
  Obeys (Literal.jsonItems before) step (Literal.jsonItems after)

/-! ## What tells of an operation -/

/-- The first node that equals a value is at that position. -/
structure IsFirst (nodes : List Literal) (value : Literal) (index : Nat) (node : Literal) : Prop where
  held : nodes[index]? = some node
  same : node.same value = true
  first : ∀ earlier < index, ∀ other, nodes[earlier]? = some other → other.same value = false

/-- Where an operation inserts which value, when it is one that inserts and has found its place. -/
def Op.insertion? (nodes : List Literal) : Op → Option (Nat × Literal)
  | createHead value | insert .front value => some (0, value)
  | linkLast value | insert .back value => some (nodes.length, value)
  | insertBy anchor value => (anchor.target? nodes).map fun target => (target, value)
  | delete _ | deleteEnd _ | display _ | traverse | search _ | reverse => none

/-- The steps visit nodes one after the other, the first of them at that position. -/
inductive Visits : Nat → List Literal → List Step → Prop
  | nil {index : Nat} : Visits index [] []
  | cons {index : Nat} {node : Literal} {rest : List Literal} {step : Step} {steps : List Step}
      (action : step.action = "visit") (told : step.value = some node.toJson)
      (place : IsAt step index) (later : Visits (index + 1) rest steps) :
      Visits index (node :: rest) (step :: steps)

/-- The steps compare nodes with a value until one equals it, the first of them at that position. -/
inductive Searches (target : Literal) : Nat → List Literal → List Step → Prop
  | missing {index : Nat} {step : Step} (action : step.action = "not_found") :
      Searches target index [] [step]
  | found {index : Nat} {node : Literal} {rest : List Literal} {step : Step}
      (same : node.same target = true) (action : step.action = "found") (place : IsAt step index) :
      Searches target index (node :: rest) [step]
  | visit {index : Nat} {node : Literal} {rest : List Literal} {step : Step} {steps : List Step}
      (differs : node.same target = false) (action : step.action = "visit")
      (place : IsAt step index) (later : Searches target (index + 1) rest steps) :
      Searches target index (node :: rest) (step :: steps)

/-- The steps that tell of an operation on a linked list. -/
inductive Tells : List Literal → Op → List Step → Prop
  | insert {nodes : List Literal} {op : Op} {target : Nat} {value : Literal} {step : Step}
      (asked : op.insertion? nodes = some (target, value)) (action : step.action = "insert")
      (place : IsAt step (min target nodes.length)) (told : step.value = some value.toJson) :
      Tells nodes op [step]
  | unanchored {nodes : List Literal} {anchor : Anchor} {value : Literal} {step : Step}
      (lost : anchor.target? nodes = none) (action : step.action = "not_found") :
      Tells nodes (.insertBy anchor value) [step]
  | delete {nodes : List Literal} {value : Literal} {index : Nat} {node : Literal} {step : Step}
      (first : IsFirst nodes value index node) (action : step.action = "delete")
      (place : IsAt step index) (told : step.value = some node.toJson) :
      Tells nodes (.delete value) [step]
  | missing {nodes : List Literal} {value : Literal} {step : Step}
      (absent : ∀ node ∈ nodes, node.same value = false) (action : step.action = "not_found") :
      Tells nodes (.delete value) [step]
  | deleteFront {node : Literal} {rest : List Literal} {step : Step}
      (action : step.action = "delete") (place : IsAt step 0)
      (told : step.value = some node.toJson) : Tells (node :: rest) (.deleteEnd .front) [step]
  | deleteBack {front : List Literal} {node : Literal} {step : Step}
      (action : step.action = "delete") (place : IsAt step front.length)
      (told : step.value = some node.toJson) : Tells (front ++ [node]) (.deleteEnd .back) [step]
  | underflow {place : End} {step : Step} (action : step.action = "underflow") :
      Tells [] (.deleteEnd place) [step]
  | display {nodes : List Literal} {backward : Bool} {step : Step}
      (action : step.action = "display") : Tells nodes (.display backward) [step]
  | traverse {nodes : List Literal} {step : Step} {visits : List Step}
      (action : step.action = "traverse") (visited : Visits 0 nodes visits) :
      Tells nodes .traverse (step :: visits)
  | search {nodes : List Literal} {target : Literal} {steps : List Step}
      (searched : Searches target 0 nodes steps) : Tells nodes (.search target) steps
  | reverse {nodes : List Literal} {step : Step} (action : step.action = "reverse") :
      Tells nodes .reverse [step]

/-! ## Performing an operation -/

theorem snapshot_shows (nodes : List Literal) (line : Nat) (action description : String) :
    Shows (snapshot nodes line action description) (Literal.jsonItems nodes) where
  state := rfl
  head := by
    rw [Literal.head?_jsonItems, ← Literal.toJson?_eq]
    rfl
  tail := by
    rw [Literal.getLast?_jsonItems, ← Literal.toJson?_eq]
    rfl
  length := by
    rw [Literal.length_jsonItems]
    rfl

theorem Shows.withValue {items : List Json} (h : Shows step items) (value : Json) :
    Shows (step.withValue value) items := { h with }

theorem Shows.withExtra {items : List Json} (h : Shows step items) (name : String) (value : Json) :
    Shows (step.withExtra name value) items := { h with }

theorem getElem?_jsonItems (nodes : List Literal) (index : Nat) :
    (Literal.jsonItems nodes)[index]? = nodes[index]?.map Literal.toJson := by
  rw [Literal.jsonItems_eq_map, List.getElem?_map]

/-- An insertion is told of an operation that asks for it, inside the list whatever position it asks
for. -/
theorem insertAt_answer {op : Op} {target : Nat} (h : op.insertion? nodes = some (target, value))
    (line : Nat) (description : String) :
    Answer Does Tells nodes op (insertAt nodes line target value description).2
      (insertAt nodes line target value description).1 := by
  refine .single (.insert h rfl rfl rfl) ⟨?_, ((snapshot_shows _ line _ _).withValue _).withExtra _ _⟩
  have hinside : min target nodes.length ≤ (Literal.jsonItems nodes).length := by
    rw [Literal.length_jsonItems]
    exact Nat.min_le_right target nodes.length
  show Moves _ _ (Literal.jsonItems (nodes.insertIdx (min target nodes.length) value))
  rw [Literal.jsonItems_eq_map (nodes.insertIdx _ _), List.map_insertIdx, ← Literal.jsonItems_eq_map]
  exact .insert rfl rfl hinside rfl

/-- A node that the list holds at a position is removed there. -/
theorem deleteAt_leads (h : nodes[index]? = some node) (line : Nat) (label : String) :
    Leads Does nodes (deleteAt nodes line index node label).2
      (deleteAt nodes line index node label).1 := by
  refine .single ⟨?_, ((snapshot_shows _ line _ _).withValue _).withExtra _ _⟩
  have hheld : (Literal.jsonItems nodes)[index]? = some node.toJson := by
    rw [getElem?_jsonItems, h]
    rfl
  show Moves _ _ (Literal.jsonItems (nodes.eraseIdx index))
  rw [Literal.jsonItems_eq_map (nodes.eraseIdx _), ← List.eraseIdx_map, ← Literal.jsonItems_eq_map]
  exact .delete rfl rfl hheld rfl

theorem isFirst_of_position? (h : position? nodes value = some index) :
    ∃ node, IsFirst nodes value index node ∧ nodes.getD index value = node := by
  obtain ⟨hlength, hsame, hbefore⟩ := List.findIdx?_eq_some_iff_getElem.mp h
  have hheld : nodes[index]? = some nodes[index] := List.getElem?_eq_getElem hlength
  refine ⟨nodes[index], ⟨hheld, hsame, fun earlier hearlier other hother => ?_⟩, ?_⟩
  · obtain ⟨_, rfl⟩ := List.getElem?_eq_some_iff.mp hother
    exact Bool.eq_false_iff.mpr (hbefore earlier hearlier)
  · rw [List.getD_eq_getElem?_getD, hheld, Option.getD_some]

theorem insertBy_answer (nodes : List Literal) (line : Nat) (anchor : Anchor) (value : Literal) :
    Answer Does Tells nodes (.insertBy anchor value) (insertBy nodes line anchor value).2
      (insertBy nodes line anchor value).1 := by
  unfold insertBy
  cases htarget : anchor.target? nodes with
  | some target =>
    have hasked : (Op.insertBy anchor value).insertion? nodes = some (target, value) := by
      rw [Op.insertion?, htarget]
      rfl
    exact insertAt_answer hasked line _
  | none =>
    exact .single (.unanchored htarget rfl)
      ⟨.keep (List.mem_of_elem_eq_true rfl), (snapshot_shows nodes line _ _).withValue _⟩

theorem delete_answer (nodes : List Literal) (line : Nat) (value : Literal) :
    Answer Does Tells nodes (.delete value) (delete nodes line value).2
      (delete nodes line value).1 := by
  unfold delete
  cases hposition : position? nodes value with
  | some index =>
    -- the step tells of the node that was held, which need not be written as the value is
    obtain ⟨node, hfirst, hnode⟩ := isFirst_of_position? hposition
    dsimp only
    rw [hnode]
    exact ⟨.delete hfirst rfl rfl rfl, deleteAt_leads hfirst.held line ""⟩
  | none =>
    exact .single (.missing (List.findIdx?_eq_none_iff.mp hposition) rfl)
      ⟨.keep (List.mem_of_elem_eq_true rfl), (snapshot_shows nodes line _ _).withValue _⟩

theorem deleteEnd_answer (nodes : List Literal) (line : Nat) (place : End) :
    Answer Does Tells nodes (.deleteEnd place) (deleteEnd nodes line place).2
      (deleteEnd nodes line place).1 := by
  unfold deleteEnd
  cases place with
  | front =>
    cases nodes with
    | nil =>
      exact .single (.underflow rfl)
        ⟨.keep (List.mem_of_elem_eq_true rfl), snapshot_shows [] line _ _⟩
    | cons node rest => exact ⟨.deleteFront rfl rfl rfl, deleteAt_leads rfl line _⟩
  | back =>
    rcases List.eq_nil_or_concat' nodes with rfl | ⟨front, node, rfl⟩
    · exact .single (.underflow rfl)
        ⟨.keep (List.mem_of_elem_eq_true rfl), snapshot_shows [] line _ _⟩
    · have hheld : (front ++ [node])[front.length]? = some node := List.getElem?_concat_length
      have hlength : (front ++ [node]).length - 1 = front.length := by
        rw [List.length_append, List.length_singleton, Nat.add_sub_cancel]
      rw [List.getLast?_concat, hlength]
      have hleads := deleteAt_leads hheld line "tail "
      -- the head is looked at as well, though nothing depends on it here
      cases front <;> exact ⟨.deleteBack rfl rfl rfl, hleads⟩

/-- The step of a traversal that visits a node. -/
def visitStep (nodes : List Literal) (line index : Nat) (node : Literal) : Step :=
  ((snapshot nodes line "visit" s!"Visit {node.shown}").withValue node.toJson).withExtra
    "index" (.ofNat index)

theorem visitStep_does (nodes : List Literal) (line index : Nat) (node : Literal) :
    Does nodes (visitStep nodes line index node) nodes :=
  ⟨.keep (List.mem_of_elem_eq_true rfl), ((snapshot_shows nodes line _ _).withValue _).withExtra _ _⟩

theorem mapIdx_visitStep (nodes rest : List Literal) (line index : Nat) :
    Visits index rest (rest.mapIdx fun offset => visitStep nodes line (index + offset)) ∧
      Leads Does nodes (rest.mapIdx fun offset => visitStep nodes line (index + offset)) nodes := by
  induction rest generalizing index with
  | nil => exact ⟨.nil, .nil⟩
  | cons node rest ih =>
    -- the positions in the rest are counted from the next one on
    have hshift : (fun offset => visitStep nodes line (index + (offset + 1))) =
        fun offset => visitStep nodes line (index + 1 + offset) := by
      funext offset
      rw [Nat.add_assoc, Nat.add_comm 1]
    obtain ⟨hvisits, hleads⟩ := ih (index + 1)
    rw [List.mapIdx_cons, hshift]
    exact ⟨.cons rfl rfl rfl hvisits, .cons (visitStep_does nodes line index node) hleads⟩

theorem traversalSteps_answer (nodes : List Literal) (line : Nat) :
    Answer Does Tells nodes .traverse (traversalSteps nodes line) nodes := by
  obtain ⟨hvisits, hleads⟩ := mapIdx_visitStep nodes nodes line 0
  simp only [Nat.zero_add] at hvisits hleads
  exact ⟨.traverse rfl hvisits,
    .cons ⟨.keep (List.mem_of_elem_eq_true rfl), snapshot_shows nodes line _ _⟩ hleads⟩

theorem searchFrom_searches (nodes rest : List Literal) (line : Nat) (target : Literal)
    (index : Nat) :
    Searches target index rest (searchFrom nodes line target index rest) ∧
      Leads Does nodes (searchFrom nodes line target index rest) nodes := by
  induction rest generalizing index with
  | nil =>
    exact ⟨.missing rfl, .single
      ⟨.keep (List.mem_of_elem_eq_true rfl), (snapshot_shows nodes line _ _).withValue _⟩⟩
  | cons node rest ih =>
    rw [searchFrom]
    split
    next hsame =>
      exact ⟨.found hsame rfl rfl, .single
        ⟨.keep (List.mem_of_elem_eq_true rfl), (snapshot_shows nodes line _ _).withExtra _ _⟩⟩
    next hdiffers =>
      obtain ⟨hsearches, hleads⟩ := ih (index + 1)
      refine ⟨.visit (Bool.eq_false_iff.mpr hdiffers) rfl rfl hsearches, .cons ?_ hleads⟩
      exact ⟨.keep (List.mem_of_elem_eq_true rfl), (snapshot_shows nodes line _ _).withExtra _ _⟩

/-- An operation on a linked list is answered. -/
theorem performOp_answer (kind : ListKind) (nodes : List Literal) (cue : Cue Op) :
    Answer Does Tells nodes cue.op (performOp kind nodes cue).2 (performOp kind nodes cue).1 := by
  obtain ⟨line, op⟩ := cue
  cases op with
  | createHead value => exact insertAt_answer rfl line _
  | linkLast value => exact insertAt_answer rfl line _
  | insert place value => cases place <;> exact insertAt_answer rfl line _
  | insertBy anchor value => exact insertBy_answer nodes line anchor value
  | delete value => exact delete_answer nodes line value
  | deleteEnd place => exact deleteEnd_answer nodes line place
  | display backward =>
    exact .single (.display rfl)
      ⟨.keep (List.mem_of_elem_eq_true rfl), (snapshot_shows nodes line _ _).withExtra _ _⟩
  | traverse => exact traversalSteps_answer nodes line
  | search target =>
    obtain ⟨hsearches, hleads⟩ := searchFrom_searches nodes nodes line target 0
    exact ⟨.search hsearches, hleads⟩
  | reverse =>
    refine .single (.reverse rfl) ⟨?_, snapshot_shows nodes.reverse line _ _⟩
    show Moves _ _ (Literal.jsonItems nodes.reverse)
    rw [Literal.jsonItems_eq_map nodes.reverse, List.map_reverse, ← Literal.jsonItems_eq_map]
    exact .reverse rfl

/-! ## The story of a program -/

/-- The steps carry out statements one after the other: each is answered operation by operation, with
those operations that it means for the list that it meets. -/
inductive CarriesOut : List Literal → List Statement → List Step → List Literal → Prop
  | nil {nodes : List Literal} : CarriesOut nodes [] [] nodes
  | cons {before between after : List Literal} {statement : Statement}
      {statements : List Statement} {part rest : List Step}
      (first : Answers Does Tells before (statement.ops before.isEmpty) part between)
      (later : CarriesOut between statements rest after) :
      CarriesOut before (statement :: statements) (part ++ rest) after

theorem CarriesOut.leads {before after : List Literal} {statements : List Statement}
    {steps : List Step} (h : CarriesOut before statements steps after) :
    Leads Does before steps after := by
  induction h with
  | nil => exact .nil
  | cons first _ ih => exact first.leads.append ih

theorem perform_answers (kind : ListKind) (nodes : List Literal) (cue : Cue Statement) :
    Answers Does Tells nodes (cue.op.ops nodes.isEmpty) (perform kind nodes cue).2
      (perform kind nodes cue).1 := by
  have hanswers : Answers Does Tells nodes
      (((cue.op.ops nodes.isEmpty).map fun op => (⟨cue.line, op⟩ : Cue Op)).map Cue.op)
      (perform kind nodes cue).2 (perform kind nodes cue).1 :=
    replay_answers (fun _ => True) id
      (fun cue _ nodes _ => ⟨trivial, performOp_answer kind nodes cue⟩) nodes trivial
  rw [map_op_map] at hanswers
  exact hanswers

theorem replay_carriesOut (kind : ListKind) (nodes : List Literal) (cues : List (Cue Statement)) :
    CarriesOut nodes (cues.map Cue.op) (replay (perform kind) nodes cues).2
      (replay (perform kind) nodes cues).1 := by
  induction cues generalizing nodes with
  | nil => exact .nil
  | cons cue rest ih => exact .cons (perform_answers kind nodes cue) (ih _)

/-- The story of a linked list carries out the statements of its program on the empty list, and every
step changes the list of the step before it by the operation that it names. -/
theorem simulate_carriesOut (hint : ListKind) (code : String) :
    ∃ last, Leads Obeys [] (simulate hint code).steps (Literal.jsonItems last) ∧
      CarriesOut [] ((script code).map Cue.op) (simulate hint code).steps last := by
  have hcarries := replay_carriesOut (kindOf code hint) [] (script code)
  exact ⟨_, .of_view Literal.jsonItems hcarries.leads, hcarries⟩

end Storyboard.LinkedList
