import Storyboard.Proofs.Simulation.Answers
import Storyboard.Proofs.Simulation.Cause

/-!
# Deques keep to their restriction and their capacity

What is told of a deque replays from the empty one (`Obeys`): a step changes the end that its action
names, by its value, unless an insertion meets a full deque or a removal an empty one.  The capacity is
the one that the program declares last before its first operation (`declaredCapacity`); later
declarations count for nothing, so the deque never holds more.  A restricted deque tells one error for
every call that it refuses, and never of the operation itself.
-/

namespace Storyboard.Queue.Deque

variable {kind : QueueKind} {line : Source.Line} {bindings : Source.Bindings} {call : Source.Call}

/-! ## The capacity of the deque in a program -/

/-- The capacity that a line declares; only a circular deque has one. -/
def hint? (kind : QueueKind) (line : Source.Line) : Option Nat :=
  if kind = .circularDeque then Source.capacityHint? line.text else none

/-- A call on the line asks for an operation. -/
def usesDeque (kind : QueueKind) (line : Source.Line) (bindings : Source.Bindings) : Bool :=
  !((Source.calls line.text).filterMap (opsOfCall? kind line bindings)).isEmpty

/-- The capacity that is declared last on the lines up to the first one with an operation, if one is
declared there at all. -/
def capacityFrom (kind : QueueKind) :
    Option Nat → List (Source.Line × Source.Bindings) → Option Nat
  | capacity, [] => capacity
  | capacity, (line, bindings) :: rest =>
    let declared := (hint? kind line).or capacity
    if usesDeque kind line bindings then declared else capacityFrom kind declared rest

/-- The capacity that the deque of a program has for all its operations. -/
def declaredCapacity (kind : QueueKind) (code : String) : Option Nat :=
  capacityFrom kind (initial kind).capacity (Source.boundLines code)

theorem capacityFrom_isSome (capacity : Option Nat) (lines : List (Source.Line × Source.Bindings))
    (hcapacity : capacity.isSome ↔ kind = .circularDeque) :
    (capacityFrom kind capacity lines).isSome ↔ kind = .circularDeque := by
  induction lines generalizing capacity with
  | nil => exact hcapacity
  | cons entry rest ih =>
    obtain ⟨line, bindings⟩ := entry
    have hdeclared : ((hint? kind line).or capacity).isSome ↔ kind = .circularDeque := by
      rw [Option.isSome_or, Bool.or_eq_true, hcapacity, hint?]
      split
      next hkind => exact iff_of_true (Or.inr hkind) hkind
      next hkind => exact iff_of_false (not_or.mpr ⟨nofun, hkind⟩) hkind
    rw [capacityFrom]
    split
    next => exact hdeclared
    next => exact ih _ hdeclared

/-- A circular deque has a capacity, and no other one has. -/
theorem declaredCapacity_isSome (kind : QueueKind) (code : String) :
    (declaredCapacity kind code).isSome ↔ kind = .circularDeque := by
  refine capacityFrom_isSome _ _ ?_
  rw [initial]
  split
  next hkind => exact iff_of_true rfl hkind
  next hkind => exact iff_of_false nofun hkind

-- the second size stands, and the third comes too late
example : declaredCapacity .circularDeque "size = 2\nsize = 5\nd.insert_rear(1)\nsize = 7\n" = some 5 := by
  decide +kernel

/-! ## What a step does -/

/-- The items with a value more at an end. -/
def End.extend {β : Type} (value : β) (items : List β) : End → List β
  | front => value :: items
  | rear => items ++ [value]

/-- What a step does to a deque with the given capacity, if it has one. -/
inductive Moves (capacity : Option Nat) : List Json → Step → List Json → Prop
  | insert {items : List Json} {step : Step} {value : Json} (at_ : End)
      (room : ∀ bound ∈ capacity, items.length < bound) (action : step.action = at_.insertion)
      (told : step.value = some value) : Moves capacity items step (at_.extend value items)
  | remove {items : List Json} {step : Step} {value : Json} (at_ : End)
      (action : step.action = at_.removal) (told : step.value = some value) :
      Moves capacity (at_.extend value items) step items
  | overflow {items : List Json} {step : Step} (full : capacity = some items.length)
      (action : step.action = "overflow") : Moves capacity items step items
  | underflow {step : Step} (action : step.action = "underflow") : Moves capacity [] step []
  | keep {items : List Json} {step : Step}
      (quiet : step.action ∈ ["peek_front", "peek_back", "display", "error"]) :
      Moves capacity items step items

/-- The step shows the deque with its ends, its size and its capacity. -/
structure Shows (capacity : Option Nat) (step : Step) (items : List Json) : Prop where
  deque : step.vars.lookup "deque_state" = some (.arr items)
  front : step.vars.lookup "front" = some (items.head?.getD .null)
  rear : step.vars.lookup "rear" = some (items.getLast?.getD .null)
  size : step.vars.lookup "size" = some (.ofNat items.length)
  capacity : step.vars.lookup "capacity" = capacity.map Json.ofNat

/-- The step moves the deque as its action says, and shows it as it is afterwards, within its
capacity. -/
structure Obeys (capacity : Option Nat) (before : List Json) (step : Step) (after : List Json) :
    Prop where
  moves : Moves capacity before step after
  shows : Shows capacity step after
  fits : ∀ bound ∈ capacity, after.length ≤ bound

/-- The steps that tell of an operation on a deque with the given capacity.  A capacity is declared
while the deque is empty only. -/
inductive Tells (capacity : Option Nat) : List Json → Op → List Step → Prop
  | insert {items : List Json} {at_ : End} {value : Literal} {step : Step}
      (room : ∀ bound ∈ capacity, items.length < bound) (action : step.action = at_.insertion)
      (told : step.value = some value.toJson) : Tells capacity items (.insert at_ value) [step]
  | overflow {items : List Json} {at_ : End} {value : Literal} {step : Step}
      (full : capacity = some items.length) (action : step.action = "overflow")
      (told : step.value = some value.toJson) : Tells capacity items (.insert at_ value) [step]
  | remove {items : List Json} {at_ : End} {step : Step} (held : items ≠ [])
      (action : step.action = at_.removal) : Tells capacity items (.remove at_) [step]
  | underflow {at_ : End} {step : Step} (action : step.action = "underflow") :
      Tells capacity [] (.remove at_) [step]
  | peek {items : List Json} {at_ : End} {step : Step} (action : step.action = at_.look) :
      Tells capacity items (.peek at_) [step]
  | display {items : List Json} {step : Step} (action : step.action = "display") :
      Tells capacity items .display [step]
  | blocked {items : List Json} {call reason : String} {step : Step}
      (action : step.action = "error") (named : step.extra.lookup "blocked" = some (.str call))
      (described : step.description = s!"{call} blocked: {reason}") :
      Tells capacity items (.blocked call reason) [step]
  | declare {bound : Nat} : Tells capacity [] (.declare bound) []

/-! ## Performing an operation -/

theorem End.jsonItems_add (at_ : End) (value : Literal) (items : List Literal) :
    Literal.jsonItems (at_.add value items) = at_.extend value.toJson (Literal.jsonItems items) := by
  cases at_ with
  | front => rfl
  | rear => exact Literal.jsonItems_append items [value]

/-- An end has an item exactly when there is one, and the rest is what it was put to. -/
theorem End.item?_cases (at_ : End) (items : List Literal) :
    (items = [] ∧ at_.item? items = none) ∨
      ∃ value, at_.item? items = some value ∧ items = at_.add value (at_.rest items) := by
  cases at_ with
  | front =>
    cases items with
    | nil => exact Or.inl ⟨rfl, rfl⟩
    | cons value rest => exact Or.inr ⟨value, rfl, rfl⟩
  | rear =>
    cases hlast : items.getLast? with
    | none => exact Or.inl ⟨List.getLast?_eq_none_iff.mp hlast, hlast⟩
    | some value => exact Or.inr ⟨value, hlast, (List.dropLast_append_getLast? value hlast).symm⟩

theorem End.extend_ne_nil {β : Type} (at_ : End) (value : β) (items : List β) :
    at_.extend value items ≠ [] := by
  cases at_ with
  | front => exact List.cons_ne_nil value items
  | rear => exact List.append_ne_nil_of_right_ne_nil items (List.cons_ne_nil value [])

theorem End.length_add (at_ : End) (value : Literal) (items : List Literal) :
    (at_.add value items).length = items.length + 1 := by
  cases at_ with
  | front => rfl
  | rear => exact List.length_append

/-- The deque has the given capacity and keeps to it. -/
structure State.Keeps (capacity : Option Nat) (state : State) : Prop where
  capacity_eq : state.capacity = capacity
  fits : ∀ bound ∈ capacity, state.items.length ≤ bound

/-- The items of a deque as data. -/
def State.view (state : State) : List Json := Literal.jsonItems state.items

variable {capacity : Option Nat} {state : State}

theorem State.Keeps.snapshot_shows (h : state.Keeps capacity) (number : Nat)
    (action description : String) :
    Shows capacity (state.snapshot number action description) state.view where
  deque := rfl
  front := by
    rw [view, Literal.head?_jsonItems, ← Literal.toJson?_eq]
    rfl
  rear := by
    rw [view, Literal.getLast?_jsonItems, ← Literal.toJson?_eq]
    rfl
  size := by
    rw [view, Literal.length_jsonItems]
    rfl
  capacity := by
    rw [← h.capacity_eq]
    show ([_, _, _, _] ++ optionalMember "capacity" Json.ofNat state.capacity).lookup "capacity" = _
    cases state.capacity <;> rfl

theorem Shows.withValue {step : Step} {items : List Json} (h : Shows capacity step items)
    (value : Json) : Shows capacity (step.withValue value) items := { h with }

theorem Shows.withExtra {step : Step} {items : List Json} (h : Shows capacity step items)
    (name : String) (value : Json) : Shows capacity (step.withExtra name value) items := { h with }

/-- A deque that keeps to its capacity has room, or is full to the last place. -/
theorem State.Keeps.isFull_cases (h : state.Keeps capacity) :
    (state.isFull = false ∧ ∀ bound ∈ capacity, state.items.length < bound) ∨
      (state.isFull = true ∧ capacity = some state.items.length) := by
  rw [isFull, h.capacity_eq]
  cases capacity with
  | none => exact Or.inl ⟨rfl, nofun⟩
  | some bound =>
    have hfits : state.items.length ≤ bound := h.fits bound rfl
    by_cases hfull : bound ≤ state.items.length
    · exact Or.inr ⟨decide_eq_true hfull, congrArg some (Nat.le_antisymm hfull hfits)⟩
    · refine Or.inl ⟨decide_eq_false hfull, ?_⟩
      rintro _ ⟨⟩
      exact Nat.lt_of_not_le hfull

theorem State.Keeps.add (h : state.Keeps capacity)
    (hroom : ∀ bound ∈ capacity, state.items.length < bound) (at_ : End) (value : Literal) :
    State.Keeps capacity { state with items := at_.add value state.items } where
  capacity_eq := h.capacity_eq
  fits bound hbound := by
    rw [End.length_add]
    exact hroom bound hbound

theorem State.Keeps.rest (h : state.Keeps capacity) (at_ : End) :
    State.Keeps capacity { state with items := at_.rest state.items } where
  capacity_eq := h.capacity_eq
  fits bound hbound := by
    refine Nat.le_trans ?_ (h.fits bound hbound)
    cases at_ with
    | front => exact (List.tail_sublist _).length_le
    | rear => exact (List.dropLast_sublist _).length_le

theorem State.Keeps.fits_view (h : state.Keeps capacity) :
    ∀ bound ∈ capacity, state.view.length ≤ bound := by
  rw [view, Literal.length_jsonItems]
  exact h.fits

/-- A value is put to an end while there is room, and is refused by a full deque. -/
theorem performInsert_answer (h : state.Keeps capacity) (number : Nat) (at_ : End) (value : Literal) :
    (perform state ⟨number, .insert at_ value⟩).1.Keeps capacity ∧
      Answer (Obeys capacity) (Tells capacity) state.view (.insert at_ value)
        (perform state ⟨number, .insert at_ value⟩).2
        (perform state ⟨number, .insert at_ value⟩).1.view := by
  have hlength : state.view.length = state.items.length := Literal.length_jsonItems _
  unfold perform
  dsimp only
  obtain ⟨hfull, hroom⟩ | ⟨hfull, hcapacity⟩ := h.isFull_cases
  · rw [hfull, if_neg Bool.false_ne_true]
    have hgrown := h.add hroom at_ value
    rw [← hlength] at hroom
    refine ⟨hgrown, .single (.insert hroom rfl rfl) ⟨?_, ?_, hgrown.fits_view⟩⟩
    · show Moves capacity _ _ (Literal.jsonItems (at_.add value state.items))
      rw [End.jsonItems_add]
      exact .insert at_ hroom rfl rfl
    · exact (hgrown.snapshot_shows number _ _).withValue _
  · rw [hfull, if_pos rfl]
    rw [← hlength] at hcapacity
    refine ⟨h, .single (.overflow hcapacity rfl rfl) ⟨.overflow hcapacity rfl, ?_, h.fits_view⟩⟩
    exact (h.snapshot_shows number _ _).withValue _

/-- An item is taken from an end when there is one. -/
theorem performRemove_answer (h : state.Keeps capacity) (number : Nat) (at_ : End) :
    (perform state ⟨number, .remove at_⟩).1.Keeps capacity ∧
      Answer (Obeys capacity) (Tells capacity) state.view (.remove at_)
        (perform state ⟨number, .remove at_⟩).2 (perform state ⟨number, .remove at_⟩).1.view := by
  unfold perform
  dsimp only
  obtain ⟨hitems, hnone⟩ | ⟨value, hsome, hitems⟩ := at_.item?_cases state.items
  · rw [hnone]
    obtain ⟨items, bound⟩ := state
    obtain rfl := hitems
    exact ⟨h, .single (.underflow rfl) ⟨.underflow rfl, h.snapshot_shows number _ _, h.fits_view⟩⟩
  · rw [hsome]
    have hleft := h.rest at_
    -- the deque before is the one afterwards with the item at that end
    have hview : state.view =
        at_.extend value.toJson (Literal.jsonItems (at_.rest state.items)) := by
      rw [State.view, ← End.jsonItems_add, ← hitems]
    refine ⟨hleft, .single (.remove ?_ rfl) ⟨?_, ?_, hleft.fits_view⟩⟩
    · rw [hview]
      exact at_.extend_ne_nil _ _
    · rw [hview]
      exact .remove at_ rfl rfl
    · exact (hleft.snapshot_shows number _ _).withValue _

/-- An operation on a deque that keeps to its capacity is answered, and leaves it so. -/
theorem perform_answer (h : state.Keeps capacity) (cue : Cue Op) (hop : ¬cue.op.IsDeclaration) :
    (perform state cue).1.Keeps capacity ∧
      Answer (Obeys capacity) (Tells capacity) state.view cue.op (perform state cue).2
        (perform state cue).1.view := by
  obtain ⟨number, op⟩ := cue
  -- only insertions and removals change the deque
  cases op with
  | declare bound => exact absurd ⟨bound, rfl⟩ hop
  | insert at_ value => exact performInsert_answer h number at_ value
  | remove at_ => exact performRemove_answer h number at_
  | peek at_ =>
    unfold perform
    dsimp only
    split
    next value _ =>
      refine ⟨h, .single (.peek rfl) ⟨.keep ?_, (h.snapshot_shows number _ _).withValue _, h.fits_view⟩⟩
      cases at_ <;> exact List.mem_of_elem_eq_true rfl
    next =>
      refine ⟨h, .single (.peek rfl) ⟨.keep ?_, h.snapshot_shows number _ _, h.fits_view⟩⟩
      cases at_ <;> exact List.mem_of_elem_eq_true rfl
  | display =>
    exact ⟨h, .single (.display rfl) ⟨.keep (List.mem_of_elem_eq_true rfl),
      h.snapshot_shows number _ _, h.fits_view⟩⟩
  | blocked call reason =>
    exact ⟨h, .single (.blocked rfl rfl rfl) ⟨.keep (List.mem_of_elem_eq_true rfl),
      (h.snapshot_shows number _ _).withExtra _ _, h.fits_view⟩⟩

/-! ## What a script asks for -/

/-- The verb that asks for an operation. -/
def Op.verb? : Op → Option Verb
  | insert at_ _ => some (.insert at_)
  | remove at_ => some (.remove at_)
  | peek at_ => some (.peek at_)
  | display => some .display
  | declare _ | blocked _ _ => none

theorem verb?_of_mem_opsOfVerb {verb : Verb} {operand : Option (List Char)} :
    ∀ op ∈ opsOfVerb bindings verb operand, op.verb? = some verb := by
  intro op hop
  cases verb with
  | insert at_ =>
    cases operand with
    | none => exact absurd hop List.not_mem_nil
    | some operand =>
      obtain ⟨value, -, rfl⟩ := List.mem_map.mp hop
      rfl
  | remove at_ =>
    obtain ⟨-, rfl⟩ := List.mem_replicate.mp hop
    rfl
  | peek at_ =>
    obtain rfl := List.mem_singleton.mp hop
    rfl
  | display =>
    obtain rfl := List.mem_singleton.mp hop
    rfl

/-- Why a call is refused, when it asks for an operation that the restriction forbids. -/
def refusal? (kind : QueueKind) (line : Source.Line) (call : Source.Call) : Option String := do
  let verb ← verb? call
  let (receiver, operand) ← operands? verb call
  if line.isDefinition receiver operand then none else (restriction kind).refusal? verb

/-- A call asks for nothing, or is refused and asks for an error that names it, or asks for
operations of a verb that is not refused. -/
theorem opsOfCall?_cases (kind : QueueKind) (line : Source.Line) (bindings : Source.Bindings)
    (call : Source.Call) :
    (opsOfCall? kind line bindings call = none ∧ refusal? kind line call = none) ∨
    (∃ reason, opsOfCall? kind line bindings call = some [.blocked (shownCall call) reason] ∧
      refusal? kind line call = some reason) ∨
    ∃ verb operand, opsOfCall? kind line bindings call = some (opsOfVerb bindings verb operand) ∧
      refusal? kind line call = none ∧ (restriction kind).refusal? verb = none := by
  unfold opsOfCall? refusal?
  cases verb? call with
  | none => exact Or.inl ⟨rfl, rfl⟩
  | some verb =>
    simp only [Option.bind_eq_bind, Option.bind_some]
    cases operands? verb call with
    | none => exact Or.inl ⟨rfl, rfl⟩
    | some operands =>
      simp only [Option.bind_some]
      split
      next => exact Or.inl ⟨rfl, rfl⟩
      next =>
        cases hrefusal : (restriction kind).refusal? verb with
        | some reason => exact Or.inr (Or.inl ⟨reason, rfl, rfl⟩)
        | none => exact Or.inr (Or.inr ⟨verb, operands.2, rfl, rfl, hrefusal⟩)

/-- The operation is an error that names a call, or it is not forbidden. -/
def Op.IsAllowed (kind : QueueKind) (op : Op) : Prop :=
  (∃ call reason, op = .blocked call reason) ∨
    ∃ verb, op.verb? = some verb ∧ (restriction kind).refusal? verb = none

theorem Op.IsAllowed.not_isDeclaration {op : Op} (h : op.IsAllowed kind) : ¬op.IsDeclaration := by
  rintro ⟨bound, rfl⟩
  obtain ⟨call, reason, hop⟩ | ⟨verb, hverb, -⟩ := h
  · nomatch hop
  · nomatch hverb

theorem isAllowed_of_opsOfCall? {ops : List Op} (h : opsOfCall? kind line bindings call = some ops) :
    ∀ op ∈ ops, op.IsAllowed kind := by
  intro op hop
  obtain ⟨hnone, -⟩ | ⟨reason, hsome, -⟩ | ⟨verb, operand, hsome, -, hallowed⟩ :=
    opsOfCall?_cases kind line bindings call
  · rw [hnone] at h
    nomatch h
  · obtain rfl := Option.some.inj (hsome.symm.trans h)
    exact Or.inl ⟨_, reason, List.mem_singleton.mp hop⟩
  · obtain rfl := Option.some.inj (hsome.symm.trans h)
    exact Or.inr ⟨verb, verb?_of_mem_opsOfVerb op hop, hallowed⟩

/-- The operations that the calls of a line ask for. -/
def opsOfCalls (kind : QueueKind) (line : Source.Line) (bindings : Source.Bindings) : List Op :=
  ((Source.calls line.text).filterMap (opsOfCall? kind line bindings)).flatten

theorem isAllowed_of_mem_opsOfCalls : ∀ op ∈ opsOfCalls kind line bindings, op.IsAllowed kind := by
  intro op hop
  obtain ⟨ops, hops, hmem⟩ := List.mem_flatten.mp hop
  obtain ⟨call, -, hcall⟩ := List.mem_filterMap.mp hops
  exact isAllowed_of_opsOfCall? hcall op hmem

theorem scriptFrom_cons (started : Bool) (line : Source.Line) (bindings : Source.Bindings)
    (rest : List (Source.Line × Source.Bindings)) :
    scriptFrom kind started ((line, bindings) :: rest) =
      cuesOn line (opsOfDeclaration kind started line) ++
        (cuesOn line (opsOfCalls kind line bindings) ++
          scriptFrom kind (started || usesDeque kind line bindings) rest) := by
  rw [scriptFrom, cuesOn, List.map_append, List.append_assoc]
  rfl

/-- Whatever a script asks for is allowed, or declared before the first operation. -/
theorem isAllowed_of_mem_scriptFrom (started : Bool)
    (lines : List (Source.Line × Source.Bindings)) :
    ∀ cue ∈ scriptFrom kind started lines,
      cue.op.IsAllowed kind ∨ started = false ∧ cue.op.IsDeclaration := by
  induction lines generalizing started with
  | nil => exact fun cue hcue => absurd hcue List.not_mem_nil
  | cons entry rest ih =>
    obtain ⟨line, bindings⟩ := entry
    intro cue hcue
    rw [scriptFrom_cons] at hcue
    rcases List.mem_append.mp hcue with hdeclared | hcue
    · obtain ⟨op, hop, rfl⟩ := List.mem_map.mp hdeclared
      cases started with
      | true =>
        rw [opsOfDeclaration, if_neg (fun h => Bool.false_ne_true h.2)] at hop
        nomatch hop
      | false => exact Or.inr ⟨rfl, isDeclaration_of_mem kind false op hop⟩
    · rcases List.mem_append.mp hcue with hcall | hlater
      · obtain ⟨op, hop, rfl⟩ := List.mem_map.mp hcall
        exact Or.inl (isAllowed_of_mem_opsOfCalls op hop)
      · exact (ih _ cue hlater).imp_right fun h => ⟨(Bool.or_eq_false_iff.mp h.1).1, h.2⟩

theorem opsOfDeclaration_eq (line : Source.Line) :
    opsOfDeclaration kind false line = (hint? kind line).toList.map .declare := by
  rw [opsOfDeclaration, hint?]
  by_cases hkind : kind = .circularDeque
  · rw [if_pos ⟨hkind, rfl⟩, if_pos hkind]
  · rw [if_neg (fun h => hkind h.1), if_neg hkind]
    rfl

/-- A declaration sets the capacity of the empty deque and tells nothing. -/
theorem replay_declaration (line : Source.Line) (capacity : Option Nat) (cues : List (Cue Op)) :
    replay perform ⟨[], capacity⟩ (cuesOn line (opsOfDeclaration kind false line) ++ cues) =
      replay perform ⟨[], (hint? kind line).or capacity⟩ cues := by
  rw [opsOfDeclaration_eq]
  cases hint? kind line <;> rfl

theorem declaration_answers (line : Source.Line) :
    Answers (Obeys capacity) (Tells capacity) []
      ((cuesOn line (opsOfDeclaration kind false line)).map Cue.op) [] [] := by
  rw [opsOfDeclaration_eq]
  cases hint? kind line with
  | none => exact .nil
  | some bound => exact .cons ⟨.declare, .nil⟩ .nil

/-- Operations that declare nothing are answered from the empty deque. -/
theorem replay_answers_of_not_isDeclaration {cues : List (Cue Op)}
    (h : ∀ cue ∈ cues, ¬cue.op.IsDeclaration) (capacity : Option Nat) :
    Answers (Obeys capacity) (Tells capacity) [] (cues.map Cue.op)
      (replay perform ⟨[], capacity⟩ cues).2 (replay perform ⟨[], capacity⟩ cues).1.view := by
  refine replay_answers (State.Keeps capacity) State.view ?_ ⟨[], capacity⟩ ⟨rfl, ?_⟩
  · exact fun cue hcue state hstate => perform_answer hstate cue (h cue hcue)
  · exact fun bound _ => Nat.zero_le bound

/-- What is told of lines that start with an empty deque answers their script, within the capacity
that is declared last before the first operation. -/
theorem scriptFrom_answers (kind : QueueKind) (capacity : Option Nat)
    (lines : List (Source.Line × Source.Bindings)) :
    Answers (Obeys (capacityFrom kind capacity lines)) (Tells (capacityFrom kind capacity lines)) []
      ((scriptFrom kind false lines).map Cue.op)
      (replay perform ⟨[], capacity⟩ (scriptFrom kind false lines)).2
      (replay perform ⟨[], capacity⟩ (scriptFrom kind false lines)).1.view := by
  induction lines generalizing capacity with
  | nil => exact .nil
  | cons entry rest ih =>
    obtain ⟨line, bindings⟩ := entry
    rw [scriptFrom_cons, replay_declaration, List.map_append, capacityFrom]
    refine Answers.append (declaration_answers line) ?_
    cases huses : usesDeque kind line bindings with
    | true =>
      rw [if_pos rfl]
      refine replay_answers_of_not_isDeclaration (fun cue hcue => ?_) _
      rcases List.mem_append.mp hcue with hcall | hlater
      · obtain ⟨op, hop, rfl⟩ := List.mem_map.mp hcall
        exact (isAllowed_of_mem_opsOfCalls op hop).not_isDeclaration
      · rcases isAllowed_of_mem_scriptFrom _ rest cue hlater with hallowed | ⟨hnotStarted, -⟩
        · exact hallowed.not_isDeclaration
        · nomatch hnotStarted
    | false =>
      -- no call on the line asks for anything, and the deque is as empty as before
      have hnone : opsOfCalls kind line bindings = [] := by
        rw [usesDeque, Bool.not_eq_false'] at huses
        rw [opsOfCalls, List.isEmpty_iff.mp huses, List.flatten_nil]
      rw [hnone, if_neg Bool.false_ne_true]
      exact ih _

/-- The story of a deque answers its script from the empty deque. -/
theorem simulate_answers (kind : QueueKind) (code : String) :
    ∃ items, Answers (Obeys (declaredCapacity kind code)) (Tells (declaredCapacity kind code)) []
      ((script kind code).map Cue.op) (simulate kind code).steps items :=
  ⟨_, scriptFrom_answers kind _ _⟩

/-! ## Refused calls -/

/-- The call that an error names. -/
def Op.refused? : Op → Option String
  | blocked call _ => some call
  | _ => none

/-- The calls of a program that are refused. -/
def refusedCalls (kind : QueueKind) (code : String) : List Source.Call :=
  (Source.scan code).flatMap fun line =>
    (Source.calls line.text).filter fun call => (refusal? kind line call).isSome

/-- The calls that the errors among the steps name. -/
def namedCalls (steps : List Step) : List (Option Json) :=
  (steps.filter fun step => step.action == "error").map fun step => step.extra.lookup "blocked"

theorem namedCalls_of_action {step : Step} {action : String} (haction : step.action = action)
    (hne : action ≠ "error") : namedCalls [step] = [] := by
  rw [namedCalls, List.filter_singleton, haction, beq_eq_false_iff_ne.mpr hne]
  rfl

/-- The steps of an operation name its call when it is refused, and none otherwise. -/
theorem Tells.namedCalls_eq {items : List Json} {op : Op} {part : List Step}
    (h : Tells capacity items op part) :
    namedCalls part = op.refused?.toList.map fun call => some (.str call) := by
  cases h with
  | @insert items at_ value step room action told =>
    exact namedCalls_of_action action (by cases at_ <;> decide)
  | overflow full action told => exact namedCalls_of_action action (by decide)
  | @remove items at_ step held action =>
    exact namedCalls_of_action action (by cases at_ <;> decide)
  | underflow action => exact namedCalls_of_action action (by decide)
  | @peek items at_ step action => exact namedCalls_of_action action (by cases at_ <;> decide)
  | display action => exact namedCalls_of_action action (by decide)
  | @blocked items call reason step action named described =>
    rw [namedCalls, List.filter_singleton, action]
    exact congrArg (fun name => [name]) named
  | declare => rfl

/-- The errors of a story name the calls that are refused, one each and in order. -/
theorem namedCalls_of_answers {before after : List Json} {ops : List Op} {steps : List Step}
    (h : Answers (Obeys capacity) (Tells capacity) before ops steps after) :
    namedCalls steps = (ops.filterMap Op.refused?).map fun call => some (.str call) := by
  induction h with
  | nil => rfl
  | @cons before between after op ops part rest first _ ih =>
    have hpart := first.told.namedCalls_eq
    rw [namedCalls] at ih hpart ⊢
    rw [List.filter_append, List.map_append, ih, hpart, List.filterMap_cons]
    cases op.refused? <;> rfl

/-- The refusals that a call asks for name it. -/
theorem refused_of_call (kind : QueueKind) (line : Source.Line) (bindings : Source.Bindings)
    (call : Source.Call) :
    ((opsOfCall? kind line bindings call).getD []).filterMap Op.refused? =
      if (refusal? kind line call).isSome then [shownCall call] else [] := by
  obtain ⟨hops, hrefusal⟩ | ⟨reason, hops, hrefusal⟩ | ⟨verb, operand, hops, hrefusal, -⟩ :=
    opsOfCall?_cases kind line bindings call
  · rw [hops, hrefusal]
    rfl
  · rw [hops, hrefusal]
    rfl
  · rw [hops, hrefusal]
    refine List.filterMap_eq_nil_iff.mpr fun op hop => ?_
    have hverb := verb?_of_mem_opsOfVerb op hop
    cases op with
    | blocked call reason => nomatch hverb
    | _ => rfl

theorem refused_of_calls (calls : List Source.Call) :
    ((calls.filterMap (opsOfCall? kind line bindings)).flatten).filterMap Op.refused? =
      (calls.filter fun call => (refusal? kind line call).isSome).map shownCall := by
  induction calls with
  | nil => rfl
  | cons call rest ih =>
    have hcall := refused_of_call kind line bindings call
    have hflatten : ((call :: rest).filterMap (opsOfCall? kind line bindings)).flatten =
        (opsOfCall? kind line bindings call).getD [] ++
          (rest.filterMap (opsOfCall? kind line bindings)).flatten := by
      rw [List.filterMap_cons]
      cases opsOfCall? kind line bindings call <;> rfl
    rw [hflatten, List.filterMap_append, hcall, ih, List.filter_cons]
    cases (refusal? kind line call).isSome <;> rfl

/-- The refusals of a script are those of the calls on its lines. -/
theorem refused_scriptFrom (kind : QueueKind) (started : Bool)
    (lines : List (Source.Line × Source.Bindings)) :
    ((scriptFrom kind started lines).map Cue.op).filterMap Op.refused? =
      ((lines.map Prod.fst).flatMap fun line =>
        (Source.calls line.text).filter fun call => (refusal? kind line call).isSome).map
          shownCall := by
  induction lines generalizing started with
  | nil => rfl
  | cons entry rest ih =>
    obtain ⟨line, bindings⟩ := entry
    have hdeclared : (opsOfDeclaration kind started line).filterMap Op.refused? = [] := by
      refine List.filterMap_eq_nil_iff.mpr fun op hop => ?_
      obtain ⟨bound, rfl⟩ := isDeclaration_of_mem kind started op hop
      rfl
    rw [scriptFrom_cons, List.map_append, List.map_append, cuesOn, map_op_map, cuesOn, map_op_map,
      List.filterMap_append, List.filterMap_append, hdeclared, ih, opsOfCalls, refused_of_calls,
      List.map_cons, List.flatMap_cons, List.map_append, List.nil_append]

/-! ## Refused operations -/

/-- What an operation of a verb is called when it takes place. -/
def Verb.action : Verb → String
  | insert at_ => at_.insertion
  | remove at_ => at_.removal
  | peek at_ => at_.look
  | display => "display"

/-- Each verb has an action of its own. -/
theorem Verb.eq_of_action_eq {verb other : Verb} (h : verb.action = other.action) :
    verb = other := by
  rcases verb with (_ | _) | (_ | _) | (_ | _) | _ <;>
    rcases other with (_ | _) | (_ | _) | (_ | _) | _ <;>
      first | rfl | exact absurd h (by decide)

/-- No operation that takes place is called as one that does not. -/
theorem Verb.action_not_mem (verb : Verb) : verb.action ∉ ["overflow", "underflow", "error"] := by
  rcases verb with (_ | _) | (_ | _) | (_ | _) | _ <;> decide

/-- A step is called by the verb of its operation, unless that does not take place. -/
theorem Tells.action_cases {items : List Json} {op : Op} {part : List Step}
    (h : Tells capacity items op part) :
    ∀ step ∈ part, (∃ verb, op.verb? = some verb ∧ step.action = verb.action) ∨
      step.action ∈ ["overflow", "underflow", "error"] := by
  intro step hstep
  cases h with
  | insert room action told =>
    obtain rfl := List.mem_singleton.mp hstep
    exact Or.inl ⟨_, rfl, action⟩
  | overflow full action told =>
    obtain rfl := List.mem_singleton.mp hstep
    exact Or.inr (by rw [action]; decide)
  | remove held action =>
    obtain rfl := List.mem_singleton.mp hstep
    exact Or.inl ⟨_, rfl, action⟩
  | underflow action =>
    obtain rfl := List.mem_singleton.mp hstep
    exact Or.inr (by rw [action]; decide)
  | peek action =>
    obtain rfl := List.mem_singleton.mp hstep
    exact Or.inl ⟨_, rfl, action⟩
  | display action =>
    obtain rfl := List.mem_singleton.mp hstep
    exact Or.inl ⟨.display, rfl, action⟩
  | blocked action named described =>
    obtain rfl := List.mem_singleton.mp hstep
    exact Or.inr (by rw [action]; decide)
  | declare => nomatch hstep

/-- A step with the action of a verb tells of an operation of that verb. -/
theorem Tells.verb?_eq {items : List Json} {op : Op} {part : List Step} {verb : Verb}
    (h : Tells capacity items op part) {step : Step} (hstep : step ∈ part)
    (haction : step.action = verb.action) : op.verb? = some verb := by
  rcases h.action_cases step hstep with ⟨other, hother, hsame⟩ | hmissed
  · rw [hother, Verb.eq_of_action_eq (hsame.symm.trans haction)]
  · rw [haction] at hmissed
    exact absurd hmissed verb.action_not_mem

/-- The operations of a forbidden verb do not take place. -/
theorem action_ne_of_refusal (verb : Verb) {reason : String}
    (hrefusal : (restriction kind).refusal? verb = some reason) (code : String) :
    ∀ step ∈ (simulate kind code).steps, step.action ≠ verb.action := by
  intro step hstep haction
  obtain ⟨items, hanswers⟩ := simulate_answers kind code
  obtain ⟨met, op, hop, part, htold, hpart⟩ := hanswers.exists_of_mem hstep
  have hverb := htold.verb?_eq hpart haction
  obtain ⟨cue, hcue, rfl⟩ := List.mem_map.mp hop
  rcases isAllowed_of_mem_scriptFrom false _ cue hcue with
    (⟨call, reason, hblocked⟩ | ⟨other, hother, hallowed⟩) | ⟨-, bound, hdeclared⟩
  · rw [hblocked] at hverb
    nomatch hverb
  · rw [hverb] at hother
    obtain rfl := Option.some.inj hother
    rw [hrefusal] at hallowed
    nomatch hallowed
  · rw [hdeclared] at hverb
    nomatch hverb

/-! ## The story of a deque -/

/-- What is told of a deque in a program. -/
structure IsTold (kind : QueueKind) (code : String) : Prop where
  /-- The story replays the script from the empty deque, within its capacity. -/
  replays : Replays (Obeys (declaredCapacity kind code)) (Tells (declaredCapacity kind code)) []
    ((script kind code).map Cue.op) (simulate kind code).steps
  /-- A circular deque has a capacity, and no other one has. -/
  bounded : (declaredCapacity kind code).isSome ↔ kind = .circularDeque
  /-- An input-restricted deque takes nothing at its front. -/
  input : kind = .inputRestrictedDeque →
    ∀ step ∈ (simulate kind code).steps, step.action ≠ "enqueue_front"
  /-- An output-restricted deque gives up nothing at its front. -/
  output : kind = .outputRestrictedDeque →
    ∀ step ∈ (simulate kind code).steps, step.action ≠ "dequeue_front"
  /-- The errors name the refused calls, one each and in order. -/
  refused : namedCalls (simulate kind code).steps =
    (refusedCalls kind code).map fun call => some (.str (shownCall call))

/-- Whatever the program, the story of a deque of any kind keeps to its restriction and to its
capacity. -/
theorem simulate_isTold (kind : QueueKind) (code : String) : IsTold kind code where
  replays := by
    obtain ⟨items, hanswers⟩ := simulate_answers kind code
    exact hanswers.replays
  bounded := declaredCapacity_isSome kind code
  input := by
    rintro rfl
    exact action_ne_of_refusal (.insert .front) rfl code
  output := by
    rintro rfl
    exact action_ne_of_refusal (.remove .front) rfl code
  refused := by
    obtain ⟨items, hanswers⟩ := simulate_answers kind code
    rw [namedCalls_of_answers hanswers, script, refused_scriptFrom, Source.boundLines,
      Source.map_fst_boundLinesFrom, List.map_map]
    rfl

end Storyboard.Queue.Deque
