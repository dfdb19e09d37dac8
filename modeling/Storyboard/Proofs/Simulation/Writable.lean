import Storyboard.Proofs.Story.Codec
import Storyboard.Simulation.Simulator

/-!
# What is told can be written

Every step that a container tells is writable, whatever state it is in: the values that it shows come
from literals, the variables have names of their own, and so have the extras.  So a told story
survives being written, as far as the reader goes and values are not null.  A step also carries the
line of the cue that it is told for, and none in the schematic run of a B-tree; the two are shown
together, one case for each step that a container can tell.
-/

namespace Storyboard

/-- Every step of a replay is told when one of its cues is performed. -/
theorem exists_cue_of_mem_replay {σ α : Type} {perform : σ → Cue α → σ × List Step} {state : σ}
    {cues : List (Cue α)} {step : Step} (h : step ∈ (replay perform state cues).2) :
    ∃ cue ∈ cues, ∃ before, step ∈ (perform before cue).2 := by
  induction cues generalizing state with
  | nil => exact absurd h List.not_mem_nil
  | cons cue rest ih =>
    rcases List.mem_append.mp h with hstep | hstep
    · exact ⟨cue, List.mem_cons_self, state, hstep⟩
    · obtain ⟨later, hmem, hlater⟩ := ih hstep
      exact ⟨later, List.mem_cons_of_mem cue hmem, hlater⟩

/-- A step as it is told on a line, or on none: it can be written, and it carries that line. -/
structure Step.IsToldOn (step : Step) (number : Option Nat) : Prop where
  writable : step.Writable
  carries : step.line = number

/-- A replay is writable when the steps of every cue are told on its line. -/
theorem replay_writable {σ α : Type} {perform : σ → Cue α → σ × List Step}
    (h : ∀ state cue, ∀ step ∈ (perform state cue).2, step.IsToldOn (some cue.line)) (state : σ)
    (cues : List (Cue α)) : ∀ step ∈ (replay perform state cues).2, step.Writable := by
  intro step hstep
  obtain ⟨cue, -, before, htold⟩ := exists_cue_of_mem_replay hstep
  exact (h before cue step htold).writable

/-! ## Building steps and headers -/

namespace Step.Writable

variable {step : Step}

theorem of_vars {vars : List (String × Json)} (h : IsDataMap vars) (action description : String)
    (line : Option Nat) : Writable { action, description, vars, line } where
  vars := h
  value := nofun
  buffer := nofun
  heap := nofun
  stackSnapshot := nofun
  extra := .nil
  extra_apart := nofun

theorem withValue (h : step.Writable) {value : Json} (hvalue : value.IsCanonical) :
    (step.withValue value).Writable := by
  refine { h with value := ?_ }
  rintro _ ⟨⟩
  exact hvalue

theorem withNode (h : step.Writable) (node : String) : (step.withNode node).Writable := { h with }

theorem withEdge (h : step.Writable) (source target : String) :
    (step.withEdge source target).Writable := { h with }

theorem withExtra (h : step.Writable) {name : String} (hname : name ∉ keys) {value : Json}
    (hvalue : value.IsCanonical) : (step.withExtra name value).Writable := by
  refine { h with extra := h.extra.put name hvalue, extra_apart := fun entry hentry => ?_ }
  rcases Ordered.mem_put hentry with rfl | hold
  · exact hname
  · exact h.extra_apart entry hold

end Step.Writable

namespace Step.IsToldOn

variable {step : Step} {number : Option Nat}

@[simp]
theorem withValue (h : step.IsToldOn number) {value : Json} (hvalue : value.IsCanonical) :
    (step.withValue value).IsToldOn number := ⟨h.writable.withValue hvalue, h.carries⟩

@[simp]
theorem withNode (h : step.IsToldOn number) (node : String) :
    (step.withNode node).IsToldOn number := ⟨h.writable.withNode node, h.carries⟩

@[simp]
theorem withEdge (h : step.IsToldOn number) (source target : String) :
    (step.withEdge source target).IsToldOn number :=
  ⟨h.writable.withEdge source target, h.carries⟩

@[simp]
theorem withExtra (h : step.IsToldOn number) {name : String} (hname : name ∉ keys) {value : Json}
    (hvalue : value.IsCanonical) : (step.withExtra name value).IsToldOn number :=
  ⟨h.writable.withExtra hname hvalue, h.carries⟩

end Step.IsToldOn

namespace Header.Writable

variable {header : Header}

theorem conventional {kind : Concept} (h : ∀ text, kind ≠ .other text) :
    (Header.conventional kind).Writable := ⟨h, .nil, nofun⟩

theorem withExtra (h : header.Writable) {name : String} (hname : name ∉ keys) {value : Json}
    (hvalue : value.IsCanonical) : (header.withExtra name value).Writable := by
  refine { h with extra := h.extra.put name hvalue, extra_apart := fun entry hentry => ?_ }
  rcases Ordered.mem_put hentry with rfl | hold
  · exact hname
  · exact h.extra_apart entry hold

end Header.Writable

/-! ## Stacks -/

namespace Stack

@[simp]
theorem snapshot_told (items : List Literal) (line : Nat) (action description : String) :
    (snapshot items line action description).IsToldOn (some line) :=
  ⟨.of_vars ⟨by simp [KeysOnce], by simp⟩ action description line, rfl⟩

theorem perform_told (items : List Literal) (cue : Cue Op) :
    ∀ step ∈ (perform items cue).2, step.IsToldOn (some cue.line) := by
  obtain ⟨line, op⟩ := cue
  cases op with
  | push value => simp [perform]
  | pop => cases htop : items.getLast? <;> simp [perform, htop]
  | peek => cases htop : items.getLast? <;> simp [perform, htop]

theorem simulate_writable (code : String) : (simulate code).Writable := by
  have hheader : (Header.conventional .stack).Writable := .conventional nofun
  exact ⟨replay_writable perform_told [] (script code),
    hheader.withExtra (by decide) (Json.isCanonical_ofNat _)⟩

end Stack

/-! ## Queues -/

namespace Queue

namespace Linear

@[simp]
theorem snapshot_told (items : List Literal) (line : Nat) (action description : String) :
    (snapshot items line action description).IsToldOn (some line) where
  writable :=
    { vars := ⟨by simp [snapshot, KeysOnce], by simp [snapshot]⟩
      value := nofun
      buffer := by
        rintro _ ⟨⟩
        exact Literal.isCanonical_jsonItems items
      heap := nofun
      stackSnapshot := nofun
      extra := .nil
      extra_apart := nofun }
  carries := rfl

theorem visits_told (items : List Literal) (line position : Nat) (rest : List Literal) :
    ∀ step ∈ visits items line position rest, step.IsToldOn (some line) := by
  induction rest generalizing position with
  | nil => exact fun step hstep => absurd hstep List.not_mem_nil
  | cons item rest ih =>
    rw [visits, List.forall_mem_cons]
    exact ⟨by simp, ih (position + 1)⟩

theorem perform_told (items : List Literal) (cue : Cue Op) :
    ∀ step ∈ (perform items cue).2, step.IsToldOn (some cue.line) := by
  obtain ⟨line, op⟩ := cue
  cases op with
  | enqueue value => simp [perform]
  | dequeue => cases items <;> simp [perform]
  | peek => cases items <;> simp [perform]
  | display => simp [perform]
  | traverse =>
    exact List.forall_mem_cons.mpr ⟨by simp, visits_told items line 0 items⟩

theorem simulate_writable (code : String) : (simulate code).Writable :=
  ⟨replay_writable perform_told [] (script code), .conventional nofun⟩

end Linear

namespace Ring

@[simp]
theorem snapshot_told (ring : Ring) (line : Nat) (action description : String) :
    (ring.snapshot line action description).IsToldOn (some line) where
  writable :=
    { vars := ⟨by simp [snapshot, KeysOnce], by simp [snapshot]⟩
      value := nofun
      buffer := by
        rintro _ ⟨⟩
        simp [buffer]
      heap := nofun
      stackSnapshot := nofun
      extra := .nil
      extra_apart := nofun }
  carries := rfl

@[simp]
theorem enqueue_told (ring : Ring) (value : Literal) (line : Nat) :
    (ring.enqueue value line).2.IsToldOn (some line) := by
  unfold enqueue
  split <;> simp

@[simp]
theorem dequeue_told (ring : Ring) (line : Nat) : (ring.dequeue line).2.IsToldOn (some line) := by
  unfold dequeue
  split
  next => simp
  next => cases ring.front? <;> simp

@[simp]
theorem peek_told (ring : Ring) (line : Nat) : (ring.peek line).IsToldOn (some line) := by
  unfold peek
  split <;> simp

end Ring

namespace Circular

theorem perform_told (ring : Ring) (cue : Cue Op) :
    ∀ step ∈ (perform ring cue).2, step.IsToldOn (some cue.line) := by
  obtain ⟨line, op⟩ := cue
  cases op <;> simp [perform]

theorem simulate_writable (code : String) : (simulate code).Writable := by
  have hheader : (Header.conventional (.queue .circular)).Writable := .conventional nofun
  exact ⟨replay_writable perform_told _ (script code),
    hheader.withExtra (by decide) (Json.isCanonical_ofNat _)⟩

end Circular

namespace Priority

@[simp]
theorem snapshot_told (heap : MinHeap) (line : Nat) (action description : String) :
    (snapshot heap line action description).IsToldOn (some line) where
  writable :=
    { vars := ⟨by simp [snapshot, KeysOnce], by simp [snapshot]⟩
      value := nofun
      buffer := nofun
      heap := by
        rintro _ ⟨⟩
        exact Literal.isCanonical_jsonItems heap.items
      stackSnapshot := nofun
      extra := .nil
      extra_apart := nofun }
  carries := rfl

@[simp]
theorem peekStep_told (heap : MinHeap) (line : Nat) :
    (peekStep heap line).IsToldOn (some line) := by
  unfold peekStep
  split <;> simp

theorem perform_told (heap : MinHeap) (cue : Cue Op) :
    ∀ step ∈ (perform heap cue).2, step.IsToldOn (some cue.line) := by
  obtain ⟨line, op⟩ := cue
  cases op with
  | heapify name keyed => simp [perform]
  | push priority item => simp [perform]
  | pop => cases hpop : heap.pop? <;> simp [perform, hpop]
  | peek => simp [perform]
  | peekUnlessEmpty =>
    rw [perform]
    dsimp only
    split <;> simp

theorem simulate_writable (code : String) : (simulate code).Writable :=
  ⟨replay_writable perform_told _ (script code), .conventional nofun⟩

end Priority

namespace DoubleEnded

@[simp]
theorem snapshot_told (items : List Literal) (line : Nat) (action description : String) :
    (snapshot items line action description).IsToldOn (some line) where
  writable :=
    { vars := ⟨by simp [snapshot, KeysOnce], by simp [snapshot]⟩
      value := nofun
      buffer := nofun
      heap := by
        rintro _ ⟨⟩
        exact Literal.isCanonical_jsonItems items
      stackSnapshot := nofun
      extra := .nil
      extra_apart := nofun }
  carries := rfl

theorem perform_told (items : List Literal) (cue : Cue Op) :
    ∀ step ∈ (perform items cue).2, step.IsToldOn (some cue.line) := by
  obtain ⟨line, op⟩ := cue
  cases op with
  | insert value => simp [perform, Step.keys]
  | remove place => cases hitem : place.item? items <;> simp [perform, hitem]
  | peek place => cases hitem : place.item? items <;> simp [perform, hitem]

theorem simulate_writable (code : String) : (simulate code).Writable :=
  ⟨replay_writable perform_told [] (script code), .conventional nofun⟩

end DoubleEnded

namespace Deque

@[simp]
theorem snapshot_told (state : State) (line : Nat) (action description : String) :
    (state.snapshot line action description).IsToldOn (some line) where
  writable :=
    { vars := by
        unfold State.snapshot
        cases state.capacity with
        | none => exact ⟨by simp [optionalMember, KeysOnce], by simp [optionalMember]⟩
        | some _ => exact ⟨by simp [optionalMember, KeysOnce], by simp [optionalMember]⟩
      value := nofun
      buffer := by
        rintro _ ⟨⟩
        exact Literal.isCanonical_jsonItems state.items
      heap := nofun
      stackSnapshot := nofun
      extra := .nil
      extra_apart := nofun }
  carries := rfl

theorem perform_told (state : State) (cue : Cue Op) :
    ∀ step ∈ (perform state cue).2, step.IsToldOn (some cue.line) := by
  obtain ⟨line, op⟩ := cue
  cases op with
  | declare capacity => simp [perform]
  | insert place value =>
    rw [perform]
    dsimp only
    split <;> simp
  | remove place => cases hitem : place.item? state.items <;> simp [perform, hitem]
  | peek place => cases hitem : place.item? state.items <;> simp [perform, hitem]
  | display => simp [perform]
  | blocked call reason => simp [perform, Step.keys]

theorem simulate_writable {kind : QueueKind} (code : String) : (simulate kind code).Writable := by
  refine ⟨replay_writable perform_told _ (script kind code), ?_⟩
  have hheader : (Header.conventional (.queue kind)).Writable := .conventional nofun
  unfold simulate
  dsimp only
  split
  next => exact hheader.withExtra (by decide) (Json.isCanonical_ofNat _)
  next => exact hheader

end Deque

namespace Multiple

@[simp]
theorem snapshot_told (state : State) (line : Nat) (action description : String)
    (queue : Nat) : (state.snapshot line action description queue).IsToldOn (some line) where
  writable :=
    { vars := by
        have hqueues : (Json.arr (state.queues.map fun items =>
            .arr (Literal.jsonItems items))).IsCanonical := Json.isCanonical_arr (by simp)
        exact ⟨by simp [State.snapshot, KeysOnce], by simp [State.snapshot, hqueues]⟩
      value := nofun
      buffer := nofun
      heap := nofun
      stackSnapshot := nofun
      extra := ⟨by simp [State.snapshot, KeysOnce], by simp [State.snapshot]⟩
      extra_apart := by simp [State.snapshot, Step.keys] }
  carries := rfl

theorem perform_told (state : State) (cue : Cue Op) :
    ∀ step ∈ (perform state cue).2, step.IsToldOn (some cue.line) := by
  obtain ⟨line, op⟩ := cue
  cases op with
  | enqueue queue value =>
    rw [perform]
    dsimp only
    split
    next => simp
    next => split <;> simp
  | dequeue queue =>
    rw [perform]
    dsimp only
    split <;> simp

theorem simulate_writable (code : String) : (simulate code).Writable := by
  have hheader : (Header.conventional (.queue .multiple)).Writable := .conventional nofun
  exact ⟨replay_writable perform_told _ (script code),
    (hheader.withExtra (by decide) (Json.isCanonical_ofNat _)).withExtra (by decide)
      (Json.isCanonical_ofNat _)⟩

end Multiple

end Queue

/-! ## Linked lists -/

namespace LinkedList

@[simp]
theorem snapshot_told (nodes : List Literal) (line : Nat) (action description : String) :
    (snapshot nodes line action description).IsToldOn (some line) :=
  ⟨.of_vars ⟨by simp [KeysOnce], by simp⟩ action description line, rfl⟩

theorem insertBy_told (nodes : List Literal) (line : Nat) (anchor : Anchor) (value : Literal) :
    ∀ step ∈ (insertBy nodes line anchor value).2, step.IsToldOn (some line) := by
  unfold insertBy
  split <;> simp [insertAt, Step.keys]

theorem delete_told (nodes : List Literal) (line : Nat) (value : Literal) :
    ∀ step ∈ (delete nodes line value).2, step.IsToldOn (some line) := by
  unfold delete
  split <;> simp [deleteAt, Step.keys]

theorem deleteEnd_told (nodes : List Literal) (line : Nat) (place : End) :
    ∀ step ∈ (deleteEnd nodes line place).2, step.IsToldOn (some line) := by
  unfold deleteEnd
  split <;> simp [deleteAt, Step.keys]

theorem traversalSteps_told (nodes : List Literal) (line : Nat) :
    ∀ step ∈ traversalSteps nodes line, step.IsToldOn (some line) := by
  rw [traversalSteps, List.forall_mem_cons]
  refine ⟨by simp, fun step hstep => ?_⟩
  obtain ⟨index, hindex, rfl⟩ := List.mem_mapIdx.mp hstep
  simp [Step.keys]

theorem searchFrom_told (nodes : List Literal) (line : Nat) (target : Literal) (index : Nat)
    (rest : List Literal) :
    ∀ step ∈ searchFrom nodes line target index rest, step.IsToldOn (some line) := by
  induction rest generalizing index with
  | nil => simp [searchFrom]
  | cons node rest ih =>
    rw [searchFrom]
    split
    next => simp [Step.keys]
    next =>
      rw [List.forall_mem_cons]
      exact ⟨by simp [Step.keys], ih (index + 1)⟩

theorem performOp_told (kind : ListKind) (nodes : List Literal) (cue : Cue Op) :
    ∀ step ∈ (performOp kind nodes cue).2, step.IsToldOn (some cue.line) := by
  obtain ⟨line, op⟩ := cue
  cases op with
  | createHead value => simp [performOp, insertAt, Step.keys]
  | linkLast value => simp [performOp, insertAt, Step.keys]
  | insert place value => cases place <;> simp [performOp, insertAt, Step.keys]
  | insertBy anchor value => exact insertBy_told nodes line anchor value
  | delete value => exact delete_told nodes line value
  | deleteEnd place => exact deleteEnd_told nodes line place
  | display backward => simp [performOp, displayStep, Step.keys]
  | traverse => exact traversalSteps_told nodes line
  | search target => exact searchFrom_told nodes line target 0 nodes
  | reverse => simp [performOp]

/-- The operations of a statement all stand on its line. -/
theorem perform_told (kind : ListKind) (nodes : List Literal) (cue : Cue Statement) :
    ∀ step ∈ (perform kind nodes cue).2, step.IsToldOn (some cue.line) := by
  intro step hstep
  obtain ⟨_, hcue, before, htold⟩ := exists_cue_of_mem_replay hstep
  obtain ⟨op, -, rfl⟩ := List.mem_map.mp hcue
  exact performOp_told kind before _ step htold

theorem simulate_writable (hint : ListKind) (code : String) : (simulate hint code).Writable := by
  have hheader : (Header.conventional (.linkedList (kindOf code hint))).Writable :=
    .conventional nofun
  exact ⟨replay_writable (perform_told _) [] (script code),
    (hheader.withExtra (by decide) (Json.isCanonical_bool _)).withExtra (by decide)
      (Json.isCanonical_bool _)⟩

end LinkedList

/-! ## Trees -/

namespace Tree

namespace SearchTree

@[simp]
theorem snapshot_told (t : SearchTree) (line : Nat) (action description : String) :
    (snapshot t line action description).IsToldOn (some line) :=
  ⟨.of_vars ⟨by simp [KeysOnce], by simp⟩ action description line, rfl⟩

@[simp]
theorem snapshotAt_told (t : SearchTree) (line : Nat) (node : Node) (value : Literal)
    (action description : String) :
    (snapshotAt t line node value action description).IsToldOn (some line) := by
  simp [snapshotAt]

theorem linkStep_told (grown : SearchTree) (line : Nat) (node : Node)
    (parent : Option (Node × Side)) : (linkStep grown line node parent).IsToldOn (some line) := by
  cases parent with
  | none => simp [linkStep]
  | some above =>
    exact (((snapshot_told _ _ _ _).withNode _).withEdge _ _).withExtra (by decide)
      (Json.isCanonical_str _)

theorem descentSteps_told (t : SearchTree) (line : Nat) (value : Literal) :
    ∀ step ∈ descentSteps t line value, step.IsToldOn (some line) := by
  rw [descentSteps, List.forall_mem_map]
  rintro ⟨node, side⟩ _
  dsimp only
  simp [Step.keys]

theorem probeSteps_told (t : SearchTree) (line : Nat) (value : Literal) :
    ∀ step ∈ probeSteps t line value, step.IsToldOn (some line) := by
  rw [probeSteps, List.forall_mem_map]
  intro node _
  simp

theorem performInsert_told (t : SearchTree) (line : Nat) (value : Literal) :
    ∀ step ∈ (performInsert t line value).2, step.IsToldOn (some line) := by
  rw [performInsert]
  dsimp only
  rw [List.forall_mem_append]
  refine ⟨descentSteps_told t line value, ?_⟩
  simp [linkStep_told]

theorem performDelete_told (t : SearchTree) (line : Nat) (value : Literal) :
    ∀ step ∈ (performDelete t line value).2, step.IsToldOn (some line) := by
  unfold performDelete
  dsimp only
  rw [List.forall_mem_append]
  refine ⟨probeSteps_told t line value, ?_⟩
  split <;> simp

theorem searchSteps_told (t : SearchTree) (line : Nat) (value : Literal) :
    ∀ step ∈ searchSteps t line value, step.IsToldOn (some line) := by
  unfold searchSteps
  dsimp only
  rw [List.forall_mem_append]
  refine ⟨probeSteps_told t line value, ?_⟩
  split <;> simp

theorem traversalSteps_told (t : SearchTree) (line : Nat) (order : Order) :
    ∀ step ∈ traversalSteps t line order, step.IsToldOn (some line) := by
  rw [traversalSteps, List.forall_mem_cons, List.forall_mem_map]
  exact ⟨by simp [Step.keys], fun node _ => by simp⟩

theorem perform_told (t : SearchTree) (cue : Cue Op) :
    ∀ step ∈ (perform t cue).2, step.IsToldOn (some cue.line) := by
  obtain ⟨line, op⟩ := cue
  cases op with
  | insert value => exact performInsert_told t line value
  | delete value => exact performDelete_told t line value
  | search value => exact searchSteps_told t line value
  | traverse order => exact traversalSteps_told t line order

theorem simulate_writable (kind : TreeKind) (code : String) : (simulate kind code).Writable := by
  have hheader : (Header.conventional (.tree kind)).Writable := .conventional nofun
  have hsteps := replay_writable perform_told {} (script code)
  unfold simulate
  generalize replay perform {} (script code) = told at hsteps ⊢
  obtain ⟨t, steps⟩ := told
  exact ⟨hsteps, hheader.withExtra (by decide) (Json.isCanonical_ofNat _)⟩

end SearchTree

namespace BTree

@[simp]
theorem keysJson_isCanonical (keys : List Literal) : (keysJson keys).IsCanonical :=
  Literal.isCanonical_array keys

@[simp]
theorem stepWith_told {vars : List (String × Json)} (h : IsDataMap vars)
    (action description : String) : (stepWith action description vars).IsToldOn none :=
  ⟨.of_vars h action description none, rfl⟩

theorem splitSteps_told (split : Split) (promoted : List Literal) :
    ∀ step ∈ splitSteps split promoted, step.IsToldOn none := by
  simp [splitSteps, isDataMap_iff, KeysOnce]

theorem leafStep_told (soFar : List Literal) (key : Literal) :
    (leafStep soFar key).IsToldOn none := by
  simp [leafStep, isDataMap_iff, KeysOnce]

theorem insertAll_told (before promoted rest : List Literal) :
    ∀ step ∈ (insertAll before promoted rest).2, step.IsToldOn none := by
  induction rest generalizing before promoted with
  | nil => exact fun step hstep => absurd hstep List.not_mem_nil
  | cons key rest ih =>
    rw [insertAll]
    dsimp only
    split
    next split _ =>
      rw [List.forall_mem_cons, List.forall_mem_append]
      exact ⟨by simp [isDataMap_iff, KeysOnce], splitSteps_told _ _, ih _ _⟩
    next =>
      rw [List.forall_mem_cons, List.forall_mem_cons]
      exact ⟨by simp [isDataMap_iff, KeysOnce], leafStep_told _ _, ih _ _⟩

theorem stepsOf_told (keys : List Literal) : ∀ step ∈ stepsOf keys, step.IsToldOn none := by
  have hempty : (Json.arr []).IsCanonical := Literal.isCanonical_array []
  have hopening : ∀ step ∈ openingSteps keys, step.IsToldOn none := by
    simp [openingSteps, isDataMap_iff, KeysOnce, hempty]
  simp only [stepsOf, List.forall_mem_append]
  exact ⟨⟨hopening, insertAll_told _ _ _⟩, by simp [isDataMap_iff, KeysOnce]⟩

theorem simulate_writable (code : String) : (simulate code).Writable := by
  have hheader : (Header.conventional (.tree .bTree)).Writable := .conventional nofun
  unfold simulate
  cases keys code with
  | nil =>
    constructor <;> dsimp only
    · exact fun _ hstep => absurd hstep List.not_mem_nil
    · exact hheader
  | cons key rest =>
    constructor <;> dsimp only
    · exact fun step hstep => (stepsOf_told _ step hstep).writable
    · exact hheader.withExtra (by decide) (Json.isCanonical_ofNat _)

end BTree

end Tree

/-! ## Telling, writing and reading -/

namespace Simulator

/-- The simulators of stacks, queues, linked lists and trees. -/
def playsContainer : Simulator → Bool
  | stack | queue _ | linkedList _ | searchTree _ | bTree => true
  | graph _ | sorting _ | universal => false

theorem queueStory_writable (kind : QueueKind) (code : String) : (queueStory kind code).Writable := by
  unfold queueStory
  split
  next => exact Queue.Linear.simulate_writable code
  next => exact Queue.Circular.simulate_writable code
  next => exact Queue.Priority.simulate_writable code
  next => exact Queue.DoubleEnded.simulate_writable code
  next => exact Queue.Multiple.simulate_writable code
  all_goals exact Queue.Deque.simulate_writable code

/-- The simulator of a container always tells a story, and it can be written. -/
theorem exists_simulate_writable {simulator : Simulator} (h : simulator.playsContainer = true)
    (concept : Concept) (code : String) :
    ∃ story, simulator.simulate concept code = .ok story ∧ story.Writable := by
  cases simulator with
  | stack => exact ⟨_, rfl, Stack.simulate_writable code⟩
  | queue kind => exact ⟨_, rfl, queueStory_writable kind code⟩
  | linkedList kind => exact ⟨_, rfl, LinkedList.simulate_writable kind code⟩
  | searchTree kind => exact ⟨_, rfl, Tree.SearchTree.simulate_writable kind code⟩
  | bTree => exact ⟨_, rfl, Tree.BTree.simulate_writable code⟩
  | graph _ | sorting _ | universal => nomatch h

/-- A told story whose numbers are integers in machine words is read back from its text, equal but
for null values, unless it nests deeper than the reader goes; then it is refused. -/
theorem told_story_survives_writing {simulator : Simulator}
    (h : simulator.playsContainer = true) (concept : Concept) (code : String) :
    ∃ story, simulator.simulate concept code = .ok story ∧ (story.inWords = true →
      (story.toJson.depth ≤ Json.depthLimit →
        ∃ read, Story.parse story.pretty = .ok read ∧ story.withoutNulls.Same read) ∧
      (Json.depthLimit < story.toJson.depth →
        Story.parse story.pretty = .error .undecodable)) := by
  obtain ⟨story, htold, hwritable⟩ := exists_simulate_writable h concept code
  exact ⟨story, htold, fun hwords =>
    ⟨Story.parse_pretty_of_depth_le hwritable hwords, Story.parse_pretty_of_depth_gt hwords⟩⟩

/-- A ring with free slots, the second value of which is none. -/
theorem told_story_survives_writing_ring :
    (queue .circular).playsContainer = true ∧
    (queueStory .circular "q.enqueue(1)\nq.enqueue(None)\nq.dequeue()").inWords = true ∧
    ∃ read, Story.parse
        (queueStory .circular "q.enqueue(1)\nq.enqueue(None)\nq.dequeue()").pretty = .ok read ∧
      (queueStory .circular "q.enqueue(1)\nq.enqueue(None)\nq.dequeue()").withoutNulls.Same
        read := by
  have hwords : (queueStory .circular "q.enqueue(1)\nq.enqueue(None)\nq.dequeue()").inWords =
      true := by decide +kernel
  have hdepth : (queueStory .circular
      "q.enqueue(1)\nq.enqueue(None)\nq.dequeue()").toJson.depth ≤ Json.depthLimit := by
    decide +kernel
  refine ⟨rfl, hwords, ?_⟩
  obtain ⟨story, htold, hsurvives⟩ := told_story_survives_writing
    (show (queue .circular).playsContainer = true from rfl) (.queue .circular)
    "q.enqueue(1)\nq.enqueue(None)\nq.dequeue()"
  obtain rfl := Except.ok.inj htold
  exact (hsurvives hwords).1 hdepth

/-- A pushed none is the value of its step, and is not read back as one. -/
theorem pushed_null_is_lost : ∃ story,
    stack.simulate .stack "s.push(None)" = .ok story ∧ story.inWords = true ∧
      ¬ ∃ read, Story.parse story.pretty = .ok read ∧ story.Same read := by
  have hwords : (Stack.simulate "s.push(None)").inWords = true := by decide +kernel
  exact ⟨_, rfl, hwords,
    Story.not_same_of_null (Stack.simulate_writable _) hwords (by decide +kernel)⟩

end Simulator

end Storyboard
