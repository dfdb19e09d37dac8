import Storyboard.Proofs.Literal.Order
import Storyboard.Proofs.Simulation.Writable
import Storyboard.Proofs.Source.Scan

/-!
# Steps come from uses

The line that a step carries is the one that asks for it.  No container takes an operation from the
header of a definition or from a class body, wherever it looks for one: in a call, a subscript, a
loop, a declared capacity or a node made by hand.  So no step carries such a line.
-/

namespace Storyboard

/-! ## From cues to steps -/

/-- The step carries the line of a use, if it carries a line. -/
def Step.IsCausedIn (step : Step) (lines : List (Source.Line × Source.Bindings)) : Prop :=
  ∀ number ∈ step.line, Source.IsUseIn lines number

/-- A replay tells only of uses when each of its cues stands on a use or tells nothing. -/
theorem replay_isCausedIn {σ α : Type} {perform : σ → Cue α → σ × List Step}
    {lines : List (Source.Line × Source.Bindings)} {cues : List (Cue α)}
    (htold : ∀ state cue, ∀ step ∈ (perform state cue).2, step.IsToldOn (some cue.line))
    (hcues : ∀ cue ∈ cues, Source.IsUseIn lines cue.line ∨ ∀ state, (perform state cue).2 = [])
    (state : σ) : ∀ step ∈ (replay perform state cues).2, step.IsCausedIn lines := by
  intro step hstep number hnumber
  obtain ⟨cue, hcue, before, hperformed⟩ := exists_cue_of_mem_replay hstep
  rw [(htold before cue step hperformed).carries] at hnumber
  obtain rfl := Option.some.inj hnumber
  rcases hcues cue hcue with huse | hsilent
  · exact huse
  · rw [hsilent before] at hperformed
    exact absurd hperformed List.not_mem_nil

/-- A cue of the first line stands on a use or asks for something that other lines may ask for. -/
theorem isUseIn_or_of_mem_cuesOn {α : Type} {quiet : α → Prop} {line : Source.Line} {ops : List α}
    {cue : Cue α} (h : line.isUse = false → ∀ op ∈ ops, quiet op) (hcue : cue ∈ cuesOn line ops)
    (bindings : Source.Bindings) (rest : List (Source.Line × Source.Bindings)) :
    Source.IsUseIn ((line, bindings) :: rest) cue.line ∨ quiet cue.op := by
  obtain ⟨op, hop, rfl⟩ := List.mem_map.mp hcue
  cases huse : line.isUse with
  | true => exact Or.inl ⟨(line, bindings), List.mem_cons_self, huse, rfl⟩
  | false => exact Or.inr (h huse op hop)

/-- The cues of the first line stand on a use when other lines ask for nothing. -/
theorem isUseIn_of_mem_cuesOn {α : Type} {line : Source.Line} {ops : List α} {cue : Cue α}
    (h : line.isUse = false → ops = []) (hcue : cue ∈ cuesOn line ops) (bindings : Source.Bindings)
    (rest : List (Source.Line × Source.Bindings)) :
    Source.IsUseIn ((line, bindings) :: rest) cue.line := by
  have hnone : line.isUse = false → ∀ op ∈ ops, False := by
    intro huse op hop
    rw [h huse] at hop
    exact absurd hop List.not_mem_nil
  exact (isUseIn_or_of_mem_cuesOn hnone hcue bindings rest).resolve_right id

/-- A line asks for nothing when none of its calls does. -/
theorem filterMap_calls_eq_nil {α : Type} {ops : Source.Call → Option α}
    (h : ∀ call, ops call = none) (line : Source.Line) :
    (Source.calls line.text).filterMap ops = [] :=
  List.filterMap_eq_nil_iff.mpr fun call _ => h call

/-- A script that reads each line by itself stands on uses when other lines ask for nothing. -/
theorem isUseIn_of_mem_flatMap {α : Type} {ops : Source.Line → Source.Bindings → List α}
    (h : ∀ line bindings, line.isUse = false → ops line bindings = [])
    (lines : List (Source.Line × Source.Bindings)) :
    ∀ cue ∈ lines.flatMap fun entry => cuesOn entry.1 (ops entry.1 entry.2),
      Source.IsUseIn lines cue.line := by
  induction lines with
  | nil => exact fun cue hcue => absurd hcue List.not_mem_nil
  | cons entry rest ih =>
    intro cue hcue
    rw [List.flatMap_cons, List.mem_append] at hcue
    rcases hcue with hcue | hcue
    · exact isUseIn_of_mem_cuesOn (h entry.1 entry.2) hcue entry.2 rest
    · exact (ih cue hcue).cons entry

/-- A script that reads each call by itself stands on uses when calls on other lines ask for
nothing. -/
theorem isUseIn_of_mem_calls {α : Type}
    {ops : Source.Line → Source.Bindings → Source.Call → List α}
    (h : ∀ line bindings call, line.isUse = false → ops line bindings call = [])
    (lines : List (Source.Line × Source.Bindings)) :
    ∀ cue ∈ lines.flatMap fun entry =>
        cuesOn entry.1 ((Source.calls entry.1.text).flatMap (ops entry.1 entry.2)),
      Source.IsUseIn lines cue.line := by
  have hline : ∀ line bindings, line.isUse = false →
      (Source.calls line.text).flatMap (ops line bindings) = [] := fun line bindings huse =>
    List.flatMap_eq_nil_iff.mpr fun call _ => h line bindings call huse
  exact isUseIn_of_mem_flatMap hline lines

/-! ## Stacks -/

namespace Stack

variable {line : Source.Line} (bindings : Source.Bindings)

theorem opsOfCall?_of_isUse (h : line.isUse = false) (call : Source.Call) :
    opsOfCall? line bindings call = none := by
  unfold opsOfCall?
  simp only [Source.Line.isDefinition_of_isUse h, if_true]
  split
  next => split <;> rfl
  next =>
    split
    next => split <;> rfl
    next => rw [ite_self]

theorem opsOfLine_of_isUse (h : line.isUse = false) : opsOfLine line bindings = [] := by
  unfold opsOfLine
  rw [filterMap_calls_eq_nil (opsOfCall?_of_isUse bindings h)]
  dsimp only
  split
  next => rw [Source.Line.isDefinition_of_isUse h, if_pos rfl]
  next => rfl

theorem simulate_isCausedIn (code : String) :
    ∀ step ∈ (simulate code).steps, step.IsCausedIn (Source.boundLines code) :=
  replay_isCausedIn perform_told
    (fun cue hcue => Or.inl (isUseIn_of_mem_flatMap (fun _ => opsOfLine_of_isUse) _ cue hcue)) []

end Stack

/-! ## Queues -/

namespace Queue

namespace Linear

variable {line : Source.Line}

theorem enqueue?_of_isUse (h : line.isUse = false) (call : Source.Call) :
    enqueue? line call = none := by
  unfold enqueue?
  simp only [Source.Line.isDefinition_of_isUse h, if_true]
  split
  next => split <;> rfl
  next => rfl

theorem nullaryOps?_of_isUse (h : line.isUse = false) (call : Source.Call) (ops : List Op) :
    nullaryOps? line call ops = none := by
  unfold nullaryOps?
  simp only [Source.Line.isDefinition_of_isUse h, if_true]
  split <;> rfl

theorem opsOfCall?_of_isUse (h : line.isUse = false) (bindings : Source.Bindings)
    (call : Source.Call) : opsOfCall? line bindings call = none := by
  unfold opsOfCall?
  simp only [enqueue?_of_isUse h, nullaryOps?_of_isUse h, Source.Line.isDefinition_of_isUse h,
    if_true, Option.map_none, ite_self]

/-- A loop is a traversal on a use only. -/
theorem isTraversal_of_isUse (h : line.isUse = false) (known : List (List Char)) :
    isTraversal known line = false := by
  unfold isTraversal
  simp only [Source.Line.isDefinition_of_isUse h, Bool.not_true, Bool.and_false]
  split <;> rfl

theorem opsOfLine_of_isUse (h : line.isUse = false) (known : List (List Char))
    (bindings : Source.Bindings) : opsOfLine known line bindings = [] := by
  have hfront : looksAtFront known line = false := by
    unfold looksAtFront
    simp only [Source.Line.isDefinition_of_isUse h, Bool.not_true, Bool.and_false]
    split <;> rfl
  unfold opsOfLine
  rw [filterMap_calls_eq_nil (opsOfCall?_of_isUse h bindings), hfront]
  rfl

theorem isUseIn_of_mem_scriptFrom (known : List (List Char))
    (lines : List (Source.Line × Source.Bindings)) :
    ∀ cue ∈ scriptFrom known lines, Source.IsUseIn lines cue.line := by
  induction lines generalizing known with
  | nil => exact fun cue hcue => absurd hcue List.not_mem_nil
  | cons entry rest ih =>
    obtain ⟨line, bindings⟩ := entry
    intro cue hcue
    rw [scriptFrom] at hcue
    split at hcue
    next htraversal =>
      rcases List.mem_cons.mp hcue with rfl | hcue
      · refine ⟨(line, bindings), List.mem_cons_self, ?_, rfl⟩
        by_contra huse
        rw [isTraversal_of_isUse (Bool.eq_false_iff.mpr huse)] at htraversal
        exact absurd htraversal Bool.false_ne_true
      · exact (ih _ cue hcue).cons _
    next =>
      rcases List.mem_append.mp hcue with hcue | hcue
      · exact isUseIn_of_mem_cuesOn (fun h => opsOfLine_of_isUse h _ bindings) hcue bindings rest
      · exact (ih _ cue hcue).cons _

theorem simulate_isCausedIn (code : String) :
    ∀ step ∈ (simulate code).steps, step.IsCausedIn (Source.boundLines code) :=
  replay_isCausedIn perform_told
    (fun cue hcue => Or.inl (isUseIn_of_mem_scriptFrom [] _ cue hcue)) []

end Linear

namespace Circular

variable {line : Source.Line}

theorem opsOfCall?_of_isUse (h : line.isUse = false) (bindings : Source.Bindings)
    (call : Source.Call) : opsOfCall? line bindings call = none := by
  unfold opsOfCall?
  simp only [Source.Line.isDefinition_of_isUse h, if_true]
  split
  next => split <;> rfl
  next =>
    split
    next => split <;> rfl
    next => rfl

/-- The operation declares a capacity and tells nothing. -/
def Op.IsDeclaration (op : Op) : Prop := ∃ capacity, op = .declare capacity

/-- Away from uses a capacity is declared only before the first operation. -/
theorem isDeclaration_of_isUse (h : line.isUse = false) (started : Bool) :
    ∀ op ∈ opsOfDeclaration started line, op.IsDeclaration := by
  unfold opsOfDeclaration
  split
  next capacity _ =>
    rw [Source.Line.isDefinition_of_isUse h, if_pos rfl]
    split
    next =>
      rintro op hop
      exact ⟨capacity, List.mem_singleton.mp hop⟩
    next => exact fun op hop => absurd hop List.not_mem_nil
  next => exact fun op hop => absurd hop List.not_mem_nil

theorem isUseIn_of_mem_scriptFrom (started : Bool) (lines : List (Source.Line × Source.Bindings)) :
    ∀ cue ∈ scriptFrom started lines, Source.IsUseIn lines cue.line ∨ cue.op.IsDeclaration := by
  induction lines generalizing started with
  | nil => exact fun cue hcue => absurd hcue List.not_mem_nil
  | cons entry rest ih =>
    obtain ⟨line, bindings⟩ := entry
    intro cue hcue
    rcases List.mem_append.mp hcue with hcue | hcue
    · refine isUseIn_or_of_mem_cuesOn (fun h op hop => ?_) hcue bindings rest
      rw [filterMap_calls_eq_nil (opsOfCall?_of_isUse h bindings), List.flatten_nil,
        List.append_nil] at hop
      exact isDeclaration_of_isUse h started op hop
    · exact (ih _ cue hcue).imp_left fun huse => huse.cons _

theorem simulate_isCausedIn (code : String) :
    ∀ step ∈ (simulate code).steps, step.IsCausedIn (Source.boundLines code) := by
  refine replay_isCausedIn perform_told (fun cue hcue => ?_) _
  refine (isUseIn_of_mem_scriptFrom false _ cue hcue).imp_right ?_
  rintro ⟨capacity, hop⟩ ring
  unfold perform
  rw [hop]

end Circular

namespace Priority

variable {line : Source.Line} (bindings : Source.Bindings)

theorem opsOfCall?_of_isUse (h : line.isUse = false) (call : Source.Call) :
    opsOfCall? line bindings call = none := by
  have hpush : opsOfPush? line bindings call = none := by
    unfold opsOfPush?
    simp only [Source.Line.isDefinition_of_isUse h, Bool.true_or, if_true, ite_self]
  have hheapify : opsOfHeapify? line bindings call = none := by
    unfold opsOfHeapify?
    simp only [Source.Line.isDefinition_of_isUse h, if_true]
    split <;> rfl
  unfold opsOfCall?
  simp only [hpush, hheapify, Source.Line.isDefinition_of_isUse h, if_true, ite_self]
  split
  next => rfl
  next =>
    split
    next => rfl
    next => split <;> [split <;> rfl; rfl]

theorem opsOfLine_of_isUse (h : line.isUse = false) : opsOfLine line bindings = [] := by
  unfold opsOfLine
  rw [filterMap_calls_eq_nil (opsOfCall?_of_isUse bindings h)]
  dsimp only
  split
  next => rw [Source.Line.isDefinition_of_isUse h, if_pos rfl]
  next => rfl

theorem simulate_isCausedIn (code : String) :
    ∀ step ∈ (simulate code).steps, step.IsCausedIn (Source.boundLines code) :=
  replay_isCausedIn perform_told
    (fun cue hcue => Or.inl (isUseIn_of_mem_flatMap (fun _ => opsOfLine_of_isUse) _ cue hcue)) _

end Priority

namespace DoubleEnded

theorem opsOfCall_of_isUse {line : Source.Line} (bindings : Source.Bindings) (call : Source.Call)
    (h : line.isUse = false) : opsOfCall line bindings call = [] := by
  unfold opsOfCall
  simp only [Source.Line.isDefinition_of_isUse h, Bool.or_true, if_true]
  split
  next => split <;> rfl
  next => rfl

theorem simulate_isCausedIn (code : String) :
    ∀ step ∈ (simulate code).steps, step.IsCausedIn (Source.boundLines code) :=
  replay_isCausedIn perform_told
    (fun cue hcue => Or.inl (isUseIn_of_mem_calls (fun _ => opsOfCall_of_isUse) _ cue hcue)) []

end DoubleEnded

namespace Multiple

theorem opsOfCall_of_isUse {line : Source.Line} (bindings : Source.Bindings) (call : Source.Call)
    (h : line.isUse = false) : opsOfCall line bindings call = [] := by
  unfold opsOfCall
  simp only [Source.Line.isDefinition_of_isUse h, Bool.true_or, if_true]
  split <;> rfl

theorem simulate_isCausedIn (code : String) :
    ∀ step ∈ (simulate code).steps, step.IsCausedIn (Source.boundLines code) :=
  replay_isCausedIn perform_told
    (fun cue hcue => Or.inl (isUseIn_of_mem_calls (fun _ => opsOfCall_of_isUse) _ cue hcue)) _

end Multiple

namespace Deque

variable {line : Source.Line} (kind : QueueKind)

theorem opsOfCall?_of_isUse (h : line.isUse = false) (bindings : Source.Bindings)
    (call : Source.Call) : opsOfCall? kind line bindings call = none := by
  unfold opsOfCall?
  simp only [Source.Line.isDefinition_of_isUse h, if_true]
  cases verb? call with
  | none => rfl
  | some verb => exact Option.bind_fun_none _

/-- The operation declares a capacity and tells nothing. -/
def Op.IsDeclaration (op : Op) : Prop := ∃ capacity, op = .declare capacity

theorem isDeclaration_of_mem (started : Bool) :
    ∀ op ∈ opsOfDeclaration kind started line, op.IsDeclaration := by
  intro op hop
  unfold opsOfDeclaration at hop
  split at hop
  next =>
    obtain ⟨capacity, -, rfl⟩ := List.mem_map.mp hop
    exact ⟨capacity, rfl⟩
  next => exact absurd hop List.not_mem_nil

theorem isUseIn_of_mem_scriptFrom (started : Bool) (lines : List (Source.Line × Source.Bindings)) :
    ∀ cue ∈ scriptFrom kind started lines,
      Source.IsUseIn lines cue.line ∨ cue.op.IsDeclaration := by
  induction lines generalizing started with
  | nil => exact fun cue hcue => absurd hcue List.not_mem_nil
  | cons entry rest ih =>
    obtain ⟨line, bindings⟩ := entry
    intro cue hcue
    rcases List.mem_append.mp hcue with hcue | hcue
    · refine isUseIn_or_of_mem_cuesOn (fun h op hop => ?_) hcue bindings rest
      rw [filterMap_calls_eq_nil (opsOfCall?_of_isUse kind h bindings), List.flatten_nil,
        List.append_nil] at hop
      exact isDeclaration_of_mem kind started op hop
    · exact (ih _ cue hcue).imp_left fun huse => huse.cons _

theorem simulate_isCausedIn (code : String) :
    ∀ step ∈ (simulate kind code).steps, step.IsCausedIn (Source.boundLines code) := by
  refine replay_isCausedIn perform_told (fun cue hcue => ?_) _
  refine (isUseIn_of_mem_scriptFrom kind false _ cue hcue).imp_right ?_
  rintro ⟨capacity, hop⟩ state
  unfold perform
  rw [hop]

end Deque

end Queue

/-! ## Linked lists -/

namespace LinkedList

/-- Only uses hold statements. -/
theorem isUseIn_of_mem_statements (lines : List (Source.Line × Source.Bindings)) :
    ∀ cue ∈ statements lines, Source.IsUseIn lines cue.line := by
  induction lines with
  | nil => exact fun cue hcue => absurd hcue List.not_mem_nil
  | cons entry rest ih =>
    obtain ⟨line, bindings⟩ := entry
    intro cue hcue
    rw [statements] at hcue
    split at hcue
    next => exact (ih cue hcue).cons _
    next hplace =>
      rcases List.mem_cons.mp hcue with rfl | hcue
      · have huse : line.isUse = true := by
          rw [Bool.not_eq_true, Bool.or_eq_false_iff] at hplace
          rw [Source.Line.isUse, hplace.1, hplace.2]
          rfl
        exact ⟨(line, bindings), List.mem_cons_self, huse, rfl⟩
      · exact (ih cue hcue).cons _

theorem simulate_isCausedIn (hint : ListKind) (code : String) :
    ∀ step ∈ (simulate hint code).steps, step.IsCausedIn (Source.boundLines code) :=
  replay_isCausedIn (perform_told _)
    (fun cue hcue => Or.inl (isUseIn_of_mem_statements _ cue hcue)) []

end LinkedList

/-! ## Trees -/

namespace Tree

namespace SearchTree

theorem opsOfCall_of_isUse {line : Source.Line} (bindings : Source.Bindings) (call : Source.Call)
    (h : line.isUse = false) : opsOfCall line bindings call = [] := by
  unfold opsOfCall
  simp only [Source.Line.isDefinition_of_isUse h, if_true]

/-- A sorted insertion stands on the line of one of the requests. -/
theorem exists_request_of_mem_insertions {all : List (Cue Op)} {entry : Literal × Nat}
    (h : entry ∈ insertions all) : ∃ cue ∈ all, cue.line = entry.2 := by
  have hsorted := (eachKeptOnce_sublist _ _).subset h
  have hread := (Literal.sortBy_perm Prod.fst (all.filterMap insertion?)).subset hsorted
  obtain ⟨cue, hcue, hinsertion⟩ := List.mem_filterMap.mp hread
  refine ⟨cue, hcue, ?_⟩
  unfold insertion? at hinsertion
  split at hinsertion
  next =>
    obtain rfl := Option.some.inj hinsertion
    rfl
  next => nomatch hinsertion

theorem isUseIn_of_mem_script (code : String) :
    ∀ cue ∈ script code, Source.IsUseIn (Source.boundLines code) cue.line := by
  have hrequests : ∀ cue ∈ requests code, Source.IsUseIn (Source.boundLines code) cue.line :=
    isUseIn_of_mem_calls (fun _ => opsOfCall_of_isUse) _
  intro cue hcue
  rcases List.mem_append.mp hcue with hcue | hcue
  · obtain ⟨entry, hentry, rfl⟩ := List.mem_map.mp hcue
    obtain ⟨request, hrequest, hline⟩ := exists_request_of_mem_insertions hentry
    show Source.IsUseIn _ entry.2
    rw [← hline]
    exact hrequests request hrequest
  · exact hrequests cue (List.mem_of_mem_filter hcue)

theorem simulate_isCausedIn (kind : TreeKind) (code : String) :
    ∀ step ∈ (simulate kind code).steps, step.IsCausedIn (Source.boundLines code) := by
  have hsteps := replay_isCausedIn perform_told
    (fun cue hcue => Or.inl (isUseIn_of_mem_script code cue hcue)) {}
  unfold simulate
  generalize replay perform {} (script code) = told at hsteps ⊢
  exact hsteps

end SearchTree

namespace BTree

theorem simulate_isCausedIn (code : String) :
    ∀ step ∈ (simulate code).steps, step.IsCausedIn (Source.boundLines code) := by
  -- the steps of a schematic run carry no line
  have hline : ∀ step ∈ (simulate code).steps, step.line = none := by
    unfold simulate
    cases keys code with
    | nil => exact fun step hstep => absurd hstep List.not_mem_nil
    | cons key rest => exact fun step hstep => (stepsOf_told (key :: rest) step hstep).carries
  intro step hstep number hnumber
  rw [hline step hstep] at hnumber
  nomatch hnumber

end BTree

end Tree

/-! ## Stories -/

namespace Simulator

theorem queueStory_isCausedIn (kind : QueueKind) (code : String) :
    ∀ step ∈ (queueStory kind code).steps, step.IsCausedIn (Source.boundLines code) := by
  unfold queueStory
  split
  next => exact Queue.Linear.simulate_isCausedIn code
  next => exact Queue.Circular.simulate_isCausedIn code
  next => exact Queue.Priority.simulate_isCausedIn code
  next => exact Queue.DoubleEnded.simulate_isCausedIn code
  next => exact Queue.Multiple.simulate_isCausedIn code
  all_goals exact Queue.Deque.simulate_isCausedIn _ code

theorem exists_simulate_isCausedIn {simulator : Simulator} (h : simulator.playsContainer = true)
    (concept : Concept) (code : String) :
    ∃ story, simulator.simulate concept code = .ok story ∧
      ∀ step ∈ story.steps, step.IsCausedIn (Source.boundLines code) := by
  cases simulator with
  | stack => exact ⟨_, rfl, Stack.simulate_isCausedIn code⟩
  | queue kind => exact ⟨_, rfl, queueStory_isCausedIn kind code⟩
  | linkedList kind => exact ⟨_, rfl, LinkedList.simulate_isCausedIn kind code⟩
  | searchTree kind => exact ⟨_, rfl, Tree.SearchTree.simulate_isCausedIn kind code⟩
  | bTree => exact ⟨_, rfl, Tree.BTree.simulate_isCausedIn code⟩
  | graph _ | sorting _ | universal => nomatch h

/-- A line that a container's step carries is a line of the program, and neither the header of a
definition nor in a class body. -/
theorem told_lines_are_uses {simulator : Simulator} (h : simulator.playsContainer = true)
    (concept : Concept) (code : String) :
    ∃ story, simulator.simulate concept code = .ok story ∧
      ∀ step ∈ story.steps, ∀ number ∈ step.line,
        (∃ line ∈ Source.scan code, line.number = number) ∧
          ∀ line ∈ Source.scan code, line.number = number →
            line.isHeader = false ∧ line.inClass = false := by
  obtain ⟨story, htold, hsteps⟩ := exists_simulate_isCausedIn h concept code
  refine ⟨story, htold, fun step hstep number hnumber => ?_⟩
  exact (hsteps step hstep number hnumber).of_boundLines

/-- A class body that declares a capacity and appends a value, and a ring that is resized later. -/
def resizedRing : String :=
  "class Ring:\n    size = 3\n    def fill(self):\n        self.append(0)\n" ++
    "q = Ring()\nq.append(1)\nsize = 2\nq.popleft()"

/-- The class body tells nothing. -/
theorem told_lines_are_uses_resizedRing :
    (queueStory .circular resizedRing).steps.map Step.line = [some 6, some 7, some 8] ∧
    ∀ step ∈ (queueStory .circular resizedRing).steps, ∀ number ∈ step.line,
      (∃ line ∈ Source.scan resizedRing, line.number = number) ∧
        ∀ line ∈ Source.scan resizedRing, line.number = number →
          line.isHeader = false ∧ line.inClass = false := by
  refine ⟨by decide +kernel, ?_⟩
  obtain ⟨story, htold, huses⟩ := told_lines_are_uses
    (show (queue .circular).playsContainer = true from rfl) (.queue .circular) resizedRing
  obtain rfl := Except.ok.inj htold
  exact huses

end Simulator

end Storyboard
