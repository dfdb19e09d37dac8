import Storyboard.Proofs.Simulation.Leads

/-!
# Stories as answers to a script

A run (`Leads`) says how each step changes the state that the step before it has shown, but not which
operations it is a run of.  In `Answers` every operation has steps of its own: they tell of it, as the
state that it meets requires, and they lead on to the state that the next operation meets.  A replay
answers its script when each of its cues is answered while the structure is sound (`replay_answers`).
What its cues put in and take out one by one is what all of them together do (`replay_conserves`).
-/

namespace Storyboard

variable {σ α : Type}

/-- The steps tell of an operation, and lead from the state that it meets to another one. -/
structure Answer (does : σ → Step → σ → Prop) (tells : σ → α → List Step → Prop) (before : σ) (op : α)
    (part : List Step) (after : σ) : Prop where
  told : tells before op part
  leads : Leads does before part after

/-- The steps answer the operations one after the other, each operation with steps of its own. -/
inductive Answers (does : σ → Step → σ → Prop) (tells : σ → α → List Step → Prop) :
    σ → List α → List Step → σ → Prop
  | nil {state : σ} : Answers does tells state [] [] state
  | cons {before between after : σ} {op : α} {ops : List α} {part rest : List Step}
      (first : Answer does tells before op part between)
      (later : Answers does tells between ops rest after) :
      Answers does tells before (op :: ops) (part ++ rest) after

/-- The steps replay the operations from a state on: they are a run, and they answer the operations. -/
def Replays (does : σ → Step → σ → Prop) (tells : σ → α → List Step → Prop) (start : σ) (ops : List α)
    (steps : List Step) : Prop :=
  ∃ last, Leads does start steps last ∧ Answers does tells start ops steps last

variable {does : σ → Step → σ → Prop} {tells : σ → α → List Step → Prop}
  {before between after : σ} {op : α} {ops more : List α} {step : Step} {steps part rest : List Step}

theorem Leads.of_single (h : Leads does before [step] after) : does before step after := by
  cases h with
  | cons first later =>
    cases later
    exact first

/-- A run between states is a run between what is seen of them. -/
theorem Leads.of_view {τ : Type} (view : τ → σ) {start last : τ}
    (h : Leads (fun before step after => does (view before) step (view after)) start steps last) :
    Leads does (view start) steps (view last) := by
  induction h with
  | nil => exact .nil
  | cons first _ ih => exact .cons first ih

/-- An operation that a single step tells of. -/
theorem Answer.single (htold : tells before op [step]) (hdoes : does before step after) :
    Answer does tells before op [step] after := ⟨htold, .single hdoes⟩

namespace Answers

/-- What answers a script is a run. -/
theorem leads (h : Answers does tells before ops steps after) : Leads does before steps after := by
  induction h with
  | nil => exact .nil
  | cons first _ ih => exact first.leads.append ih

theorem replays (h : Answers does tells before ops steps after) :
    Replays does tells before ops steps := ⟨after, h.leads, h⟩

theorem append (h : Answers does tells before ops steps between)
    (h' : Answers does tells between more rest after) :
    Answers does tells before (ops ++ more) (steps ++ rest) after := by
  induction h with
  | nil => exact h'
  | cons first _ ih =>
    rw [List.append_assoc]
    exact .cons first (ih h')

/-- Every step tells of one of the operations. -/
theorem exists_of_mem (h : Answers does tells before ops steps after) (hstep : step ∈ steps) :
    ∃ met, ∃ op ∈ ops, ∃ part, tells met op part ∧ step ∈ part := by
  induction h with
  | nil => exact absurd hstep List.not_mem_nil
  | @cons before between after op ops part rest first _ ih =>
    rcases List.mem_append.mp hstep with hmem | hmem
    · exact ⟨before, op, List.mem_cons_self, part, first.told, hmem⟩
    · obtain ⟨met, other, hop, answer⟩ := ih hmem
      exact ⟨met, other, List.mem_cons_of_mem op hop, answer⟩

end Answers

variable {τ : Type} {perform : τ → Cue α → τ × List Step} {cues : List (Cue α)}

/-- The operations of cues that are made from operations. -/
theorem map_op_map (line : Nat) (ops : List α) :
    (ops.map fun op => (⟨line, op⟩ : Cue α)).map Cue.op = ops := by
  rw [List.map_map]
  exact List.map_id ops

/-- A replay of a sound structure answers its cues, when each of them is answered in every sound
state and leaves the structure sound. -/
theorem replay_answers (sound : τ → Prop) (view : τ → σ)
    (h : ∀ cue ∈ cues, ∀ state, sound state → sound (perform state cue).1 ∧
      Answer does tells (view state) cue.op (perform state cue).2 (view (perform state cue).1))
    (state : τ) (hsound : sound state) :
    Answers does tells (view state) (cues.map Cue.op) (replay perform state cues).2
      (view (replay perform state cues).1) := by
  induction cues generalizing state with
  | nil => exact .nil
  | cons cue rest ih =>
    obtain ⟨hcue, hrest⟩ := List.forall_mem_cons.mp h
    obtain ⟨hnext, hanswer⟩ := hcue state hsound
    exact .cons hanswer (ih hrest (perform state cue).1 hnext)

/-! ## What a replay puts in and takes out -/

section

open scoped List

variable {β : Type}

/-- What the cues take out, each of the state that it meets. -/
def gathered (perform : τ → Cue α → τ × List Step) (taken : τ → Cue α → List β) :
    τ → List (Cue α) → List β
  | _, [] => []
  | state, cue :: rest => taken state cue ++ gathered perform taken (perform state cue).1 rest

/-- After a replay the structure and what was taken out of it hold what it held before and what was put
in, when every single cue keeps this balance. -/
theorem replay_conserves (sound : τ → Prop) (content : τ → List β)
    (taken : τ → Cue α → List β) (given : Cue α → List β)
    (h : ∀ cue ∈ cues, ∀ state, sound state → sound (perform state cue).1 ∧
      content (perform state cue).1 ++ taken state cue ~ content state ++ given cue)
    (state : τ) (hsound : sound state) :
    content (replay perform state cues).1 ++ gathered perform taken state cues ~
      content state ++ cues.flatMap given := by
  induction cues generalizing state with
  | nil => exact .refl _
  | cons cue rest ih =>
    obtain ⟨hcue, hrest⟩ := List.forall_mem_cons.mp h
    obtain ⟨hnext, hfirst⟩ := hcue state hsound
    rw [gathered, List.flatMap_cons]
    calc content (replay perform (perform state cue).1 rest).1 ++
            (taken state cue ++ gathered perform taken (perform state cue).1 rest)
        ~ taken state cue ++ (content (replay perform (perform state cue).1 rest).1 ++
            gathered perform taken (perform state cue).1 rest) := List.perm_append_comm_assoc _ _ _
      _ ~ taken state cue ++ (content (perform state cue).1 ++ rest.flatMap given) :=
          (ih hrest _ hnext).append_left _
      _ ~ (content (perform state cue).1 ++ taken state cue) ++ rest.flatMap given := by
          rw [← List.append_assoc]
          exact List.perm_append_comm.append_right _
      _ ~ (content state ++ given cue) ++ rest.flatMap given := hfirst.append_right _
      _ = content state ++ (given cue ++ rest.flatMap given) := List.append_assoc _ _ _

end

/-! ## What a step shows of literals -/

namespace Literal

theorem toJson?_eq (value : Option Literal) : toJson? value = (value.map toJson).getD .null := by
  cases value <;> rfl

theorem head?_jsonItems (items : List Literal) :
    (jsonItems items).head? = items.head?.map toJson := by
  rw [jsonItems_eq_map, List.head?_map]

theorem getLast?_jsonItems (items : List Literal) :
    (jsonItems items).getLast? = items.getLast?.map toJson := by
  rw [jsonItems_eq_map, List.getLast?_map]

theorem jsonItems_append (items more : List Literal) :
    jsonItems (items ++ more) = jsonItems items ++ jsonItems more := by
  rw [jsonItems_eq_map, jsonItems_eq_map, jsonItems_eq_map, List.map_append]

theorem length_jsonItems (items : List Literal) : (jsonItems items).length = items.length := by
  rw [jsonItems_eq_map, List.length_map]

end Literal

end Storyboard
