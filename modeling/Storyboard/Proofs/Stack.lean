import Storyboard.Stack
import Storyboard.Proofs.Simulation.Leads

/-!
# The story of a stack is a run of it

Every step shows the stack that it leaves behind, and it tells what has happened to the one before:
a push appends its value, a pop takes its value off the end, and all other steps leave the stack
alone.
-/

namespace Storyboard.Stack

/-- The step changes the stack. -/
def changes (step : Step) : Bool := step.action == "push" || step.action == "pop"

/-- What a step does to the stack. -/
inductive Moves : List Json → Step → List Json → Prop
  | push {before : List Json} {step : Step} {value : Json} (action : step.action = "push")
      (pushed : step.value = some value) : Moves before step (before ++ [value])
  | pop {after : List Json} {step : Step} {value : Json} (action : step.action = "pop")
      (popped : step.value = some value) : Moves (after ++ [value]) step after
  | keep {items : List Json} {step : Step} (quiet : changes step = false) : Moves items step items

/-- The step moves the stack, and shows it as it is afterwards. -/
structure Does (before : List Json) (step : Step) (after : List Json) : Prop where
  moves : Moves before step after
  shows : step.vars.lookup "stack" = some (.arr after)

/-- Performing an operation is a run. -/
theorem perform_leads (items : List Literal) (cue : Cue Op) :
    Leads Does (Literal.jsonItems items) (perform items cue).2
      (Literal.jsonItems (perform items cue).1) := by
  obtain ⟨line, op⟩ := cue
  cases op with
  | push value =>
    refine .single ⟨?_, rfl⟩
    show Moves _ _ (Literal.jsonItems (items ++ [value]))
    rw [Literal.jsonItems_eq_map, Literal.jsonItems_eq_map, List.map_append]
    exact .push rfl rfl
  | pop =>
    unfold perform
    dsimp only
    split
    next value hlast =>
      -- the popped value is the last of the items before
      have hitems : items = items.dropLast ++ [value] :=
        (List.dropLast_append_getLast? value hlast).symm
      have hjson : items.map Literal.toJson =
          items.dropLast.map Literal.toJson ++ [value.toJson] :=
        (congrArg (List.map Literal.toJson) hitems).trans List.map_append
      refine .single ⟨?_, rfl⟩
      rw [Literal.jsonItems_eq_map, Literal.jsonItems_eq_map, hjson]
      exact .pop rfl rfl
    next => exact .single ⟨.keep rfl, rfl⟩
  | peek =>
    unfold perform
    dsimp only
    split
    next value _ => exact .single ⟨.keep rfl, rfl⟩
    next => exact .single ⟨.keep rfl, rfl⟩

/-- The story of a stack is a run from the empty one. -/
theorem simulate_leads (code : String) :
    Leads Does [] (simulate code).steps
      (Literal.jsonItems (replay perform [] (script code)).1) :=
  replay_leads Literal.jsonItems perform_leads [] (script code)

/-- How many items the step shows. -/
def depth (step : Step) : Nat :=
  match step.vars.lookup "stack" with
  | some (.arr items) => items.length
  | _ => 0

theorem Does.depth_eq {before after : List Json} {step : Step} (h : Does before step after) :
    depth step = after.length := by
  rw [depth, h.shows]

/-- In a run no step shows more than one item more than the step before it. -/
theorem depth_isChain {before after : List Json} {steps : List Step}
    (h : Leads Does before steps after) :
    (before.length :: steps.map depth).IsChain fun a b => b ≤ a + 1 := by
  induction h with
  | nil => exact .singleton _
  | @cons before between after step rest first _ ih =>
    rw [List.map_cons, List.isChain_cons_cons, first.depth_eq]
    refine ⟨?_, ih⟩
    cases first.moves with
    | push => rw [List.length_append, List.length_singleton]
    | pop =>
      rw [List.length_append, List.length_singleton]
      exact Nat.le_succ_of_le (Nat.le_succ _)
    | keep => exact Nat.le_succ _

/-- A step that is neither a push nor a pop changes nothing. -/
theorem keeps_of_changes {step : Step} (h : changes step = false) : Keeps Does step := by
  rintro before after ⟨hmoves, -⟩
  rw [changes, Bool.or_eq_false_iff, beq_eq_false_iff_ne, beq_eq_false_iff_ne] at h
  cases hmoves with
  | push action => exact absurd action h.1
  | pop action => exact absurd action h.2
  | keep => rfl

end Storyboard.Stack
