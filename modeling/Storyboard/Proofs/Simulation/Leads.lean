import Storyboard.Simulation.Cue
import Storyboard.Proofs.Story.Polish

/-!
# Stories as runs

`does before step after` says of a step that it leads from one state of a structure to another.
Steps that do so one after the other are a run (`Leads`).  A replay is a run when each of its cues
is.

When repeated steps are collapsed, each step that is kept stands for itself and those that were
dropped behind it (`LeadsRepeating`); what is left is a run of its own as long as the dropped steps
have changed nothing.
-/

namespace Storyboard

/-- The steps lead from one state to another. -/
inductive Leads {σ β : Type} (does : σ → β → σ → Prop) : σ → List β → σ → Prop
  | nil {state : σ} : Leads does state [] state
  | cons {before between after : σ} {step : β} {rest : List β}
      (first : does before step between) (later : Leads does between rest after) :
      Leads does before (step :: rest) after

namespace Leads

variable {σ β : Type} {does : σ → β → σ → Prop} {before between after : σ} {steps more : List β}

theorem single {step : β} (h : does before step after) : Leads does before [step] after :=
  .cons h .nil

theorem append (h : Leads does before steps between) (h' : Leads does between more after) :
    Leads does before (steps ++ more) after := by
  induction h with
  | nil => exact h'
  | cons first _ ih => exact .cons first (ih h')

/-- A run passes through a state between any two of its parts. -/
theorem exists_between (h : Leads does before (steps ++ more) after) :
    ∃ between, Leads does before steps between ∧ Leads does between more after := by
  induction steps generalizing before with
  | nil => exact ⟨before, .nil, h⟩
  | cons step rest ih =>
    rw [List.cons_append] at h
    cases h with
    | cons first later =>
      obtain ⟨between, hrest, hmore⟩ := ih later
      exact ⟨between, .cons first hrest, hmore⟩

/-- Steps that change nothing lead back to the state that they meet. -/
theorem of_forall_keeps (h : ∀ step ∈ steps, does before step before) :
    Leads does before steps before := by
  induction steps with
  | nil => exact .nil
  | cons step rest ih =>
    rw [List.forall_mem_cons] at h
    exact .cons h.1 (ih h.2)

/-- Every step of a run leads from some state to another. -/
theorem exists_of_mem {step : β} (h : Leads does before steps after) (hstep : step ∈ steps) :
    ∃ met left, does met step left := by
  induction h with
  | nil => exact absurd hstep List.not_mem_nil
  | cons first _ ih =>
    rcases List.mem_cons.mp hstep with rfl | hstep
    · exact ⟨_, _, first⟩
    · exact ih hstep

end Leads

variable {σ α : Type} {does : σ → Step → σ → Prop} {before between after : σ} {steps : List Step}

/-- A replay is a run, when every cue that it performs is one. -/
theorem replay_leads {τ : Type} (view : τ → σ) {perform : τ → Cue α → τ × List Step}
    (h : ∀ state cue, Leads does (view state) (perform state cue).2 (view (perform state cue).1))
    (state : τ) (cues : List (Cue α)) :
    Leads does (view state) (replay perform state cues).2 (view (replay perform state cues).1) := by
  induction cues generalizing state with
  | nil => exact .nil
  | cons cue rest ih => exact (h state cue).append (ih (perform state cue).1)

/-! ## Collapsing a run -/

/-- The steps lead from one state to another, when each of them is repeated as often as needed. -/
inductive LeadsRepeating (does : σ → Step → σ → Prop) : σ → List Step → σ → Prop
  | nil {state : σ} : LeadsRepeating does state [] state
  | cons {before between after : σ} {step : Step} {repeats rest : List Step}
      (same : ∀ other ∈ repeats, Story.tellsSame step other = true)
      (first : Leads does before (step :: repeats) between)
      (later : LeadsRepeating does between rest after) :
      LeadsRepeating does before (step :: rest) after

theorem noRepeats {step : Step} : ∀ other ∈ [], Story.tellsSame step other = true :=
  fun _ h => absurd h List.not_mem_nil

/-- Collapsing after `step` keeps a run, with the steps dropped so far as its repetitions. -/
theorem collapseAfter_leadsRepeating {step : Step} {repeats : List Step}
    (hsame : ∀ other ∈ repeats, Story.tellsSame step other = true)
    (hfirst : Leads does before (step :: repeats) between) (hrest : Leads does between steps after) :
    LeadsRepeating does before (step :: Story.collapseAfter step steps) after := by
  induction steps generalizing before between step repeats with
  | nil =>
    cases hrest
    exact .cons hsame hfirst .nil
  | cons next rest ih =>
    obtain ⟨hnext, hrest⟩ : ∃ state, does between next state ∧ Leads does state rest after := by
      cases hrest with
      | cons first later => exact ⟨_, first, later⟩
    rw [Story.collapseAfter]
    split
    next htells =>
      -- the step is dropped, and joins those that `step` stands for
      refine ih ?_ (hfirst.append (.single hrest.1)) hrest.2
      intro other hmem
      rcases List.mem_append.mp hmem with hmem | hmem
      · exact hsame other hmem
      · rw [List.mem_singleton.mp hmem]
        exact htells
    next => exact .cons hsame hfirst (ih noRepeats (.single hrest.1) hrest.2)

/-- A collapsed run is one in which each step may be repeated. -/
theorem collapse_leadsRepeating (h : Leads does before steps after) :
    LeadsRepeating does before (Story.collapse steps) after := by
  cases h with
  | nil => exact .nil
  | cons first later => exact collapseAfter_leadsRepeating noRepeats (.single first) later

/-- The step changes nothing. -/
def Keeps (does : σ → Step → σ → Prop) (step : Step) : Prop :=
  ∀ before after, does before step after → after = before

/-- Collapsing after `last` keeps a run when no step changes anything that tells the same as the one
before it. -/
theorem collapseAfter_leads {last : Step} (h : Leads does before steps after)
    (hkeeps : (last :: steps).IsChain fun a b => Story.tellsSame a b = true → Keeps does b) :
    Leads does before (Story.collapseAfter last steps) after := by
  induction h generalizing last with
  | nil => exact .nil
  | @cons before between after step rest first _ ih =>
    rw [List.isChain_cons_cons] at hkeeps
    rw [Story.collapseAfter]
    split
    next htells =>
      -- the dropped step leaves the state alone, so the rest runs on from the same one
      obtain rfl := hkeeps.1 htells _ _ first
      rw [Story.collapseAfter_congr htells]
      exact ih hkeeps.2
    next => exact .cons first (ih hkeeps.2)

/-- A collapsed run is a run when no step changes anything that tells the same as the one before
it. -/
theorem collapse_leads (h : Leads does before steps after)
    (hkeeps : steps.IsChain fun a b => Story.tellsSame a b = true → Keeps does b) :
    Leads does before (Story.collapse steps) after := by
  cases h with
  | nil => exact .nil
  | cons first later => exact .cons first (collapseAfter_leads later hkeeps)

end Storyboard
