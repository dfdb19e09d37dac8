import Storyboard.Proofs.Dispatch.Cascade
import Storyboard.Proofs.Stack

/-!
# The dispatched story of a stack

Without a memory, a complete story of a stack is told as the simulator tells it, with repeated steps
told once.  Two pushes of values that look the same are such a repetition, though the second one
changes the stack: behind it, the stack that is shown is not the one of the step before with the
operation performed.
-/

namespace Storyboard.Dispatch

variable {σ : Type}

/-- No push and no pop tells the same as the step before it. -/
def NoRepeatedChange (steps : List Step) : Prop :=
  steps.IsChain fun a b => Story.tellsSame a b = true → Stack.changes b = false

/-- A text goes on as it starts. -/
theorem toList_append_cons {s : String} {c : Char} {cs : List Char} (h : s.toList = c :: cs)
    (t : String) : (s ++ t).toList = c :: (cs ++ t.toList) := by
  rw [String.toList_append, h, List.cons_append]

/-- A single step whose description starts with something is described. -/
theorem describe_single {step : Step} {c : Char} {cs : List Char}
    (h : step.description.toList = c :: cs) (hc : Text.isBlank c = false) :
    [step].map Story.describe = [step] := by
  rw [List.map_singleton, Story.describe_eq_self h hc]

/-- Every step of a stack is described. -/
theorem describe_perform (items : List Literal) (cue : Cue Stack.Op) :
    (Stack.perform items cue).2.map Story.describe = (Stack.perform items cue).2 := by
  obtain ⟨line, op⟩ := cue
  -- a description that starts with a letter is kept as it is
  cases op with
  | push value =>
    have hpushed : "Pushed ".toList = 'P' :: "ushed ".toList := rfl
    exact describe_single (toList_append_cons (toList_append_cons hpushed value.shown) _) rfl
  | pop =>
    unfold Stack.perform
    dsimp only
    split
    next value _ =>
      have hpopped : "Popped ".toList = 'P' :: "opped ".toList := rfl
      exact describe_single (toList_append_cons (toList_append_cons hpopped value.shown) _) rfl
    next =>
      have hempty : "Tried to pop from empty stack".toList =
        'T' :: "ried to pop from empty stack".toList := rfl
      exact describe_single hempty rfl
  | peek =>
    unfold Stack.perform
    dsimp only
    split
    next value _ =>
      have hpeeked : "Peeked at top element ".toList = 'P' :: "eeked at top element ".toList := rfl
      exact describe_single (toList_append_cons hpeeked value.shown) rfl
    next =>
      have hempty : "Stack is empty; nothing to peek".toList =
        'S' :: "tack is empty; nothing to peek".toList := rfl
      exact describe_single hempty rfl

theorem describe_stack (code : String) :
    (Stack.simulate code).steps.map Story.describe = (Stack.simulate code).steps := by
  have hsteps : ∀ (cues : List (Cue Stack.Op)) (items : List Literal),
      (replay Stack.perform items cues).2.map Story.describe = (replay Stack.perform items cues).2 := by
    intro cues
    induction cues with
    | nil => exact fun _ => rfl
    | cons cue rest ih =>
      intro items
      rw [replay, List.map_append, ih, describe_perform]
  exact hsteps (Stack.script code) []

/-- A complete story of a stack is dispatched as it was told, up to collapsing. -/
theorem dispatch_stack_steps (services : Services σ) (hmemory : services.records = none)
    (config : Config) (code : String) (state : σ)
    (hcomplete : ∃ story, Simulator.stack.run .stack code = .complete story) :
    (dispatch services config .stack code state).1.steps =
      Story.collapse (Stack.simulate code).steps := by
  obtain ⟨story, hrun⟩ := hcomplete
  have hexact : exactStory? services config .stack code state = (none, state) := by
    unfold exactStory?
    rw [hmemory]
  have hresolve : resolve services config .stack code state = (story, state) := by
    rw [resolve_routed hexact rfl, simulated_of_complete hrun]
  have hstory : Stack.simulate code = story := Except.ok.inj (run_eq_complete_iff.mp hrun).1
  show Story.collapse ((resolve services config .stack code state).1.steps.map Story.describe) = _
  rw [hresolve, ← hstory, describe_stack]

/-- What the steps that are told say of a run of a stack. -/
structure TellsRun (run told : List Step) : Prop where
  /-- Every step is dropped that tells the same as the last one kept. -/
  collapsed : told = Story.collapse run
  /-- The run itself is one of a stack.  What is told is one when its steps are repeated as often as
  in the run, and as it is when no change is repeated. -/
  leads : ∃ items, Leads Stack.Does [] run items ∧ LeadsRepeating Stack.Does [] told items ∧
    (NoRepeatedChange run → Leads Stack.Does [] told items)
  /-- No change is dropped exactly when none is repeated. -/
  changes : told.filter Stack.changes = run.filter Stack.changes ↔ NoRepeatedChange run

/-- A complete story of a stack is told as a run of it. -/
theorem dispatch_stack_tellsRun (services : Services σ) (hmemory : services.records = none)
    (config : Config) (code : String) (state : σ)
    (hcomplete : ∃ story, Simulator.stack.run .stack code = .complete story) :
    TellsRun (Stack.simulate code).steps (dispatch services config .stack code state).1.steps := by
  have htold := dispatch_stack_steps services hmemory config code state hcomplete
  have hrun := Stack.simulate_leads code
  refine ⟨htold, ⟨_, hrun, ?_, ?_⟩, ?_⟩
  · rw [htold]
    exact collapse_leadsRepeating hrun
  · intro hquiet
    rw [htold]
    exact collapse_leads hrun (hquiet.imp fun a b h hsame => Stack.keeps_of_changes (h hsame))
  · rw [htold]
    exact Story.collapse_filter_iff

/-- No services at all. -/
def noServices : Services Unit := {}

theorem dispatch_stack_tellsRun_pop :
    noServices.records = none ∧
      (∃ story, Simulator.stack.run .stack "s.push(1)\ns.push(5)\ns.pop()\n" = .complete story) ∧
      TellsRun (Stack.simulate "s.push(1)\ns.push(5)\ns.pop()\n").steps
        (dispatch noServices {} .stack "s.push(1)\ns.push(5)\ns.pop()\n" ()).1.steps := by
  have hcomplete : ∃ story,
      Simulator.stack.run .stack "s.push(1)\ns.push(5)\ns.pop()\n" = .complete story :=
    ⟨_, run_eq_complete_iff.mpr ⟨rfl, by decide +kernel⟩⟩
  exact ⟨rfl, hcomplete, dispatch_stack_tellsRun noServices rfl {} _ () hcomplete⟩

/-- After two pushes of the same value the next one shows two items more than the step before it. -/
theorem dispatch_stack_repeated_push :
    (∃ story, Simulator.stack.run .stack "s.push(1)\ns.push(5)\ns.push(5)\ns.push(6)\n" =
        .complete story) ∧
      ¬∃ items, Leads Stack.Does [] (dispatch noServices {} .stack
        "s.push(1)\ns.push(5)\ns.push(5)\ns.push(6)\n" ()).1.steps items := by
  refine ⟨⟨_, run_eq_complete_iff.mpr ⟨rfl, by decide +kernel⟩⟩, ?_⟩
  rintro ⟨items, hleads⟩
  -- the stack of the second push of five is never shown
  have hdepths : (dispatch noServices {} .stack
      "s.push(1)\ns.push(5)\ns.push(5)\ns.push(6)\n" ()).1.steps.map Stack.depth = [1, 2, 4] := by
    decide +kernel
  have hchain := Stack.depth_isChain hleads
  rw [hdepths] at hchain
  exact absurd hchain (by decide)

end Storyboard.Dispatch
