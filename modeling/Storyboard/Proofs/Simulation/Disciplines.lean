import Storyboard.Queue.Linear
import Storyboard.Proofs.Simulation.Answers
import Storyboard.Proofs.Stack

/-!
# Last in, first out; first in, first out

What is told of a stack and of a linear queue replays from the empty structure, whatever the program:
every step changes the items of the step before it at the end that its action names, by its value, and
pictures the items that it leaves.  Every removal is told, of an empty structure as such, and every
traversal visits the items in order.
-/

namespace Storyboard

namespace Stack

/-- The step moves the stack as its action says, which is one of four, and shows it with its top and
its size. -/
structure Obeys (before : List Json) (step : Step) (after : List Json) : Prop extends
    Does before step after where
  known : step.action ∈ ["push", "pop", "pop_empty", "peek"]
  empty : step.action = "pop_empty" → before = []
  top : step.vars.lookup "top" = some (after.getLast?.getD .null)
  size : step.vars.lookup "size" = some (.ofNat after.length)

/-- The step that tells of an operation on a stack. -/
inductive Tells : List Json → Op → List Step → Prop
  | push {items : List Json} {value : Literal} {step : Step} (action : step.action = "push")
      (pushed : step.value = some value.toJson) : Tells items (.push value) [step]
  | pop {items : List Json} {step : Step} (held : items ≠ []) (action : step.action = "pop") :
      Tells items .pop [step]
  | popEmpty {step : Step} (action : step.action = "pop_empty") : Tells [] .pop [step]
  | peek {items : List Json} {step : Step} (action : step.action = "peek")
      (seen : step.value = items.getLast?) : Tells items .peek [step]

variable {before : List Json} {step : Step} {items : List Literal}

theorem Does.obeys (h : Does before step (Literal.jsonItems items)) (action : String)
    (haction : step.action = action) (hknown : action ∈ ["push", "pop", "pop_empty", "peek"])
    (hempty : action = "pop_empty" → before = [])
    (htop : step.vars.lookup "top" = some (Literal.toJson? items.getLast?))
    (hsize : step.vars.lookup "size" = some (.ofNat items.length)) :
    Obeys before step (Literal.jsonItems items) where
  toDoes := h
  known := haction ▸ hknown
  empty := haction ▸ hempty
  top := by rw [htop, Literal.toJson?_eq, Literal.getLast?_jsonItems]
  size := by rw [hsize, Literal.length_jsonItems]

theorem perform_answer (items : List Literal) (cue : Cue Op) :
    Answer Obeys Tells (Literal.jsonItems items) cue.op (perform items cue).2
      (Literal.jsonItems (perform items cue).1) := by
  have hleads := perform_leads items cue
  have hlast := Literal.getLast?_jsonItems items
  obtain ⟨line, op⟩ := cue
  cases op with
  | push value =>
    have hobeys := hleads.of_single.obeys "push" rfl (by decide) (fun h => absurd h (by decide))
      rfl rfl
    exact .single (.push rfl rfl) hobeys
  | pop =>
    -- what the step does depends on whether there is a value on top
    unfold perform at hleads ⊢
    dsimp only at hleads ⊢
    cases htop : items.getLast? with
    | some value =>
      rw [htop] at hleads hlast
      have hheld : Literal.jsonItems items ≠ [] := by
        rintro hnil
        rw [hnil] at hlast
        cases hlast
      have hobeys := hleads.of_single.obeys "pop" rfl (by decide) (fun h => absurd h (by decide))
        rfl rfl
      exact .single (.pop hheld rfl) hobeys
    | none =>
      obtain rfl := List.getLast?_eq_none_iff.mp htop
      have hobeys := hleads.of_single.obeys "pop_empty" rfl (by decide) (fun _ => rfl) rfl rfl
      exact .single (.popEmpty rfl) hobeys
  | peek =>
    unfold perform at hleads ⊢
    dsimp only at hleads ⊢
    cases htop : items.getLast? with
    | some value =>
      rw [htop] at hleads hlast
      have hobeys := hleads.of_single.obeys "peek" rfl (by decide) (fun h => absurd h (by decide))
        rfl rfl
      exact .single (.peek rfl hlast.symm) hobeys
    | none =>
      rw [htop] at hleads hlast
      have hobeys := hleads.of_single.obeys "peek" rfl (by decide) (fun h => absurd h (by decide))
        rfl rfl
      exact .single (.peek rfl hlast.symm) hobeys

/-- The story of a stack answers its script from the empty stack. -/
theorem simulate_answers (code : String) :
    Answers Obeys Tells [] ((script code).map Cue.op) (simulate code).steps
      (Literal.jsonItems (replay perform [] (script code)).1) := by
  refine replay_answers (fun _ => True) Literal.jsonItems ?_ [] trivial
  exact fun cue _ items _ => ⟨trivial, perform_answer items cue⟩

end Stack

namespace Queue.Linear

/-- What a step does to a linear queue, front first. -/
inductive Moves : List Json → Step → List Json → Prop
  | enqueue {items : List Json} {step : Step} {value : Json} (action : step.action = "enqueue")
      (told : step.value = some value) : Moves items step (items ++ [value])
  | dequeue {items : List Json} {step : Step} {value : Json} (action : step.action = "dequeue")
      (told : step.value = some value) : Moves (value :: items) step items
  | underflow {step : Step} (action : step.action = "underflow") : Moves [] step []
  | keep {items : List Json} {step : Step}
      (quiet : step.action ∈ ["peek", "display", "traverse", "visit"]) : Moves items step items

/-- The step shows the queue with its ends and their positions. -/
structure Shows (step : Step) (items : List Json) : Prop where
  queue : step.vars.lookup "queue" = some (.arr items)
  buffer : step.buffer = some items
  front : step.vars.lookup "front" = some (items.head?.getD .null)
  rear : step.vars.lookup "rear" = some (items.getLast?.getD .null)
  head : step.head = some (if items.isEmpty then -1 else 0)
  tail : step.tail = some (if items.isEmpty then -1 else (items.length : Int) - 1)

/-- The step moves the queue as its action says, and shows it as it is afterwards. -/
structure Obeys (before : List Json) (step : Step) (after : List Json) : Prop where
  moves : Moves before step after
  shows : Shows step after

/-- The step visits an item. -/
structure Visits (item : Json) (step : Step) : Prop where
  action : step.action = "visit"
  value : step.value = some item

/-- The steps that tell of an operation on a linear queue. -/
inductive Tells : List Json → Op → List Step → Prop
  | enqueue {items : List Json} {value : Literal} {step : Step} (action : step.action = "enqueue")
      (told : step.value = some value.toJson) : Tells items (.enqueue value) [step]
  | dequeue {items : List Json} {step : Step} (held : items ≠ [])
      (action : step.action = "dequeue") : Tells items .dequeue [step]
  | underflow {step : Step} (action : step.action = "underflow") : Tells [] .dequeue [step]
  | peek {items : List Json} {step : Step} (action : step.action = "peek")
      (seen : step.value = items.head?) : Tells items .peek [step]
  | display {items : List Json} {step : Step} (action : step.action = "display") :
      Tells items .display [step]
  | traverse {items : List Json} {step : Step} {visits : List Step}
      (action : step.action = "traverse") (visited : List.Forall₂ Visits items visits) :
      Tells items .traverse (step :: visits)

theorem snapshot_shows (items : List Literal) (line : Nat) (action description : String) :
    Shows (snapshot items line action description) (Literal.jsonItems items) where
  queue := rfl
  buffer := rfl
  front := by
    rw [Literal.head?_jsonItems, ← Literal.toJson?_eq]
    rfl
  rear := by
    rw [Literal.getLast?_jsonItems, ← Literal.toJson?_eq]
    rfl
  head := by cases items <;> rfl
  tail := by
    rw [Literal.length_jsonItems]
    cases items <;> rfl

theorem Shows.withValue {step : Step} {items : List Json} (h : Shows step items) (value : Json) :
    Shows (step.withValue value) items := { h with }

theorem visits_visited (items rest : List Literal) (line position : Nat) :
    List.Forall₂ Visits (Literal.jsonItems rest) (visits items line position rest) := by
  induction rest generalizing position with
  | nil => exact .nil
  | cons item rest ih => exact .cons ⟨rfl, rfl⟩ (ih (position + 1))

theorem visits_leads (items rest : List Literal) (line position : Nat) :
    Leads Obeys (Literal.jsonItems items) (visits items line position rest)
      (Literal.jsonItems items) := by
  induction rest generalizing position with
  | nil => exact .nil
  | cons item rest ih =>
    refine .cons ⟨.keep (List.mem_of_elem_eq_true rfl), ?_⟩ (ih (position + 1))
    exact (snapshot_shows items line "visit" _).withValue item.toJson

theorem perform_answer (items : List Literal) (cue : Cue Op) :
    Answer Obeys Tells (Literal.jsonItems items) cue.op (perform items cue).2
      (Literal.jsonItems (perform items cue).1) := by
  obtain ⟨line, op⟩ := cue
  cases op with
  | enqueue value =>
    refine .single (.enqueue rfl rfl) ⟨?_, (snapshot_shows (items ++ [value]) line _ _).withValue _⟩
    show Moves _ _ (Literal.jsonItems (items ++ [value]))
    rw [Literal.jsonItems_append]
    exact .enqueue rfl rfl
  | dequeue =>
    cases items with
    | nil => exact .single (.underflow rfl) ⟨.underflow rfl, snapshot_shows [] line _ _⟩
    | cons value left =>
      refine .single (.dequeue (List.cons_ne_nil _ _) rfl) ⟨.dequeue rfl rfl, ?_⟩
      exact (snapshot_shows left line _ _).withValue _
  | peek =>
    cases items with
    | nil =>
      exact .single (.peek rfl rfl) ⟨.keep (List.mem_of_elem_eq_true rfl), snapshot_shows [] line _ _⟩
    | cons value left =>
      refine .single (.peek rfl rfl) ⟨.keep (List.mem_of_elem_eq_true rfl), ?_⟩
      exact (snapshot_shows (value :: left) line _ _).withValue _
  | display =>
    exact .single (.display rfl) ⟨.keep (List.mem_of_elem_eq_true rfl), snapshot_shows items line _ _⟩
  | traverse =>
    refine ⟨.traverse rfl (visits_visited items items line 0), ?_⟩
    refine .cons ⟨.keep (List.mem_of_elem_eq_true rfl), snapshot_shows items line _ _⟩ ?_
    exact visits_leads items items line 0

/-- The story of a linear queue answers its script from the empty queue. -/
theorem simulate_answers (code : String) :
    Answers Obeys Tells [] ((script code).map Cue.op) (simulate code).steps
      (Literal.jsonItems (replay perform [] (script code)).1) := by
  refine replay_answers (fun _ => True) Literal.jsonItems ?_ [] trivial
  exact fun cue _ items _ => ⟨trivial, perform_answer items cue⟩

end Queue.Linear

/-- The stories of a stack and of a linear queue replay their scripts from the empty structure,
whatever the program. -/
theorem stack_and_queue_replay (code : String) :
    Replays Stack.Obeys Stack.Tells [] ((Stack.script code).map Cue.op) (Stack.simulate code).steps ∧
      Replays Queue.Linear.Obeys Queue.Linear.Tells [] ((Queue.Linear.script code).map Cue.op)
        (Queue.Linear.simulate code).steps :=
  ⟨(Stack.simulate_answers code).replays, (Queue.Linear.simulate_answers code).replays⟩

end Storyboard
