import Storyboard.Proofs.Sorting.Trace
import Storyboard.Proofs.Simulation.Leads

/-!
# The steps of a sort replay it

Every step shows the array after it, and from the one before and the step alone it can be told how
it has come about (`Moves`): a swap exchanges the two positions that it points at, a shift copies
the value before its position to it, an insertion writes the key that was taken last, and every
other step leaves the array alone.  All sorts but merge sort, which writes without a step, are
replayed by their steps (`sort_replays`).
-/

namespace Storyboard.Sorting

variable {n : Nat} {start : Vector Int n}

/-- What a replay holds: the array, and the key that was taken last. -/
structure Held (n : Nat) where
  arr : Vector Int n
  key : Option Int

/-- The actions of the steps that only look at the array. -/
def lookingActions : List String :=
  ["compare", "select_min", "pivot", "partition", "heapify", "mark_sorted"]

/-- What a step makes of the array and the key before it. -/
inductive Moves : Held n → Step → Held n → Prop
  | swap {held : Held n} {step : Step} {i j : Fin n} (action : step.action = "swap")
      (first : PointsAt "i" i step) (second : PointsAt "j" j step) (distinct : i ≠ j) :
      Moves held step { held with arr := exchange held.arr i j }
  | shift {held : Held n} {step : Step} {source target : Fin n} (action : step.action = "shift")
      (position : PointsAt "j" target step) (next : (target : Nat) = source + 1) :
      Moves held step { held with arr := put held.arr target (held.arr.get source) }
  | selectKey {held : Held n} {step : Step} {i : Fin n} (action : step.action = "select_key")
      (position : PointsAt "i" i step)
      (description : step.description =
        s!"Take key {Decimal.intText (held.arr.get i)} from index {Decimal.intText i}") :
      Moves held step { held with key := some (held.arr.get i) }
  | insert {held : Held n} {step : Step} {j : Fin n} {key : Int} (action : step.action = "insert")
      (position : PointsAt "j" j step) (taken : held.key = some key) :
      Moves held step { held with arr := put held.arr j key }
  | look {held : Held n} {step : Step} (action : step.action ∈ lookingActions) :
      Moves held step held

/-- The step moves the values, and shows the array as it is afterwards. -/
structure Does (before : Held n) (step : Step) (after : Held n) : Prop where
  moves : Moves before step after
  shows : ShowsArray after.arr step

/-- The first step sets the array to `start`, and the others lead on from there, each from the array
and the key that the steps before it have left. -/
def Replays (does : Held n → Step → Held n → Prop) (start : Vector Int n) (steps : List Step) :
    Prop :=
  ∃ first rest, steps = first :: rest ∧ first.action = "set_array" ∧ ShowsArray start first ∧
    ∃ after, Leads does ⟨start, none⟩ rest after

/-! ## The step of an event -/

/-- What is held after a recording. -/
def heldOf (r : Recording start) : Held n := ⟨r.now, (hand? r.events).map Prod.snd⟩

/-- The event has a step, which does what the event does. -/
def IsDone (does : Held n → Step → Held n → Prop) (r : Recording start) (event : Event n) : Prop :=
  ∃ step, stepOf? event (event.apply r.now) = some step ∧
    does (heldOf r) step (heldOf (r.add event))

theorem Exchanges.isDone {r : Recording start} {event : Event n} (h : Exchanges r event) :
    IsDone Does r event := by
  cases h with
  | swap distinct => exact ⟨_, rfl, .swap rfl rfl rfl distinct, stepOn_showsArray ..⟩
  | _ => exact ⟨_, rfl, .look (by simp [lookingActions, stepOn]), stepOn_showsArray ..⟩

theorem Inserts.isDone {r : Recording start} {event : Event n} (h : Inserts r event) :
    IsDone Does r event := by
  cases h with
  | selectKey => exact ⟨_, rfl, .selectKey rfl rfl rfl, stepOn_showsArray ..⟩
  | compareKey i j key =>
    exact ⟨_, rfl, .look (by simp [lookingActions, stepOn]), stepOn_showsArray ..⟩
  | @shift i source target key held next _ =>
    -- the key in the hand stays the same while its free position moves
    have hheld : heldOf (r.add (.shift i source target)) =
        { heldOf r with arr := put r.now target (r.now.get source) } := by
      simp [heldOf, hand?, held, Event.apply]
    exact ⟨_, rfl, hheld ▸ .shift rfl rfl next, stepOn_showsArray ..⟩
  | @insert i j key held =>
    have htaken : (heldOf r).key = some key := by simp [heldOf, held]
    exact ⟨_, rfl, .insert rfl rfl htaken, stepOn_showsArray ..⟩

/-! ## Runs -/

/-- When every event that is allowed is done by its step, the steps of a sort replay it, and its
marks change nothing. -/
theorem replays_of_isDone {allowed : Recording start → Event n → Prop} {kind : SortKind}
    {does : Held n → Step → Held n → Prop}
    (h : Continues allowed (.empty start) (sort kind (.empty start)))
    (hdone : ∀ r event, allowed r event → IsDone does r event)
    (hmark : ∀ (held : Held n) (i : Fin n), does held (markStep held.arr i) held) :
    Replays does start (steps kind start) := by
  have hsort : Leads does ⟨start, none⟩ (stepsOf (sort kind (.empty start)))
      (heldOf (sort kind (.empty start))) := by
    refine h.preserves (P := fun r => Leads does ⟨start, none⟩ (stepsOf r) (heldOf r)) ?_ .nil
    intro r event hr hallowed
    obtain ⟨step, hstep, hdoes⟩ := hdone r event hallowed
    rw [stepsOf_add, hstep]
    exact hr.append (.single hdoes)
  have hmarks : Leads does (heldOf (sort kind (.empty start)))
      ((List.finRange n).map (markStep (sort kind (.empty start)).now))
      (heldOf (sort kind (.empty start))) := by
    refine Leads.of_forall_keeps fun step hstep => ?_
    obtain ⟨i, -, rfl⟩ := List.mem_map.mp hstep
    exact hmark (heldOf (sort kind (.empty start))) i
  exact ⟨openingStep start, _, steps_append kind start, rfl, stepOn_showsArray .., _,
    hsort.append hmarks⟩

/-- A mark changes nothing. -/
theorem markStep_does (held : Held n) (i : Fin n) : Does held (markStep held.arr i) held :=
  ⟨.look (by simp [lookingActions, markStep, stepOn]), stepOn_showsArray ..⟩

/-- Every sort but merge sort is replayed by its steps. -/
theorem sort_replays (kind : SortKind) (hkind : kind ≠ .merge) (start : Vector Int n) :
    Replays Does start (steps kind start) := by
  have hexchanges : Continues Exchanges (.empty start) (sort kind (.empty start)) →
      Replays Does start (steps kind start) := fun h =>
    replays_of_isDone h (fun _ _ => Exchanges.isDone) markStep_does
  cases kind with
  | merge => exact absurd rfl hkind
  | insertion =>
    exact replays_of_isDone (insertion_continues start).1 (fun _ _ => Inserts.isDone) markStep_does
  | selection => exact hexchanges (selectionFrom_continues 0 _)
  | quick => exact hexchanges (quick_continues _)
  | heap => exact hexchanges (heap_continues _)
  | bubble => exact hexchanges ((bubble_continues _).mono fun _ _ => Bubbles.exchanges)
  | generic => exact hexchanges ((bubble_continues _).mono fun _ _ => Bubbles.exchanges)

theorem sort_replays_insertion :
    SortKind.insertion ≠ .merge ∧ Replays Does #v[2, 3, 1] (steps .insertion #v[2, 3, 1]) :=
  ⟨by decide, sort_replays .insertion (by decide) #v[2, 3, 1]⟩

end Storyboard.Sorting
