import Storyboard.Proofs.Sorting.Events
import Mathlib.Data.List.FinRange

/-!
# The trace of a sort ends in its marks

No sort marks a position as final; the marks are put behind it, one for each position from the first
to the last, and none of them changes the array.  So the last steps of a run are its marks, and all
of them show the array as the sort has left it (`steps_append`).
-/

namespace Storyboard.Sorting

variable {n : Nat} {start : Vector Int n}

/-- The event marks a position as final. -/
def Event.isMark : Event n → Bool
  | .markSorted _ => true
  | _ => false

/-- No sort marks a position. -/
theorem sort_unmarked (kind : SortKind) (start : Vector Int n) :
    Continues (fun _ event => event.isMark = false) (.empty start) (sort kind (.empty start)) := by
  cases kind with
  | selection => exact (selectionFrom_continues 0 _).mono fun _ _ h => by cases h <;> rfl
  | insertion => exact (insertion_continues start).1.mono fun _ _ h => by cases h <;> rfl
  | merge => exact (merge_continues start).mono fun _ _ h => by cases h <;> rfl
  | quick => exact (quick_continues _).mono fun _ _ h => by cases h <;> rfl
  | heap => exact (heap_continues _).mono fun _ _ h => by cases h <;> rfl
  | bubble => exact (bubble_continues _).mono fun _ _ h => by cases h <;> rfl
  | generic => exact (bubble_continues _).mono fun _ _ h => by cases h <;> rfl

/-! ## Frames -/

namespace Recording

theorem framesOf_append (a : Vector Int n) (first second : List (Event n)) :
    framesOf a (first ++ second) =
      framesOf a first ++ framesOf (first.foldl (fun arr event => event.apply arr) a) second := by
  induction first generalizing a with
  | nil => rfl
  | cons event rest ih =>
    rw [List.cons_append, framesOf, ih, framesOf, List.cons_append, List.foldl_cons]

/-- The frame of an event shows the array after it. -/
theorem frames_add (r : Recording start) (event : Event n) :
    (r.add event).frames = r.frames ++ [(event, event.apply r.now)] := by
  -- events are kept latest first, so the array is a fold from the right
  have hnow : r.events.reverse.foldl (fun arr event => event.apply arr) start = r.now := by
    rw [List.foldl_reverse]
    exact r.now_eq
  unfold frames
  rw [events_add, List.reverse_cons, framesOf_append, hnow]
  rfl

end Recording

theorem markFrom_now (i : Nat) (r : Recording start) : (markFrom i r).now = r.now := by
  fun_induction markFrom i r with
  | case1 i r h ih => exact ih
  | case2 i r h => rfl

/-- The marks follow each other from position `i` on, and leave the array alone. -/
theorem markFrom_frames (i : Nat) (r : Recording start) :
    (markFrom i r).frames =
      r.frames ++ ((List.finRange n).drop i).map fun k => (.markSorted k, r.now) := by
  fun_induction markFrom i r with
  | case1 i r h ih =>
    have hlen : i < (List.finRange n).length := by rwa [List.length_finRange]
    rw [ih, Recording.frames_add, List.append_assoc, List.drop_eq_getElem_cons hlen,
      List.map_cons, List.getElem_finRange]
    rfl
  | case2 i r h =>
    rw [List.drop_eq_nil_of_le (by simpa using h), List.map_nil, List.append_nil]

/-! ## Steps -/

/-- The step shows the array. -/
def ShowsArray (arr : Vector Int n) (step : Step) : Prop :=
  step.vars.lookup "arr" = some (arrayJson arr.toList)

/-- The step points at a position, under the name of one of its two variables for that. -/
def PointsAt (name : String) (i : Fin n) (step : Step) : Prop :=
  step.vars.lookup name = some (.ofNat i)

theorem stepOn_showsArray (arr : Vector Int n) (action description : String) (i j : Option Nat) :
    ShowsArray arr (stepOn arr action description i j) := rfl

/-- The step of an event shows the array after it. -/
theorem stepOf?_showsArray {event : Event n} {arr : Vector Int n} {step : Step}
    (h : stepOf? event arr = some step) : ShowsArray arr step := by
  cases event with
  | write i value => cases h
  | _ =>
    obtain rfl := Option.some.inj h
    exact stepOn_showsArray ..

/-- The steps of a recording. -/
def stepsOf (r : Recording start) : List Step :=
  r.frames.filterMap fun (event, arr) => stepOf? event arr

theorem stepsOf_add (r : Recording start) (event : Event n) :
    stepsOf (r.add event) = stepsOf r ++ (stepOf? event (event.apply r.now)).toList := by
  unfold stepsOf
  rw [Recording.frames_add, List.filterMap_append]
  simp only [List.filterMap_cons, List.filterMap_nil]
  cases stepOf? event (event.apply r.now) <;> rfl

/-- What is true of the step of every event that is allowed is true of all steps. -/
theorem forall_mem_stepsOf {allowed : Recording start → Event n → Prop} {P : Step → Prop}
    {r : Recording start} (h : Continues allowed (.empty start) r)
    (hstep : ∀ r event step, allowed r event → stepOf? event (event.apply r.now) = some step →
      P step) : ∀ step ∈ stepsOf r, P step := by
  refine h.preserves (P := fun r => ∀ step ∈ stepsOf r, P step) ?_ ?_
  · intro r event hr hallowed step hmem
    rw [stepsOf_add, List.mem_append, Option.mem_toList] at hmem
    exact hmem.elim (hr step) (hstep r event step hallowed)
  · intro step hmem
    exact absurd hmem List.not_mem_nil

/-- The step that marks a position of the array as final. -/
def markStep (arr : Vector Int n) (i : Fin n) : Step :=
  stepOn arr "mark_sorted"
    s!"Index {Decimal.intText i} holds its final value {valueText arr i}" (some i) none

/-- Only a mark has a step of this kind. -/
theorem stepOf?_action {event : Event n} {arr : Vector Int n} {step : Step}
    (h : stepOf? event arr = some step) (hmark : event.isMark = false) :
    step.action ≠ "mark_sorted" := by
  cases event with
  | markSorted i => cases hmark
  | write i value => exact absurd h (by simp [stepOf?])
  | _ =>
    obtain rfl := Option.some.inj h
    simp [stepOn]

/-- The steps of a run: the array before it, the steps of the sort, and a mark for each position. -/
theorem steps_append (kind : SortKind) (start : Vector Int n) :
    steps kind start = openingStep start :: stepsOf (sort kind (.empty start)) ++
      (List.finRange n).map (markStep (sort kind (.empty start)).now) := by
  unfold steps run stepsOf
  rw [markFrom_frames, List.drop_zero, List.filterMap_append, List.cons_append]
  congr 2
  rw [List.filterMap_map]
  exact congrFun List.filterMap_eq_map (List.finRange n)

/-- None of the steps before the marks is a mark. -/
theorem steps_eq (kind : SortKind) (start : Vector Int n) :
    ∃ earlier : List Step, (∀ step ∈ earlier, step.action ≠ "mark_sorted") ∧
      steps kind start = earlier ++ (List.finRange n).map (markStep (run kind start).now) := by
  refine ⟨openingStep start :: stepsOf (sort kind (.empty start)), ?_, ?_⟩
  · rw [List.forall_mem_cons]
    refine ⟨by simp [openingStep, stepOn], ?_⟩
    exact forall_mem_stepsOf (sort_unmarked kind start) fun _ _ _ hmark h => stepOf?_action h hmark
  · rw [run, markFrom_now]
    exact steps_append kind start

end Storyboard.Sorting
