import Storyboard.Queue.Multiple
import Storyboard.Proofs.Simulation.Answers

/-!
# Several queues share one capacity

Whatever operations the queues go through, together they hold no more than their capacity, and the
free places that a step shows are exactly those that are left (`Obeys`).  An operation changes its
own queue only, and none at all when the queue does not exist, when no place is free or when there
is nothing to take (`Tells`).  So each queue keeps its own order, whatever happens to the others:
what was put into it is what has come out of it and then what it still holds (`Moves.kept`).
-/

namespace Storyboard.Queue.Multiple

variable {count capacity : Nat} {queues : List (List Json)} {items : List Json} {step : Step}

/-! ## What a step does -/

/-- How many values the queues hold together. -/
def total (queues : List (List Json)) : Nat := queues.flatten.length

/-- The queue that an operation is about. -/
def Op.target : Op → Nat
  | enqueue queue _ | dequeue queue => queue

/-- The step is about the queue of that number. -/
def IsAbout (step : Step) (queue : Nat) : Prop := step.extra.lookup "queue" = some (.ofNat queue)

/-- What a step does to as many queues with a shared capacity. -/
inductive Moves (count capacity : Nat) : List (List Json) → Step → List (List Json) → Prop
  | enqueue {queues : List (List Json)} {step : Step} {queue : Nat} {items : List Json}
      {value : Json} (held : queues[queue]? = some items) (room : total queues < capacity)
      (action : step.action = "enqueue") (about : IsAbout step queue)
      (told : step.value = some value) :
      Moves count capacity queues step (queues.set queue (items ++ [value]))
  | dequeue {queues : List (List Json)} {step : Step} {queue : Nat} {items : List Json}
      {value : Json} (held : queues[queue]? = some (value :: items))
      (action : step.action = "dequeue") (about : IsAbout step queue)
      (told : step.value = some value) :
      Moves count capacity queues step (queues.set queue items)
  | missing {queues : List (List Json)} {step : Step} {queue : Nat} (absent : count ≤ queue)
      (action : step.action = "error") (about : IsAbout step queue) :
      Moves count capacity queues step queues
  | overflow {queues : List (List Json)} {step : Step} {queue : Nat} (present : queue < count)
      (full : total queues = capacity) (action : step.action = "overflow")
      (about : IsAbout step queue) : Moves count capacity queues step queues
  | underflow {queues : List (List Json)} {step : Step} {queue : Nat}
      (empty : queues[queue]? = some []) (action : step.action = "underflow")
      (about : IsAbout step queue) : Moves count capacity queues step queues

/-- The step shows as many queues and how many places are free, which with the values that are
stored make up the capacity. -/
structure Shows (count capacity : Nat) (step : Step) (queues : List (List Json)) : Prop where
  pictured : step.vars.lookup "queues" = some (.arr (queues.map .arr))
  length : queues.length = count
  free : ∃ free, step.vars.lookup "free" = some (.ofNat free) ∧ free + total queues = capacity

/-- The step moves the queues as its action says, and shows them as they are afterwards. -/
structure Obeys (count capacity : Nat) (before : List (List Json)) (step : Step)
    (after : List (List Json)) : Prop where
  moves : Moves count capacity before step after
  shows : Shows count capacity step after

/-- The step that tells of an operation on as many queues with a shared capacity. -/
inductive Tells (count capacity : Nat) : List (List Json) → Op → List Step → Prop
  | missing {queues : List (List Json)} {op : Op} {step : Step} (absent : count ≤ op.target)
      (action : step.action = "error") (about : IsAbout step op.target) :
      Tells count capacity queues op [step]
  | enqueue {queues : List (List Json)} {queue : Nat} {value : Literal} {step : Step}
      (present : queue < count) (room : total queues < capacity)
      (action : step.action = "enqueue") (about : IsAbout step queue)
      (told : step.value = some value.toJson) :
      Tells count capacity queues (.enqueue queue value) [step]
  | overflow {queues : List (List Json)} {queue : Nat} {value : Literal} {step : Step}
      (present : queue < count) (full : total queues = capacity)
      (action : step.action = "overflow") (about : IsAbout step queue)
      (told : step.value = some value.toJson) :
      Tells count capacity queues (.enqueue queue value) [step]
  | dequeue {queues : List (List Json)} {queue : Nat} {items : List Json} {value : Json}
      {step : Step} (held : queues[queue]? = some (value :: items))
      (action : step.action = "dequeue") (about : IsAbout step queue)
      (told : step.value = some value) :
      Tells count capacity queues (.dequeue queue) [step]
  | underflow {queues : List (List Json)} {queue : Nat} {step : Step}
      (empty : queues[queue]? = some []) (action : step.action = "underflow")
      (about : IsAbout step queue) : Tells count capacity queues (.dequeue queue) [step]

/-! ## Performing an operation -/

theorem total_cons (items : List Json) (rest : List (List Json)) :
    total (items :: rest) = items.length + total rest := List.length_append

/-- A queue that is replaced counts with its new length. -/
theorem total_set {queue : Nat} (h : queues[queue]? = some items) (replaced : List Json) :
    total (queues.set queue replaced) + items.length = total queues + replaced.length := by
  induction queues generalizing queue with
  | nil => nomatch h
  | cons first rest ih =>
    cases queue with
    | zero =>
      obtain rfl := Option.some.inj h
      rw [List.set_cons_zero, total_cons, total_cons]
      omega
    | succ queue =>
      have hrest := ih h
      rw [List.set_cons_succ, total_cons, total_cons]
      omega

namespace State

variable {state : State}

/-- The queues as data. -/
def view (state : State) : List (List Json) := state.queues.map Literal.jsonItems

theorem used_eq (state : State) : state.used = total state.view := by
  have hlengths : state.view.map List.length = state.queues.map List.length := by
    rw [view, List.map_map]
    exact List.map_congr_left fun items _ => Literal.length_jsonItems items
  rw [used, total, List.length_flatten, hlengths, List.sum_eq_foldl_nat]

theorem getElem?_view (state : State) (queue : Nat) :
    state.view[queue]? = state.queues[queue]?.map Literal.jsonItems := List.getElem?_map

theorem view_set (state : State) (queue : Nat) (items : List Literal) :
    view { state with queues := state.queues.set queue items } =
      state.view.set queue (Literal.jsonItems items) := List.map_set

/-- The queues are as many as given, and keep to the given capacity. -/
structure Keeps (count capacity : Nat) (state : State) : Prop where
  length_eq : state.queues.length = count
  capacity_eq : state.capacity = capacity
  fits : total state.view ≤ capacity

theorem Keeps.getElem?_eq_none (h : state.Keeps count capacity) {queue : Nat} :
    state.queues[queue]? = none ↔ count ≤ queue := by
  rw [List.getElem?_eq_none_iff, h.length_eq]

theorem Keeps.lt_count (h : state.Keeps count capacity) {queue : Nat} {items : List Literal}
    (hitems : state.queues[queue]? = some items) : queue < count := by
  rw [← h.length_eq]
  exact (List.getElem?_eq_some_iff.mp hitems).1

/-- No place is free exactly when the queues hold their capacity. -/
theorem Keeps.full_cases (h : state.Keeps count capacity) :
    (state.capacity ≤ state.used ∧ total state.view = capacity) ∨
      (¬state.capacity ≤ state.used ∧ total state.view < capacity) := by
  rw [h.capacity_eq, used_eq]
  have hfits := h.fits
  omega

theorem Keeps.snapshot_shows (h : state.Keeps count capacity) (line : Nat)
    (action description : String) (queue : Nat) :
    Shows count capacity (state.snapshot line action description queue) state.view where
  pictured := by
    rw [view, List.map_map]
    rfl
  length := by rw [view, List.length_map, h.length_eq]
  free := by
    refine ⟨state.capacity - state.used, rfl, ?_⟩
    rw [h.capacity_eq, used_eq]
    exact Nat.sub_add_cancel h.fits

/-- The queues still keep to their capacity when a queue is replaced and there is room for what it
has got more. -/
theorem Keeps.set (h : state.Keeps count capacity) {queue : Nat} {items : List Literal}
    (hitems : state.queues[queue]? = some items) {replaced : List Literal}
    (hroom : total state.view + replaced.length ≤ capacity + items.length) :
    Keeps count capacity { state with queues := state.queues.set queue replaced } where
  length_eq := by rw [List.length_set, h.length_eq]
  capacity_eq := h.capacity_eq
  fits := by
    have hview : state.view[queue]? = some (Literal.jsonItems items) := by
      rw [getElem?_view, hitems]
      rfl
    have htotal := total_set hview (Literal.jsonItems replaced)
    rw [Literal.length_jsonItems, Literal.length_jsonItems] at htotal
    rw [view_set]
    omega

end State

theorem Shows.withValue (h : Shows count capacity step queues) (value : Json) :
    Shows count capacity (step.withValue value) queues := { h with }

variable {state : State}

/-- A value joins its queue while a place is free in any of them. -/
theorem performEnqueue_answer (h : state.Keeps count capacity) (line queue : Nat) (value : Literal) :
    (perform state ⟨line, .enqueue queue value⟩).1.Keeps count capacity ∧
      Answer (Obeys count capacity) (Tells count capacity) state.view (.enqueue queue value)
        (perform state ⟨line, .enqueue queue value⟩).2
        (perform state ⟨line, .enqueue queue value⟩).1.view := by
  have hview := state.getElem?_view queue
  unfold perform
  dsimp only [Op.target]
  cases hitems : state.queues[queue]? with
  | none =>
    have habsent := h.getElem?_eq_none.mp hitems
    exact ⟨h, .single (.missing habsent rfl rfl)
      ⟨.missing habsent rfl rfl, h.snapshot_shows line _ _ queue⟩⟩
  | some items =>
    rw [hitems] at hview
    have hpresent := h.lt_count hitems
    dsimp only
    obtain ⟨hused, hfull⟩ | ⟨hused, hroom⟩ := h.full_cases
    · rw [if_pos hused]
      exact ⟨h, .single (.overflow hpresent hfull rfl rfl rfl)
        ⟨.overflow hpresent hfull rfl rfl, (h.snapshot_shows line _ _ queue).withValue _⟩⟩
    · rw [if_neg hused]
      have hgrown : State.Keeps count capacity
          { state with queues := state.queues.set queue (items ++ [value]) } := by
        refine h.set hitems ?_
        rw [List.length_append, List.length_singleton]
        omega
      refine ⟨hgrown, .single (.enqueue hpresent hroom rfl rfl rfl) ⟨?_, ?_⟩⟩
      · rw [State.view_set, Literal.jsonItems_append]
        exact .enqueue hview hroom rfl rfl rfl
      · exact (hgrown.snapshot_shows line _ _ queue).withValue _

/-- The oldest value leaves its queue, which frees a place for all of them. -/
theorem performDequeue_answer (h : state.Keeps count capacity) (line queue : Nat) :
    (perform state ⟨line, .dequeue queue⟩).1.Keeps count capacity ∧
      Answer (Obeys count capacity) (Tells count capacity) state.view (.dequeue queue)
        (perform state ⟨line, .dequeue queue⟩).2 (perform state ⟨line, .dequeue queue⟩).1.view := by
  have hview := state.getElem?_view queue
  unfold perform
  dsimp only [Op.target]
  cases hitems : state.queues[queue]? with
  | none =>
    have habsent := h.getElem?_eq_none.mp hitems
    exact ⟨h, .single (.missing habsent rfl rfl)
      ⟨.missing habsent rfl rfl, h.snapshot_shows line _ _ queue⟩⟩
  | some items =>
    rw [hitems] at hview
    cases items with
    | nil =>
      exact ⟨h, .single (.underflow hview rfl rfl)
        ⟨.underflow hview rfl rfl, h.snapshot_shows line _ _ queue⟩⟩
    | cons value left =>
      have hleft : State.Keeps count capacity
          { state with queues := state.queues.set queue left } := by
        refine h.set hitems ?_
        have hfits := h.fits
        rw [List.length_cons]
        omega
      refine ⟨hleft, .single (.dequeue hview rfl rfl rfl) ⟨?_, ?_⟩⟩
      · rw [State.view_set]
        exact .dequeue hview rfl rfl rfl
      · exact (hleft.snapshot_shows line _ _ queue).withValue _

/-- An operation on queues that keep to their capacity is answered, and leaves them so. -/
theorem perform_answer (h : state.Keeps count capacity) (cue : Cue Op) :
    (perform state cue).1.Keeps count capacity ∧
      Answer (Obeys count capacity) (Tells count capacity) state.view cue.op
        (perform state cue).2 (perform state cue).1.view := by
  obtain ⟨line, op⟩ := cue
  cases op with
  | enqueue queue value => exact performEnqueue_answer h line queue value
  | dequeue queue => exact performDequeue_answer h line queue

/-! ## The order of each queue -/

/-- The number of the queue that a step is about. -/
def target? (step : Step) : Option Nat :=
  match step.extra.lookup "queue" with
  | some (.int (.ofNat number)) => some number
  | _ => none

/-- The values that the steps of an action tell of for a queue. -/
def valuesOf (action : String) (queue : Nat) (steps : List Step) : List Json :=
  (steps.filter fun step => step.action == action && target? step == some queue).filterMap Step.value

theorem IsAbout.target?_eq {queue : Nat} (h : IsAbout step queue) : target? step = some queue := by
  rw [target?, h]
  rfl

theorem valuesOf_cons (action : String) (queue : Nat) (step : Step) (steps : List Step) :
    valuesOf action queue (step :: steps) =
      valuesOf action queue [step] ++ valuesOf action queue steps := by
  rw [valuesOf, ← List.singleton_append, List.filter_append, List.filterMap_append]
  rfl

/-- A step with another action tells of no value. -/
theorem valuesOf_of_action_ne {action : String} (h : step.action ≠ action) (queue : Nat) :
    valuesOf action queue [step] = [] := by
  rw [valuesOf, List.filter_cons_of_neg (by rw [beq_false_of_ne h]; exact Bool.false_ne_true)]
  rfl

/-- A step tells of its value for its own queue. -/
theorem valuesOf_of_told {action : String} {value : Json} {queue : Nat}
    (haction : step.action = action) (habout : IsAbout step queue)
    (htold : step.value = some value) (other : Nat) :
    valuesOf action other [step] = if queue = other then [value] else [] := by
  rw [valuesOf, List.filter_cons, haction, habout.target?_eq, beq_self_eq_true, Bool.true_and,
    Option.some_beq_some, beq_eq_decide]
  split
  next hqueue =>
    rw [if_pos (of_decide_eq_true hqueue), List.filter_nil, List.filterMap_cons_some htold]
    rfl
  next hqueue =>
    rw [if_neg (fun h => hqueue (decide_eq_true h))]
    rfl

theorem getD_set (queues : List (List Json)) {queue : Nat} (h : queues[queue]? = some items)
    (replaced : List Json) (other : Nat) :
    (queues.set queue replaced).getD other [] =
      if queue = other then replaced else queues.getD other [] := by
  have hlength : queue < queues.length := (List.getElem?_eq_some_iff.mp h).1
  rw [List.getD_eq_getElem?_getD, List.getD_eq_getElem?_getD, List.getElem?_set, if_pos hlength]
  split
  next => exact Option.getD_some
  next => rfl

/-- What a queue holds and is given is what is taken out of it and what it holds afterwards. -/
theorem Moves.kept {before after : List (List Json)} (h : Moves count capacity before step after)
    (queue : Nat) :
    before.getD queue [] ++ valuesOf "enqueue" queue [step] =
      valuesOf "dequeue" queue [step] ++ after.getD queue [] := by
  -- a step that is neither an insertion nor a removal tells of no value
  have quiet : step.action ≠ "enqueue" → step.action ≠ "dequeue" →
      before.getD queue [] ++ valuesOf "enqueue" queue [step] =
        valuesOf "dequeue" queue [step] ++ before.getD queue [] := by
    intro henqueue hdequeue
    rw [valuesOf_of_action_ne henqueue, valuesOf_of_action_ne hdequeue, List.append_nil,
      List.nil_append]
  cases h with
  | missing _ action _ => exact quiet (by rw [action]; decide) (by rw [action]; decide)
  | overflow _ _ action _ => exact quiet (by rw [action]; decide) (by rw [action]; decide)
  | underflow _ action _ => exact quiet (by rw [action]; decide) (by rw [action]; decide)
  | enqueue held _ action about told =>
    rw [valuesOf_of_told action about told, valuesOf_of_action_ne (by rw [action]; decide),
      getD_set before held, List.nil_append]
    split
    next htarget =>
      obtain rfl := htarget
      rw [List.getD_eq_getElem?_getD, held, Option.getD_some]
    next => exact List.append_nil _
  | dequeue held action about told =>
    rw [valuesOf_of_told action about told, valuesOf_of_action_ne (by rw [action]; decide),
      getD_set before held, List.append_nil]
    split
    next htarget =>
      obtain rfl := htarget
      rw [List.getD_eq_getElem?_getD, held, Option.getD_some, List.singleton_append]
    next => rfl

/-- What a queue has held and was given is what has come out of it and what it holds. -/
theorem kept_of_leads {before after : List (List Json)} {steps : List Step}
    (h : Leads (Obeys count capacity) before steps after) (queue : Nat) :
    before.getD queue [] ++ valuesOf "enqueue" queue steps =
      valuesOf "dequeue" queue steps ++ after.getD queue [] := by
  induction h with
  | nil => exact List.append_nil _
  | @cons before between after step rest first _ ih =>
    -- what the first step leaves in the queue is what the rest starts from
    rw [valuesOf_cons "enqueue", valuesOf_cons "dequeue", ← List.append_assoc, first.moves.kept,
      List.append_assoc, ih, List.append_assoc]

/-- The steps serve the operations from empty queues on: they answer them one after the other, and
every queue has given out what was put into it, first in, first out, up to what it still holds. -/
structure Serves (count capacity : Nat) (ops : List Op) (steps : List Step)
    (last : List (List Json)) : Prop where
  leads : Leads (Obeys count capacity) (List.replicate count []) steps last
  answers : Answers (Obeys count capacity) (Tells count capacity) (List.replicate count []) ops
    steps last
  inOrder : ∀ queue, valuesOf "enqueue" queue steps =
    valuesOf "dequeue" queue steps ++ last.getD queue []

/-- Queues that start empty. -/
def empty (count capacity : Nat) : State := ⟨List.replicate count [], capacity⟩

theorem view_empty (count capacity : Nat) : (empty count capacity).view = List.replicate count [] :=
  List.map_replicate

theorem keeps_empty (count capacity : Nat) : (empty count capacity).Keeps count capacity where
  length_eq := List.length_replicate
  capacity_eq := rfl
  fits := by
    rw [view_empty, total, List.flatten_replicate_nil]
    exact Nat.zero_le capacity

theorem getD_replicate_nil (count queue : Nat) :
    (List.replicate count ([] : List Json)).getD queue [] = [] := by
  rw [List.getD_eq_getElem?_getD, List.getElem?_replicate]
  split <;> rfl

theorem replay_serves (count capacity : Nat) (cues : List (Cue Op)) :
    Serves count capacity (cues.map Cue.op) (replay perform (empty count capacity) cues).2
      (replay perform (empty count capacity) cues).1.view := by
  have answers : Answers (Obeys count capacity) (Tells count capacity) (empty count capacity).view
      (cues.map Cue.op) (replay perform (empty count capacity) cues).2
      (replay perform (empty count capacity) cues).1.view :=
    replay_answers (State.Keeps count capacity) State.view
      (fun cue _ state hstate => perform_answer hstate cue) _ (keeps_empty count capacity)
  rw [view_empty] at answers
  refine ⟨answers.leads, answers, fun queue => ?_⟩
  have hkept := kept_of_leads answers.leads queue
  rw [getD_replicate_nil, List.nil_append] at hkept
  exact hkept

/-- How many queues a program declares. -/
def declaredCount (code : String) : Nat := declared code ["k", "K", "num_queues"] defaultCount

/-- The capacity that a program declares for its queues. -/
def declaredCapacity (code : String) : Nat :=
  declared code ["n", "N", "capacity", "size", "cap"] defaultCapacity

/-- There is at least one queue, and place for at least one value. -/
theorem one_le_declared (code : String) (names : List String) {default : Nat} (h : 1 ≤ default) :
    1 ≤ declared code names default := by
  rw [declared]
  cases Source.intAssignment? code names with
  | none => exact h
  | some n =>
    show 1 ≤ (max n 1).toNat
    omega

/-- Whatever is asked of any number of queues with any capacity, and so whatever a program asks of
the queues that it declares, is served. -/
theorem share_capacity_in_order :
    (∀ (count capacity : Nat) (cues : List (Cue Op)),
      let served := replay perform (empty count capacity) cues
      Serves count capacity (cues.map Cue.op) served.2 served.1.view) ∧
    ∀ code, 1 ≤ declaredCount code ∧ 1 ≤ declaredCapacity code ∧
      ∃ last, Serves (declaredCount code) (declaredCapacity code) ((script code).map Cue.op)
        (simulate code).steps last := by
  refine ⟨replay_serves, fun code => ⟨?_, ?_, _, replay_serves _ _ (script code)⟩⟩
  · exact one_le_declared code _ (by decide)
  · exact one_le_declared code _ (by decide)

end Storyboard.Queue.Multiple
