import Mathlib
import Storyboard.Memory.Shelf
import Storyboard.Memory.Table

/-!
# Learned actions

A cache is a map from labels to sets of actions: learning adds a set to the one under its label and
tells which of the actions are new.  `Actions.IsFaithful` says so of one call, and what a run of calls
does follows from it, for every cache alike.  Shelves and tables are such caches.
-/

namespace Storyboard.Memory

/-! ## Actions in order -/

theorem insertAction_sorted {actions : List String} (h : actions.Pairwise (· < ·))
    (action : String) : (insertAction action actions).Pairwise (· < ·) := by
  induction actions with
  | nil => exact List.pairwise_singleton _ _
  | cons a rest ih =>
    obtain ⟨hhead, hrest⟩ := List.pairwise_cons.mp h
    unfold insertAction
    split
    next => exact h
    next hne =>
      split
      next hlt =>
        refine List.pairwise_cons.mpr ⟨fun b hb => ?_, h⟩
        rcases List.mem_cons.mp hb with rfl | hb
        · exact hlt
        · exact lt_trans hlt (hhead b hb)
      next hlt =>
        refine List.pairwise_cons.mpr ⟨fun b hb => ?_, ih hrest⟩
        rcases mem_insertAction.mp hb with rfl | hb
        · exact lt_of_le_of_ne (not_lt.mp hlt) hne
        · exact hhead b hb

theorem sortActions_sorted (actions : List String) :
    (sortActions actions).Pairwise (· < ·) := by
  have hfold : ∀ sorted : List String, sorted.Pairwise (· < ·) →
      (actions.foldl (fun sorted action => insertAction action sorted) sorted).Pairwise
        (· < ·) := by
    induction actions with
    | nil => exact fun _ h => h
    | cons action rest ih => exact fun sorted h => ih _ (insertAction_sorted h action)
  exact hfold [] List.Pairwise.nil

/-- Sorted actions list the set of the actions. -/
theorem sortActions_eq (actions : List String) : sortActions actions = actions.toFinset.sort := by
  have hsorted := sortActions_sorted actions
  have hset : (sortActions actions).toFinset = actions.toFinset := by
    ext action
    rw [List.mem_toFinset, mem_sortActions, List.mem_toFinset]
  rw [← hset, (List.toFinset_sort (· ≤ ·) hsorted.nodup).mpr (hsorted.imp le_of_lt)]

theorem unknownAmong_eq (known new : List String) :
    unknownAmong known new = (new.toFinset \ known.toFinset).sort := by
  have hset : (new.filter fun action => !known.contains action).toFinset =
      new.toFinset \ known.toFinset := by
    ext action
    simp
  rw [unknownAmong, sortActions_eq, hset]

/-! ## Calls -/

/-- A call of a cache. -/
inductive Call where
  | learn (label : String) (actions : List String)
  | learned (label : String)

/-- The actions that a call teaches under a label. -/
def Call.teaches (label : String) : Call → Finset String
  | .learn other actions => if other = label then actions.toFinset else ∅
  | .learned _ => ∅

/-- The union of the sets that calls teach under a label. -/
def taught : List Call → String → Finset String
  | [], _ => ∅
  | call :: rest, label => call.teaches label ∪ taught rest label

namespace Actions

variable {σ τ : Type} {cache : Actions σ} {state : σ} {known : String → Finset String}

/-- Makes a call. -/
def answer (cache : Actions σ) : Call → Operation σ (List String)
  | .learn label actions => cache.learn label actions
  | .learned label => cache.learned label

/-- The state after calls that were made one after the other. -/
def after (cache : Actions σ) (state : σ) (calls : List Call) : σ :=
  calls.foldl (fun state call => (cache.answer call state).2) state

/-- Calls that are made one after the other, each with its answer. -/
def transcript (cache : Actions σ) (state : σ) :
    List Call → List (Call × Except Failure (List String))
  | [] => []
  | call :: rest =>
    let (answered, next) := cache.answer call state
    (call, answered) :: transcript cache next rest

/-- What the calls that teach under a label were answered, as far as they were. -/
def returned (label : String) (made : List (Call × Except Failure (List String))) :
    List (List String) :=
  made.filterMap fun entry =>
    match entry with
    | (.learn other _, .ok new) => if other = label then some new else none
    | _ => none

/-- What a cache has learned, as its answers show. -/
def Knows (cache : Actions σ) (state : σ) (known : String → Finset String) : Prop :=
  ∀ label, (cache.learned label state).1 = .ok (known label).sort

/-- Adds the actions that a call teaches. -/
def grow (known : String → Finset String) (call : Call) : String → Finset String :=
  fun label => known label ∪ call.teaches label

/-- One call is answered from what is known, and adds what it teaches. -/
structure IsFaithful (cache : Actions σ) : Prop where
  learn : ∀ {state known}, cache.Knows state known → ∀ label actions,
    (cache.learn label actions state).1 = .ok (actions.toFinset \ known label).sort
  knows : ∀ {state known}, cache.Knows state known → ∀ call,
    cache.Knows (cache.answer call state).2 (grow known call)

/-- The sets that a run of calls returns under a label: they have nothing in common with what was
known or with each other, and with what was known they make up what is known then. -/
structure Splits (known : Finset String) (returned : List (List String)) (grown : Finset String) :
    Prop where
  fresh : ∀ new ∈ returned, Disjoint new.toFinset known
  disjoint : returned.Pairwise fun new later => Disjoint new.toFinset later.toFinset
  union : known ∪ returned.flatten.toFinset = grown

/-! ## Runs of calls -/

/-- Asking teaches nothing. -/
theorem grow_learned (known : String → Finset String) (label : String) :
    grow known (.learned label) = known :=
  funext fun other => Finset.union_empty (known other)

theorem grow_learn_self (known : String → Finset String) (label : String)
    (actions : List String) :
    grow known (.learn label actions) label = known label ∪ actions.toFinset := by
  rw [grow, Call.teaches, if_pos rfl]

theorem grow_learn_ne (known : String → Finset String) {label other : String}
    (h : label ≠ other) (actions : List String) :
    grow known (.learn label actions) other = known other := by
  rw [grow, Call.teaches, if_neg h, Finset.union_empty]

/-- What is known already is not learned again. -/
theorem grow_learn_of_subset {label : String} {actions : List String}
    (h : actions.toFinset ⊆ known label) : grow known (.learn label actions) = known := by
  funext other
  by_cases hlabel : label = other
  · subst hlabel
    rw [grow_learn_self, Finset.union_eq_left.mpr h]
  · exact grow_learn_ne known hlabel actions

theorem grow_union_taught (known : String → Finset String) (call : Call) (rest : List Call)
    (label : String) :
    grow known call label ∪ taught rest label = known label ∪ taught (call :: rest) label :=
  Finset.union_assoc _ _ _

theorem transcript_cons (cache : Actions σ) (state : σ) (call : Call) (rest : List Call) :
    cache.transcript state (call :: rest) = (call, (cache.answer call state).1) ::
      cache.transcript (cache.answer call state).2 rest :=
  rfl

/-- After calls a cache knows what it knew and what they have taught. -/
theorem IsFaithful.knows_after (h : cache.IsFaithful) (hknows : cache.Knows state known)
    (calls : List Call) :
    cache.Knows (cache.after state calls) fun label => known label ∪ taught calls label := by
  induction calls generalizing state known with
  | nil =>
    intro label
    show _ = Except.ok (known label ∪ ∅).sort
    rw [Finset.union_empty]
    exact hknows label
  | cons call rest ih =>
    intro label
    show _ = Except.ok (known label ∪ taught (call :: rest) label).sort
    rw [← grow_union_taught]
    exact ih (h.knows hknows call) label

/-- What is answered to a call of a cache that knows something. -/
theorem IsFaithful.answer_eq (h : cache.IsFaithful) (hknows : cache.Knows state known) :
    ∀ call : Call, (cache.answer call state).1 =
      match call with
      | .learn label actions => .ok (actions.toFinset \ known label).sort
      | .learned label => .ok (known label).sort
  | .learn label actions => h.learn hknows label actions
  | .learned label => hknows label

/-- Caches that know the same answer alike. -/
theorem IsFaithful.transcript_eq {other : Actions τ} (h : cache.IsFaithful)
    (hother : other.IsFaithful) {state' : τ} (hknows : cache.Knows state known)
    (hknows' : other.Knows state' known) (calls : List Call) :
    cache.transcript state calls = other.transcript state' calls := by
  induction calls generalizing state state' known with
  | nil => rfl
  | cons call rest ih =>
    have hanswer : (cache.answer call state).1 = (other.answer call state').1 := by
      rw [h.answer_eq hknows, hother.answer_eq hknows']
    rw [transcript_cons, transcript_cons, hanswer,
      ih (h.knows hknows call) (hother.knows hknows' call)]

theorem splits_nil (known : Finset String) : Splits known [] known where
  fresh := nofun
  disjoint := List.Pairwise.nil
  union := by simp

/-- A set of new actions is returned before the others. -/
theorem Splits.cons {known grown : Finset String} {new : List String} {rest : List (List String)}
    (hnew : Disjoint new.toFinset known) (h : Splits (known ∪ new.toFinset) rest grown) :
    Splits known (new :: rest) grown where
  fresh := by
    rw [List.forall_mem_cons]
    refine ⟨hnew, fun later hlater => ?_⟩
    exact (h.fresh later hlater).mono_right Finset.subset_union_left
  disjoint := by
    refine List.pairwise_cons.mpr ⟨fun later hlater => ?_, h.disjoint⟩
    exact ((h.fresh later hlater).mono_right Finset.subset_union_right).symm
  union := by
    rw [List.flatten_cons, List.toFinset_append, ← Finset.union_assoc, h.union]

/-- The sets returned under a label split what calls have taught there. -/
theorem IsFaithful.splits (h : cache.IsFaithful) (hknows : cache.Knows state known)
    (calls : List Call) (label : String) :
    Splits (known label) (returned label (cache.transcript state calls))
      (known label ∪ taught calls label) := by
  induction calls generalizing state known with
  | nil =>
    rw [taught, Finset.union_empty]
    exact splits_nil _
  | cons call rest ih =>
    -- the rest of the run splits what is known after the first call
    have hrest := ih (h.knows hknows call)
    rw [grow_union_taught] at hrest
    rw [transcript_cons, returned, List.filterMap_cons, ← returned, h.answer_eq hknows]
    cases call with
    | learned other =>
      rw [grow_learned] at hrest
      exact hrest
    | learn other actions =>
      by_cases hlabel : other = label
      · subst hlabel
        rw [grow_learn_self, ← Finset.union_sdiff_self_eq_union] at hrest
        dsimp only
        rw [if_pos rfl]
        refine Splits.cons ?_ ?_
        · rw [Finset.sort_toFinset]
          exact Finset.sdiff_disjoint
        · rw [Finset.sort_toFinset]
          exact hrest
      · rw [grow_learn_ne known hlabel] at hrest
        dsimp only
        rw [if_neg hlabel]
        exact hrest

/-- What an empty cache does over a run of calls. -/
structure Learns (cache : Actions σ) (start : σ) (calls : List Call) : Prop where
  /-- The union of the sets that were passed is learned. -/
  learned : ∀ label, (cache.learned label (cache.after start calls)).1 =
    .ok (taught calls label).sort
  /-- Those actions are returned that were not learned before. -/
  learn : ∀ label actions, (cache.learn label actions (cache.after start calls)).1 =
    .ok (actions.toFinset \ taught calls label).sort
  /-- The sets returned under one label have nothing in common. -/
  disjoint : ∀ label, (returned label (cache.transcript start calls)).Pairwise fun new later =>
    Disjoint new.toFinset later.toFinset
  /-- The sets returned under one label add up to what is learned. -/
  union : ∀ label, (returned label (cache.transcript start calls)).flatten.toFinset =
    taught calls label
  /-- Nothing changes under other labels. -/
  others : ∀ label other actions, other ≠ label →
    (cache.learned other (cache.learn label actions (cache.after start calls)).2).1 =
      (cache.learned other (cache.after start calls)).1

theorem IsFaithful.learns (h : cache.IsFaithful) (hempty : cache.Knows state fun _ => ∅)
    (calls : List Call) : cache.Learns state calls := by
  have hafter : cache.Knows (cache.after state calls) (taught calls) := by
    intro label
    rw [← Finset.empty_union (taught calls label)]
    exact h.knows_after hempty calls label
  have hsplits : ∀ label, Splits ∅ (returned label (cache.transcript state calls))
      (taught calls label) := by
    intro label
    rw [← Finset.empty_union (taught calls label)]
    exact h.splits hempty calls label
  constructor
  case learned => exact hafter
  case learn => exact h.learn hafter
  case disjoint => exact fun label => (hsplits label).disjoint
  case union =>
    intro label
    rw [← (hsplits label).union, Finset.empty_union]
  case others =>
    intro label other actions hne
    have hgrown := h.knows hafter (.learn label actions) other
    rw [grow_learn_ne _ (Ne.symm hne)] at hgrown
    rw [hafter other]
    exact hgrown

end Actions

/-! ## Shelves and tables -/

/-- A cache is faithful when it keeps a list of actions for every label and never fails. -/
theorem Actions.isFaithful_of_actionsOf {σ : Type} {cache : Actions σ}
    (actionsOf : σ → String → List String)
    (hlearned : ∀ state label, cache.learned label state = (.ok (actionsOf state label), state))
    (hlearn : ∀ state label new,
      (cache.learn label new state).1 = .ok (unknownAmong (actionsOf state label) new))
    (hself : ∀ state label new, actionsOf (cache.learn label new state).2 label =
      sortActions (actionsOf state label ++ new))
    (hothers : ∀ state label new other, other ≠ label →
      actionsOf (cache.learn label new state).2 other = actionsOf state other) :
    cache.IsFaithful := by
  have hknown : ∀ {state known}, cache.Knows state known →
      ∀ label, actionsOf state label = (known label).sort := by
    intro state known h label
    have hlabel := h label
    rw [hlearned] at hlabel
    exact Except.ok.inj hlabel
  constructor
  case learn =>
    intro state known h label actions
    rw [hlearn, hknown h, unknownAmong_eq, Finset.sort_toFinset]
  case knows =>
    intro state known h call other
    rw [hlearned]
    cases call with
    | learned label =>
      rw [grow_learned, answer, hlearned, hknown h]
    | learn label new =>
      by_cases hlabel : label = other
      · subst hlabel
        rw [grow_learn_self, answer, hself, hknown h, sortActions_eq, List.toFinset_append,
          Finset.sort_toFinset]
      · rw [grow_learn_ne _ hlabel, answer, hothers _ _ _ _ (Ne.symm hlabel), hknown h]

theorem Shelf.isFaithful_cache : Shelf.cache.IsFaithful := by
  refine Actions.isFaithful_of_actionsOf actionsOf (fun _ _ => rfl) (fun _ _ _ => rfl) ?_ ?_
  · intro shelf label new
    show (shelf.addActions label new).actionsOf label = _
    rw [addActions, actionsOf, Ordered.find?_put_self, Option.getD_some]
  · intro shelf label new other hne
    exact shelf.actionsOf_addActions_ne hne new

theorem Shelf.knows_empty : Shelf.cache.Knows {} fun _ => ∅ :=
  fun _ => congrArg Except.ok (Finset.sort_empty _).symm

/-- The actions in rows of one label are those that the rows were made of. -/
theorem Table.filter_rows_self (label : String) (added : List String) :
    ((added.map fun action => (label, action)).filter fun row => row.1 == label).map Prod.snd =
      added := by
  rw [List.filter_eq_self.mpr (by simp), List.map_map]
  exact List.map_id added

theorem Table.filter_rows_ne {label other : String} (h : other ≠ label) (added : List String) :
    (added.map fun action => (label, action)).filter (fun row => row.1 == other) = [] := by
  rw [List.filter_eq_nil_iff]
  intro row hrow
  obtain ⟨action, -, rfl⟩ := List.mem_map.mp hrow
  simpa using h.symm

theorem Table.isFaithful_cache : Table.cache.IsFaithful := by
  refine Actions.isFaithful_of_actionsOf actionsOf (fun _ _ => rfl) (fun _ _ _ => rfl) ?_ ?_
  · intro table label new
    show sortActions (((table.actions ++ _).filter fun row => row.1 == label).map Prod.snd) = _
    rw [List.filter_append, List.map_append, filter_rows_self, actionsOf, sortActions_eq,
      sortActions_eq, unknownAmong_eq, sortActions_eq]
    simp only [List.toFinset_append, Finset.sort_toFinset, Finset.union_sdiff_self_eq_union]
  · intro table label new other hne
    show sortActions (((table.actions ++ _).filter fun row => row.1 == other).map Prod.snd) = _
    rw [List.filter_append, filter_rows_ne hne, List.append_nil, actionsOf]

theorem Table.knows_empty : Table.cache.Knows {} fun _ => ∅ :=
  fun _ => congrArg Except.ok (Finset.sort_empty _).symm

end Storyboard.Memory
