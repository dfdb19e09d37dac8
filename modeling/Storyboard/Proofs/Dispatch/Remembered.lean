import Storyboard.CommandLine.Run
import Storyboard.Memory.Shelf
import Storyboard.Proofs.Concept.Resolve
import Storyboard.Proofs.Dispatch.Cascade

/-!
# Rated stories are told again

A shelf keeps, under every label, the records of that label in the order in which they came.  So the
exact lookup that dispatch starts with finds the oldest record of the program that is rated high
enough, and no later source is asked.  A story that is rated under a label is stored under the
concept that the label is resolved to, and dispatch resolves the label to the same concept; the
command that tells a story only normalizes its label, which agrees up to an alias.
-/

namespace Storyboard.Memory

namespace Shelf

/-- The records that a shelf was given, the oldest first; actions may have been learned between. -/
inductive Keeps : List Record → Shelf → Prop
  | empty : Keeps [] {}
  | add {log : List Record} {shelf : Shelf} (kept : Keeps log shelf) (record : Record) :
      Keeps (log ++ [record]) (shelf.add record)
  | learn {log : List Record} {shelf : Shelf} (kept : Keeps log shelf) (label : String)
      (actions : List String) : Keeps log (shelf.addActions label actions)

theorem recordsOf_addActions (shelf : Shelf) (label other : String) (actions : List String) :
    (shelf.addActions label actions).recordsOf other = shelf.recordsOf other :=
  rfl

/-- Under a label stand the records of that label, in the order in which they came. -/
theorem Keeps.recordsOf_eq {log : List Record} {shelf : Shelf} (h : Keeps log shelf)
    (label : String) : shelf.recordsOf label = log.filter fun record => record.label == label := by
  induction h with
  | empty => rfl
  | add kept record ih =>
    rw [List.filter_append, List.filter_singleton]
    by_cases hlabel : record.label = label
    · subst hlabel
      rw [recordsOf_add_self, ih]
      simp
    · rw [recordsOf_add_ne _ fun h => hlabel h.symm, beq_false_of_ne hlabel, ih]
      simp
  | learn kept other actions ih => rw [recordsOf_addActions, ih]

end Shelf

/-- The record is of this very program under this concept, and rated high enough. -/
def Recalls (concept : Concept) (code : String) (minRating : Nat) (record : Record) : Prop :=
  record.label = concept.label ∧ record.digest = Blake3.digest code ∧ minRating ≤ record.rating

/-- The first of some records, the oldest first, that has a property. -/
def IsOldest (p : Record → Prop) (records : List Record) (record : Record) : Prop :=
  p record ∧ ∃ older newer, records = older ++ record :: newer ∧ ∀ r ∈ older, ¬ p r

theorem Records.onFirst_findExact {σ τ : Type} (store : Records σ) (label digest : String)
    (rating : Nat) (state : σ) (other : τ) :
    (store.onFirst τ).findExact label digest rating (state, other) =
      ((store.findExact label digest rating state).1,
        (store.findExact label digest rating state).2, other) :=
  rfl

theorem recalls_iff {concept : Concept} {code : String} {minRating : Nat} {record : Record} :
    decide ((record.label == concept.label) = true ∧
      isExact (Blake3.digest code) minRating record = true) = true ↔
      Recalls concept code minRating record := by
  simp only [Recalls, isExact, Bool.and_eq_true, beq_iff_eq, decide_eq_true_eq]

theorem recalls_ofStory (concept : Concept) (code : String) (story : Story) {rating minRating : Nat}
    (now : Timestamp) (h : minRating ≤ rating) :
    Recalls concept code minRating (Record.ofStory concept code story rating now) :=
  ⟨rfl, rfl, h⟩

/-- Once a record of the program is kept that is rated high enough, the exact lookup finds the
oldest one. -/
theorem findExact_of_keeps {log : List Record} {shelf : Shelf} (h : Shelf.Keeps log shelf)
    {concept : Concept} {code : String} {minRating : Nat} {record : Record} (hmem : record ∈ log)
    (hrecalls : Recalls concept code minRating record) :
    ∃ oldest, IsOldest (Recalls concept code minRating) log oldest ∧
      Shelf.store.findExact concept.label (Blake3.digest code) minRating shelf =
        (.ok (some oldest), shelf) := by
  have hsome : ((shelf.recordsOf concept.label).find?
      (isExact (Blake3.digest code) minRating)).isSome := by
    rw [h.recordsOf_eq, List.find?_filter]
    exact List.find?_isSome.mpr ⟨record, hmem, recalls_iff.mpr hrecalls⟩
  obtain ⟨oldest, holdest⟩ := Option.isSome_iff_exists.mp hsome
  refine ⟨oldest, ?_, congrArg (fun found => (Except.ok found, shelf)) holdest⟩
  rw [h.recordsOf_eq, List.find?_filter] at holdest
  obtain ⟨hp, older, newer, hlog, hnone⟩ := List.find?_eq_some_iff_append.mp holdest
  refine ⟨recalls_iff.mp hp, older, newer, hlog, fun r hr hrec => ?_⟩
  have hfalse := hnone r hr
  rw [recalls_iff.mpr hrec] at hfalse
  exact absurd hfalse (by simp)

variable {concept : Concept} {code : String} {story : Story} {rating : Nat} {now : Timestamp}
  {shelf : Shelf}

/-- A rating is refused when it is too high, and when the story has no steps. -/
theorem rate_error_iff :
    (∃ failure, (rate Shelf.store concept code story rating now shelf).1 = .error failure) ↔
      5 < rating ∨ story.steps = [] := by
  unfold rate
  split
  next hrating => exact iff_of_true ⟨_, rfl⟩ (Or.inl hrating)
  next hrating =>
    split
    next hsteps => exact iff_of_true ⟨_, rfl⟩ (Or.inr (List.isEmpty_iff.mp hsteps))
    next hsteps =>
      refine iff_of_false ?_ fun h => h.elim hrating fun h => hsteps (List.isEmpty_iff.mpr h)
      rintro ⟨failure, hfailure⟩
      cases hfailure

/-- What is refused leaves no trace. -/
theorem rate_of_error {failure : Failure}
    (h : (rate Shelf.store concept code story rating now shelf).1 = .error failure) :
    (rate Shelf.store concept code story rating now shelf).2 = shelf := by
  unfold rate at h ⊢
  split
  next => rfl
  next hrating =>
    rw [if_neg hrating] at h
    split
    next => rfl
    next hsteps =>
      rw [if_neg hsteps] at h
      cases h

/-- What is not refused is added. -/
theorem rate_of_ok {record : Record}
    (h : (rate Shelf.store concept code story rating now shelf).1 = .ok record) :
    record = Record.ofStory concept code story rating now ∧
      (rate Shelf.store concept code story rating now shelf).2 = shelf.add record := by
  unfold rate at h ⊢
  split at h
  next => cases h
  next hrating =>
    split at h
    next => cases h
    next hsteps =>
      rw [if_neg hrating, if_neg hsteps]
      obtain rfl := Except.ok.inj h
      exact ⟨rfl, rfl⟩

end Storyboard.Memory

namespace Storyboard.Dispatch

variable {τ : Type}

/-- With exact lookup in a shelf, what is found of the very same program is told, polished, and
nothing else is asked. -/
theorem dispatch_of_found {services : Services (Memory.Shelf × τ)} {config : Config}
    {concept : Concept} {code : String} {shelf : Memory.Shelf} {record : Memory.Record}
    (hrecords : services.records = some (Memory.Shelf.store.onFirst τ))
    (hfirst : config.exactFirst = true) (hconcept : concept.reconsider = concept)
    (hfound : Memory.Shelf.store.findExact concept.label (Blake3.digest code)
      config.minRating shelf = (.ok (some record), shelf)) (other : τ) :
    dispatch services config concept code (shelf, other) =
      (polish concept record.story, shelf, other) := by
  have hexact : exactStory? services config concept code (shelf, other) =
      (some record.story, shelf, other) := by
    unfold exactStory?
    rw [hrecords]
    dsimp only
    rw [if_pos hfirst, Memory.lookupExact]
    have hpart : (Memory.Shelf.store.onFirst τ).findExact concept.label (Blake3.digest code)
        config.minRating (shelf, other) = (.ok (some record), shelf, other) := by
      rw [Memory.Records.onFirst_findExact, hfound]
    rw [hpart]
    rfl
  unfold dispatch
  rw [hconcept]
  dsimp only
  rw [resolve_of_exact hexact]

/-- Dispatch reconsiders its concept first. -/
theorem dispatch_eq_of_reconsider {σ : Type} {a b : Concept} (h : a.reconsider = b.reconsider)
    (services : Services σ) (config : Config) (code : String) (state : σ) :
    dispatch services config a code state = dispatch services config b code state := by
  unfold dispatch
  rw [h]

/-- A rating is refused exactly when it is too high or the story has no steps, and then nothing is
kept.  Otherwise, when the rating is high enough for the dispatch, the label leads to the steps of
the oldest record of the program that is rated so, whatever else could have told a story. -/
theorem dispatchLabel_rated {log : List Memory.Record} {shelf : Memory.Shelf}
    (hkeeps : Memory.Shelf.Keeps log shelf) (services : Services (Memory.Shelf × τ))
    (config : Config) (hrecords : services.records = some (Memory.Shelf.store.onFirst τ))
    (hfirst : config.exactFirst = true) {label code : String} {story : Story} {rating : Nat}
    {now : Timestamp} {result : Except Memory.Failure Memory.Record} {after : Memory.Shelf}
    (hrate : Memory.rate Memory.Shelf.store (Concept.resolve label) code story rating now shelf =
      (result, after)) :
    ((∃ failure, result = .error failure) ↔ 5 < rating ∨ story.steps = []) ∧
      (∀ failure, result = .error failure → after = shelf) ∧
      ∀ record, result = .ok record → config.minRating ≤ rating →
        ∃ oldest,
          Memory.IsOldest (Memory.Recalls (Concept.resolve label) code config.minRating)
            (log ++ [record]) oldest ∧
          ∀ other : τ, (dispatchLabel services config label code (after, other)).1.steps =
            Story.collapse (oldest.steps.map Story.describe) := by
  obtain rfl : result = _ := (congrArg Prod.fst hrate).symm
  obtain rfl : after = _ := (congrArg Prod.snd hrate).symm
  refine ⟨Memory.rate_error_iff, fun _ => Memory.rate_of_error, ?_⟩
  intro record hrecord hmin
  obtain ⟨hofStory, hadded⟩ := Memory.rate_of_ok hrecord
  -- the new record qualifies itself, so that some oldest one does
  have hrecalls : Memory.Recalls (Concept.resolve label) code config.minRating record := by
    rw [hofStory]
    exact Memory.recalls_ofStory _ code story now hmin
  obtain ⟨oldest, holdest, hfound⟩ := Memory.findExact_of_keeps (hkeeps.add record)
    (List.mem_append_right log List.mem_cons_self) hrecalls
  refine ⟨oldest, holdest, fun other => ?_⟩
  rw [hadded, dispatchLabel,
    dispatch_of_found hrecords hfirst (Concept.reconsider_resolve label) hfound]
  rfl

/-- One program rated too low, well, and well again under another name of its concept. -/
def lowRated : Memory.Record :=
  .ofStory .stack "s.push(1)\n" (Story.note .stack "Poor") 2 .epoch

@[inherit_doc lowRated]
def wellRated : Memory.Record :=
  .ofStory .stack "s.push(1)\n" (Story.note .stack "Good") 4 .epoch

@[inherit_doc lowRated]
def ratedAgain : Memory.Record :=
  .ofStory (Concept.resolve "LIFO") "s.push(1)\n" (Story.note .stack "Better") 5 .epoch

/-- A shelf alone to dispatch with. -/
def shelfOnly : Services (Memory.Shelf × Unit) where
  records := some (Memory.Shelf.store.onFirst Unit)

theorem dispatchLabel_rated_lifo :
    ∃ oldest, Memory.IsOldest (Memory.Recalls (Concept.resolve "LIFO") "s.push(1)\n" 3)
        ([lowRated, wellRated] ++ [ratedAgain]) oldest ∧
      ∀ other : Unit, (dispatchLabel shelfOnly {} "LIFO" "s.push(1)\n"
        (((Memory.Shelf.add {} lowRated).add wellRated).add ratedAgain, other)).1.steps =
          Story.collapse (oldest.steps.map Story.describe) := by
  have hkeeps : Memory.Shelf.Keeps [lowRated, wellRated]
      ((Memory.Shelf.add {} lowRated).add wellRated) := .add (.add .empty _) _
  have hrate : Memory.rate Memory.Shelf.store (Concept.resolve "LIFO") "s.push(1)\n"
      (Story.note .stack "Better") 5 .epoch ((Memory.Shelf.add {} lowRated).add wellRated) =
        (.ok ratedAgain, ((Memory.Shelf.add {} lowRated).add wellRated).add ratedAgain) := rfl
  have htold := dispatchLabel_rated hkeeps shelfOnly {} rfl rfl hrate
  exact htold.2.2 ratedAgain rfl (by decide)

end Storyboard.Dispatch

namespace Storyboard.CommandLine

variable {σ : Type}

/-- A label without a second one is normalized. -/
theorem conceptFor_label (settings : Settings) (send : Remote.Transport σ) (label code : String)
    (state : Remote.KeyPool × σ) :
    (conceptFor settings send (some label) none code state).1 = Concept.parse label := by
  unfold conceptFor
  dsimp only
  rw [Option.getD_none, Concept.parse]

/-- The concept under which a story is told of a label, and that under which it is rated, are one
exactly when no alias disagrees with the label; the label is then told of as dispatch tells of it. -/
theorem conceptFor_reconsider_eq_iff (settings : Settings) (send : Remote.Transport σ)
    (label code : String) (state : Remote.KeyPool × σ) :
    ((conceptFor settings send (some label) none code state).1.reconsider = Concept.resolve label ↔
        Concept.AliasAgrees label) ∧
      (Concept.AliasAgrees label → ∀ (services : Dispatch.Services (Memory.Store × Remote.KeyPool × σ))
        (config : Dispatch.Config) (before : Memory.Store × Remote.KeyPool × σ),
        Dispatch.dispatch services config
            (conceptFor settings send (some label) none code state).1 code before =
          Dispatch.dispatchLabel services config label code before) := by
  constructor
  · rw [conceptFor_label]
    exact Concept.reconsider_parse_eq_resolve_iff label
  · intro hagrees services config before
    rw [conceptFor_label, Dispatch.dispatchLabel]
    apply Dispatch.dispatch_eq_of_reconsider
    rw [Concept.reconsider_resolve, (Concept.reconsider_parse_eq_resolve_iff label).mpr hagrees]

/-- A network without an answer. -/
def silent : Remote.Transport Unit := fun _ state => (.error .unavailable, state)

/-- A label that names the family of graphs and spells the alias of one kind of them is told under
the family and rated under the kind. -/
theorem conceptFor_graphbfs :
    (conceptFor {} silent (some "graphbfs") none "" ({ keys := [] }, ())).1.reconsider =
      .graph .generic ∧ Concept.resolve "graphbfs" = .graph .bfs := by
  constructor
  · rw [conceptFor_label]
    decide +kernel
  · decide +kernel

end Storyboard.CommandLine
