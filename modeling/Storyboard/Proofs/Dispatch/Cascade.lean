import Storyboard.Dispatch
import Storyboard.Proofs.Story.Polish

/-!
# How dispatch falls back

A story is resolved by a cascade of sources.  `Asks` says that all local sources fall short, so that
the cascade comes to its reconstructor, and with which partial story; `Resolves` has one case for
each source that can tell the story in the end.

No source tells a story without steps but one: a reconstructed story that is long and has nothing but
marks of rounds is compressed to nothing, after it was checked for substance.
-/

namespace Storyboard.Dispatch

variable {σ : Type} {services : Services σ} {config : Config} {concept : Concept} {code : String}
  {state : σ}

/-- The best partial story of substance, when the simulator of the concept has told `first`. -/
def bestPartial (concept : Concept) (code : String) (first : Option Story) : Option Story :=
  (((Simulator.universal.run concept code).story?.map (better first)).orElse fun _ => first).filter
    fun story => decide (0 < story.substance)

/-- The simulator does not tell a complete story. -/
def FallsShort (simulator : Simulator) (concept : Concept) (code : String) : Prop :=
  ∀ story, simulator.run concept code ≠ .complete story

/-- All local sources fall short: the cascade comes to its reconstructor with a partial story and a
state. -/
inductive Asks (services : Services σ) (config : Config) (concept : Concept) (code : String)
    (state : σ) : Option Story → σ → Prop
  | routed {simulator : Simulator} {afterExact afterSimilar : σ}
      (exact : exactStory? services config concept code state = (none, afterExact))
      (route : Simulator.ofConcept? concept = some simulator)
      (short : FallsShort simulator concept code)
      (similar : similarStory? services config concept code afterExact = (none, afterSimilar))
      (universal : FallsShort .universal concept code) :
      Asks services config concept code state
        (bestPartial concept code (simulator.run concept code).story?) afterSimilar
  | unrouted {afterExact : σ}
      (exact : exactStory? services config concept code state = (none, afterExact))
      (route : Simulator.ofConcept? concept = none)
      (universal : FallsShort .universal concept code) :
      Asks services config concept code state (bestPartial concept code none) afterExact

/-- What a story comes from. -/
inductive Resolves (services : Services σ) (config : Config) (concept : Concept) (code : String)
    (state : σ) : Story × σ → Prop
  | exact {story : Story} {after : σ}
      (found : exactStory? services config concept code state = (some story, after)) :
      Resolves services config concept code state (story, after)
  | simulated {simulator : Simulator} {story : Story} {after : σ}
      (run : simulator.run concept code = .complete story) :
      Resolves services config concept code state (story, after)
  | similar {before after : σ} {story : Story}
      (found : similarStory? services config concept code before = (some story, after)) :
      Resolves services config concept code state (story, after)
  | reconstructed {partialStory : Option Story} {before : σ}
      (asks : Asks services config concept code state partialStory before) :
      Resolves services config concept code state
        (reconstruct services config concept code partialStory before)

/-! ## One source after the other -/

theorem resolve_of_exact {story : Story} {after : σ}
    (hexact : exactStory? services config concept code state = (some story, after)) :
    resolve services config concept code state = (story, after) := by
  unfold resolve
  rw [hexact]

theorem resolve_routed {simulator : Simulator} {after : σ}
    (hexact : exactStory? services config concept code state = (none, after))
    (hroute : Simulator.ofConcept? concept = some simulator) :
    resolve services config concept code state =
      simulated services config simulator concept code after := by
  unfold resolve
  rw [hexact]
  dsimp only
  rw [hroute]

theorem resolve_unrouted {after : σ}
    (hexact : exactStory? services config concept code state = (none, after))
    (hroute : Simulator.ofConcept? concept = none) :
    resolve services config concept code state = fallBack services config concept code none after := by
  unfold resolve
  rw [hexact]
  dsimp only
  rw [hroute]

theorem simulated_of_complete {simulator : Simulator} {story : Story}
    (hrun : simulator.run concept code = .complete story) (state : σ) :
    simulated services config simulator concept code state = (story, state) := by
  unfold simulated
  rw [hrun]

theorem simulated_of_fallsShort {simulator : Simulator} (h : FallsShort simulator concept code)
    (state : σ) :
    simulated services config simulator concept code state =
      match similarStory? services config concept code state with
      | (some story, state) => (story, state)
      | (none, state) =>
        fallBack services config concept code (simulator.run concept code).story? state := by
  unfold simulated
  split
  next story hrun => exact absurd hrun (h story)
  next => rfl

theorem fallBack_of_complete {story : Story}
    (hrun : Simulator.universal.run concept code = .complete story) (first : Option Story)
    (state : σ) : fallBack services config concept code first state = (story, state) := by
  unfold fallBack
  rw [hrun]

theorem fallBack_of_fallsShort (h : FallsShort .universal concept code) (first : Option Story)
    (state : σ) :
    fallBack services config concept code first state =
      reconstruct services config concept code (bestPartial concept code first) state := by
  unfold fallBack bestPartial
  split
  next story hrun => exact absurd hrun (h story)
  next => rfl

/-- When the local sources fall short, the story is what the reconstructor makes of them. -/
theorem Asks.resolve_eq {partialStory : Option Story} {before : σ}
    (h : Asks services config concept code state partialStory before) :
    resolve services config concept code state =
      reconstruct services config concept code partialStory before := by
  cases h with
  | routed exact route short similar universal =>
    rw [resolve_routed exact route, simulated_of_fallsShort short, similar]
    exact fallBack_of_fallsShort universal _ _
  | unrouted exact route universal =>
    rw [resolve_unrouted exact route]
    exact fallBack_of_fallsShort universal none _

/-- A simulator tells a complete story, or it falls short. -/
theorem run_cases (simulator : Simulator) (concept : Concept) (code : String) :
    (∃ story, simulator.run concept code = .complete story) ∨ FallsShort simulator concept code := by
  by_cases h : FallsShort simulator concept code
  · exact Or.inr h
  · exact Or.inl (Classical.not_forall_not.mp h)

/-- Every story comes from one of the sources. -/
theorem resolve_cases (services : Services σ) (config : Config) (concept : Concept) (code : String)
    (state : σ) :
    Resolves services config concept code state (resolve services config concept code state) := by
  -- the sources are asked in this order, and the first that tells a story has the last word
  rcases hexact : exactStory? services config concept code state with ⟨_ | story, afterExact⟩
  · cases hroute : Simulator.ofConcept? concept with
    | none =>
      rcases run_cases .universal concept code with ⟨story, hrun⟩ | huniversal
      · rw [resolve_unrouted hexact hroute, fallBack_of_complete hrun]
        exact .simulated hrun
      · have hasks := Asks.unrouted hexact hroute huniversal
        rw [hasks.resolve_eq]
        exact .reconstructed hasks
    | some simulator =>
      rcases run_cases simulator concept code with ⟨story, hrun⟩ | hshort
      · rw [resolve_routed hexact hroute, simulated_of_complete hrun]
        exact .simulated hrun
      · rcases hsimilar : similarStory? services config concept code afterExact with
          ⟨_ | story, afterSimilar⟩
        · rcases run_cases .universal concept code with ⟨story, hrun⟩ | huniversal
          · rw [resolve_routed hexact hroute, simulated_of_fallsShort hshort, hsimilar]
            dsimp only
            rw [fallBack_of_complete hrun]
            exact .simulated hrun
          · have hasks := Asks.routed hexact hroute hshort hsimilar huniversal
            rw [hasks.resolve_eq]
            exact .reconstructed hasks
        · rw [resolve_routed hexact hroute, simulated_of_fallsShort hshort, hsimilar]
          exact .similar hsimilar
  · rw [resolve_of_exact hexact]
    exact .exact hexact

/-! ## Sources that have steps -/

/-- All records that the store gives out hold a step. -/
def Services.RecordsHaveSteps (services : Services σ) : Prop :=
  ∀ records ∈ services.records,
    (∀ label digest rating before after record,
      records.findExact label digest rating before = (.ok (some record), after) →
        record.story.steps ≠ []) ∧
    ∀ label before after found, records.records label before = (.ok found, after) →
      ∀ record ∈ found, record.story.steps ≠ []

/-- The most similar record is one of those compared, or the one that was best before. -/
theorem mostSimilar_mem {code : String} {floor : Float} {best : Option (Memory.Record × Float)}
    {records : List Memory.Record} {found : Memory.Record × Float}
    (h : Memory.mostSimilar code floor best records = some found) :
    best = some found ∨ found.1 ∈ records := by
  induction records generalizing best with
  | nil => exact Or.inl h
  | cons record rest ih =>
    rw [Memory.mostSimilar] at h
    rcases ih h with hbest | hrest
    · split at hbest
      · exact Or.inr (List.mem_cons.mpr (Or.inl (Option.some.inj hbest ▸ rfl)))
      · exact Or.inl hbest
    · exact Or.inr (List.mem_cons_of_mem _ hrest)

theorem storyOfHit?_eq_some {found : Except Memory.Failure (Option Memory.Hit)} {story : Story}
    (h : storyOfHit? found = some story) :
    ∃ hit, found = .ok (some hit) ∧ hit.record.story = story := by
  unfold storyOfHit? at h
  split at h
  next hit => exact ⟨hit, rfl, Option.some.inj h⟩
  next => cases h

/-- What is found of the very same program is a record of the store. -/
theorem lookupExact_eq_hit {store : Memory.Records σ} {rating : Nat} {hit : Memory.Hit}
    (h : (Memory.lookupExact store rating concept code state).1 = .ok (some hit)) :
    ∃ digest after, store.findExact concept.label digest rating state =
      (.ok (some hit.record), after) := by
  unfold Memory.lookupExact at h
  rcases hfound : store.findExact concept.label (Blake3.digest code) rating state with
    ⟨_ | _ | record, after⟩
  · rw [hfound] at h
    cases h
  · rw [hfound] at h
    cases h
  · rw [hfound] at h
    obtain rfl := Option.some.inj (Except.ok.inj h)
    exact ⟨_, after, hfound⟩

/-- What is found of a similar program is one of the records of the store. -/
theorem lookupSimilar_eq_hit {store : Memory.Records σ} {rating : Nat} {floor : Float}
    {hit : Memory.Hit}
    (h : (Memory.lookupSimilar store rating concept code floor state).1 = .ok (some hit)) :
    ∃ found after, store.records concept.label state = (.ok found, after) ∧ hit.record ∈ found := by
  unfold Memory.lookupSimilar at h
  rcases hfound : store.records concept.label state with ⟨_ | found, after⟩
  · rw [hfound] at h
    cases h
  · refine ⟨found, after, rfl, ?_⟩
    rw [hfound] at h
    obtain ⟨best, hbest, rfl⟩ := Option.map_eq_some_iff.mp (Except.ok.inj h)
    rcases mostSimilar_mem hbest with hnone | hmem
    · cases hnone
    · exact (List.mem_filter.mp hmem).1

theorem exactStory?_steps (hrecords : services.RecordsHaveSteps) {story : Story} {after : σ}
    (h : exactStory? services config concept code state = (some story, after)) :
    story.steps ≠ [] := by
  have hstory := congrArg Prod.fst h
  unfold exactStory? at hstory
  split at hstory
  next records hrec =>
    split at hstory
    next =>
      obtain ⟨hit, hfound, rfl⟩ := storyOfHit?_eq_some hstory
      obtain ⟨digest, after, hrecord⟩ := lookupExact_eq_hit hfound
      exact (hrecords records hrec).1 _ _ _ _ _ _ hrecord
    next => cases hstory
  next => cases hstory

theorem similarStory?_steps (hrecords : services.RecordsHaveSteps) {story : Story} {after : σ}
    (h : similarStory? services config concept code state = (some story, after)) :
    story.steps ≠ [] := by
  have hstory := congrArg Prod.fst h
  unfold similarStory? at hstory
  split at hstory
  next records hrec =>
    obtain ⟨hit, hfound, rfl⟩ := storyOfHit?_eq_some hstory
    obtain ⟨found, after, hrecord, hmem⟩ := lookupSimilar_eq_hit hfound
    exact (hrecords records hrec).2 _ _ _ _ hrecord _ hmem
  next => cases hstory

/-- A run is complete when its story has enough steps of substance. -/
theorem run_eq_complete_iff {simulator : Simulator} {story : Story} :
    simulator.run concept code = .complete story ↔
      simulator.simulate concept code = .ok story ∧ simulator.minimum ≤ story.substance := by
  unfold Simulator.run
  constructor
  · intro h
    split at h
    next => cases h
    next told htold =>
      split at h
      next hle =>
        obtain rfl := Outcome.complete.inj h
        exact ⟨htold, hle⟩
      next => cases h
  · rintro ⟨htold, hle⟩
    rw [htold]
    exact if_pos hle

/-- A complete story is one of substance. -/
theorem substance_of_complete {simulator : Simulator} {story : Story}
    (h : simulator.run concept code = .complete story) : 0 < story.substance := by
  have hmin : 0 < simulator.minimum := by
    cases simulator
    all_goals exact Nat.succ_pos _
  exact Nat.lt_of_lt_of_le hmin (run_eq_complete_iff.mp h).2

/-- A partial story that is told has a step. -/
theorem bestPartial_steps {first : Option Story} {story : Story}
    (h : bestPartial concept code first = some story) : story.steps ≠ [] := by
  unfold bestPartial at h
  rw [Option.filter_eq_some_iff] at h
  exact Story.steps_ne_nil (of_decide_eq_true h.2)

theorem Asks.partial_steps {partialStory : Option Story} {before : σ}
    (h : Asks services config concept code state partialStory before) :
    ∀ story ∈ partialStory, story.steps ≠ [] := by
  cases h with
  | routed => exact fun story hstory => bestPartial_steps hstory
  | unrouted => exact fun story hstory => bestPartial_steps hstory

/-- A partial story or a note always has a step. -/
theorem getD_steps {partialStory : Option Story} {note : Story}
    (hpartial : ∀ story ∈ partialStory, story.steps ≠ []) (hnote : note.steps ≠ []) :
    (partialStory.getD note).steps ≠ [] := by
  cases partialStory with
  | none => exact hnote
  | some story => exact hpartial story rfl

/-- A story is compressed to nothing when it is long and has nothing but marks. -/
theorem finish_steps_eq_nil_iff {hasPartial : Bool} {story : Story} (h : 0 < story.substance) :
    (finish services config concept hasPartial story state).1.steps = [] ↔
      isLong config concept hasPartial story = true ∧
        ∀ step ∈ story.steps, Story.isMarker step = true := by
  unfold finish
  split
  next hlong =>
    rw [and_iff_right hlong]
    exact Story.compress_eq_nil_iff
  next hshort => exact iff_of_false (Story.steps_ne_nil h) fun hboth => hshort hboth.1

/-- A story is long only when there is no partial one and it has a step. -/
theorem isLong_cases {hasPartial : Bool} {story : Story}
    (h : isLong config concept hasPartial story = true) :
    hasPartial = false ∧ 0 < story.steps.length := by
  unfold isLong at h
  rw [Bool.and_eq_true, Bool.and_eq_true, Bool.not_eq_true', decide_eq_true_eq] at h
  exact ⟨h.1.1, Nat.zero_lt_of_lt h.1.2⟩

/-- Of all that becomes of a reconstruction, only a long story of marks alone loses all its steps. -/
theorem reconstruct_steps_eq_nil_iff (partialStory : Option Story)
    (hpartial : ∀ story ∈ partialStory, story.steps ≠ []) :
    (reconstruct services config concept code partialStory state).1.steps = [] ↔
      partialStory = none ∧ ∃ reconstructor ∈ services.reconstructor, ∃ reply after,
        reconstructor code concept none state = (.ok reply, after) ∧
          isLong config concept false reply = true ∧
          ∀ step ∈ reply.steps, Story.isMarker step = true := by
  constructor
  · intro h
    unfold reconstruct at h
    split at h
    next => exact absurd h (getD_steps hpartial (List.cons_ne_nil _ _))
    next reconstructor hrec =>
      split at h
      next reply after hreply =>
        split at h
        next hsubstance =>
          -- only a long reply is compressed, and none is long that had a partial story to go on
          obtain ⟨hlong, hmarks⟩ := (finish_steps_eq_nil_iff hsubstance).mp h
          obtain rfl : partialStory = none :=
            Option.not_isSome_iff_eq_none.mp (Bool.eq_false_iff.mp (isLong_cases hlong).1)
          exact ⟨rfl, reconstructor, hrec, reply, after, hreply, hlong, hmarks⟩
        next => exact absurd h (getD_steps hpartial (List.cons_ne_nil _ _))
      next => exact absurd h (getD_steps hpartial (List.cons_ne_nil _ _))
  · rintro ⟨rfl, reconstructor, hrec, reply, after, hreply, hlong, hmarks⟩
    -- marks are no notes, so the reply passes the check for substance
    have hsubstance : 0 < reply.substance := by
      rw [Story.substance_of_isMarker hmarks]
      exact (isLong_cases hlong).2
    obtain hrec : services.reconstructor = some reconstructor := hrec
    unfold reconstruct
    rw [hrec]
    dsimp only
    rw [hreply]
    dsimp only
    rw [if_pos hsubstance]
    exact (finish_steps_eq_nil_iff hsubstance).mpr ⟨hlong, hmarks⟩

end Storyboard.Dispatch
