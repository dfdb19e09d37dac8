import Storyboard.Proofs.Dispatch.Cascade

/-!
# Failures that leave the story as it is

Dispatch tells a story also when what it is dispatched with fails.  Lookups that fail count as no
memory, whatever the cache of actions answers is not part of the story, and a reconstructor that
falls short counts as none as soon as a partial story is there.

All of this compares two runs of the cascade: as long as both remember the same stories they tell
the same, or both come to ask for a reconstruction with the same partial story.
-/

namespace Storyboard.Dispatch

variable {σ τ : Type} {config : Config} {concept : Concept} {code : String}

/-! ## Two runs of the cascade -/

/-- The state in which the cascade asks for a reconstruction, if it comes to that. -/
def askedState (services : Services σ) (config : Config) (concept : Concept) (code : String)
    (state : σ) : σ :=
  let after := (exactStory? services config concept code state).2
  match Simulator.ofConcept? concept with
  | some _ => (similarStory? services config concept code after).2
  | none => after

/-- Both runs remember the same stories. -/
structure RememberAlike (services : Services σ) (others : Services τ) (config : Config)
    (concept : Concept) (code : String) (state : σ) (start : τ) : Prop where
  exact : (exactStory? services config concept code state).1 =
    (exactStory? others config concept code start).1
  similar :
    (similarStory? services config concept code
      (exactStory? services config concept code state).2).1 =
    (similarStory? others config concept code (exactStory? others config concept code start).2).1

section Runs

variable {services : Services σ} {others : Services τ} {state after afterLike : σ}
  {start next nextLike : τ} {like : Option Story}

/-- Without a simulator of its own, the program is simulated for all of its structures, or both runs ask
for a reconstruction. -/
theorem resolve_eq_or_asks_unrouted
    (hfirst : exactStory? services config concept code state = (none, after))
    (hsecond : exactStory? others config concept code start = (none, next))
    (hroute : Simulator.ofConcept? concept = none) :
    (resolve services config concept code state).1 = (resolve others config concept code start).1 ∨
      ∃ partialStory, Asks services config concept code state partialStory after ∧
        Asks others config concept code start partialStory next := by
  rcases run_cases .universal concept code with ⟨story, hrun⟩ | huniversal
  · left
    rw [resolve_unrouted hfirst hroute, resolve_unrouted hsecond hroute,
      fallBack_of_complete hrun, fallBack_of_complete hrun]
  · exact Or.inr ⟨_, .unrouted hfirst hroute huniversal, .unrouted hsecond hroute huniversal⟩

/-- Behind a simulator comes the most similar story, and then what comes without a simulator. -/
theorem resolve_eq_or_asks_routed
    (hfirst : exactStory? services config concept code state = (none, after))
    (hsecond : exactStory? others config concept code start = (none, next)) {simulator : Simulator}
    (hroute : Simulator.ofConcept? concept = some simulator)
    (hlike : similarStory? services config concept code after = (like, afterLike))
    (hother : similarStory? others config concept code next = (like, nextLike)) :
    (resolve services config concept code state).1 = (resolve others config concept code start).1 ∨
      ∃ partialStory, Asks services config concept code state partialStory afterLike ∧
        Asks others config concept code start partialStory nextLike := by
  rcases run_cases simulator concept code with ⟨story, hrun⟩ | hshort
  · left
    rw [resolve_routed hfirst hroute, resolve_routed hsecond hroute,
      simulated_of_complete hrun, simulated_of_complete hrun]
  · cases like with
    | some story =>
      left
      rw [resolve_routed hfirst hroute, resolve_routed hsecond hroute,
        simulated_of_fallsShort hshort, simulated_of_fallsShort hshort, hlike, hother]
    | none =>
      rcases run_cases .universal concept code with ⟨story, hrun⟩ | huniversal
      · left
        rw [resolve_routed hfirst hroute, resolve_routed hsecond hroute,
          simulated_of_fallsShort hshort, simulated_of_fallsShort hshort, hlike, hother]
        dsimp only
        rw [fallBack_of_complete hrun, fallBack_of_complete hrun]
      · exact Or.inr ⟨_, .routed hfirst hroute hshort hlike huniversal,
          .routed hsecond hroute hshort hother huniversal⟩

end Runs

/-- Runs that remember the same stories tell the same, or both ask for a reconstruction. -/
theorem RememberAlike.resolve_eq_or_asks {services : Services σ} {others : Services τ} {state : σ}
    {start : τ} (h : RememberAlike services others config concept code state start) :
    (resolve services config concept code state).1 = (resolve others config concept code start).1 ∨
      ∃ partialStory,
        Asks services config concept code state partialStory
          (askedState services config concept code state) ∧
        Asks others config concept code start partialStory
          (askedState others config concept code start) := by
  obtain ⟨hexact, hsimilar⟩ := h
  unfold askedState
  rcases hfirst : exactStory? services config concept code state with ⟨found, after⟩
  rcases hsecond : exactStory? others config concept code start with ⟨_, next⟩
  rw [hfirst, hsecond] at hexact hsimilar
  obtain rfl := hexact
  dsimp only at hsimilar ⊢
  cases found with
  | some story =>
    left
    rw [resolve_of_exact hfirst, resolve_of_exact hsecond]
  | none =>
    cases hroute : Simulator.ofConcept? concept with
    | none => exact resolve_eq_or_asks_unrouted hfirst hsecond hroute
    | some simulator =>
      dsimp only
      rcases hlike : similarStory? services config concept code after with ⟨like, afterLike⟩
      rcases hother : similarStory? others config concept code next with ⟨_, nextLike⟩
      rw [hlike, hother] at hsimilar
      obtain rfl := hsimilar
      exact resolve_eq_or_asks_routed hfirst hsecond hroute hlike hother

/-- Runs that remember the same stories tell the same if what is made of a reconstruction is the
same wherever both ask for one. -/
theorem RememberAlike.dispatch_eq {services : Services σ} {others : Services τ} {state : σ}
    {start : τ} (h : RememberAlike services others config concept.reconsider code state start)
    (hasked : ∀ partialStory,
      Asks services config concept.reconsider code state partialStory
        (askedState services config concept.reconsider code state) →
      (reconstruct services config concept.reconsider code partialStory
        (askedState services config concept.reconsider code state)).1 =
      (reconstruct others config concept.reconsider code partialStory
        (askedState others config concept.reconsider code start)).1) :
    (dispatch services config concept code state).1 =
      (dispatch others config concept code start).1 := by
  have hresolve : (resolve services config concept.reconsider code state).1 =
      (resolve others config concept.reconsider code start).1 := by
    rcases h.resolve_eq_or_asks with hsame | ⟨partialStory, hasks, hothers⟩
    · exact hsame
    · rw [hasks.resolve_eq, hothers.resolve_eq]
      exact hasked partialStory hasks
  exact congrArg (polish concept.reconsider) hresolve

/-! ## What is made of a reconstruction -/

/-- The cache of actions has no part in the story. -/
theorem finish_fst (services : Services σ) (config : Config) (concept : Concept)
    (hasPartial : Bool) (story : Story) (state : σ) :
    (finish services config concept hasPartial story state).1 =
      if isLong config concept hasPartial story then
        { story with steps := Story.compress story.steps }
      else story := by
  unfold finish
  split <;> rfl

/-- The story that is told after an answer of the reconstructor, or when there is none to ask. -/
def storyAfter (config : Config) (concept : Concept) (partialStory : Option Story) :
    Option (Except Remote.Failure Story) → Story
  | none => partialStory.getD (Story.note concept "No steps could be produced for this code")
  | some (.error failure) => partialStory.getD (failureNote concept failure)
  | some (.ok story) =>
    if 0 < story.substance then
      if isLong config concept partialStory.isSome story then
        { story with steps := Story.compress story.steps }
      else story
    else partialStory.getD (Story.note concept "Reconstruction returned no steps")

/-- A story depends on what the reconstructor answers, and on nothing else of the services. -/
theorem reconstruct_fst (services : Services σ) (config : Config) (concept : Concept)
    (code : String) (partialStory : Option Story) (state : σ) :
    (reconstruct services config concept code partialStory state).1 =
      storyAfter config concept partialStory
        (services.reconstructor.map fun tell => (tell code concept partialStory state).1) := by
  unfold reconstruct
  cases services.reconstructor with
  | none => rfl
  | some tell =>
    dsimp only [Option.map_some]
    rcases tell code concept partialStory state with ⟨_ | story, after⟩
    · rfl
    · dsimp only [storyAfter]
      split
      next => exact finish_fst _ _ _ _ _ _
      next => rfl

/-- An answer without substance leaves a partial story as it is. -/
theorem storyAfter_of_fails {answer : Except Remote.Failure Story}
    (h : ∀ reply, answer = .ok reply → reply.substance = 0) (story : Story) :
    storyAfter config concept (some story) (some answer) = story := by
  cases answer with
  | error failure => rfl
  | ok reply =>
    rw [storyAfter, h reply rfl]
    rfl

/-- The story does not depend on the cache of actions. -/
theorem dispatch_without_actions (services : Services σ) (state : σ) :
    (dispatch services config concept code state).1 =
      (dispatch { services with actions := none } config concept code state).1 := by
  have halike : RememberAlike services { services with actions := none } config
      concept.reconsider code state state := ⟨rfl, rfl⟩
  refine halike.dispatch_eq fun partialStory _ => ?_
  rw [reconstruct_fst, reconstruct_fst]
  rfl

/-! ## Lookups that fail -/

/-- Services whose stores have a state of their own, apart from that of the reconstructor. -/
def Services.apart (records : Option (Memory.Records σ)) (actions : Option (Memory.Actions σ))
    (reconstructor : Option (Remote.Reconstructor τ)) : Services (σ × τ) where
  records := records.map (Memory.Records.onFirst τ)
  actions := actions.map (Memory.Actions.onFirst τ)
  reconstructor := reconstructor.map fun tell code concept partialStory =>
    (tell code concept partialStory).onSecond

/-- The lookups of a run fail: that of the very same program, if it is made, and then that of a
similar one. -/
structure LookupsFail (records : Memory.Records σ) (config : Config) (concept : Concept)
    (code : String) (state : σ) : Prop where
  exact : config.exactFirst = true → ∃ failure,
    (Memory.lookupExact records config.minRating concept code state).1 = .error failure
  similar : ∃ failure,
    (Memory.lookupSimilar records config.minRating concept code config.similarityFloor
      (if config.exactFirst then
        (Memory.lookupExact records config.minRating concept code state).2 else state)).1 =
      .error failure

variable {records : Option (Memory.Records σ)} {actions : Option (Memory.Actions σ)}
  {reconstructor : Option (Remote.Reconstructor τ)}

/-- A lookup leaves the state of the reconstructor as it is. -/
theorem exactStory?_apart_snd (state : σ × τ) :
    (exactStory? (.apart records actions reconstructor) config concept code state).2.2 =
      state.2 := by
  unfold exactStory?
  cases records with
  | none => rfl
  | some store =>
    dsimp only [Services.apart, Option.map_some]
    split <;> rfl

theorem similarStory?_apart_snd (state : σ × τ) :
    (similarStory? (.apart records actions reconstructor) config concept code state).2.2 =
      state.2 := by
  cases records <;> rfl

theorem askedState_apart_snd (state : σ × τ) :
    (askedState (.apart records actions reconstructor) config concept code state).2 = state.2 := by
  unfold askedState
  split
  next => rw [similarStory?_apart_snd, exactStory?_apart_snd]
  next => exact exactStory?_apart_snd state

theorem answer_apart (partialStory : Option Story) (state : σ × τ) :
    ((Services.apart records actions reconstructor).reconstructor.map fun tell =>
      (tell code concept partialStory state).1) =
    reconstructor.map fun tell => (tell code concept partialStory state.2).1 := by
  cases reconstructor <;> rfl

/-- The state of the store in which a similar program is looked up. -/
theorem exactStory?_apart_fst (store : Memory.Records σ) (actions : Option (Memory.Actions σ))
    (reconstructor : Option (Remote.Reconstructor τ)) (state : σ × τ) :
    (exactStory? (.apart (some store) actions reconstructor) config concept code state).2.1 =
      if config.exactFirst then
        (Memory.lookupExact store config.minRating concept code state.1).2 else state.1 := by
  unfold exactStory?
  dsimp only [Services.apart, Option.map_some]
  split <;> rfl

/-- A store whose lookups fail remembers as little as no store. -/
theorem LookupsFail.rememberAlike {store : Memory.Records σ} {state : σ × τ}
    (h : LookupsFail store config concept code state.1) :
    RememberAlike (.apart (some store) actions reconstructor) (.apart none actions reconstructor)
      config concept code state state where
  exact := by
    show (exactStory? (.apart (some store) actions reconstructor) config concept code state).1 = none
    unfold exactStory?
    dsimp only [Services.apart, Option.map_some]
    split
    next hfirst =>
      obtain ⟨failure, hfails⟩ := h.exact hfirst
      show storyOfHit? (Memory.lookupExact store config.minRating concept code state.1).1 = none
      rw [hfails]
      rfl
    next => rfl
  similar := by
    obtain ⟨failure, hfails⟩ := h.similar
    rw [← exactStory?_apart_fst store actions reconstructor] at hfails
    show storyOfHit? (Memory.lookupSimilar store config.minRating concept code
      config.similarityFloor (exactStory? (.apart (some store) actions reconstructor) config concept
        code state).2.1).1 = none
    rw [hfails]
    rfl

theorem dispatch_of_lookupsFail {store : Memory.Records σ} {state : σ × τ}
    (h : LookupsFail store config concept.reconsider code state.1) :
    (dispatch (.apart (some store) actions reconstructor) config concept code state).1 =
      (dispatch (.apart none actions reconstructor) config concept code state).1 := by
  refine h.rememberAlike.dispatch_eq fun partialStory _ => ?_
  -- the reconstructor is asked in the same state of its own, so it answers the same
  rw [reconstruct_fst, reconstruct_fst, answer_apart, answer_apart, askedState_apart_snd,
    askedState_apart_snd]

/-! ## Reconstructors that fall short -/

/-- A local simulator tells a story of substance, complete or not. -/
def HasPartial (concept : Concept) (code : String) : Prop :=
  ∃ simulator story,
    (Simulator.ofConcept? concept = some simulator ∨ simulator = .universal) ∧
      simulator.simulate concept code = .ok story ∧ 0 < story.substance

/-- Where the cascade asks it, the reconstructor fails or answers without substance. -/
def ReconstructorFails (services : Services σ) (config : Config) (concept : Concept)
    (code : String) (state : σ) : Prop :=
  ∀ reconstructor ∈ services.reconstructor, ∀ partialStory before reply after,
    Asks services config concept code state partialStory before →
      reconstructor code concept partialStory before = (.ok reply, after) → reply.substance = 0

theorem story?_run {simulator : Simulator} {story : Story}
    (h : simulator.simulate concept code = .ok story) :
    (simulator.run concept code).story? = some story := by
  unfold Simulator.run
  rw [h]
  dsimp only
  split <;> rfl

theorem better_substance (first : Option Story) (second : Story) :
    second.substance ≤ (better first second).substance ∧
      ∀ story ∈ first, story.substance ≤ (better first second).substance := by
  unfold better
  cases first with
  | none =>
    refine ⟨Nat.le_refl _, fun story hstory => ?_⟩
    nomatch hstory
  | some first =>
    dsimp only
    split
    next hlt =>
      refine ⟨Nat.le_refl _, fun story hstory => ?_⟩
      obtain rfl := Option.some.inj hstory
      exact Nat.le_of_lt hlt
    next hle =>
      refine ⟨Nat.le_of_not_lt hle, fun story hstory => ?_⟩
      obtain rfl := Option.some.inj hstory
      exact Nat.le_refl _

/-- Of two partial stories, one of which has substance, the better one is kept. -/
theorem exists_bestPartial {first : Option Story} {story : Story} (h : 0 < story.substance)
    (htold : first = some story ∨ (Simulator.universal.run concept code).story? = some story) :
    ∃ best, bestPartial concept code first = some best := by
  unfold bestPartial
  generalize (Simulator.universal.run concept code).story? = universal at htold ⊢
  cases universal with
  | none =>
    obtain rfl : first = some story := htold.resolve_right nofun
    exact ⟨story, Option.filter_eq_some_iff.mpr ⟨rfl, decide_eq_true h⟩⟩
  | some second =>
    obtain ⟨hsecond, hfirst⟩ := better_substance first second
    have hbest : 0 < (better first second).substance := by
      rcases htold with hstory | hstory
      · exact Nat.lt_of_lt_of_le h (hfirst story hstory)
      · obtain rfl := Option.some.inj hstory
        exact Nat.lt_of_lt_of_le h hsecond
    exact ⟨better first second, Option.filter_eq_some_iff.mpr ⟨rfl, decide_eq_true hbest⟩⟩

/-- With a story of substance, the cascade does not ask without a partial one. -/
theorem HasPartial.exists_of_asks (h : HasPartial concept code) {services : Services σ} {state : σ}
    {partialStory : Option Story} {before : σ}
    (hasks : Asks services config concept code state partialStory before) :
    ∃ story, partialStory = some story := by
  obtain ⟨simulator, story, hsimulator, htold, hsubstance⟩ := h
  have hstory := story?_run htold
  cases hasks with
  | routed _ route =>
    refine exists_bestPartial hsubstance (hsimulator.imp (fun hroute => ?_) fun huniversal => ?_)
    · obtain rfl := Option.some.inj (route.symm.trans hroute)
      exact hstory
    · rw [← huniversal]
      exact hstory
  | unrouted _ route =>
    refine exists_bestPartial hsubstance (Or.inr ?_)
    rcases hsimulator with hroute | rfl
    · nomatch route.symm.trans hroute
    · exact hstory

theorem dispatch_of_reconstructorFails {services : Services σ} {state : σ}
    (hpartial : HasPartial concept.reconsider code)
    (hfails : ReconstructorFails services config concept.reconsider code state) :
    (dispatch services config concept code state).1 =
      (dispatch { services with reconstructor := none } config concept code state).1 := by
  have halike : RememberAlike services { services with reconstructor := none } config
      concept.reconsider code state state := ⟨rfl, rfl⟩
  refine halike.dispatch_eq fun partialStory hasks => ?_
  obtain ⟨story, rfl⟩ := hpartial.exists_of_asks hasks
  rw [reconstruct_fst, reconstruct_fst]
  cases hreconstructor : services.reconstructor with
  | none => rfl
  | some tell =>
    refine storyAfter_of_fails (fun reply hreply => ?_) story
    exact hfails tell hreconstructor _ _ reply _ hasks (Prod.ext hreply rfl)

/-! ## All of them -/

/-- Lookups that fail count as no memory, the cache of actions has no part in the story, and with a
partial story a reconstructor that falls short counts as none. -/
theorem dispatch_absorbs_failures (config : Config) (concept : Concept) (code : String) :
    (∀ (σ τ : Type) (store : Memory.Records σ) (actions : Option (Memory.Actions σ))
        (reconstructor : Option (Remote.Reconstructor τ)) (state : σ × τ),
      LookupsFail store config concept.reconsider code state.1 →
        (dispatch (.apart (some store) actions reconstructor) config concept code state).1 =
          (dispatch (.apart none actions reconstructor) config concept code state).1) ∧
    (∀ (σ : Type) (services : Services σ) (state : σ),
      (dispatch services config concept code state).1 =
        (dispatch { services with actions := none } config concept code state).1) ∧
    (∀ (σ : Type) (services : Services σ) (state : σ),
      HasPartial concept.reconsider code →
      ReconstructorFails services config concept.reconsider code state →
        (dispatch services config concept code state).1 =
          (dispatch { services with reconstructor := none } config concept code state).1) := by
  refine ⟨?_, ?_, ?_⟩
  · exact fun σ τ store actions reconstructor state => dispatch_of_lookupsFail
  · exact fun σ services state => dispatch_without_actions services state
  · exact fun σ services state => dispatch_of_reconstructorFails

/-- A store that counts its lookups, each of which fails. -/
def brokenStore : Memory.Records Nat where
  append _ count := (.error .noTable, count)
  records _ count := (.error .noTable, count + 1)
  findExact _ _ _ count := (.error .noTable, count + 1)

/-- A reconstructor that counts its answers, and has none. -/
def silent : Remote.Reconstructor Nat := fun _ _ _ count => (.error .unavailable, count + 1)

/-- A program that only looks at the top of a stack is told in part, whatever else fails. -/
theorem dispatch_absorbs_failures_peek :
    LookupsFail brokenStore {} (Concept.reconsider .stack) "s[-1]" 0 ∧
    (dispatch (.apart (some brokenStore) none (some silent)) {} .stack "s[-1]" (0, 0)).1 =
      (dispatch (.apart none none (some silent) : Services (Nat × Nat)) {} .stack "s[-1]" (0, 0)).1 ∧
    HasPartial (Concept.reconsider .stack) "s[-1]" ∧
    ReconstructorFails { reconstructor := some silent } {} (Concept.reconsider .stack) "s[-1]" 0 ∧
    (dispatch { reconstructor := some silent } {} .stack "s[-1]" 0).1 =
      (dispatch { reconstructor := none } {} .stack "s[-1]" 0).1 := by
  have hlookups : LookupsFail brokenStore {} (Concept.reconsider .stack) "s[-1]" 0 :=
    ⟨fun _ => ⟨.noTable, rfl⟩, ⟨.noTable, rfl⟩⟩
  have hpartial : HasPartial (Concept.reconsider .stack) "s[-1]" :=
    ⟨.stack, Stack.simulate "s[-1]", Or.inl rfl, rfl, by decide +kernel⟩
  have hfails : ReconstructorFails { reconstructor := some silent } {}
      (Concept.reconsider .stack) "s[-1]" 0 := by
    rintro _ ⟨⟩ partialStory before reply after _ hreply
    nomatch hreply
  obtain ⟨hmemory, -, hreconstructor⟩ := dispatch_absorbs_failures {} .stack "s[-1]"
  exact ⟨hlookups, hmemory Nat Nat brokenStore none (some silent) (0, 0) hlookups, hpartial, hfails,
    hreconstructor Nat _ 0 hpartial hfails⟩

end Storyboard.Dispatch
