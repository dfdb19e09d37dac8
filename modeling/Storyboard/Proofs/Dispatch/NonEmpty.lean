import Storyboard.Proofs.Dispatch.Cascade

/-!
# When a dispatched story has no steps

Of all the sources of a story, one alone can leave it without steps: the reconstructor, when it is
asked without a partial story and tells a long one of marks alone.  Such a reply passes the check
for substance, since marks are no notes, and is compressed to nothing afterwards; a reply that has
no steps to begin with is replaced by a note.
-/

namespace Storyboard.Dispatch

variable {σ : Type}

/-- The reconstructor is asked without a partial story, and tells a long story of marks alone. -/
def TellsMarksOnly (services : Services σ) (config : Config) (concept : Concept) (code : String)
    (state : σ) : Prop :=
  ∃ before, Asks services config concept code state none before ∧
    ∃ reconstructor ∈ services.reconstructor, ∃ reply after,
      reconstructor code concept none before = (.ok reply, after) ∧
        isLong config concept false reply = true ∧
        ∀ step ∈ reply.steps, Story.isMarker step = true

theorem resolve_steps_eq_nil_iff (services : Services σ) (hrecords : services.RecordsHaveSteps)
    (config : Config) (concept : Concept) (code : String) (state : σ) :
    (resolve services config concept code state).1.steps = [] ↔
      TellsMarksOnly services config concept code state := by
  constructor
  · intro h
    generalize htold : resolve services config concept code state = told at h
    have hcases := resolve_cases services config concept code state
    rw [htold] at hcases
    -- every source but the reconstructor tells at least one step
    cases hcases with
    | exact found => exact absurd h (exactStory?_steps hrecords found)
    | simulated run => exact absurd h (Story.steps_ne_nil (substance_of_complete run))
    | similar found => exact absurd h (similarStory?_steps hrecords found)
    | reconstructed asks =>
      obtain ⟨rfl, hreply⟩ := (reconstruct_steps_eq_nil_iff _ asks.partial_steps).mp h
      exact ⟨_, asks, hreply⟩
  · rintro ⟨before, asks, hreply⟩
    rw [asks.resolve_eq]
    refine (reconstruct_steps_eq_nil_iff none ?_).mpr ⟨rfl, hreply⟩
    intro story hstory
    cases hstory

/-- A dispatched story has no steps exactly when the reconstructor tells marks only. -/
theorem dispatch_steps_eq_nil_iff (services : Services σ) (hrecords : services.RecordsHaveSteps)
    (config : Config) (concept : Concept) (code : String) (state : σ) :
    (dispatch services config concept code state).1.steps = [] ↔
      TellsMarksOnly services config concept.reconsider code state := by
  show Story.collapse ((resolve services config concept.reconsider code state).1.steps.map
    Story.describe) = [] ↔ _
  rw [Story.collapse_eq_nil_iff, List.map_eq_nil_iff]
  exact resolve_steps_eq_nil_iff services hrecords config concept.reconsider code state

/-- A story that only marks sixteen rounds of a loop. -/
def rounds : Story :=
  ⟨List.replicate 16 { action := "iteration", description := "Next round" }, Header.plain .stack⟩

/-- Nothing but a reconstructor, which tells of rounds whatever it is asked. -/
def roundsOnly : Services Unit where
  reconstructor := some fun _ _ _ state => (.ok rounds, state)

theorem dispatch_steps_eq_nil_iff_rounds :
    roundsOnly.RecordsHaveSteps ∧
      ((dispatch roundsOnly {} .stack "" ()).1.steps = [] ↔
        TellsMarksOnly roundsOnly {} (Concept.reconsider .stack) "" ()) :=
  ⟨nofun, dispatch_steps_eq_nil_iff roundsOnly nofun {} .stack "" ()⟩

/-- A program without a statement, told by rounds, ends up without a step. -/
theorem dispatch_rounds_steps : (dispatch roundsOnly {} .stack "" ()).1.steps = [] :=
  List.isEmpty_iff.mp (by decide +kernel)

end Storyboard.Dispatch
