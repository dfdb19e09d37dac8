import Storyboard.Concept.Alias
import Storyboard.Memory.Lookup
import Storyboard.Remote.Reconstruct
import Storyboard.Simulation.Simulator
import Storyboard.Story.Polish

/-!
# Dispatch

A story for any concept and program.  What is remembered of the very same program comes first, then
the simulator of the concept; when it falls short, a story remembered of a similar program, the
universal simulator, and at last reconstruction.  When everything falls short the best partial story
is told, or a note.
-/

namespace Storyboard.Dispatch

/-- How to dispatch. -/
structure Config where
  /-- The rating that a remembered story needs. -/
  minRating : Nat := Memory.defaultMinRating
  /-- Reconstructed stories with more steps are compressed, unless there is a partial story. -/
  compressAbove : Nat := 15
  /-- The similarity that a remembered program needs. -/
  similarityFloor : Float := 0.0
  /-- The very same program is looked up first. -/
  exactFirst : Bool := true

/-- What there is to dispatch with, over a common state. -/
structure Services (σ : Type) where
  records : Option (Memory.Records σ) := none
  actions : Option (Memory.Actions σ) := none
  reconstructor : Option (Remote.Reconstructor σ) := none

variable {σ : Type}

/-- The story of a hit; a failure of the memory counts as none. -/
def storyOfHit? (found : Except Memory.Failure (Option Memory.Hit)) : Option Story :=
  match found with
  | .ok (some hit) => some hit.record.story
  | _ => none

/-- The story remembered of the very same program. -/
def exactStory? (services : Services σ) (config : Config) (concept : Concept) (code : String)
    (state : σ) : Option Story × σ :=
  match services.records with
  | some records =>
    if config.exactFirst then
      let (found, state) := Memory.lookupExact records config.minRating concept code state
      (storyOfHit? found, state)
    else (none, state)
  | none => (none, state)

/-- The story remembered of the most similar program. -/
def similarStory? (services : Services σ) (config : Config) (concept : Concept) (code : String)
    (state : σ) : Option Story × σ :=
  match services.records with
  | some records =>
    let (found, state) :=
      Memory.lookupSimilar records config.minRating concept code config.similarityFloor state
    (storyOfHit? found, state)
  | none => (none, state)

/-- The story with more steps of substance, the first one of two with equally many. -/
def better (first : Option Story) (second : Story) : Story :=
  match first with
  | some story => if story.substance < second.substance then second else story
  | none => second

/-- The actions of a kind of story, learned under its concept. -/
def learnActions (actions : Memory.Actions σ) (concept : Concept) (steps : List Step) :
    Memory.Operation σ (List String) := fun state =>
  match Memory.sortActions (Story.newActions steps) with
  | [] => (.ok [], state)
  | seen => actions.learn concept.label seen state

/-- A reconstructed story is too long to be told in full. -/
def isLong (config : Config) (concept : Concept) (hasPartial : Bool) (story : Story) : Bool :=
  !hasPartial && decide (config.compressAbove < story.steps.length) && !concept.isUnknown

/-- Compresses a long reconstructed story, after its actions have been learned. -/
def finish (services : Services σ) (config : Config) (concept : Concept) (hasPartial : Bool)
    (story : Story) (state : σ) : Story × σ :=
  if isLong config concept hasPartial story then
    let state :=
      match services.actions with
      | some actions => (learnActions actions concept story.steps state).2
      | none => state
    ({ story with steps := Story.compress story.steps }, state)
  else (story, state)

/-- The note of a failed reconstruction. -/
def failureNote (concept : Concept) (failure : Remote.Failure) : Story :=
  let note := Story.note concept s!"Reconstruction failed: {failure.message}"
  { note with header := { note.header with theme := "error" } }

/-- Reconstructs a story, or falls back on the partial one, or on a note. -/
def reconstruct (services : Services σ) (config : Config) (concept : Concept) (code : String)
    (partialStory : Option Story) (state : σ) : Story × σ :=
  match services.reconstructor with
  | none =>
    (partialStory.getD (Story.note concept "No steps could be produced for this code"), state)
  | some reconstructor =>
    match reconstructor code concept partialStory state with
    | (.ok story, state) =>
      -- a reply of notes alone counts as no reply
      if 0 < story.substance then
        finish services config concept partialStory.isSome story state
      else (partialStory.getD (Story.note concept "Reconstruction returned no steps"), state)
    | (.error failure, state) => (partialStory.getD (failureNote concept failure), state)

/-- The universal story of a program, or a reconstruction; `first` is the story that the simulator
of the concept told so far. -/
def fallBack (services : Services σ) (config : Config) (concept : Concept) (code : String)
    (first : Option Story) (state : σ) : Story × σ :=
  match Simulator.universal.run concept code with
  | .complete story => (story, state)
  | outcome =>
    -- of two partial stories the one with more substance goes on
    let best := (outcome.story?.map (better first)).orElse fun _ => first
    reconstruct services config concept code
      (best.filter fun story => decide (0 < story.substance)) state

/-- Tells the story of a concept with a simulator. -/
def simulated (services : Services σ) (config : Config) (simulator : Simulator)
    (concept : Concept) (code : String) (state : σ) : Story × σ :=
  match simulator.run concept code with
  | .complete story => (story, state)
  | outcome =>
    match similarStory? services config concept code state with
    | (some story, state) => (story, state)
    | (none, state) => fallBack services config concept code outcome.story? state

/-- The story of a program before it is polished. -/
def resolve (services : Services σ) (config : Config) (concept : Concept) (code : String)
    (state : σ) : Story × σ :=
  match exactStory? services config concept code state with
  | (some story, state) => (story, state)
  | (none, state) =>
    match Simulator.ofConcept? concept with
    | some simulator => simulated services config simulator concept code state
    | none => fallBack services config concept code none state

/-- A header whose kind is outside the vocabulary gets the kind that its label stands for. -/
def reconsiderKind (header : Header) : Header :=
  match header.kind with
  | .other label => header.retag (Concept.resolve label)
  | _ => header

/-- Polishes a story and tags it with the animator of the concept. -/
def polish (concept : Concept) (story : Story) : Story :=
  ⟨Story.collapse (story.steps.map Story.describe),
    { reconsiderKind story.header with animator := some concept.animator }⟩

/-- The story of a program under a concept. -/
def dispatch (services : Services σ) (config : Config) (concept : Concept) (code : String)
    (state : σ) : Story × σ :=
  let concept := concept.reconsider
  let (story, state) := resolve services config concept code state
  (polish concept story, state)

/-- The story of a program under a label. -/
def dispatchLabel (services : Services σ) (config : Config) (label code : String) (state : σ) :
    Story × σ :=
  dispatch services config (Concept.resolve label) code state

end Storyboard.Dispatch
