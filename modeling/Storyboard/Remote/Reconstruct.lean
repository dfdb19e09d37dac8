import Storyboard.Remote.Model
import Storyboard.Reply.Story

/-!
# Reconstruction

A reconstructor is given a program and, if there is one, the partial story that was told of it, and
tells a story of its own.  One over a model asks it for a story and reads its reply.
-/

namespace Storyboard.Remote

/-- Tells a story of a program, given a partial one. -/
abbrev Reconstructor (σ : Type) := String → Concept → Option Story → Request σ Story

/-- The object that a reply is to hold, as it is shown to a model. -/
def replyShape : String :=
  "\x7b\"steps\": [\x7b\"action\": \"...\", \"description\": \"...\", \"vars\": \x7b\x7d\x7d], " ++
    "\"meta\": \x7b\"layout\": \"linear\", \"theme\": \"softblue\"\x7d\x7d"

/-- The part of a prompt that shows the partial story. -/
def refinement (partialStory : Option Story) : String :=
  match partialStory with
  | none => ""
  | some story => "Refine this partial trace:\n" ++ story.compact ++ "\n"

/-- The prompt that asks for a story. -/
def reconstructionPrompt (code : String) (concept : Concept) (partialStory : Option Story) :
    String :=
  "Produce a step-by-step execution trace of this Python code.\n" ++
    "Concept: " ++ concept.label ++ "\n" ++
    "Parent animator: " ++ concept.animator.name ++ "\n" ++
    "Reply with raw JSON only: " ++ replyShape ++ "\n" ++
    refinement partialStory ++ "Code:\n" ++ code

/-- The story of a reply; what its header lacks is taken from the partial story. -/
def reconstructed (concept : Concept) (partialStory : Option Story) (reply : String) : Story :=
  let story := Reply.story reply concept
  match partialStory with
  | none => story
  | some known => { story with header := story.header.complete known.header }

/-- The reconstructor over a model. -/
def reconstructor {σ : Type} (model : Model σ) : Reconstructor σ :=
  fun code concept partialStory state =>
    let (reply, state) := model (reconstructionPrompt code concept partialStory) state
    (reply.map (reconstructed concept partialStory), state)

end Storyboard.Remote
