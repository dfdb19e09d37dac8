import Storyboard.Story.Header
import Storyboard.Json.Reader
import Storyboard.Json.Writer

/-!
# Stories

A story is the steps of a run with the header that describes it.  `Story.parse` reads one from data
text and `Story.pretty` writes it.
-/

namespace Storyboard

/-- The steps of a run and their header. -/
structure Story where
  steps : List Step
  header : Header

namespace Story

/-- A story that only explains. -/
def note (kind : Concept) (description : String) : Story :=
  ⟨[Step.note description], Header.plain kind⟩

/-- How many steps are not notes. -/
def substance (story : Story) : Nat := (story.steps.filter fun step => !step.isNote).length

/-- The data value of a story. -/
def toJson (story : Story) : Json :=
  .obj [("steps", Step.listToJson story.steps), ("meta", story.header.toJson)]

/-- Reads a story from an object with both members, or from the two of them in an array. -/
def ofJson? : Json → Option Story
  | .obj members =>
    if eachOnce ["steps", "meta"] members then do
      let steps ← (members.lookup "steps").bind Step.listOfJson?
      let header ← (members.lookup "meta").bind Header.ofJson?
      return ⟨steps, header⟩
    else none
  | .arr [steps, header] => do
    let steps ← Step.listOfJson? steps
    let header ← Header.ofJson? header
    return ⟨steps, header⟩
  | _ => none

/-- The text of a story, indented. -/
def pretty (story : Story) : String := story.toJson.pretty

/-- The text of a story, without blanks. -/
def compact (story : Story) : String := story.toJson.compact

/-- Why a text is no story. -/
inductive ParseError where
  | noSteps
  | undecodable

/-- The message of an error; the wording of what cannot be decoded is left open. -/
def ParseError.message? : ParseError → Option String
  | noSteps => some "malformed translation payload: missing 'steps' array"
  | undecodable => none

/-- Reads a story from text; an array under `steps` is looked for first. -/
def parse (text : String) : Except ParseError Story :=
  match Json.parse? text with
  | none => .error .undecodable
  | some value =>
    match value.get? "steps" with
    | some (.arr _) =>
      match ofJson? value with
      | some story => .ok story
      | none => .error .undecodable
    | _ => .error .noSteps

end Story

end Storyboard
