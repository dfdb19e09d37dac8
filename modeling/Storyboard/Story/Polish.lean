import Storyboard.Story.Basic
import Storyboard.Text.Case
import Storyboard.Text.Trim

/-!
# Polishing steps

Passes over the steps of a story: every step gets a description, repeated steps are told once, and a
long story is compressed.  `merge` joins the segments of a story.
-/

namespace Storyboard.Story

/-- A step without a description is described by its action. -/
def describe (step : Step) : Step :=
  if (Text.trim step.description.toList).isEmpty then { step with description := step.action }
  else step

/-- The steps have the same action and description. -/
def tellsSame (a b : Step) : Bool := a.action == b.action && a.description == b.description

/-- Drops every step that tells the same as the last one kept, which is `last` at first. -/
def collapseAfter (last : Step) : List Step → List Step
  | [] => []
  | step :: rest =>
    if tellsSame last step then collapseAfter last rest else step :: collapseAfter step rest

/-- Keeps the first one of steps that follow each other and tell the same. -/
def collapse : List Step → List Step
  | [] => []
  | step :: rest => step :: collapseAfter step rest

/-- Actions that only mark the rounds of a loop. -/
def markers : List String := ["loop_start", "loop_end", "iteration"]

/-- The step only marks a round of a loop. -/
def isMarker (step : Step) : Bool := markers.contains (Text.asciiLower step.action)

/-- The step pushes on a stack. -/
def isStackPush (step : Step) : Bool := Text.asciiLower step.action == "stack_push"

/-- Keeps the last one of pushes on a stack that follow each other. -/
def keepLastPushes : List Step → List Step
  | [] => []
  | [step] => [step]
  | a :: b :: rest =>
    if isStackPush a && isStackPush b then keepLastPushes (b :: rest)
    else a :: keepLastPushes (b :: rest)

/-- Drops the marks of rounds, and of pushes that then follow each other all but the last. -/
def compress (steps : List Step) : List Step :=
  keepLastPushes (steps.filter fun step => !isMarker step)

/-- Keeps the first step with each description. -/
def eachDescriptionOnce (seen : List String) : List Step → List Step
  | [] => []
  | step :: rest =>
    if seen.contains step.description then eachDescriptionOnce seen rest
    else step :: eachDescriptionOnce (step.description :: seen) rest

/-- Joins the segments of a story under the header of the first one. -/
def merge? : List Story → Option Story
  | [] => none
  | first :: rest =>
    some ⟨eachDescriptionOnce [] ((first :: rest).flatMap Story.steps), first.header⟩

/-- Actions that are known without being learned. -/
def knownActions : List String := ["initialize", "set_value", "update_var", "log"]

/-- The actions of steps, in lower case, that are worth learning. -/
def newActions (steps : List Step) : List String :=
  (steps.map fun step => Text.asciiLower step.action).filter fun action =>
    !action.isEmpty && !knownActions.contains action

end Storyboard.Story
