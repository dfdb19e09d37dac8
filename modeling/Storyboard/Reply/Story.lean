import Storyboard.Reply.Object
import Storyboard.Story.Basic

/-!
# Stories in replies

A reply that holds an object is read as a story with what it has: steps that cannot be read are
left out, and a header that cannot be read gives way to the plain one of the concept.
-/

namespace Storyboard.Reply

/-- Moves members of the animation plan up to the header. -/
def flattenPlan (members : List (String × Json)) : List (String × Json) :=
  let kept := members.filter fun member => member.1 != "animation_plan"
  match members.lookup "animation_plan" with
  | some (.obj plan) =>
    ["objects", "operations"].foldl (fun members key =>
      match plan.lookup key with
      | some value => Json.insertMember key value members
      | none => members) kept
  | _ => kept

/-- Reads a header; one without a kind has the concept's, and the animator is not taken over. -/
def header (concept : Concept) (members : List (String × Json)) : Header :=
  let flat := (flattenPlan members).filter fun member => member.1 != "parent_animator"
  let complete :=
    match flat.lookup "kind" with
    | some _ => flat
    | none => Json.insertMember "kind" (.str concept.label) flat
  (Header.ofMembers? complete).getD (Header.plain concept)

/-- Reads the story of a reply. -/
def story (text : String) (concept : Concept) : Story :=
  match object? text with
  | none => ⟨[], Header.plain concept⟩
  | some members =>
    let steps :=
      match members.lookup "steps" with
      | some (.arr items) => items.filterMap Step.ofJson?
      | _ => []
    let header :=
      match members.lookup "meta" with
      | some (.obj members) => header concept members
      | _ => Header.plain concept
    ⟨steps, header⟩

end Storyboard.Reply
