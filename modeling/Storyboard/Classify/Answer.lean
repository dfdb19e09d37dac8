import Storyboard.Classify.Guess
import Storyboard.Remote.Model
import Storyboard.Reply.Object
import Storyboard.Story.Step

/-!
# Classifiers

A classifier says in its own words what a program is about.  One over a model asks it, either for a
bare family or for any name; a chain asks a second classifier where the first one knows nothing.
-/

namespace Storyboard.Classify

/-- What a classifier answers. -/
structure Answer where
  concept : String
  subConcept : String
  explanation : String

namespace Answer

/-- The concept that is meant. -/
def canonical (answer : Answer) : Concept := Concept.normalize answer.concept answer.subConcept

/-- The answer when nothing is known. -/
def unknown (explanation : String) : Answer := ⟨"unknown", "", explanation⟩

/-- The keys of the fields; the second of them has two spellings, and only one may stand. -/
def keys : List String := ["concept", "sub_concept", "subConcept", "explanation"]

/-- The text under the first of two keys that stands; both may not. -/
def eitherText? (first second : String) (members : List (String × Json)) : Option String :=
  match members.lookup first, members.lookup second with
  | some _, some _ => none
  | some value, none | none, some value => value.str?
  | none, none => some ""

/-- Reads an answer; fields that are missing are empty. -/
def ofMembers? (members : List (String × Json)) : Option Answer :=
  if eachOnce keys members then do
    let concept ← readDefault "" Json.str? (members.lookup "concept")
    let subConcept ← eitherText? "sub_concept" "subConcept" members
    let explanation ← readDefault "" Json.str? (members.lookup "explanation")
    return { concept, subConcept, explanation }
  else none

/-- The data value of an answer. -/
def toJson (answer : Answer) : Json :=
  .obj [("concept", .str answer.concept), ("sub_concept", .str answer.subConcept),
    ("explanation", .str answer.explanation)]

/-- The answer of a guess. -/
def ofGuess (guess : Guess) : Answer :=
  ⟨guess.concept.label, "",
    guess.reason ++ " (confidence " ++ confidenceText guess.confidence ++ ")"⟩

end Answer

/-- The answers that a model may give. -/
inductive Scope where
  /-- Only bare families. -/
  | strict
  | anything
  deriving DecidableEq

/-- The labels to choose from, in words. -/
def Scope.labels : Scope → String
  | strict => "one of: " ++ ", ".intercalate (Family.strict.map Family.name) ++ ", unknown"
  | anything => "any data structure or algorithm name"

/-- The prompt that asks what a program is about. -/
def prompt (scope : Scope) (code : String) : String :=
  "Classify the data structure or algorithm in this Python code.\n" ++
    "Answer with " ++ scope.labels ++ ".\n" ++
    "Reply with JSON only: " ++
    "\x7b\"concept\": \"...\", \"sub_concept\": \"...\", \"explanation\": \"...\"\x7d\n" ++
    "Code:\n" ++ code ++ "\n"

/-- Within the strict scope, a concept without a family is unknown. -/
def Scope.restrict (scope : Scope) (answer : Answer) : Answer :=
  if scope = .strict ∧ answer.canonical.family = .unknown then .unknown answer.explanation
  else answer

/-- The answer in a reply. -/
def answerOf (scope : Scope) (reply : String) : Except Remote.Failure Answer :=
  match Reply.object? reply with
  | none => .error (.undecodable (some "no JSON object in classifier reply"))
  | some members =>
    match Answer.ofMembers? members with
    | none => .error (.undecodable none)
    | some answer => .ok (scope.restrict answer)

/-- Says what a program is about. -/
abbrev Classifier (σ : Type) := String → Remote.Request σ Answer

variable {σ : Type}

/-- The classifier over a model. -/
def ofModel (model : Remote.Model σ) (scope : Scope) : Classifier σ := fun code state =>
  let (reply, state) := model (prompt scope code) state
  (reply.bind (answerOf scope), state)

/-- Asks the second classifier where the first one fails or knows nothing. -/
def chain (first second : Classifier σ) : Classifier σ := fun code state =>
  match first code state with
  | (.ok answer, state) =>
    if answer.canonical.isUnknown then second code state else (.ok answer, state)
  | (.error _, state) => second code state

end Storyboard.Classify
