import Storyboard.Memory.Similarity
import Storyboard.Memory.Store

/-!
# Looking up and rating stories

A program is looked up by its digest, or else by its similarity to the programs remembered.  Only
records with a rating that is high enough count.
-/

namespace Storyboard.Memory

/-- How a record was found. -/
inductive Match where
  | exact
  | similar (ratio : Float)

/-- A record that was found. -/
structure Hit where
  record : Record
  how : Match

/-- The rating that a record needs unless something else is asked for. -/
def defaultMinRating : Nat := 3

/-- The first one with the greatest ratio of some records that are similar enough. -/
def mostSimilar (code : String) (floor : Float) :
    (best : Option (Record × Float)) → List Record → Option (Record × Float)
  | best, [] => best
  | best, record :: rest =>
    let ratio := Similarity.ratio code record.code
    let better := decide (floor ≤ ratio) && best.all fun found => decide (found.2 < ratio)
    mostSimilar code floor (if better then some (record, ratio) else best) rest

variable {σ : Type}

/-- Looks a program up by its digest. -/
def lookupExact (store : Records σ) (minRating : Nat) (concept : Concept) (code : String) :
    Operation σ (Option Hit) := fun state =>
  let (found, state) := store.findExact concept.label (Blake3.digest code) minRating state
  (found.map fun record? => record?.map fun record => ⟨record, .exact⟩, state)

/-- Looks a program up by its similarity. -/
def lookupSimilar (store : Records σ) (minRating : Nat) (concept : Concept) (code : String)
    (floor : Float) : Operation σ (Option Hit) := fun state =>
  let (found, state) := store.records concept.label state
  (found.map fun records =>
    let rated := records.filter fun record => decide (minRating ≤ record.rating)
    (mostSimilar code floor none rated).map fun (record, ratio) => ⟨record, .similar ratio⟩, state)

/-- Looks a program up by its digest, and else by its similarity. -/
def lookup (store : Records σ) (minRating : Nat) (concept : Concept) (code : String) :
    Operation σ (Option Hit) := fun state =>
  match lookupExact store minRating concept code state with
  | (.ok none, state) => lookupSimilar store minRating concept code 0.0 state
  | found => found

/-- Remembers a story. -/
def remember (store : Records σ) (concept : Concept) (code : String) (story : Story)
    (rating : Nat) (now : Timestamp) : Operation σ Record := fun state =>
  let record := Record.ofStory concept code story rating now
  let (done, state) := store.append record state
  (done.map fun _ => record, state)

/-- Remembers a story that was rated; the rating must not be too high, and the story must have
steps. -/
def rate (store : Records σ) (concept : Concept) (code : String) (story : Story) (rating : Nat)
    (now : Timestamp) : Operation σ Record := fun state =>
  if maxRating < rating then (.error (.ratingTooHigh rating), state)
  else if story.steps.isEmpty then (.error .noSteps, state)
  else remember store concept code story rating now state

end Storyboard.Memory
