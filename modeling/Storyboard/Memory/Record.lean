import Storyboard.Json.Reader
import Storyboard.Memory.Blake3
import Storyboard.Memory.Timestamp
import Storyboard.Story.Basic

/-!
# Records

A record remembers the story that was once told of a program, with the rating that it got.  Records
are found again by the digest of the program or by its text.
-/

namespace Storyboard.Memory

/-- A rated story of one program. -/
structure Record where
  /-- The digest of the program. -/
  digest : String
  /-- The label of the concept. -/
  label : String
  steps : List Step
  header : Option Header
  /-- At most 255. -/
  rating : Nat
  code : String
  learnedAt : Timestamp

namespace Record

/-- The record of a story. -/
def ofStory (concept : Concept) (code : String) (story : Story) (rating : Nat) (now : Timestamp) :
    Record where
  digest := Blake3.digest code
  label := concept.label
  steps := story.steps
  header := some story.header
  rating := rating
  code := code
  learnedAt := now

/-- The remembered story; without a header it has the conventional one of its concept. -/
def story (record : Record) : Story :=
  ⟨record.steps, record.header.getD (Header.conventional (Concept.parse record.label))⟩

/-- The data value of a record. -/
def toJson (record : Record) : Json :=
  .obj [("pattern_hash", .str record.digest), ("concept", .str record.label),
    ("steps", Step.listToJson record.steps), ("meta", record.header.elim .null Header.toJson),
    ("rating", .ofNat record.rating), ("code", .str record.code),
    ("learned_at", .str (record.learnedAt.write "Z"))]

/-- The keys of the fields; steps have two of them, and only one may stand. -/
def keys : List String :=
  ["pattern_hash", "concept", "steps", "ir", "meta", "rating", "code", "learned_at"]

/-- The value under one of two keys of which only one may stand. -/
def eitherMember? (first second : String) (members : List (String × Json)) : Option Json :=
  match members.lookup first, members.lookup second with
  | some value, none | none, some value => some value
  | _, _ => none

/-- Reads a header; what cannot be read is none. -/
def lenientHeader (value : Option Json) : Option Header :=
  (value.map Json.canonical).bind Header.ofJson?

/-- Reads a record from its members; a header that cannot be read is left out. -/
def ofMembers? (members : List (String × Json)) : Option Record :=
  if eachOnce keys members then do
    let digest ← (members.lookup "pattern_hash").bind Json.str?
    let label ← (members.lookup "concept").bind Json.str?
    let steps ← (eitherMember? "steps" "ir" members).bind Step.listOfJson?
    let header := lenientHeader (members.lookup "meta")
    let rating ← readDefault 0 (Json.below? 256) (members.lookup "rating")
    let code ← (members.lookup "code").bind Json.str?
    let learnedAt ← ((members.lookup "learned_at").bind Json.str?).bind Timestamp.read?
    return { digest, label, steps, header, rating, code, learnedAt }
  else none

/-- Reads a record from an object, or from all of its fields in an array. -/
def ofJson? : Json → Option Record
  | .obj members => ofMembers? members
  | .arr [digest, label, steps, header, rating, code, learnedAt] =>
    ofMembers? [("pattern_hash", digest), ("concept", label), ("steps", steps), ("meta", header),
      ("rating", rating), ("code", code), ("learned_at", learnedAt)]
  | _ => none

/-- The members of a tree that are fields; what stands under other keys may be anything. -/
def fieldsOf? : List (List Json.Piece × Json.Tree) → Option (List (String × Json))
  | [] => some []
  | (key, tree) :: rest => do
    let key ← Json.joinString? key
    let others ← fieldsOf? rest
    if keys.contains key then
      let value ← tree.value? (Json.depthLimit - 1)
      return (key, value) :: others
    else return others

/-- Reads a record from text. -/
def parse? (text : String) : Option Record :=
  match Json.Tree.read? text with
  | some (.object members) => (fieldsOf? members).bind ofMembers?
  | some tree => (tree.value? Json.depthLimit).bind ofJson?
  | none => none

end Record

end Storyboard.Memory
