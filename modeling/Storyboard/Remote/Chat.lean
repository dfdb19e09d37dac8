import Storyboard.Json.Reader
import Storyboard.Remote.Model
import Storyboard.Remote.Status
import Storyboard.Text.Trim

/-!
# Chats

A chat endpoint is sent a prompt in a posting that carries a key, and responds with a list of choices.
The answer is the text of the first choice, without its outer blanks.
-/

namespace Storyboard.Remote

/-- What is sent to an endpoint. -/
structure Posting where
  url : String
  key : String
  body : Json

/-- What an endpoint responds. -/
structure Response where
  status : Nat
  text : String

/-- Sends a posting, which may fail to reach the endpoint. -/
abbrev Transport (σ : Type) := Posting → Request σ Response

/-- Where prompts go, and which model is to answer them. -/
structure Endpoint where
  base : String
  model : String

/-- The credentials that a posting carries. -/
def Posting.credentials (posting : Posting) : String := "Bearer " ++ posting.key

namespace Endpoint

/-- The address that prompts are sent to. -/
def url (endpoint : Endpoint) : String :=
  String.ofList (Text.dropEndWhile (· == '/') endpoint.base.toList) ++ "/chat/completions"

/-- The posting of a prompt. -/
def posting (endpoint : Endpoint) (key prompt : String) : Posting where
  url := endpoint.url
  key := key
  body := .obj
    [("messages", .arr [.obj [("content", .str prompt), ("role", .str "user")]]),
      ("model", .str endpoint.model)]

end Endpoint

namespace Response

/-- What stands under a key, if anything does; every key must be a text, and the key may not stand
twice. -/
def member? (key : String) (members : List (List Json.Piece × Json.Tree)) :
    Option (Option Json.Tree) := do
  let named ← members.mapM fun member => (Json.joinString? member.1).map fun k => (k, member.2)
  match named.filter fun member => member.1 == key with
  | [] => return none
  | [member] => return some member.2
  | _ => none

/-- The only part of a tree that matters: the one under a key, or the only item of an array. -/
def part? (key : String) : Json.Tree → Option (Option Json.Tree)
  | .object members => member? key members
  | .array [item] => some (some item)
  | _ => none

/-- The text of a message; it may be missing or null. -/
def messageText? (message : Json.Tree) : Option (Option String) := do
  match ← part? "content" message with
  | none | some .null => return none
  | some (.string pieces) => (Json.joinString? pieces).map some
  | some _ => none

/-- The text of a choice. -/
def choiceText? (choice : Json.Tree) : Option (Option String) := do
  match ← part? "message" choice with
  | some message => messageText? message
  | none => none

/-- The texts of all choices. -/
def choiceTexts? (tree : Json.Tree) : Option (List (Option String)) := do
  match ← part? "choices" tree with
  | some (.array choices) => choices.mapM choiceText?
  | _ => none

/-- The text of the first choice, unless it is blank. -/
def firstText? : List (Option String) → Option String
  | some text :: _ =>
    let trimmed := Text.trimmed text
    if trimmed.isEmpty then none else some trimmed
  | _ => none

/-- The answer in the text of a response. -/
def answerIn (text : String) : Except Failure String :=
  match (Json.Tree.read? text).bind choiceTexts? with
  | none => .error (.undecodable none)
  | some texts =>
    match firstText? texts with
    | some answer => .ok answer
    | none => .error (.undecodable (some "response has no assistant content"))

/-- The answer in a response. -/
def answer (response : Response) : Except Failure String :=
  let text := if isBare response.status then "" else response.text
  if isSuccess response.status then answerIn text
  else .error (.request (statusText response.status ++ ": " ++ text))

end Response

/-- Sends a prompt with a key. -/
def Endpoint.ask {σ : Type} (endpoint : Endpoint) (send : Transport σ) (key prompt : String) :
    Request σ String := fun state =>
  let (response, state) := send (endpoint.posting key prompt) state
  (response.bind Response.answer, state)

end Storyboard.Remote
