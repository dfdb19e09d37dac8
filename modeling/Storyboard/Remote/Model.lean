import Storyboard.Decimal.Notation

/-!
# Language models

A model answers a prompt with a text, or fails.  It may change its state with every prompt, which is
how a pool of keys or a list of prepared answers moves on.
-/

namespace Storyboard.Remote

/-- Why a model gave no usable answer.  A detail is left out where its wording is open. -/
inductive Failure where
  /-- No model was configured. -/
  | unavailable
  | request (detail : String)
  /-- The answer could not be decoded. -/
  | undecodable (detail : Option String)
  | exhausted (attempts : Nat) (last : Option String)

/-- A failure in words, unless its wording is open. -/
def Failure.message? : Failure → Option String
  | unavailable => some "collaborator not configured"
  | request detail => some s!"request failed: {detail}"
  | undecodable detail => detail.map fun reason => s!"undecodable response: {reason}"
  | exhausted attempts last => last.map fun reason =>
    s!"all {Decimal.intText attempts} attempts failed; last error: {reason}"

/-- A failure in words. -/
def Failure.message (failure : Failure) : String :=
  failure.message?.getD "undecodable response"

/-- A request to a service with a state. -/
abbrev Request (σ α : Type) := σ → Except Failure α × σ

/-- A request that concerns the second part of a state. -/
def Request.onSecond {σ τ α : Type} (request : Request τ α) : Request (σ × τ) α :=
  fun (other, state) =>
    let (result, state) := request state
    (result, other, state)

/-- A model answers prompts. -/
abbrev Model (σ : Type) := String → Request σ String

end Storyboard.Remote
