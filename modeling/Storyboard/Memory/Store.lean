import Storyboard.Files
import Storyboard.Memory.Record

/-!
# Stores

What a store of records and a cache of learned actions offer, over any kind of state.  Every
operation may fail, and may change the state even then.
-/

namespace Storyboard.Memory

/-- Why an operation of a store failed. -/
inductive Failure where
  | file (fault : Files.Fault)
  /-- What is stored cannot be decoded. -/
  | undecodable
  /-- What is to be a table is none. -/
  | noTable
  /-- The file of a table cannot be opened. -/
  | closedTable (path : String)
  | ratingTooHigh (rating : Nat)
  | noSteps
  deriving DecidableEq

/-- The highest rating that can be given. -/
def maxRating : Nat := 5

/-- A failure in words. -/
def Failure.message : Failure → String
  | file fault => "io error: " ++ fault.message
  | undecodable => "serialization error"
  | noTable => "sqlite error: file is not a database"
  | closedTable path => "sqlite error: unable to open database file: " ++ path
  | ratingTooHigh rating =>
    s!"invalid record: rating {Decimal.intText rating} is above {Decimal.intText maxRating}"
  | noSteps => "invalid record: translation has no steps"

/-- A record was refused, whatever the store. -/
def Failure.isRefusal : Failure → Bool
  | ratingTooHigh _ | noSteps => true
  | _ => false

/-- An operation on a state that may fail. -/
abbrev Operation (σ α : Type) := σ → Except Failure α × σ

/-- A store of records. -/
structure Records (σ : Type) where
  append : Record → Operation σ Unit
  /-- The records under a label, the oldest first. -/
  records : String → Operation σ (List Record)
  /-- The first record under a label with a digest and at least a rating. -/
  findExact : String → String → Nat → Operation σ (Option Record)

/-- A cache of learned actions. -/
structure Actions (σ : Type) where
  /-- The actions learned under a label, in increasing order. -/
  learned : String → Operation σ (List String)
  /-- Adds actions under a label; returns the new ones, in increasing order. -/
  learn : String → List String → Operation σ (List String)

/-- An operation on the first part of a state. -/
def Operation.onFirst {σ τ α : Type} (operation : Operation σ α) : Operation (σ × τ) α :=
  fun (state, other) =>
    let (result, state) := operation state
    (result, state, other)

/-- The same store as a part of more. -/
def Records.onFirst {σ : Type} (τ : Type) (records : Records σ) : Records (σ × τ) where
  append record := (records.append record).onFirst
  records label := (records.records label).onFirst
  findExact label digest rating := (records.findExact label digest rating).onFirst

/-- The same cache as a part of more. -/
def Actions.onFirst {σ : Type} (τ : Type) (actions : Actions σ) : Actions (σ × τ) where
  learned label := (actions.learned label).onFirst
  learn label new := (actions.learn label new).onFirst

/-- The record has the digest and at least the rating. -/
def isExact (digest : String) (rating : Nat) (record : Record) : Bool :=
  record.digest == digest && decide (rating ≤ record.rating)

/-- Writes an action into actions in increasing order. -/
def insertAction (action : String) : List String → List String
  | [] => [action]
  | a :: rest =>
    if a = action then a :: rest
    else if action < a then action :: a :: rest
    else a :: insertAction action rest

@[simp] theorem mem_insertAction {action a : String} {sorted : List String} :
    a ∈ insertAction action sorted ↔ a = action ∨ a ∈ sorted := by
  induction sorted with
  | nil => simp [insertAction]
  | cons b rest ih =>
    unfold insertAction
    split
    next h =>
      subst h
      simp
    next =>
      split
      next => simp
      next =>
        rw [List.mem_cons, ih, List.mem_cons]
        exact or_left_comm

/-- Actions in increasing order, each once. -/
def sortActions (actions : List String) : List String :=
  actions.foldl (fun sorted action => insertAction action sorted) []

/-- Sorting neither loses an action nor makes one up. -/
@[simp] theorem mem_sortActions {a : String} {actions : List String} :
    a ∈ sortActions actions ↔ a ∈ actions := by
  have h : ∀ (actions sorted : List String),
      a ∈ actions.foldl (fun sorted action => insertAction action sorted) sorted ↔
        a ∈ actions ∨ a ∈ sorted := by
    intro actions
    induction actions with
    | nil => simp
    | cons b rest ih =>
      intro sorted
      rw [List.foldl_cons, ih, mem_insertAction, List.mem_cons, or_left_comm, or_assoc]
  rw [sortActions, h]
  simp

/-- The new ones among actions, in increasing order. -/
def unknownAmong (known actions : List String) : List String :=
  sortActions (actions.filter fun action => !known.contains action)

end Storyboard.Memory
