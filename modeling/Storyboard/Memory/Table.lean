import Storyboard.Memory.Store

/-!
# Tables

A table keeps every record as a row, with steps, header and time as text, and every learned action
as a row of its own.  A time that cannot be read back is the start of 1970, and a header that cannot
be read back is left out.
-/

namespace Storyboard.Memory

/-- A record as it is kept in a table. -/
structure Row where
  label : String
  digest : String
  steps : String
  header : Option String
  rating : Nat
  code : String
  learnedAt : String

/-- The rows of records and of actions, the oldest first. -/
structure Table where
  rows : List Row := []
  actions : List (String × String) := []

namespace Row

/-- The row of a record. -/
def ofRecord (record : Record) : Row where
  label := record.label
  digest := record.digest
  steps := (Step.listToJson record.steps).compact
  header := record.header.map fun header => header.toJson.compact
  rating := record.rating
  code := record.code
  learnedAt := record.learnedAt.write "+00:00"

/-- The record of a row, if its steps can be read. -/
def record? (row : Row) : Option Record := do
  let steps ← (Json.parseAsWritten? row.steps).bind Step.listOfJson?
  return { digest := row.digest, label := row.label, steps := steps
           header := (row.header.bind Json.parseAsWritten?).bind Header.ofJson?
           rating := row.rating, code := row.code
           learnedAt := (Timestamp.readStrict? row.learnedAt).getD .epoch }

end Row

namespace Table

/-- The result of reading rows. -/
def decoded {α : Type} (result : Option α) : Except Failure α :=
  match result with
  | some x => .ok x
  | none => .error .undecodable

/-- The actions under a label, in increasing order. -/
def actionsOf (table : Table) (label : String) : List String :=
  sortActions ((table.actions.filter fun row => row.1 == label).map Prod.snd)

/-- A table as a store of records. -/
def store : Records Table where
  append record table := (.ok (), { table with rows := table.rows ++ [Row.ofRecord record] })
  records label table :=
    (decoded ((table.rows.filter fun row => row.label == label).mapM Row.record?), table)
  findExact label digest rating table :=
    let row? := table.rows.find? fun row =>
      row.label == label && row.digest == digest && decide (rating ≤ row.rating)
    match row? with
    | none => (.ok none, table)
    | some row => (decoded (row.record?.map some), table)

/-- A table as a cache of actions. -/
def cache : Actions Table where
  learned label table := (.ok (table.actionsOf label), table)
  learn label actions table :=
    let added := unknownAmong (table.actionsOf label) actions
    (.ok added, { table with actions := table.actions ++ added.map fun action => (label, action) })

end Table

end Storyboard.Memory
