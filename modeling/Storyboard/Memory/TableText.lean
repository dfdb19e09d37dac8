import Storyboard.Memory.Table

/-!
# Tables as text

The text that keeps a table in a file.  Rows are arrays of their fields, and a file without a text
keeps the empty table.
-/

namespace Storyboard.Memory

namespace Row

/-- The data value of a row. -/
def toJson (row : Row) : Json :=
  .arr [.str row.label, .str row.digest, .str row.steps, .ofString? row.header, .ofNat row.rating,
    .str row.code, .str row.learnedAt]

/-- Reads a row. -/
def ofJson? : Json → Option Row
  | .arr [.str label, .str digest, .str steps, header, rating, .str code, .str learnedAt] => do
    let header ← readOptional Json.str? (some header)
    let rating ← rating.below? 256
    return { label, digest, steps, header, rating, code, learnedAt }
  | _ => none

end Row

namespace Table

/-- The data value of an action under its label. -/
def actionToJson (row : String × String) : Json := .arr [.str row.1, .str row.2]

/-- Reads an action under its label. -/
def actionOfJson? : Json → Option (String × String)
  | .arr [.str label, .str action] => some (label, action)
  | _ => none

/-- The text of a table. -/
def text (table : Table) : String :=
  (Json.arr [.arr (table.rows.map Row.toJson), .arr (table.actions.map actionToJson)]).compact

/-- Reads a table. -/
def ofText? (text : String) : Option Table :=
  if text.isEmpty then some {}
  else
    match Json.parseAsWritten? text with
    | some (.arr [.arr rows, .arr actions]) => do
      let rows ← rows.mapM Row.ofJson?
      let actions ← actions.mapM actionOfJson?
      return { rows, actions }
    | _ => none

end Table

end Storyboard.Memory
