import Storyboard.Memory.Store
import Storyboard.Ordered

/-!
# Stores without files

A shelf keeps its records and actions in memory, each under its label.  Its operations never fail.
-/

namespace Storyboard.Memory

/-- Records and actions by label. -/
structure Shelf where
  records : List (String × List Record) := []
  actions : List (String × List String) := []

namespace Shelf

/-- The records under a label. -/
def recordsOf (shelf : Shelf) (label : String) : List Record :=
  (Ordered.find? label shelf.records).getD []

/-- The actions under a label. -/
def actionsOf (shelf : Shelf) (label : String) : List String :=
  (Ordered.find? label shelf.actions).getD []

/-- Adds a record behind the others under its label. -/
def add (shelf : Shelf) (record : Record) : Shelf :=
  let grown := shelf.recordsOf record.label ++ [record]
  { shelf with records := Ordered.put record.label grown shelf.records }

theorem recordsOf_add_self (shelf : Shelf) (record : Record) :
    (shelf.add record).recordsOf record.label = shelf.recordsOf record.label ++ [record] := by
  simp [add, recordsOf, Ordered.find?_put_self]

/-- A record is added under its own label alone. -/
theorem recordsOf_add_ne (shelf : Shelf) {record : Record} {label : String}
    (h : label ≠ record.label) : (shelf.add record).recordsOf label = shelf.recordsOf label := by
  simp [add, recordsOf, Ordered.find?_put_ne h]

/-- Adds actions under a label. -/
def addActions (shelf : Shelf) (label : String) (actions : List String) : Shelf :=
  let grown := sortActions (shelf.actionsOf label ++ actions)
  { shelf with actions := Ordered.put label grown shelf.actions }

theorem actionsOf_addActions_ne (shelf : Shelf) {label other : String} (h : other ≠ label)
    (actions : List String) :
    (shelf.addActions label actions).actionsOf other = shelf.actionsOf other := by
  simp [addActions, actionsOf, Ordered.find?_put_ne h]

/-- The number of records. -/
def size (shelf : Shelf) : Nat := (shelf.records.map fun entry => entry.2.length).foldl (· + ·) 0

/-- A shelf as a store of records. -/
def store : Records Shelf where
  append record shelf := (.ok (), shelf.add record)
  records label shelf := (.ok (shelf.recordsOf label), shelf)
  findExact label digest rating shelf :=
    (.ok ((shelf.recordsOf label).find? (isExact digest rating)), shelf)

/-- A shelf as a cache of actions. -/
def cache : Actions Shelf where
  learned label shelf := (.ok (shelf.actionsOf label), shelf)
  learn label actions shelf :=
    (.ok (unknownAmong (shelf.actionsOf label) actions), shelf.addActions label actions)

end Shelf

end Storyboard.Memory
