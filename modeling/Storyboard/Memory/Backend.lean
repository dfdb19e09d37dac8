import Storyboard.Memory.Directory
import Storyboard.Memory.Shelf
import Storyboard.Memory.TableText

/-!
# Backends

The kinds of store that there are, and a store of any of these kinds.  A store is opened from a
folder of a tree of files, and what it keeps is put back there when it is closed.
-/

namespace Storyboard.Memory

/-- A kind of store. -/
inductive Backend where
  | shelf
  | directory
  | table
  deriving DecidableEq

namespace Backend

/-- The name of a kind. -/
def name : Backend → String
  | shelf => "memory"
  | directory => "jsonl"
  | table => "sqlite"

/-- The kind of a name. -/
def ofName? (name : String) : Option Backend :=
  [shelf, directory, table].find? fun backend => backend.name == name

end Backend

/-- A store of some kind. -/
inductive Store where
  | shelf (kept : Shelf)
  | directory (kept : Directory)
  | table (kept : Table)

namespace Store

/-- The operation that is given for each kind of store. -/
def perform {α : Type} (onShelf : Operation Shelf α) (onDirectory : Operation Directory α)
    (onTable : Operation Table α) : Operation Store α
  | .shelf kept =>
    let (result, kept) := onShelf kept
    (result, .shelf kept)
  | .directory kept =>
    let (result, kept) := onDirectory kept
    (result, .directory kept)
  | .table kept =>
    let (result, kept) := onTable kept
    (result, .table kept)

/-- The records of a store. -/
def records : Records Store where
  append record :=
    perform (Shelf.store.append record) (Directory.store.append record) (Table.store.append record)
  records label :=
    perform (Shelf.store.records label) (Directory.store.records label) (Table.store.records label)
  findExact label digest rating :=
    perform (Shelf.store.findExact label digest rating)
      (Directory.store.findExact label digest rating) (Table.store.findExact label digest rating)

/-- The learned actions of a store. -/
def actions : Actions Store where
  learned label :=
    perform (Shelf.cache.learned label) (Directory.cache.learned label) (Table.cache.learned label)
  learn label new :=
    perform (Shelf.cache.learn label new) (Directory.cache.learn label new)
      (Table.cache.learn label new)

/-- The name of the file that keeps a table. -/
def tableName : String := "memory.db"

/-- The path of the file that keeps a table in a folder. -/
def tablePath (folder : String) : String :=
  if folder.endsWith "/" then folder ++ tableName else folder ++ "/" ++ tableName

/-- The table that is kept in a folder. -/
def tableIn (files : Files) (folder : String) : Except Failure Table :=
  match files.find? (Files.placeOf folder ++ [tableName]) with
  | none => .ok {}
  | some (.file text) =>
    match Table.ofText? text with
    | some kept => .ok kept
    | none => .error .noTable
  | some _ => .error (.closedTable (tablePath folder))

/-- Opens a store in a folder, which is made where it is missing; a shelf needs none. -/
def openIn (backend : Backend) (folder : String) (files : Files) : Except Failure (Store × Files) :=
  match backend with
  | .shelf => .ok (.shelf {}, files)
  | .directory =>
    match files.makeFolders folder with
    | .error fault => .error (.file fault)
    | .ok files => .ok (.directory ⟨files.inFolder (Files.placeOf folder)⟩, files)
  | .table =>
    match files.makeFolders folder with
    | .error fault => .error (.file fault)
    | .ok files => (tableIn files folder).map fun kept => (.table kept, files)

/-- Puts back what a store keeps. -/
def close (store : Store) (folder : String) (files : Files) : Files :=
  let here := Files.placeOf folder
  match store with
  | .shelf _ => files
  | .directory kept => files.putInFolder here kept.entries
  | .table kept => files.put (here ++ [tableName]) (.file kept.text)

end Store

end Storyboard.Memory
