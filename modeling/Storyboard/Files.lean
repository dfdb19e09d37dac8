import Storyboard.Ordered

/-!
# Files

A tree of folders and text files, as the entries at the places in it.  A place is the list of names
that lead to it; the empty list is the folder where everything starts.  `locate` follows a path,
`read` reads the file that a path leads to, and `makeFolders` makes the folders along a path.
-/

namespace Storyboard

namespace Files

/-- Why a file or a folder could not be used. -/
inductive Fault where
  | missing
  | denied
  | taken
  | noFolder
  | folder
  | nameTooLong
  /-- What a file holds is no text. -/
  | noText
  deriving DecidableEq

/-- A fault in words. -/
def Fault.message : Fault → String
  | missing => "No such file or directory (os error 2)"
  | denied => "Permission denied (os error 13)"
  | taken => "File exists (os error 17)"
  | noFolder => "Not a directory (os error 20)"
  | folder => "Is a directory (os error 21)"
  | nameTooLong => "File name too long (os error 36)"
  | noText => "stream did not contain valid UTF-8"

/-- What stands at a place. -/
inductive Entry where
  | file (text : String)
  | folder
  | unreadable (fault : Fault)

/-- The names that lead to a place. -/
abbrev Place := List String

end Files

/-- The entries of a tree. -/
structure Files where
  entries : List (Files.Place × Files.Entry) := []

namespace Files

/-- The number of bytes that a name has at most. -/
def maxNameBytes : Nat := 255

/-- The names that a path is made of; the first of an absolute path is a slash. -/
def names (path : String) : Place :=
  let parts := (path.splitOn "/").filter fun part => part != "" && part != "."
  if path.startsWith "/" then "/" :: parts else parts

/-- What stands at a place. -/
def find? (files : Files) (place : Place) : Option Entry :=
  if place.isEmpty then some .folder else Ordered.find? place files.entries

/-- Puts something at a place. -/
def put (files : Files) (place : Place) (entry : Entry) : Files :=
  ⟨Ordered.put place entry files.entries⟩

theorem find?_put_self (files : Files) {place : Place} (h : place ≠ []) (entry : Entry) :
    (files.put place entry).find? place = some entry := by
  simp [find?, put, h, Ordered.find?_put_self]

/-- Nothing changes at other places. -/
theorem find?_put_ne (files : Files) {place other : Place} (h : other ≠ place) (entry : Entry) :
    (files.put place entry).find? other = files.find? other := by
  simp [find?, put, Ordered.find?_put_ne h]

/-- The place to which a name leads from a folder; above the first folder there are only those that
are called so. -/
def next (here : Place) (name : String) : Place :=
  if name = ".." then
    match here.getLast? with
    | none | some ".." => here ++ [name]
    | some "/" => here
    | some _ => here.dropLast
  else here ++ [name]

/-- The place to which names lead; all but the last of them must lead to folders. -/
def locate (files : Files) : Place → List String → Except Fault Place
  | here, [] => .ok here
  | here, name :: rest =>
    match files.find? here with
    | none => .error .missing
    | some .folder =>
      if maxNameBytes < name.utf8ByteSize then .error .nameTooLong
      else locate files (next here name) rest
    | some _ => .error .noFolder

/-- The text of the file to which a path leads. -/
def read (files : Files) (path : String) : Except Fault String :=
  match files.locate [] (names path) with
  | .error fault => .error fault
  | .ok place =>
    match files.find? place with
    | none => .error .missing
    | some .folder => .error .folder
    | some (.unreadable fault) => .error fault
    | some (.file text) => if path.endsWith "/" then .error .noFolder else .ok text

/-- Makes the folders along names that do not stand yet. -/
def makeFoldersFrom : Place → List String → Files → Except Fault Files
  | _, [], files => .ok files
  | here, name :: rest, files =>
    if maxNameBytes < name.utf8ByteSize then .error .nameTooLong
    else
      let place := next here name
      match files.find? place with
      | none => makeFoldersFrom place rest (files.put place .folder)
      | some .folder => makeFoldersFrom place rest files
      | some _ => .error (if rest.isEmpty then .taken else .noFolder)

/-- Makes the folder to which a path leads, and the folders along the path. -/
def makeFolders (files : Files) (path : String) : Except Fault Files :=
  makeFoldersFrom [] (names path) files

/-- The place to which a path leads when all its folders stand. -/
def placeOf (path : String) : Place := (names path).foldl next []

/-- Puts a file at a place and makes its folders. -/
def place (files : Files) (path : String) (entry : Entry) : Files :=
  let here := placeOf path
  let folders := (List.range here.length).map fun n => here.take n
  let made := folders.foldl (fun files folder =>
    match files.find? folder with
    | some _ => files
    | none => files.put folder .folder) files
  made.put here entry

/-- The name under which an entry stands in a folder. -/
def nameIn? (here place : Place) : Option String :=
  match place.getLast? with
  | some name => if place.dropLast = here then some name else none
  | none => none

/-- What stands in a folder, by name. -/
def inFolder (files : Files) (here : Place) : List (String × Entry) :=
  files.entries.filterMap fun (place, entry) => (nameIn? here place).map fun name => (name, entry)

/-- Puts what stands in a folder. -/
def putInFolder (files : Files) (here : Place) (entries : List (String × Entry)) : Files :=
  entries.foldl (fun files (name, entry) => files.put (here ++ [name]) entry) files

end Files

end Storyboard
