import Storyboard.Memory.Store
import Storyboard.Ordered
import Storyboard.Text.Trim

/-!
# Directories of logs

A directory keeps the records of each label in a log, one record a line, and the learned actions of
all labels in one file.  Lines of a log that are no records are passed over, while a file of actions
that cannot be read is left alone.  Every operation goes through a lock file.
-/

namespace Storyboard.Memory

/-- The entries of a directory. -/
structure Directory where
  entries : List (String × Files.Entry) := []

namespace Directory

/-- The name of the lock file. -/
def lockName : String := ".lock"

/-- The name of the file of actions. -/
def actionsName : String := "ir_actions.json"

/-- A character that stays as it is in the name of a log. -/
def isNameChar (c : Char) : Bool := c.isAlphanum || c == '-' || c == '_'

/-- The name of the log of a label. -/
def logName (label : String) : String :=
  let name := label.map fun c => if isNameChar c then c else '_'
  (if name.isEmpty then "unknown" else name) ++ ".jsonl"

/-- The text of a file, none where there is nothing under its name. -/
def read? (directory : Directory) (name : String) : Except Failure (Option String) :=
  if Files.maxNameBytes < name.utf8ByteSize then .error (.file .nameTooLong)
  else
    match Ordered.find? name directory.entries with
    | none => .ok none
    | some (.file text) => .ok (some text)
    | some .folder => .error (.file .folder)
    | some (.unreadable fault) => .error (.file fault)

/-- Writes a whole file. -/
def write (directory : Directory) (name text : String) : Directory :=
  ⟨Ordered.put name (.file text) directory.entries⟩

/-- Performs an operation under the lock, whose file is made where it is missing. -/
def locked {α : Type} (operation : Operation Directory α) : Operation Directory α :=
  fun directory =>
    match directory.read? lockName with
    | .error failure => (.error failure, directory)
    | .ok text? => operation (directory.write lockName (text?.getD ""))

/-- The records of a log; lines that are blank or no records do not count. -/
def recordsOfLog (text : String) : List Record :=
  (Text.lines text.toList).filterMap fun line => Record.parse? (String.ofList line)

/-- The records of the log of a label. -/
def recordsOf (directory : Directory) (label : String) : Except Failure (List Record) :=
  (directory.read? (logName label)).map fun text? => (text?.map recordsOfLog).getD []

/-- Adds a line to the log of a record's label. -/
def appendRecord (record : Record) : Operation Directory Unit := fun directory =>
  let name := logName record.label
  match directory.read? name with
  | .error failure => (.error failure, directory)
  | .ok text? =>
    (.ok (), directory.write name (text?.getD "" ++ (record.toJson.compact ++ "\n")))

/-- The texts of an array. -/
def texts? : Json → Option (List String)
  | .arr items => items.mapM Json.str?
  | _ => none

/-- The actions in the text of a file; of equal labels the last one counts. -/
def actionsOfText? (text : String) : Option (List (String × List String)) :=
  match Json.parseAsWritten? text with
  | some (.obj members) => do
    let sets ← members.mapM fun (label, value) => (texts? value).map fun actions => (label, actions)
    return sets.foldl (fun entries (label, actions) =>
      Ordered.put label (sortActions actions) entries) []
  | _ => none

/-- The actions of all labels. -/
def actions (directory : Directory) : Except Failure (List (String × List String)) :=
  match directory.read? actionsName with
  | .error failure => .error failure
  | .ok none => .ok []
  | .ok (some text) =>
    match actionsOfText? text with
    | some entries => .ok entries
    | none => .error .undecodable

/-- The text of a file of actions. -/
def actionsText (entries : List (String × List String)) : String :=
  (Json.object (entries.map fun (label, actions) => (label, .arr (actions.map Json.str)))).pretty

/-- Adds actions under a label; the file is written only when one of them is new. -/
def learnActions (label : String) (new : List String) : Operation Directory (List String) :=
  fun directory =>
    match directory.actions with
    | .error failure => (.error failure, directory)
    | .ok entries =>
      let known := (Ordered.find? label entries).getD []
      let added := unknownAmong known new
      if added.isEmpty then (.ok [], directory)
      else
        let grown := Ordered.put label (sortActions (known ++ added)) entries
        (.ok added, directory.write actionsName (actionsText grown))

/-- A directory as a store of records. -/
def store : Records Directory where
  append record := locked (appendRecord record)
  records label := locked fun directory => (directory.recordsOf label, directory)
  findExact label digest rating := locked fun directory =>
    ((directory.recordsOf label).map fun records => records.find? (isExact digest rating),
      directory)

/-- A directory as a cache of actions. -/
def cache : Actions Directory where
  learned label := locked fun directory =>
    (directory.actions.map fun entries => (Ordered.find? label entries).getD [], directory)
  learn label new := locked (learnActions label new)

end Directory

end Storyboard.Memory
