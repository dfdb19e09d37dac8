import Storyboard.CommandLine.Run
import Std.Time.DateTime.Timestamp

/-!
# The program

Loads the files that a command needs into a tree, runs the command on it, writes back what changed
and prints what is to be seen.  There is no connection to a network: every posting fails.
-/

namespace Storyboard.Program

open CommandLine

/-- The entry at a path of the file system, none where nothing stands. -/
def entryAt (path : String) : IO (Option Files.Entry) := do
  try
    return some (.file (← IO.FS.readFile path))
  catch
    | .inappropriateType _ 21 _ => return some .folder
    | .inappropriateType _ 20 _ => return some (.unreadable .noFolder)
    | .permissionDenied .. => return some (.unreadable .denied)
    | .userError _ => return some (.unreadable .noText)
    | _ => return none

/-- The tree with what stands at some paths of the file system. -/
def load (files : Files) (paths : List String) : IO Files :=
  paths.foldlM (fun files path => do
    match ← entryAt path with
    | some entry => return files.place path entry
    | none => return files) files

/-- The path of a place. -/
def pathOf : Files.Place → String
  | "/" :: names => "/" ++ "/".intercalate names
  | names => "/".intercalate names

/-- An entry needs no writing: it cannot be written, or it stands as it is. -/
def isWritten (old : Files) (place : Files.Place) (entry : Files.Entry) : Bool :=
  match entry, old.find? place with
  | .file text, some (.file before) => text == before
  | .folder, some .folder => true
  | .unreadable _, _ => true
  | _, _ => false

/-- Writes what one tree has and another has not. -/
def save (old new : Files) : IO Unit :=
  new.entries.forM fun (place, entry) => do
    if !isWritten old place entry then
      match entry with
      | .file text => IO.FS.writeFile (pathOf place) text
      | _ => IO.FS.createDirAll (pathOf place)

/-- The names of the variables that a text may speak of. -/
def namesIn (text : String) : List String :=
  let runs := fun (p : Char → Bool) => (text.map fun c => if p c then c else ' ').splitOn " "
  (runs Environment.isNameChar ++ runs Text.isAlphanumeric).filter fun name => !name.isEmpty

/-- The variables that stand among those of some names. -/
def environmentOf (names : List String) : IO Environment :=
  names.filterMapM fun name => do return (← IO.getEnv name).map fun value => (name, value)

/-- No posting gets a response. -/
def unreachable : Remote.Transport Unit := fun _ state =>
  (.error (.request "there is no connection"), state)

/-- The concept under which a command looks into the memory. -/
def memoryConcept (settings : Settings) : Command → Run Unit (Option Concept)
  | .translate label sub path => do
    let code ← readSource path
    return some (conceptFor settings unreachable label sub code (settings.pool, ())).1.reconsider
  | .feedback label .. => return some (Concept.resolve label)
  | _ => return none

/-- The paths in the memory that are used under a label. -/
def memoryPaths (settings : Settings) (label : String) : List String :=
  [Memory.Directory.lockName, Memory.Directory.actionsName, Memory.Directory.logName label,
    Memory.Store.tableName].map fun name => settings.memoryFolder ++ "/" ++ name

/-- The tree with the memory that a command uses. -/
def loadMemory (settings : Settings) (command : Command) (world : World Unit) : IO Files := do
  let files ← load world.files [settings.memoryFolder]
  match ((memoryConcept settings command).run.run world).1 with
  | .ok (some concept) => load files (memoryPaths settings concept.label)
  | _ => return files

/-- The time. -/
def now : IO Timestamp := do
  let nanos := (← Std.Time.Timestamp.now).toNanosecondsSinceUnixEpoch.val
  let seconds := nanos.fdiv 1000000000
  return ⟨seconds.fdiv 86400, (seconds.fmod 86400).toNat, (nanos.fmod 1000000000).toNat⟩

/-- What a run of the program finds. -/
def world (environment : Environment) (arguments : List String) : IO (World Unit) := do
  let files ← load {} [variablesFile]
  match readArguments (environmentIn files environment) arguments with
  | .error _ => return ⟨files, "", ()⟩
  | .ok (settings, command) =>
    let files ← load files command.sources
    let input ← if command.sources.contains "-" then (← IO.getStdin).readToEnd else pure ""
    let found : World Unit := ⟨files, input, ()⟩
    return { found with files := ← loadMemory settings command found }

/-- Runs the program; returns the exit code. -/
def start (arguments : List String) : IO UInt32 := do
  let text := match ← entryAt variablesFile with
    | some (.file text) => text
    | _ => ""
  let environment ← environmentOf (Setting.all.map Setting.variableName ++ namesIn text)
  let found ← world environment arguments
  let (outcome, left) := run unreachable (← now) environment arguments found
  save found.files left.files
  IO.print outcome.output
  outcome.complaint.forM fun complaint => IO.eprintln complaint
  return outcome.exitCode.toUInt32

end Storyboard.Program

/-- The program. -/
def main (arguments : List String) : IO UInt32 := Storyboard.Program.start arguments
