import Storyboard.Admission
import Storyboard.Classify.Answer
import Storyboard.CommandLine.Arguments
import Storyboard.Dispatch

/-!
# Runs

What a command does.  A run reads sources, opens the memory and may ask a language model; it ends
with a value that is printed, or with a complaint.  Bad input ends with the code 2, anything else
that goes wrong with the code 1.
-/

namespace Storyboard.CommandLine

/-- What a run finds and leaves behind. -/
structure World (σ : Type) where
  files : Files
  /-- The standard input that has not been read yet. -/
  input : String
  /-- What postings go through. -/
  network : σ

/-- What a run complains of. -/
inductive Complaint where
  | unreadable (path : String) (fault : Files.Fault)
  | noStory (reason : Story.ParseError)
  | memory (failure : Memory.Failure)

namespace Complaint

/-- A complaint in words. -/
def message : Complaint → String
  | unreadable path fault => s!"cannot read '{path}': {fault.message}"
  | noStory reason => reason.message?.getD "serialization error"
  | memory failure => s!"storage: {failure.message}"

/-- The exit code of a run that complains. -/
def exitCode : Complaint → Nat
  | unreadable .. | noStory _ => 2
  | memory failure => if failure.isRefusal then 2 else 1

end Complaint

/-- A run, which ends with a value or a complaint. -/
abbrev Run (σ α : Type) := ExceptT Complaint (StateM (World σ)) α

variable {σ : Type}

/-- Reads a source; one dash stands for the standard input. -/
def readSource (path : String) : Run σ String := do
  let world ← get
  if path = "-" then
    set { world with input := "" }
    return world.input
  else
    match world.files.read path with
    | .ok text => return text
    | .error fault => throw (.unreadable path fault)

/-- Opens the memory. -/
def openMemory (settings : Settings) : Run σ Memory.Store := do
  let world ← get
  match Memory.Store.openIn settings.backend settings.memoryFolder world.files with
  | .ok (store, files) =>
    set { world with files }
    return store
  | .error failure => throw (.memory failure)

/-- Closes the memory. -/
def closeMemory (settings : Settings) (store : Memory.Store) : Run σ Unit :=
  modify fun world => { world with files := store.close settings.memoryFolder world.files }

/-- The language model, while the pool of keys moves on. -/
def Settings.languageModel (settings : Settings) (send : Remote.Transport σ) :
    Remote.Model (Remote.KeyPool × σ) :=
  Remote.KeyPool.model (settings.endpoint.ask send)

/-- What a program is about.  Without keys, or when the language model fails, it is guessed. -/
def answerFor (settings : Settings) (send : Remote.Transport σ) (code : String)
    (state : Remote.KeyPool × σ) : Classify.Answer × Remote.KeyPool × σ :=
  if state.1.keys.isEmpty then (.ofGuess (Classify.guess code), state)
  else
    let model := settings.languageModel send
    match Classify.chain (Classify.ofModel model .strict) (Classify.ofModel model .anything) code
      state with
    | (.ok answer, state) => (answer, state)
    | (.error _, state) => (.ofGuess (Classify.guess code), state)

/-- The concept under which a program is told: the one that is given, or what it is about. -/
def conceptFor (settings : Settings) (send : Remote.Transport σ) (label sub : Option String)
    (code : String) (state : Remote.KeyPool × σ) : Concept × Remote.KeyPool × σ :=
  match label with
  | some label => (Concept.normalize label (sub.getD ""), state)
  | none =>
    let (answer, state) := answerFor settings send code state
    (answer.canonical, state)

/-- What a story is told with; without keys nothing is reconstructed. -/
def Settings.services (settings : Settings) (send : Remote.Transport σ) :
    Dispatch.Services (Memory.Store × Remote.KeyPool × σ) where
  records := some (Memory.Store.records.onFirst _)
  actions := some (Memory.Store.actions.onFirst _)
  reconstructor :=
    if settings.pool.keys.isEmpty then none
    else some fun code concept partialStory =>
      (Remote.reconstructor (settings.languageModel send) code concept partialStory).onSecond

/-- Tells the story of a program. -/
def translate (settings : Settings) (send : Remote.Transport σ) (label sub : Option String)
    (path : String) : Run σ Story := do
  let code ← readSource path
  let store ← openMemory settings
  let world ← get
  let (concept, state) := conceptFor settings send label sub code (settings.pool, world.network)
  let (story, store, _, network) :=
    Dispatch.dispatch (settings.services send) { minRating := settings.minRating } concept code
      (store, state)
  set { world with network }
  closeMemory settings store
  return story

/-- Says what a program is about. -/
def classify (settings : Settings) (send : Remote.Transport σ) (path : String) :
    Run σ Classify.Answer := do
  let code ← readSource path
  let world ← get
  let (answer, _, network) := answerFor settings send code (settings.pool, world.network)
  set { world with network }
  return answer

/-- Judges a program. -/
def check (path : String) : Run σ Admission.Verdict := do
  return Admission.judge (← readSource path)

/-- Remembers a story with its rating. -/
def feedback (settings : Settings) (now : Timestamp) (label : String) (rating : Nat)
    (storyPath path : String) : Run σ Memory.Record := do
  let code ← readSource path
  match Story.parse (← readSource storyPath) with
  | .error reason => throw (.noStory reason)
  | .ok story =>
    let store ← openMemory settings
    let (result, store) :=
      Memory.rate Memory.Store.records (Concept.resolve label) code story rating now store
    closeMemory settings store
    match result with
    | .ok record => return record
    | .error failure => throw (.memory failure)

/-- The concept that a label and a second one stand for. -/
def conceptOf (label : String) (sub : Option String) : Concept :=
  match sub with
  | some sub => Concept.normalize label sub
  | none => Concept.resolve label

/-- What is printed of an answer. -/
def answerReport (answer : Classify.Answer) : Json :=
  .obj [("concept", .str answer.concept), ("sub_concept", .str answer.subConcept),
    ("explanation", .str answer.explanation), ("canonical", .str answer.canonical.label),
    ("parent_animator", .str answer.canonical.animator.name)]

/-- What is printed of a verdict. -/
def verdictReport (verdict : Admission.Verdict) : Json :=
  .obj [("admitted", .bool verdict.isAdmitted), ("category", .str verdict.category),
    ("reason", .str verdict.reason)]

/-- What is printed of a record. -/
def recordReport (record : Memory.Record) : Json :=
  .obj [("concept", .str record.label), ("pattern_hash", .str record.digest),
    ("rating", .ofNat record.rating), ("steps", .ofNat record.steps.length)]

/-- What is printed of a concept. -/
def conceptReport (concept : Concept) : Json :=
  .obj [("concept", .str concept.label), ("family", .str concept.family.name),
    ("parent_animator", .str concept.animator.name)]

/-- Performs a command; returns what is printed and the exit code. -/
def Command.perform (command : Command) (settings : Settings) (send : Remote.Transport σ)
    (now : Timestamp) : Run σ (Json × Nat) :=
  match command with
  | .translate label sub path => do
    return ((← CommandLine.translate settings send label sub path).toJson, 0)
  | .classify path => do
    return (answerReport (← CommandLine.classify settings send path), 0)
  | .check path => do
    let verdict ← CommandLine.check path
    return (verdictReport verdict, if verdict.isAdmitted then 0 else 2)
  | .feedback label rating storyPath path => do
    return (recordReport (← CommandLine.feedback settings now label rating storyPath path), 0)
  | .normalize label sub => return (conceptReport (conceptOf label sub), 0)

/-- What is seen of a run. -/
structure Outcome where
  exitCode : Nat
  output : String := ""
  /-- The line that a complaint is told in. -/
  complaint : Option String := none

/-- What is seen of a run that ended. -/
def Outcome.ofResult : Except Complaint (Json × Nat) → Outcome
  | .ok (value, exitCode) => { exitCode, output := value.pretty ++ "\n" }
  | .error complaint =>
    { exitCode := complaint.exitCode, complaint := some s!"Error: {complaint.message}" }

/-- The name of the file that adds variables to the environment. -/
def variablesFile : String := ".env"

/-- The environment with the variables of the file that adds some. -/
def environmentIn (files : Files) (environment : Environment) : Environment :=
  match files.read variablesFile with
  | .ok text => environment.withText text
  | .error _ => environment

/-- The words that explain the program. -/
def help : String :=
  "Usage: algomap [OPTIONS] <COMMAND>\n\nCommands: " ++
    ", ".intercalate (Command.flags.map Prod.fst) ++ ", help\nOptions: " ++
    ", ".intercalate settingFlags ++ "\n"

/-- Runs the program. -/
def run (send : Remote.Transport σ) (now : Timestamp) (environment : Environment)
    (arguments : List String) (world : World σ) : Outcome × World σ :=
  match readArguments (environmentIn world.files environment) arguments with
  | .error .help => ({ exitCode := 0, output := help }, world)
  | .error .misuse => ({ exitCode := 2 }, world)
  | .ok (settings, command) =>
    let (result, world) := (command.perform settings send now).run.run world
    (.ofResult result, world)

end Storyboard.CommandLine
