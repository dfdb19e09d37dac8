import Storyboard.CommandLine.Environment
import Storyboard.Decimal.Reader
import Storyboard.Memory.Backend
import Storyboard.Memory.Lookup
import Storyboard.Remote.Chat
import Storyboard.Remote.KeyPool

/-!
# Settings

Where the memory is kept, which rating it needs, and which language model is asked.  Each setting is
an option of the command line and a variable of the environment.  An option after the command counts
more than one before it, both count more than the variable, and everything that is given must be
readable, whether it counts or not.
-/

namespace Storyboard.CommandLine

/-- What can be set. -/
inductive Setting where
  | memoryFolder
  | backend
  | minRating
  | base
  | model
  | keys
  | timeout
  deriving DecidableEq

namespace Setting

/-- Everything that can be set. -/
def all : List Setting := [memoryFolder, backend, minRating, base, model, keys, timeout]

/-- The option of a setting. -/
def flag : Setting → String
  | memoryFolder => "--memory-dir"
  | backend => "--memory-backend"
  | minRating => "--min-rating"
  | base => "--llm-base-url"
  | model => "--llm-model"
  | keys => "--llm-keys"
  | timeout => "--llm-timeout-secs"

/-- The environment variable of a setting. -/
def variableName : Setting → String
  | memoryFolder => "ALGOMAP_MEMORY_DIR"
  | backend => "ALGOMAP_MEMORY_BACKEND"
  | minRating => "ALGOMAP_MIN_RATING"
  | base => "ALGOMAP_LLM_BASE_URL"
  | model => "ALGOMAP_LLM_MODEL"
  | keys => "ALGOMAP_LLM_KEYS"
  | timeout => "ALGOMAP_LLM_TIMEOUT_SECS"

end Setting

/-- The value of every setting. -/
structure Settings where
  memoryFolder : String := "./adaptive_memory"
  backend : Memory.Backend := .directory
  minRating : Nat := Memory.defaultMinRating
  /-- The address of the language model. -/
  base : String := "https://api.openai.com/v1"
  model : String := "gpt-4o-mini"
  /-- Without keys no language model is asked. -/
  keys : List String := []
  /-- The seconds to wait for an answer. -/
  timeout : Nat := 30

/-- Options with their texts, as they are given. -/
abbrev Options := List (String × String)

/-- The texts that are given for an option. -/
def Options.texts (options : Options) (flag : String) : List String :=
  (options.filter fun option => option.1 == flag).map Prod.snd

/-- A number of eight bits. -/
def byte? (text : String) : Option Nat := do
  let n ← Decimal.int64? text.toList
  if 0 ≤ n.toInt ∧ n.toInt < 256 then some n.toInt.toNat else none

/-- A path; it is not empty. -/
def path? (text : String) : Option String := if text.isEmpty then none else some text

namespace Settings

/-- Gives a setting the value that a text stands for; keys are added to those that stand. -/
def assign? (settings : Settings) (setting : Setting) (text : String) : Option Settings :=
  match setting with
  | .memoryFolder => (path? text).map fun memoryFolder => { settings with memoryFolder }
  | .backend => (Memory.Backend.ofName? text).map fun backend => { settings with backend }
  | .minRating => (byte? text).map fun minRating => { settings with minRating }
  | .base => some { settings with base := text }
  | .model => some { settings with model := text }
  | .keys => some { settings with keys := settings.keys ++ text.splitOn "," }
  | .timeout => (Decimal.nat64? text.toList).map fun timeout => { settings with timeout }

/-- Gives a setting the value of several texts; only keys may be given more than once. -/
def assignAll? (settings : Settings) (setting : Setting) (texts : List String) : Option Settings :=
  if setting ≠ .keys ∧ 1 < texts.length then none
  else texts.foldlM (fun settings text => settings.assign? setting text) settings

/-- Gives a setting the value that counts among the options before and after the command and the
variable. -/
def choose? (outer inner : Options) (environment : Environment) (settings : Settings)
    (setting : Setting) : Option Settings := do
  let before := outer.texts setting.flag
  let after := inner.texts setting.flag
  let fromEnvironment :=
    if before.isEmpty || after.isEmpty then (environment.lookup setting.variableName).toList else []
  let unset ← settings.assignAll? setting fromEnvironment
  let early ← settings.assignAll? setting before
  let late ← settings.assignAll? setting after
  return if !after.isEmpty then late else if !before.isEmpty then early else unset

/-- Reads all settings. -/
def read? (outer inner : Options) (environment : Environment) : Option Settings :=
  Setting.all.foldlM (choose? outer inner environment) {}

/-- The keys that are not blank, without their outer blanks. -/
def pool (settings : Settings) : Remote.KeyPool where
  keys := (settings.keys.map Text.trimmed).filter fun key => !key.isEmpty

/-- Where prompts go. -/
def endpoint (settings : Settings) : Remote.Endpoint := ⟨settings.base, settings.model⟩

end Settings

end Storyboard.CommandLine
