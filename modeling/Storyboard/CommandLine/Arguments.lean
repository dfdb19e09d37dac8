import Storyboard.CommandLine.Settings

/-!
# Arguments

A command with its settings, as the words of a command line.  Settings may stand before or after the
name of the command, and what belongs to the command follows its name.  After two dashes every word
stands for itself.
-/

namespace Storyboard.CommandLine

/-- What is to be done. -/
inductive Command where
  | translate (label sub : Option String) (path : String)
  | classify (path : String)
  | check (path : String)
  | feedback (label : String) (rating : Nat) (storyPath path : String)
  | normalize (label : String) (sub : Option String)

/-- Why words are no command. -/
inductive Refusal where
  /-- Help is asked for. -/
  | help
  | misuse

/-- What a word is. -/
inductive Word where
  | plain
  /-- Two dashes and nothing else. -/
  | escape
  | letters (first : Char)
  | option (flag : String) (text : Option String)

/-- What a word is; one dash alone is a word like any other. -/
def Word.of (word : String) : Word :=
  match word.toList with
  | ['-', '-'] => .escape
  | '-' :: '-' :: cs =>
    let text := match cs.dropWhile (· != '=') with
      | '=' :: text => some (String.ofList text)
      | _ => none
    .option ("--" ++ String.ofList (cs.takeWhile (· != '='))) text
  | '-' :: c :: _ => .letters c
  | _ => .plain

/-- A word can be the text of an option. -/
def Word.isPlain : Word → Bool
  | plain => true
  | _ => false

/-- The options among some words, and the other words. -/
structure Sorted where
  options : Options := []
  words : List String := []

namespace Sorted

/-- Adds an option in front. -/
def withOption (flag text : String) (sorted : Sorted) : Sorted :=
  { sorted with options := (flag, text) :: sorted.options }

/-- Adds a word in front. -/
def withWord (word : String) (sorted : Sorted) : Sorted :=
  { sorted with words := word :: sorted.words }

/-- Sorts words into options and others.  Before the command the first other word ends the search,
and the words that follow it are left as they are. -/
def read (flags : List String) (afterCommand : Bool) : List String → Except Refusal Sorted
  | [] => .ok {}
  | word :: rest =>
    match Word.of word with
    | .plain =>
      if afterCommand then (read flags afterCommand rest).map (withWord word)
      else .ok { words := word :: rest }
    | .escape => if afterCommand then .ok { words := rest } else .error .misuse
    | .letters first => .error (if first == 'h' then .help else .misuse)
    | .option "--help" none => .error .help
    | .option flag text =>
      if flags.contains flag then
        match text, rest with
        | some text, rest => (read flags afterCommand rest).map (withOption flag text)
        -- the next word is the text of the option, unless it looks like an option itself
        | none, text :: rest =>
          if (Word.of text).isPlain then
            (read flags afterCommand rest).map (withOption flag text)
          else .error .misuse
        | none, [] => .error .misuse
      else .error .misuse

end Sorted

/-- The options that settings are given by. -/
def settingFlags : List String := Setting.all.map Setting.flag

namespace Command

/-- The names of the commands, each with its own options. -/
def flags : List (String × List String) :=
  [("translate", ["--concept", "--sub-concept"]), ("classify", []), ("check", []),
    ("feedback", ["--concept", "--rating", "--ir"]), ("normalize", [])]

/-- The text of an option that is given at most once. -/
def optional? (sorted : Sorted) (flag : String) : Option (Option String) :=
  match sorted.options.texts flag with
  | [] => some none
  | [text] => some (some text)
  | _ => none

/-- The text of an option that is given once. -/
def required? (sorted : Sorted) (flag : String) : Option String :=
  (optional? sorted flag).bind id

/-- The only word, which is a path. -/
def onlyPath? (sorted : Sorted) : Option String :=
  match sorted.words with
  | [path] => path? path
  | _ => none

/-- The command of a name and what follows it. -/
def ofSorted? (name : String) (sorted : Sorted) : Option Command :=
  match name with
  | "translate" => do
    let label ← optional? sorted "--concept"
    let sub ← optional? sorted "--sub-concept"
    return .translate label sub (← onlyPath? sorted)
  | "classify" => (onlyPath? sorted).map .classify
  | "check" => (onlyPath? sorted).map .check
  | "feedback" => do
    let label ← required? sorted "--concept"
    let rating ← (required? sorted "--rating").bind byte?
    let storyPath ← (required? sorted "--ir").bind path?
    return .feedback label rating storyPath (← onlyPath? sorted)
  | "normalize" =>
    match sorted.words with
    | [label] => some (.normalize label none)
    | [label, sub] => some (.normalize label (some sub))
    | _ => none
  | _ => none

/-- The paths that a command reads, in order. -/
def sources : Command → List String
  | translate _ _ path | classify path | check path => [path]
  | feedback _ _ storyPath path => [path, storyPath]
  | normalize .. => []

end Command

/-- Something, or misuse. -/
def orMisuse {α : Type} (value : Option α) : Except Refusal α :=
  match value with
  | some x => .ok x
  | none => .error .misuse

/-- Reads settings and command from the words of a command line. -/
def readArguments (environment : Environment) (arguments : List String) :
    Except Refusal (Settings × Command) := do
  let outer ← Sorted.read settingFlags false arguments
  match outer.words with
  | [] => throw .misuse
  | "help" :: topics =>
    throw (match topics with
      | [] => .help
      | [name] => if (Command.flags.lookup name).isSome then .help else .misuse
      | _ => .misuse)
  | name :: rest =>
    let flags ← orMisuse (Command.flags.lookup name)
    let inner ← Sorted.read (settingFlags ++ flags) true rest
    let command ← orMisuse (Command.ofSorted? name inner)
    let settings ← orMisuse (Settings.read? outer.options inner.options environment)
    return (settings, command)

end Storyboard.CommandLine
