import Storyboard.Ordered
import Storyboard.Text.Letter
import Storyboard.Text.Trim

/-!
# Environments

Variables with their values, and the text of a file that adds variables.  Each entry of such a text
is `name = value`; a value may be quoted, and an entry whose quotes are still open at the end of a
line goes on in the next one.  Within a value `$name` stands for the value of a variable.  Variables
that stand already are left alone, and what follows the first ill-formed entry does not count.
-/

namespace Storyboard.CommandLine

/-- Variables with their values. -/
abbrev Environment := List (String × String)

namespace Environment

/-- How far the quotes of an entry are known. -/
inductive Quoting where
  | closed
  | blank
  | comment
  | escape
  | single
  | singleEscape
  | double
  | doubleEscape
  deriving DecidableEq

/-- The state after a character that stands outside of quotes. -/
def Quoting.outside (c : Char) : Quoting :=
  if c == '\\' then .escape
  else if c == '"' then .double
  else if c == '\'' then .single
  else .closed

/-- The state after a character. -/
def Quoting.after (c : Char) : Quoting → Quoting
  | comment => .comment
  | blank => if c == '#' then .comment else .outside c
  | closed => if Text.isBlank c && c != '\n' && c != '\r' then .blank else .outside c
  | escape => .closed
  | single => if c == '\\' then .singleEscape else if c == '\'' then .closed else .single
  | singleEscape => .single
  | double => if c == '\\' then .doubleEscape else if c == '"' then .closed else .double
  | doubleEscape => .double

/-- The state at the end of a text, and what precedes a comment. -/
def scan : Quoting → List Char → Quoting × List Char
  | state, [] => (state, [])
  | state, c :: cs =>
    match state.after c with
    | .comment => (.comment, [])
    | next =>
      let (last, before) := scan next cs
      (last, c :: before)

/-- The lines of a text, each with its end; `line` is the current one, reversed. -/
def endedLinesFrom (line : List Char) : List Char → List (List Char)
  | [] => if line.isEmpty then [] else [line.reverse]
  | c :: cs =>
    if c == '\n' then (c :: line).reverse :: endedLinesFrom [] cs else endedLinesFrom (c :: line) cs

/-- A text without the line end that it ends with. -/
def dropLineEnd (cs : List Char) : List Char :=
  match cs.reverse with
  | '\n' :: '\r' :: rest | '\n' :: rest => rest.reverse
  | _ => cs

/-- The entries in some lines; `before` is what the current entry has so far.  An entry that is not
closed at the end is none. -/
def entriesFrom (before : List Char) (state : Quoting) :
    List (List Char) → List (Option (List Char))
  | [] => if state = .closed then [] else [none]
  | line :: rest =>
    let entry := before ++ line
    if (Text.trimStart entry).head? = some '#' then entriesFrom [] .closed rest
    else
      match scan state line with
      | (.comment, uncommented) => some (before ++ uncommented) :: entriesFrom [] .closed rest
      | (.closed, _) => some (dropLineEnd entry) :: entriesFrom [] .closed rest
      | (state, _) => entriesFrom entry state rest

/-- The state of reading a value. -/
structure Reading where
  /-- The quote that is open. -/
  quote : Option Char := none
  isEscaped : Bool := false
  /-- Nothing but a comment may follow. -/
  isOver : Bool := false
  /-- The variable that is being named, in braces or not, and its name so far. -/
  variableName : Option (Bool × List Char) := none
  value : List Char := []

namespace Reading

variable (valueOf : String → Option String)

/-- Adds a character to the value. -/
def push (r : Reading) (c : Char) : Reading := { r with value := r.value ++ [c] }

/-- Adds the value of the variable that was named. -/
def substitute (r : Reading) (name : List Char) : Reading :=
  { r with
    variableName := none
    value := r.value ++ ((valueOf (String.ofList name)).getD "").toList }

/-- Reads a character of a variable's name.  The character after a name without braces stands for
itself, be it a quote or a blank. -/
def stepName (isBraced : Bool) (name : List Char) (c : Char) (r : Reading) : Reading :=
  if Text.isAlphanumeric c then { r with variableName := some (isBraced, name ++ [c]) }
  else if isBraced then
    if c == '\x7d' then r.substitute valueOf name
    else { r with variableName := some (true, name ++ [c]) }
  else if c == '\x7b' && name.isEmpty then { r with variableName := some (true, []) }
  else
    let r := r.substitute valueOf name
    if c == '$' then { r with variableName := some (false, []) } else r.push c

/-- Reads a character after a backslash. -/
def stepEscaped (c : Char) (r : Reading) : Option Reading :=
  let r := { r with isEscaped := false }
  if ['\\', '\'', '"', '$', ' '].contains c then some (r.push c)
  else if c == 'n' then some (r.push '\n')
  else none

/-- Reads a character within double quotes or without quotes. -/
def stepPlain (c : Char) (r : Reading) : Reading :=
  if c == '$' then { r with variableName := some (false, []) }
  else if c == '\\' then { r with isEscaped := true }
  else if r.quote == some '"' then if c == '"' then { r with quote := none } else r.push c
  else if c == '\'' || c == '"' then { r with quote := some c }
  else if c == ' ' || c == '\t' then { r with isOver := true }
  else r.push c

/-- Reads a character. -/
def step (c : Char) (r : Reading) : Option Reading :=
  if r.isEscaped then r.stepEscaped c
  else if r.quote == some '\'' then
    some (if c == '\'' then { r with quote := none } else r.push c)
  else
    match r.variableName with
    | some (isBraced, name) => some (r.stepName valueOf isBraced name c)
    | none => some (r.stepPlain c)

/-- Reads a value to its end. -/
def finish? (r : Reading) : Option (List Char) :=
  if r.quote.isSome then none
  else
    match r.variableName with
    | some (true, _) => none
    | some (false, name) => some (r.substitute valueOf name).value
    | none => some r.value

/-- Reads the characters of a value. -/
def run? : Reading → List Char → Option (List Char)
  | r, [] => r.finish? valueOf
  | r, c :: cs =>
    if r.isOver then
      if c == ' ' || c == '\t' then run? r cs
      else if c == '#' then r.finish? valueOf
      else none
    else
      match r.step valueOf c with
      | some next => run? next cs
      | none => none

end Reading

/-- A character of a variable's name after the first one. -/
def isNameChar (c : Char) : Bool := c.isAlphanum || c == '_' || c == '.'

/-- The name of a variable, and what follows it and the blanks after it. -/
def name? : List Char → Option (List Char × List Char)
  | [] => none
  | c :: cs =>
    if Text.startsName c then
      some (c :: cs.takeWhile isNameChar, Text.trimStart (cs.dropWhile isNameChar))
    else none

/-- The name of a variable and the text of its value; a name may be marked as exported. -/
def assignment? (cs : List Char) : Option (List Char × List Char) := do
  let (name, rest) ← name? cs
  match rest with
  | '=' :: value => return (name, value)
  | _ =>
    if name = "export".toList then
      match ← name? rest with
      | (name, '=' :: value) => return (name, value)
      | _ => none
    else none

/-- The environment after an entry; an ill-formed entry is none. -/
def afterEntry? (environment : Environment) (entry : List Char) : Option Environment :=
  match Text.trim entry with
  | [] | '#' :: _ => some environment
  | cs => do
    let (name, text) ← assignment? cs
    let text := Text.trimStart text
    let value ←
      if text.head? = some '#' then some []
      else Reading.run? (fun variableName => environment.lookup variableName) {} text
    let name := String.ofList name
    return if (environment.lookup name).isSome then environment
      else environment ++ [(name, String.ofList value)]

/-- The environment after entries, up to the first ill-formed one. -/
def afterEntries (environment : Environment) : List (Option (List Char)) → Environment
  | [] | none :: _ => environment
  | some entry :: rest =>
    match afterEntry? environment entry with
    | some next => afterEntries next rest
    | none => environment

/-- The environment with the variables of a text; a byte order mark in front does not count. -/
def withText (environment : Environment) (text : String) : Environment :=
  let cs := match text.toList with
    | '\uFEFF' :: rest => rest
    | cs => cs
  environment.afterEntries (entriesFrom [] .closed (endedLinesFrom [] cs))

end Environment

end Storyboard.CommandLine
