import Storyboard.Literal.Writer
import Storyboard.Literal.Reader
import Storyboard.Story.Basic
import Storyboard.Syntax.Statement

/-!
# Any program

Where no structure is simulated, a program is told statement by statement: each call, assignment,
loop and return is a step with the variables as far as they are known by then.
-/

namespace Storyboard.Universal

open Syntax (Statement)

/-- The variables known so far, in the order of their first assignment. -/
abbrev Variables := List (String × Json)

/-- The text of source characters. -/
def textOf (cs : List Char) : String := String.ofList cs

/-- What a variable is known to be after an assignment: the literal, or the text itself. -/
def assigned (value : List Char) : Json :=
  match Literal.parse? value with
  | some literal => literal.toJson
  | none => .str (textOf (Text.trim value))

/-- The integer that an operand stands for: a variable, or a literal. -/
def operand? (vars : Variables) (text : List Char) : Option Int :=
  ((Ordered.find? (textOf text) vars).bind Json.int64?).orElse fun _ =>
    (Literal.int? (Literal.lenient text)).map Int64.toInt

/-- The result of an update of an integer, if it is one and fits 64 bits. -/
def updated? (operator : List Char) (a b : Int) : Option Int :=
  let result? :=
    if operator == "+=".toList then some (a + b)
    else if operator == "-=".toList then some (a - b)
    else if operator == "*=".toList then some (a * b)
    else none
  result?.filter Decimal.fitsInt64

/-- The text of an update. -/
def updateText (target operator value : List Char) : String :=
  s!"{textOf target} {textOf operator} {textOf value}"

/-- What a variable is known to be after an update. -/
def updateValue (vars : Variables) (target operator value : List Char) : Json :=
  let result? := do
    let old ← (Ordered.find? (textOf target) vars).bind Json.int64?
    let operand ← operand? vars value
    updated? operator old operand
  result?.elim (.str (updateText target operator value)) .int

/-- A step at a line with the variables known there. -/
def stepWith (vars : Variables) (line : Nat) (action description : String) : Step :=
  { action, description, vars, line := some line }

/-- The step of a call. -/
def callStep (vars : Variables) (line : Nat) (function arguments : List Char) : Step :=
  if function == "print".toList then
    let shown := Text.dropEndWhile (· == ')') (arguments.dropWhile (· == '('))
    stepWith vars line "print" s!"Print {textOf shown}"
  else stepWith vars line "call" s!"Call {textOf function}{textOf arguments}"

/-- What follows the keyword at the start of a return, however often it stands there. -/
def dropReturns : Nat → List Char → List Char
  | 0, text => text
  | fuel + 1, text =>
    match Text.dropPrefix? "return".toList text with
    | some rest => dropReturns fuel rest
    | none => text

/-- The step of a return. -/
def returnStep (vars : Variables) (line : Nat) (text : List Char) : Step :=
  let value := Text.trim (dropReturns text.length text)
  stepWith vars line "return"
    (if value.isEmpty then "Return" else s!"Return {textOf value}")

mutual

/-- The steps of a statement, and the variables known after it. -/
def stepsOf (vars : Variables) : Statement → Variables × List Step
  | .call line function arguments => (vars, [callStep vars line function arguments])
  | .assign line target value =>
    let vars := Ordered.put (textOf target) (assigned value) vars
    (vars, [stepWith vars line "assign" s!"Set {textOf target} = {textOf value}"])
  | .update line target operator value =>
    let vars := Ordered.put (textOf target) (updateValue vars target operator value) vars
    (vars, [stepWith vars line "augassign" s!"Update {updateText target operator value}"])
  | .return line text => (vars, [returnStep vars line text])
  | .loop line header body =>
    let shown := Text.dropEndWhile (· == ':') header
    let (after, steps) := stepsOfAll vars body
    (after, stepWith vars line "loop" s!"Loop: {textOf shown}" :: steps)
  | .group body => stepsOfAll vars body

/-- The steps of statements in order, and the variables known after them. -/
def stepsOfAll (vars : Variables) : List Statement → Variables × List Step
  | [] => (vars, [])
  | statement :: rest =>
    let (between, steps) := stepsOf vars statement
    let (after, more) := stepsOfAll between rest
    (after, steps ++ more)

end

/-- The story of a program under a concept; it always has a step. -/
def simulate (concept : Concept) (code : String) : Story :=
  let steps := (stepsOfAll [] (Syntax.Program.ofCode code.toList).statements).2
  ⟨if steps.isEmpty then [Step.note "No recognizable actions found"] else steps,
    Header.conventional concept⟩

end Storyboard.Universal
