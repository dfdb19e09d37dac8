import Storyboard.Source.Line
import Storyboard.Literal.Reader
import Storyboard.Ordered

/-!
# Bindings

Which literals a name stands for on a line: the values of a loop variable while its loop lasts, or
the constant that was last assigned.  `observe` is to be called on every line in order; `resolve`
and `expand` then read operands.
-/

namespace Storyboard.Source

/-- Loops are unrolled to at most this many values. -/
def maxLoopValues : Nat := 64

/-- A loop over known values. -/
structure Loop where
  name : List Char
  values : List Literal
  indent : Nat

/-- The loops around a line, innermost first, and the constants assigned so far. -/
structure Bindings where
  loops : List Loop := []
  constants : List (List Char × Literal) := []

/-- The shortest nonempty beginning that is followed by blanks and a colon. -/
def upToColon? : List Char → Option (List Char)
  | [] => none
  | c :: cs =>
    if (Text.blanksThen? ':' cs).isSome then some [c] else (upToColon? cs).map (c :: ·)

/-- Variable and iterable of a loop header. -/
def loopHeader? (text : List Char) : Option (List Char × List Char) := do
  let afterFor ← (Text.dropPrefix? "for".toList text).bind Text.someBlanks?
  let (name, afterName) ← Text.name? afterFor
  let afterIn ← (Text.someBlanks? afterName).bind (Text.dropPrefix? "in".toList)
  let body ← Text.someBlanks? afterIn
  let iterable ← (upToColon? body).orElse fun _ =>
    match (afterIn.takeWhile Text.isBlank).reverse with
    | last :: _ :: _ => upToColon? (last :: body)
    | _ => none
  return (name, iterable)

/-- Name and right-hand side of an assignment. -/
def assignment? (text : List Char) : Option (List Char × List Char) := do
  let (name, afterName) ← Text.name? text
  let rest ← Text.blanksThen? '=' afterName
  let body := rest.dropWhile Text.isBlank
  if body.isEmpty || body.head? == some '=' then
    let last ← (rest.takeWhile Text.isBlank).getLast?
    return (name, last :: body)
  else return (name, body)

/-- The values from `v` on, at most `count` of them, in steps below or above the exclusive bound
and within 64 bits. -/
def rangeValues (stop step : Int) : Nat → Int → List Literal
  | 0, _ => []
  | count + 1, v =>
    if (0 < step ∧ v < stop) ∨ (step < 0 ∧ stop < v) then
      .int (Int64.ofInt v) ::
        (if Decimal.fitsInt64 (v + step) then rangeValues stop step count (v + step) else [])
    else []

/-- A literal, or the constant of that name. -/
def known? (constants : List (List Char × Literal)) (text : List Char) : Option Literal :=
  (Literal.parse? text).orElse fun _ => Ordered.find? text constants

/-- The arguments of a `range` call. -/
def rangeArguments? (text : List Char) : Option (List (List Char)) := do
  let rest ← Text.dropPrefix? "range".toList text
  let inside ← Text.expect? '(' (Text.trimStart rest)
  let inner ← Text.dropSuffix? [')'] inside
  return splitArgs inner

/-- The values of a range with the given bounds. -/
def rangeOf? : List Int → Option (List Literal)
  | [stop] => some (rangeValues stop 1 maxLoopValues 0)
  | [start, stop] => some (rangeValues stop 1 maxLoopValues start)
  | [start, stop, step] =>
    if step = 0 then none else some (rangeValues stop step maxLoopValues start)
  | _ => none

/-- The values that a loop runs over, when they are known. -/
def iterableValues? (constants : List (List Char × Literal)) (text : List Char) :
    Option (List Literal) :=
  let text := Text.trim text
  match rangeArguments? text with
  | some args => do
    let bounds ← args.mapM fun arg => (known? constants arg).bind Literal.int?
    rangeOf? (bounds.map Int64.toInt)
  | none => ((known? constants text).bind Literal.items?).map (List.take maxLoopValues)

namespace Bindings

/-- The bindings on a line, given those on the line before. -/
def observe (bindings : Bindings) (line : Line) : Bindings :=
  -- a line that is not deeper than a loop ends it
  let loops := bindings.loops.dropWhile fun loop => decide (line.indent ≤ loop.indent)
  match loopHeader? line.text with
  | some (name, iterable) =>
    match iterableValues? bindings.constants iterable with
    | some values => { bindings with loops := ⟨name, values, line.indent⟩ :: loops }
    | none => { bindings with loops }
  | none =>
    if line.inClass || line.isHeader then { bindings with loops }
    else
      match assignment? line.text with
      | some (name, value) =>
        match Literal.parse? value with
        | some literal => ⟨loops, Ordered.put name literal bindings.constants⟩
        -- a name that is assigned something else is no constant any more
        | none => ⟨loops, Ordered.erase name bindings.constants⟩
      | none => { bindings with loops }

/-- The innermost loop over a variable of that name. -/
def loop? (bindings : Bindings) (name : List Char) : Option Loop :=
  bindings.loops.find? fun loop => loop.name == name

/-- The name is a loop variable. -/
def isLoopVar (bindings : Bindings) (name : List Char) : Bool :=
  (bindings.loop? (Text.trim name)).isSome

/-- The constant of a name. -/
def constant? (bindings : Bindings) (name : List Char) : Option Literal :=
  Ordered.find? name bindings.constants

/-- The values that an operand takes. -/
def resolve (bindings : Bindings) (operand : List Char) : List Literal :=
  let operand := Text.trim operand
  match bindings.loop? operand with
  | some loop => loop.values
  | none =>
    match bindings.constant? operand with
    | some value => [value]
    | none => [Literal.lenient operand]

/-- How often a statement runs: once for each value of the innermost loop. -/
def iterations (bindings : Bindings) : Nat :=
  match bindings.loops with
  | [] => 1
  | loop :: _ => loop.values.length

/-- The values that an operand takes in all iterations of the innermost loop. -/
def expand (bindings : Bindings) (operand : List Char) : List Literal :=
  let values := bindings.resolve operand
  if bindings.isLoopVar operand then values
  else (List.replicate bindings.iterations values).flatten

/-- As `expand`, but nothing for an operand that is neither literal nor bound. -/
def expandKnown (bindings : Bindings) (operand : List Char) : List Literal :=
  if bindings.isLoopVar operand || (bindings.constant? (Text.trim operand)).isSome ||
      (Literal.parse? operand).isSome then
    bindings.expand operand
  else []

end Bindings

/-- The lines of a program, each with the bindings on it. -/
def boundLinesFrom : Bindings → List Line → List (Line × Bindings)
  | _, [] => []
  | bindings, line :: rest =>
    let here := bindings.observe line
    (line, here) :: boundLinesFrom here rest

/-- The lines of a program, each with the bindings on it. -/
def boundLines (code : String) : List (Line × Bindings) := boundLinesFrom {} (scan code)

end Storyboard.Source
