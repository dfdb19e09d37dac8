import Storyboard.Source.Quotes

/-!
# Calls

`calls` lists every call on a line, from the left, nested ones after the one around them.  A call
whose parentheses are not closed is left out.
-/

namespace Storyboard.Source

/-- A call `receiver.name(args)` or `name(args)`. -/
structure Call where
  receiver : Option (List Char)
  name : String
  args : List (List Char)

namespace Call

/-- The call is to one of the names. -/
def isOneOf (call : Call) (names : List String) : Bool := names.contains call.name

/-- The receiver, or the first of several arguments. -/
def subject (call : Call) : Option (List Char) :=
  match call.receiver, call.args with
  | some receiver, _ => some receiver
  | none, first :: _ :: _ => some first
  | none, _ => none

/-- Receiver and operand of a call that takes one value: `q.put(x)`, `put(x)` or `put(q, x)`. -/
def insertion? (call : Call) : Option (Option (List Char) × List Char) :=
  match call.receiver, call.args with
  | some receiver, [x] => some (some receiver, x)
  | none, [x] => some (none, x)
  | none, [q, x] => some (some q, x)
  | _, _ => none

/-- Receiver of a call that takes no value: `q.take()`, `take()` or `take(q)`. -/
def nullary? (call : Call) : Option (Option (List Char)) :=
  match call.receiver, call.args with
  | some receiver, [] => some (some receiver)
  | none, [] => some none
  | none, [q] => some (some q)
  | _, _ => none

end Call

/-- Receiver and name at the front of the text, and what follows the opening parenthesis. -/
structure Opening where
  receiver : Option (List Char)
  name : List Char
  inside : List Char

/-- Splits a dotted run at its last dot; what follows the dot has to start a name. -/
def splitReceiver? (run : List Char) : Option (Option (List Char) × List Char) :=
  let reversed := run.reverse
  let name := (reversed.takeWhile (· != '.')).reverse
  match reversed.dropWhile (· != '.') with
  | [] => some (none, name)
  | _ :: receiver =>
    match name with
    | c :: _ => if Text.startsName c then some (some receiver.reverse, name) else none
    | [] => none

/-- A call opens at the front of the text. -/
def opening? (cs : List Char) : Option Opening := do
  let (run, rest) ← Text.dottedName? cs
  let inside ← Text.blanksThen? '(' rest
  let (receiver, name) ← splitReceiver? run
  return ⟨receiver, name, inside⟩

/-- The call that an opening starts, if its parenthesis is closed. -/
def Opening.call? (o : Opening) : Option Call :=
  (enclosed? 0 none o.inside).map fun args =>
    ⟨o.receiver, String.ofList o.name, splitArgs args⟩

/-- The calls of a text after its first `skip` characters; the search goes on behind the opening
parenthesis of what it finds. -/
def callsAfter : Nat → List Char → List Call
  | _, [] => []
  | skip + 1, _ :: cs => callsAfter skip cs
  | 0, c :: cs =>
    match opening? (c :: cs) with
    | some o => o.call?.toList ++ callsAfter (cs.length - o.inside.length) cs
    | none => callsAfter 0 cs

/-- The calls of a text. -/
def calls (text : List Char) : List Call := callsAfter 0 text

end Storyboard.Source
