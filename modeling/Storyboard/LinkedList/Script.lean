import Storyboard.Simulation.Cue

/-!
# Operations on linked lists in programs

A statement at top level may build a node by hand, walk the links in a loop, or call an operation.
A node made for the head counts only while the list is empty; otherwise the statement is read like
any other.
-/

namespace Storyboard.LinkedList

/-- One of the two ends. -/
inductive End where
  | front
  | back
  deriving DecidableEq

/-- Where a value goes with respect to another one. -/
inductive Anchor where
  /-- At a position, when the literal is one. -/
  | position (literal : Literal)
  | after (literal : Literal)
  | before (literal : Literal)

/-- An operation on a linked list. -/
inductive Op where
  | createHead (value : Literal)
  | linkLast (value : Literal)
  | insert (place : End) (value : Literal)
  | insertBy (anchor : Anchor) (value : Literal)
  | delete (value : Literal)
  | deleteEnd (place : End)
  | display (backward : Bool)
  | traverse
  | search (target : Literal)
  | reverse

/-- The operations of a statement: those of `otherwise`, unless the list is empty and the statement
makes its head. -/
structure Statement where
  head : Option Literal := none
  otherwise : List Op

/-- Names of insertions at the front. -/
def frontNames : List String :=
  ["insert_front", "insert_at_beginning", "insert_beginning", "insert_at_head", "insert_head",
    "insert_at_start", "insert_start", "prepend", "push", "push_front", "add_first", "add_front"]

/-- Names of insertions at the back. -/
def backNames : List String :=
  ["insert", "insert_end", "insert_at_end", "insert_last", "insert_tail", "append", "add",
    "add_node", "add_last", "push_back"]

/-- Names of insertions after a value. -/
def afterNames : List String := ["insert_after", "add_after"]

/-- Names of insertions before a value. -/
def beforeNames : List String := ["insert_before", "add_before"]

/-- Names of insertions at a position. -/
def positionNames : List String :=
  ["insert_at", "insert_at_position", "insert_at_pos", "insert_position"]

/-- Names of deletions of a value. -/
def deleteNames : List String :=
  ["delete", "remove", "delete_node", "delete_value", "remove_node", "delete_key", "remove_value"]

/-- Names of deletions at the front. -/
def deleteFrontNames : List String :=
  ["delete_front", "delete_head", "delete_first", "delete_beginning", "delete_at_beginning",
    "remove_first", "remove_head", "pop_front"]

/-- Names of deletions at the back. -/
def deleteBackNames : List String :=
  ["delete_end", "delete_tail", "delete_last", "delete_at_end", "remove_last", "remove_tail",
    "pop_back"]

/-- Names of displays from the front. -/
def displayNames : List String :=
  ["display", "print_list", "show", "print_forward", "display_forward", "printList", "print_ll"]

/-- Names of displays from the back. -/
def displayBackwardNames : List String :=
  ["display_backward", "print_backward", "print_reverse", "display_reverse", "reverse_display"]

/-- Names of traversals. -/
def traverseNames : List String := ["traverse", "traverse_list", "iterate"]

/-- Names of searches. -/
def searchNames : List String := ["search", "find", "contains"]

/-- Names of reversals. -/
def reverseNames : List String := ["reverse", "reverse_list"]

/-- A method that is given a position and a value. -/
def isPositional (call : Source.Call) : Bool :=
  call.name == "insert" && call.receiver.isSome && decide (call.args.length = 2)

/-- The last two of at least two arguments. -/
def lastTwo? (args : List (List Char)) : Option (List Char × List Char) :=
  match args.reverse with
  | last :: before :: _ => some (before, last)
  | _ => none

/-- The kind of anchor that a call takes. -/
def anchorOf? (call : Source.Call) : Option (Literal → Anchor) :=
  if isPositional call || call.isOneOf positionNames then some .position
  else if call.isOneOf afterNames then some .after
  else if call.isOneOf beforeNames then some .before
  else none

/-- The end at which a call inserts. -/
def endOf? (call : Source.Call) : Option End :=
  if isPositional call then none
  else if call.isOneOf frontNames then some .front
  else if call.isOneOf backNames then some .back
  else none

/-- The operations without operand. -/
def opsWithoutOperand (bindings : Source.Bindings) (call : Source.Call) : List Op :=
  if call.isOneOf deleteFrontNames then List.replicate bindings.iterations (.deleteEnd .front)
  else if call.isOneOf deleteBackNames then List.replicate bindings.iterations (.deleteEnd .back)
  else if call.isOneOf displayNames then [.display false]
  else if call.isOneOf displayBackwardNames then [.display true]
  else if call.isOneOf traverseNames then [.traverse]
  else if call.isOneOf searchNames then
    (call.args.getLast?.map fun operand => Op.search (Literal.lenient operand)).toList
  else if call.isOneOf reverseNames && decide (call.args.length ≤ 1) then [.reverse]
  else []

/-- The operations that a call asks for. -/
def opsOfCall (line : Source.Line) (bindings : Source.Bindings) (call : Source.Call) : List Op :=
  if line.isDefinition call.subject call.args.getLast? then []
  else
    match endOf? call, anchorOf? call with
    | some place, _ =>
      (call.args.getLast?.elim [] bindings.expand).map (.insert place)
    | none, some anchor =>
      match lastTwo? call.args with
      | some (target, operand) =>
        (bindings.expand operand).map (.insertBy (anchor (Literal.lenient target)))
      | none => []
    | none, none =>
      if call.isOneOf deleteNames then
        (call.args.getLast?.elim [] bindings.expand).map .delete
      else opsWithoutOperand bindings call

/-- A loop whose body follows the links of nodes. -/
def walksLinks (header : Source.Line) (rest : List (Source.Line × Source.Bindings)) : Bool :=
  "while ".toList.isPrefixOf header.text &&
    (rest.takeWhile fun below => decide (header.indent < below.1.indent)).any fun below =>
      Text.occursIn ".next".toList below.1.text || Text.occursIn ".prev".toList below.1.text

/-- The operand of a node that is made and assigned, from the equals sign to the end of the
line. -/
def madeNode? (text : List Char) : Option (List Char) := do
  let value ← Text.blanksThen? '=' text
  let afterName ← Text.dropPrefix? "Node".toList (Text.trimStart value)
  let inside ← Text.blanksThen? '(' afterName
  let operand ← Text.dropSuffix? [')'] (Text.trimEnd inside)
  if operand.isEmpty then none else some operand

/-- The names under which a head is made. -/
def headVariables : List (List Char) := ["head", "first", "start", "root"].map String.toList

/-- The operand of a node that is assigned to a head variable. -/
def headNode? (text : List Char) : Option (List Char) :=
  headVariables.findSome? fun name => (Text.dropPrefix? name text).bind madeNode?

/-- The operand of a node that is linked behind another one. -/
def linkedNode? (text : List Char) : Option (List Char) :=
  Text.firstSuffix (fun text => (Text.dropPrefix? ".next".toList text).bind madeNode?) text

/-- The calls of a statement. -/
def opsOfCalls (line : Source.Line) (bindings : Source.Bindings) : List Op :=
  (Source.calls line.text).flatMap (opsOfCall line bindings)

/-- A statement outside class bodies, with what follows it. -/
def statement (line : Source.Line) (bindings : Source.Bindings)
    (rest : List (Source.Line × Source.Bindings)) : Statement :=
  if line.inDef then { otherwise := opsOfCalls line bindings }
  else if walksLinks line rest then { otherwise := [.traverse] }
  else
    { head := (headNode? line.text).map Literal.lenient
      otherwise :=
        match linkedNode? line.text with
        | some operand => [.linkLast (Literal.lenient operand)]
        | none => opsOfCalls line bindings }

/-- The statements of the lines. -/
def statements : List (Source.Line × Source.Bindings) → List (Cue Statement)
  | [] => []
  | (line, bindings) :: rest =>
    if line.inClass || line.isHeader then statements rest
    else ⟨line.number, statement line bindings rest⟩ :: statements rest

/-- The statements of a program. -/
def script (code : String) : List (Cue Statement) := statements (Source.boundLines code)

end Storyboard.LinkedList
