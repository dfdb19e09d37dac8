import Storyboard.Graph.Adjacency
import Storyboard.Literal.Writer
import Storyboard.Source.Bindings
import Storyboard.Source.Call
import Storyboard.Text.Case

/-!
# Graphs in programs

A program declares its graph by the first dictionary that maps nodes to neighbours, or else by calls
that add edges, and the node to start from by a call, a variable or the order of declaration.
-/

namespace Storyboard.Graph

/-- Adds the edge that an item of a list of neighbours stands for: a pair with a number is a
neighbour with a weight, and other pairs and sequences are refused. -/
def connectItem? (source : String) (graph : Adjacency Float) (item : Literal) :
    Option (Adjacency Float) :=
  match item.items? with
  | none => some (graph.connect source item.label none)
  | some [target, weight] =>
    if weight.isNumber then some (graph.connect source target.label weight.float?) else none
  | some _ => none

/-- Adds the edges of one entry of a dictionary. -/
def connectEntry? (graph : Adjacency Float) (entry : Literal × Literal) :
    Option (Adjacency Float) :=
  let source := entry.1.label
  match entry.2 with
  | .list items | .tuple items => items.foldlM (connectItem? source) graph
  | .dict targets =>
    some (targets.foldl (fun graph target =>
      graph.connect source target.1.label target.2.float?) graph)
  | _ => none

/-- The graph of a dictionary; all keys are declared before any neighbour. -/
def ofEntries? (entries : List (Literal × Literal)) : Option (Adjacency Float) :=
  if entries.isEmpty then none
  else
    entries.foldlM connectEntry?
      (entries.foldl (fun graph entry => graph.addNode entry.1.label) .empty)

/-- The text from the opening brace of a dictionary that is assigned at the front of the text. -/
def dictAssignment? (text : List Char) : Option (List Char) := do
  let (_, rest) ← Text.dottedName? (text.dropWhile Text.isBlank)
  let value ← Text.blanksThen? '=' rest
  let inside ← Text.blanksThen? '\x7b' value
  return '\x7b' :: inside

/-- The graph of a dictionary that is assigned at the front of the text. -/
def assignedGraph? (text : List Char) : Option (Adjacency Float) := do
  let start ← dictAssignment? text
  match Literal.readAt start with
  | .ok (.dict entries, _) => ofEntries? entries
  | _ => none

/-- The label of a node that an operand names. -/
def nodeOf? (bindings : Source.Bindings) (operand : List Char) : Option String :=
  match bindings.expandKnown operand with
  | [value] => some value.label
  | _ => none

/-- The edge that a call adds. -/
def edgeOfCall? (line : Source.Line) (bindings : Source.Bindings) (call : Source.Call) :
    Option (Edge Float) :=
  if call.name == "add_edge" then do
    let (u, v, w) ← match call.args with
      | [u, v] => some (u, v, none)
      | [u, v, w] => some (u, v, some w)
      | _ => none
    if line.isDefinition call.receiver (some u) || line.isDefinition none (some v) then none
    else
      let source ← nodeOf? bindings u
      let target ← nodeOf? bindings v
      return ⟨source, target, w.bind fun w => (Literal.lenient w).float?⟩
  else none

/-- The edges that the calls of a program add. -/
def edgesOfCalls (code : String) : List (Edge Float) :=
  (Source.boundLines code).flatMap fun (line, bindings) =>
    (Source.calls line.text).filterMap (edgeOfCall? line bindings)

/-- The program speaks of a directed graph. -/
def isDirected (code : String) : Bool :=
  Text.contains code "directed" && !Text.contains code "undirected"

/-- Adds an edge, and also its opposite unless the graph is directed. -/
def connectBoth (directed : Bool) (graph : Adjacency Float) (edge : Edge Float) :
    Adjacency Float :=
  let graph := graph.connect edge.source edge.target edge.weight
  if directed then graph else graph.connect edge.target edge.source edge.weight

/-- The graph of the calls that add edges. -/
def graphOfCalls? (code : String) : Option (Adjacency Float) :=
  let graph := (edgesOfCalls code).foldl (connectBoth (isDirected code)) .empty
  if graph.nodes.isEmpty then none else some graph

/-- The graph that a program declares. -/
def declared? (code : String) : Option (Adjacency Float) :=
  ((Text.lineStarts code.toList).findSome? assignedGraph?).orElse fun _ => graphOfCalls? code

/-- What the name of a traversal contains. -/
def traversalWords : List String :=
  ["bfs", "dfs", "dijkstra", "breadth_first", "depth_first", "traverse"]

/-- The node from which a call starts a traversal. -/
def startOfCall? (graph : Adjacency Float) (line : Source.Line) (call : Source.Call) :
    Option String :=
  let name := Text.asciiLower call.name
  if !(traversalWords.any fun word => Text.contains name word) ||
      line.isDefinition call.receiver call.args.head? then none
  else
    let operand? := match call.args with
      | _ :: second :: _ => some second
      | args => args.head?
    match operand? with
    | none => none
    | some operand =>
      let label := (Literal.lenient operand).label
      if label ∈ graph.nodes then some label else none

/-- The node from which a call of the program starts a traversal. -/
def startOfCalls? (graph : Adjacency Float) (code : String) : Option String :=
  ((Source.scan code).filter fun line => !line.isHeader && !line.inClass).findSome? fun line =>
    (Source.calls line.text).findSome? (startOfCall? graph line)

/-- The text without a quote at its front. -/
def dropQuote : List Char → List Char
  | [] => []
  | c :: cs => if Source.isQuote c then cs else c :: cs

/-- The line ends here, after blanks. -/
def lineEnds (text : List Char) : Bool :=
  (text.dropWhile Text.isBlank).isEmpty || (text.takeWhile Text.isBlank).contains '\n'

/-- The word that is assigned to one of the names of a start node at the front of the text. -/
def startAssignment? (text : List Char) : Option String := do
  let rest ← ["start", "start_node", "source", "src"].findSome? fun name =>
    (Text.dropPrefix? name.toList (text.dropWhile Text.isBlank)).bind (Text.blanksThen? '=')
  let (word, rest) ← Text.someRun? Text.isWord (dropQuote (rest.dropWhile Text.isBlank))
  if lineEnds (dropQuote rest) then some (String.ofList word) else none

/-- The start node that the first assignment of one names, if it is a node. -/
def assignedStart? (graph : Adjacency Float) (code : String) : Option String :=
  match (Text.lineStarts code.toList).findSome? startAssignment? with
  | some label => if label ∈ graph.nodes then some label else none
  | none => none

/-- The node to start from. -/
def startNode? (graph : Adjacency Float) (code : String) : Option String :=
  ((startOfCalls? graph code).orElse fun _ => assignedStart? graph code).orElse fun _ =>
    graph.nodes.head?

end Storyboard.Graph
