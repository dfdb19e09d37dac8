import Storyboard.Concept.Normalize
import Storyboard.LinkedList.Kind
import Storyboard.Sorting.Simulation
import Storyboard.Syntax.Statement

/-!
# Guessing the concept of a program

Words and shapes of a program speak for a concept, each with a fixed confidence; the most confident
candidate wins.  Among equals the first of all candidates is preferred to the last one, and the last
one to those between.
-/

namespace Storyboard.Classify

/-- A concept with the reason why it was guessed. -/
structure Guess where
  concept : Concept
  /-- The confidence in hundredths. -/
  confidence : Nat
  reason : String

/-- What is known of a program before guessing. -/
structure Cues where
  code : String
  /-- The program in lower case. -/
  lowered : String
  /-- The depth to which its loops are nested. -/
  loopDepth : Nat

namespace Cues

/-- The cues of a program. -/
def ofCode (code : String) : Cues where
  code := code
  lowered := Text.lower code
  loopDepth := Syntax.Statement.depthOf (Syntax.Program.ofCode code.toList).statements

/-- A word occurs in the program. -/
def has (cues : Cues) (word : String) : Bool := Text.contains cues.lowered word

/-- One of the words occurs in the program. -/
def hasAny (cues : Cues) (words : List String) : Bool := words.any cues.has

/-- The program speaks of graphs. -/
def isGraphish (cues : Cues) : Bool := cues.hasAny ["graph", "adj", "edges", "neighbor"]

/-- The program takes items from the front of a list. -/
def takesFront (cues : Cues) : Bool := cues.has ".pop(0)" || cues.has "popleft("

/-- The program appends to a list. -/
def appends (cues : Cues) : Bool := cues.has ".append("

end Cues

/-- What follows a nonempty subscript at the front of the text. -/
def subscript? (text : List Char) : Option (List Char) := do
  let inside ← Text.expect? '[' text
  if inside.head? == some ']' then none
  else Text.expect? ']' (inside.dropWhile (· != ']'))

/-- After the last character of a word, two subscripted words are assigned together from a
subscripted word. -/
def swapAt? (before : Option Char) (text : List Char) : Option Unit := do
  if before.any Text.isWord then
    let rest ← subscript? text
    let rest ← Text.blanksThen? ',' rest
    let (_, rest) ← Text.someRun? Text.isWord (rest.dropWhile Text.isBlank)
    let rest ← subscript? rest
    let rest ← Text.blanksThen? '=' rest
    let (_, rest) ← Text.someRun? Text.isWord (rest.dropWhile Text.isBlank)
    let _ ← Text.expect? '[' rest
    return ()
  else none

/-- The program swaps items of lists. -/
def Cues.swaps (cues : Cues) : Bool :=
  (Text.firstPlace swapAt? none cues.code.toList).isSome || cues.has "swap"

/-- A candidate under a condition. -/
def candidate (condition : Bool) (concept : Concept) (confidence : Nat) (reason : String) :
    List Guess :=
  if condition then [⟨concept, confidence, reason⟩] else []

/-- The first of two alternatives that has candidates. -/
def either (first second : List Guess) : List Guess := if first.isEmpty then second else first

/-- Linked lists and trees. -/
def linkedCandidates (cues : Cues) : List Guess :=
  candidate (cues.has ".next" && cues.has "node")
    (.linkedList (LinkedList.kindOf cues.code .singly)) 88 "node objects linked through .next" ++
  either
    (candidate (cues.hasAny ["btree", "b-tree", "split_child"]) (.tree .bTree) 90
      "b-tree node splitting")
    (candidate (cues.hasAny ["treenode", ".left", ".right"])
      (.tree (if cues.has "insert" then .bst else .generic)) 75 "nodes with .left/.right children")

/-- Traversals of graphs. -/
def graphCandidates (cues : Cues) : List Guess :=
  candidate (cues.has "dijkstra" || cues.has "heapq") (.graph .weighted) 90
    "graph with a distance heap" ++
  candidate (cues.hasAny ["bfs(", "def bfs", "breadth first"] || cues.takesFront) (.graph .bfs) 82
    "graph terms with queue-like ops" ++
  candidate (cues.hasAny ["dfs(", "def dfs", "depth first"] || !cues.takesFront) (.graph .dfs) 80
    "graph terms with recursion or a stack"

/-- Queues and stacks. -/
def queueCandidates (cues : Cues) : List Guess :=
  candidate (cues.has "heapq" || cues.has "priority") (.queue .priority) 86 "heap-ordered queue" ++
  candidate (cues.has "deque(" || cues.has "appendleft")
    (.queue (if cues.has "circular" then .circularDeque else .deque)) 84
    "operations at both ends" ++
  either
    (candidate (cues.has "circular" && cues.has "enqueue") (.queue .circular) 87
      "circular enqueue/dequeue")
    (candidate (cues.has "enqueue" || (cues.appends && cues.takesFront)) (.queue .linear) 85
      "append + pop(0)/popleft pattern") ++
  candidate (cues.has ".push(" || (cues.appends && cues.has ".pop()" && !cues.takesFront)) .stack 80
    "append/push + pop() pattern"

/-- Names of sorting routines. -/
def sortNames : List String :=
  ["merge_sort", "quick_sort", "quicksort", "bubble_sort", "insertion_sort", "selection_sort",
    "heap_sort"]

/-- Sorting and searching. -/
def algorithmCandidates (cues : Cues) : List Guess :=
  let sorting := Concept.sorting ((Sorting.detect? cues.code).getD .generic)
  either
    (candidate (cues.hasAny sortNames) sorting 83 "named sorting routine")
    (candidate (decide (2 ≤ cues.loopDepth) && cues.swaps) sorting 80
      "nested loops + swap-like pattern") ++
  either
    (candidate (cues.has "mid" && cues.hasAny ["low", "left"] && cues.hasAny ["high", "right"])
      (.searching .binary) 78 "halving a low/high range")
    (candidate (cues.has "search") (.searching .linear) 60 "search routine")

/-- All candidates. -/
def candidates (cues : Cues) : List Guess :=
  linkedCandidates cues ++
    (if cues.isGraphish then graphCandidates cues else queueCandidates cues) ++
      algorithmCandidates cues

/-- The most confident of guesses, and the first one among equals. -/
def mostConfident (best : Guess) : List Guess → Guess
  | [] => best
  | next :: rest => mostConfident (if best.confidence < next.confidence then next else best) rest

/-- The guess when nothing speaks for a concept. -/
def lastResort (cues : Cues) : Guess :=
  if 2 ≤ cues.loopDepth then ⟨.sorting .generic, 55, "nested loops heuristic"⟩
  else ⟨.unknown, 40, "no strong signals"⟩

/-- The first candidate, then the last one, then those between: the order in which equals win. -/
def inPreference : List Guess → List Guess
  | [] => []
  | first :: rest => first :: (rest.getLast?.toList ++ rest.dropLast)

/-- The concept that a program most likely is about. -/
def guess (code : String) : Guess :=
  let cues := Cues.ofCode code
  match inPreference (candidates cues) with
  | [] => lastResort cues
  | first :: rest => mostConfident first rest

/-- A confidence with two places. -/
def confidenceText (hundredths : Nat) : String :=
  String.ofList ('0' :: '.' :: (Decimal.natDigits (100 + hundredths)).drop 1)

end Storyboard.Classify
