import Storyboard.Concept.Basic
import Storyboard.Text.Case
import Storyboard.Text.Trim
import Storyboard.Text.Search

/-!
# Finding the concept of a label

A free label and sub-label are folded to lower-case words; the family is looked for in a fixed
order, and the variant within it.  What matches no family keeps its own text as its label.
-/

namespace Storyboard.Concept

/-- The folded words of a label: lower case, separated by blanks, underscores or hyphens. -/
def foldedWords (label : String) : List (List Char) :=
  Text.words ((Text.lower label).toList.map fun c => if c == '_' || c == '-' then ' ' else c)

/-- The folded words joined by single blanks. -/
def joinWords (words : List (List Char)) : List Char := [' '].intercalate words

/-- Two words follow each other. -/
def hasPair (first second : String) : List (List Char) → Bool
  | a :: b :: rest =>
    (a == first.toList && b == second.toList) || hasPair first second (b :: rest)
  | _ => false

/-- A folded label: its words, and their text. -/
structure Folded where
  words : List (List Char)
  text : List Char

namespace Folded

/-- The folded form of a label. -/
def ofLabel (label : String) : Folded :=
  let words := foldedWords label
  ⟨words, joinWords words⟩

/-- The text holds `needle`. -/
def has (f : Folded) (needle : String) : Bool := Text.occursIn needle.toList f.text

/-- Some whole word is `w`. -/
def hasWord (f : Folded) (w : String) : Bool := f.words.contains w.toList

end Folded

/-- Whole-word `kqueue`, `kqueues`, `k queue` or `k queues`. -/
def isMultipleQueues (f : Folded) : Bool :=
  f.hasWord "kqueue" || f.hasWord "kqueues" || hasPair "k" "queue" f.words ||
    hasPair "k" "queues" f.words

/-- The kind of queue. -/
def queueKind (f : Folded) : QueueKind :=
  let deque := f.has "deque" || f.has "double ended" || f.has "doubleended"
  if f.has "input restricted" || f.has "inputrestricted" then .inputRestrictedDeque
  else if f.has "output restricted" || f.has "outputrestricted" then .outputRestrictedDeque
  else if f.has "double priority" || (deque && f.has "priority") || f.hasWord "depq" then
    .doublePriority
  else if isMultipleQueues f || f.has "multiple queue" then .multiple
  else if f.has "circular" && deque then .circularDeque
  else if f.has "priority" then .priority
  else if deque then .deque
  else if f.has "circular" then .circular
  else .linear

/-- The kind of linked list. -/
def listKind (f : Folded) : ListKind :=
  match f.has "circular", f.has "doubly" || f.has "double" with
  | true, true => .circularDoubly
  | false, true => .doubly
  | true, false => .circularSingly
  | false, false => .singly

/-- The kind of tree. -/
def treeKind (f : Folded) : TreeKind :=
  if f.has "redblack" || f.has "red black" || f.hasWord "rbt" then .redBlack
  else if f.hasWord "avl" then .avl
  else if f.has "btree" || hasPair "b" "tree" f.words then .bTree
  else if f.hasWord "bst" || f.has "binary search" then .bst
  else .generic

/-- The kind of graph. -/
def graphKind (f : Folded) : GraphKind :=
  if f.hasWord "bfs" || f.has "breadth" then .bfs
  else if f.hasWord "dfs" || f.has "depth" then .dfs
  else if f.has "weighted" || f.has "dijkstra" then .weighted
  else .generic

/-- The sorting algorithm. -/
def sortKind (f : Folded) : SortKind :=
  if f.has "bubble" then .bubble
  else if f.has "selection" then .selection
  else if f.has "insertion" then .insertion
  else if f.has "merge" then .merge
  else if f.has "quick" then .quick
  else if f.has "heap" then .heap
  else .generic

/-- The searching algorithm. -/
def searchKind (f : Folded) : SearchKind :=
  if f.has "binary" then .binary
  else if f.has "linear" || f.has "sequential" then .linear
  else .generic

/-- The concept whose family a folded label names. -/
def ofFolded? (f : Folded) : Option Concept :=
  if f.has "linked" then some (.linkedList (listKind f))
  else if f.has "queue" || f.has "deque" then some (.queue (queueKind f))
  else if f.has "tree" then some (.tree (treeKind f))
  else if f.has "graph" then some (.graph (graphKind f))
  else if f.has "sort" then some (.sorting (sortKind f))
  else if f.has "search" then some (.searching (searchKind f))
  else if f.has "stack" then some .stack
  else none

/-- The concept of a label that names no family. -/
def ofUnmatched (label : String) : Concept :=
  let raw := Text.lower (Text.trimmed label)
  if (foldedWords raw).isEmpty || raw == "unknown" then .unknown else .other raw

/-- The concept of a label and a sub-label. -/
def normalize (label sub : String) : Concept :=
  let f := Folded.ofLabel (label ++ " " ++ sub)
  if f.words.isEmpty then .unknown
  else (ofFolded? f).getD (ofUnmatched label)

/-- The concept of a single label. -/
def parse (label : String) : Concept := normalize label ""

end Storyboard.Concept
