/-!
# Concepts

The closed vocabulary of data structures and algorithms: a family and a variant within it.  Every
concept has a label, a family and an animator; what belongs to no family keeps its own label.
-/

namespace Storyboard

/-- Kinds of queue. -/
inductive QueueKind where
  | linear
  | circular
  | priority
  | deque
  | circularDeque
  | inputRestrictedDeque
  | outputRestrictedDeque
  | doublePriority
  | multiple
  deriving DecidableEq

/-- Kinds of linked list. -/
inductive ListKind where
  | singly
  | doubly
  | circularSingly
  | circularDoubly
  deriving DecidableEq

/-- Kinds of tree. -/
inductive TreeKind where
  | generic
  | bst
  | avl
  | redBlack
  | bTree
  deriving DecidableEq

/-- Kinds of graph traversal. -/
inductive GraphKind where
  | generic
  | bfs
  | dfs
  | weighted
  deriving DecidableEq

/-- Sorting algorithms. -/
inductive SortKind where
  | generic
  | bubble
  | selection
  | insertion
  | merge
  | quick
  | heap
  deriving DecidableEq

/-- Searching algorithms. -/
inductive SearchKind where
  | generic
  | binary
  | linear
  deriving DecidableEq

/-- A family and its variant, nothing known, or a label outside the vocabulary. -/
inductive Concept where
  | stack
  | queue (kind : QueueKind)
  | linkedList (kind : ListKind)
  | tree (kind : TreeKind)
  | graph (kind : GraphKind)
  | sorting (kind : SortKind)
  | searching (kind : SearchKind)
  | unknown
  | other (label : String)
  deriving DecidableEq

/-- The coarse family of a concept. -/
inductive Family where
  | stack
  | queue
  | linkedList
  | tree
  | graph
  | sorting
  | searching
  | unknown
  deriving DecidableEq

/-- The animator that plays a story. -/
inductive Animator where
  | priorityQueue
  | circularDeque
  | deque
  | circularQueue
  | linearQueue
  | circularDoubly
  | circularSingly
  | doubly
  | singly
  | stack
  | tree
  | bTree
  | bst
  | bfs
  | dfs
  | weightedGraph
  | graph
  | sort
  | generic
  deriving DecidableEq

namespace QueueKind

/-- What follows `queue-` in the label. -/
def suffix : QueueKind → String
  | linear => "linear"
  | circular => "circular"
  | priority => "priority"
  | deque => "deque"
  | circularDeque => "circular-deque"
  | inputRestrictedDeque => "input-restricted-deque"
  | outputRestrictedDeque => "output-restricted-deque"
  | doublePriority => "double-priority"
  | multiple => "kqueues"

end QueueKind

namespace ListKind

/-- What follows `linkedlist-` in the label. -/
def suffix : ListKind → String
  | singly => "singly"
  | doubly => "doubly"
  | circularSingly => "circular-singly"
  | circularDoubly => "circular-doubly"

/-- The last node links back to the first. -/
def isCircular : ListKind → Bool
  | circularSingly | circularDoubly => true
  | singly | doubly => false

/-- Every node links back to the one before. -/
def isDoubly : ListKind → Bool
  | doubly | circularDoubly => true
  | singly | circularSingly => false

end ListKind

namespace SortKind

/-- The name of the algorithm. -/
def name : SortKind → String
  | generic => "sorting"
  | bubble => "bubble"
  | selection => "selection"
  | insertion => "insertion"
  | merge => "merge"
  | quick => "quick"
  | heap => "heap"

end SortKind

namespace Concept

/-- The canonical label. -/
def label : Concept → String
  | stack => "stack"
  | queue kind => "queue-" ++ kind.suffix
  | linkedList kind => "linkedlist-" ++ kind.suffix
  | tree .generic => "tree"
  | tree .bst => "tree-bst"
  | tree .avl => "tree-avl"
  | tree .redBlack => "tree-redblack"
  | tree .bTree => "tree-btree"
  | graph .generic => "graph"
  | graph .bfs => "graph-bfs"
  | graph .dfs => "graph-dfs"
  | graph .weighted => "graph-weighted"
  | sorting .generic => "sorting"
  | sorting kind => "sorting-" ++ kind.name
  | searching .generic => "searching"
  | searching .binary => "searching-binary"
  | searching .linear => "searching-linear"
  | unknown => "unknown"
  | other text => text

/-- The family. -/
def family : Concept → Family
  | stack => .stack
  | queue _ => .queue
  | linkedList _ => .linkedList
  | tree _ => .tree
  | graph _ => .graph
  | sorting _ => .sorting
  | searching _ => .searching
  | unknown | other _ => .unknown

/-- The animator. -/
def animator : Concept → Animator
  | stack => .stack
  | queue .priority | queue .doublePriority => .priorityQueue
  | queue .circularDeque => .circularDeque
  | queue .deque | queue .inputRestrictedDeque | queue .outputRestrictedDeque => .deque
  | queue .circular => .circularQueue
  | queue .linear | queue .multiple => .linearQueue
  | linkedList .circularDoubly => .circularDoubly
  | linkedList .doubly => .doubly
  | linkedList .circularSingly => .circularSingly
  | linkedList .singly => .singly
  | tree .bTree => .bTree
  | tree .bst => .bst
  | tree .avl | tree .redBlack | tree .generic => .tree
  | graph .bfs => .bfs
  | graph .dfs => .dfs
  | graph .weighted => .weightedGraph
  | graph .generic => .graph
  | sorting _ => .sort
  | searching _ | unknown | other _ => .generic

/-- Nothing is known. -/
def isUnknown : Concept → Bool
  | unknown => true
  | _ => false

end Concept

namespace Family

/-- The name of a family. -/
def name : Family → String
  | stack => "stack"
  | queue => "queue"
  | linkedList => "linkedlist"
  | tree => "tree"
  | graph => "graph"
  | sorting => "sorting"
  | searching => "searching"
  | unknown => "unknown"

/-- All families. -/
def all : List Family :=
  [stack, queue, linkedList, tree, graph, sorting, searching, unknown]

/-- The families that a strict classifier may answer with. -/
def strict : List Family := [stack, queue, linkedList, tree, graph, sorting, searching]

/-- The family of a name. -/
def ofName? (name : String) : Option Family := all.find? fun family => family.name == name

end Family

namespace Animator

/-- The name of an animator. -/
def name : Animator → String
  | priorityQueue => "PriorityQueue"
  | circularDeque => "CircularDequeAnimator"
  | deque => "DequeAnimator"
  | circularQueue => "CircularQueue"
  | linearQueue => "LinearQueue"
  | circularDoubly => "CircularDoubly"
  | circularSingly => "CircularSingly"
  | doubly => "Doubly"
  | singly => "Singly"
  | stack => "StackAnimator"
  | tree => "TreeAnimator"
  | bTree => "BTreeAnimator"
  | bst => "BSTAnimator"
  | bfs => "BFSAnimator"
  | dfs => "DFSAnimator"
  | weightedGraph => "WeightedGraphAnimator"
  | graph => "GraphAnimator"
  | sort => "SortAnimator"
  | generic => "GenericAIAnimator"

/-- All animators. -/
def all : List Animator :=
  [priorityQueue, circularDeque, deque, circularQueue, linearQueue, circularDoubly, circularSingly,
    doubly, singly, stack, tree, bTree, bst, bfs, dfs, weightedGraph, graph, sort, generic]

/-- The animator of a name. -/
def ofName? (name : String) : Option Animator := all.find? fun animator => animator.name == name

end Animator

end Storyboard
