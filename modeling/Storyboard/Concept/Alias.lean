import Storyboard.Concept.Normalize

/-!
# Other spellings

A label may be one of a few spellings that name no family word; those are looked up by their ASCII
letters and digits before the label is normalized.
-/

namespace Storyboard.Concept

/-- The spellings, reduced to lower-case letters and digits, and what they stand for. -/
def aliases : List (String × Concept) := [
  ("doubleended", .queue .deque), ("doubleendedqueue", .queue .deque),
  ("circulardeque", .queue .circularDeque), ("dequecircular", .queue .circularDeque),
  ("circularqueue", .queue .circular), ("queuecircular", .queue .circular),
  ("ringbuffer", .queue .circular),
  ("linearqueue", .queue .linear), ("queuelinear", .queue .linear),
  ("simplequeue", .queue .linear), ("fifo", .queue .linear),
  ("priorityqueue", .queue .priority), ("queuepriority", .queue .priority),
  ("pq", .queue .priority), ("minheap", .queue .priority), ("heapq", .queue .priority),
  ("kqueues", .queue .multiple), ("kqueue", .queue .multiple),
  ("multiplequeues", .queue .multiple),
  ("bst", .tree .bst), ("binarysearchtree", .tree .bst),
  ("avl", .tree .avl), ("avltree", .tree .avl),
  ("rbt", .tree .redBlack), ("redblack", .tree .redBlack), ("redblacktree", .tree .redBlack),
  ("btree", .tree .bTree),
  ("bfs", .graph .bfs), ("graphbfs", .graph .bfs), ("breadthfirstsearch", .graph .bfs),
  ("dfs", .graph .dfs), ("graphdfs", .graph .dfs), ("depthfirstsearch", .graph .dfs),
  ("dijkstra", .graph .weighted), ("shortestpath", .graph .weighted),
  ("lifo", .stack)]

/-- The ASCII letters and digits of a label. -/
def aliasKey (label : String) : String := String.ofList (label.toList.filter Char.isAlphanum)

/-- The concept of a label: a known spelling, or the normalized label. -/
def resolve (label : String) : Concept :=
  let lowered := Text.lower (Text.trimmed label)
  (aliases.lookup (aliasKey lowered)).getD (parse lowered)

/-- A label outside the vocabulary is resolved once more. -/
def reconsider : Concept → Concept
  | .other label => resolve label
  | concept => concept

end Storyboard.Concept
