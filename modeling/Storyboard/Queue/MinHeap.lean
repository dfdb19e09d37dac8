import Storyboard.Literal.Order

/-!
# Binary min-heaps

The entries of a heap stand in a vector: the children of position `i` are at `2 * i + 1` and
`2 * i + 2`.  Entries are ordered by priority and, among equal priorities, by arrival.
-/

namespace Storyboard.Queue

/-- A stored item with its priority and its number in the order of arrival. -/
structure Entry where
  priority : Literal
  item : Literal
  arrival : Nat

namespace Entry

/-- Compares by priority and then by arrival. -/
def cmp (a b : Entry) : Ordering := (a.priority.cmp b.priority).then (compare a.arrival b.arrival)

/-- Comes strictly before. -/
def before (a b : Entry) : Bool := cmp a b == .lt

end Entry

/-- A heap of entries. -/
structure MinHeap where
  size : Nat
  entries : Vector Entry size
  /-- The number that the next entry gets. -/
  arrivals : Nat

namespace MinHeap

/-- The heap without entries. -/
def empty : MinHeap := ⟨0, #v[], 0⟩

/-- Moves an entry up past the parents that come after it. -/
def siftUp {n : Nat} (entries : Vector Entry n) (i : Nat) (h : i < n) : Vector Entry n :=
  if i = 0 then entries
  else
    have parent_lt : (i - 1) / 2 < n := by omega
    if entries[i].before entries[(i - 1) / 2] then
      siftUp (entries.swap i ((i - 1) / 2)) ((i - 1) / 2) parent_lt
    else entries
termination_by i

/-- Of position `i` and position `j` the one whose entry comes first, `i` when they are equal or
`j` is no position. -/
def firstOf {n : Nat} (entries : Vector Entry n) (i : Fin n) (j : Nat) : Fin n :=
  if h : j < n then if entries[j].before entries[i] then ⟨j, h⟩ else i else i

/-- The position among `i` and its children whose entry comes first. -/
def firstOfFamily {n : Nat} (entries : Vector Entry n) (i : Fin n) : Fin n :=
  firstOf entries (firstOf entries i (2 * i + 1)) (2 * i + 2)

theorem le_firstOfFamily {n : Nat} (entries : Vector Entry n) (i : Fin n) :
    i ≤ firstOfFamily entries i := by
  simp only [firstOfFamily, firstOf]
  split <;> split <;> (try split) <;> (try split) <;> simp only [Fin.le_def] <;> omega

/-- Moves an entry down past the children that come before it. -/
def siftDown {n : Nat} (entries : Vector Entry n) (i : Fin n) : Vector Entry n :=
  let j := firstOfFamily entries i
  if h : j = i then entries
  else
    have : i.val < j.val := by
      have := le_firstOfFamily entries i
      simp only [Fin.le_def, Fin.ext_iff] at *
      omega
    siftDown (entries.swap i j) j
termination_by n - i.val

/-- The heap with one more item. -/
def push (heap : MinHeap) (priority item : Literal) : MinHeap :=
  ⟨heap.size + 1,
    siftUp (heap.entries.push ⟨priority, item, heap.arrivals⟩) heap.size (Nat.lt_succ_self _),
    heap.arrivals + 1⟩

/-- The entry that comes first. -/
def peek? (heap : MinHeap) : Option Entry := heap.entries[0]?

/-- The entry that comes first, and the heap without it. -/
def pop? (heap : MinHeap) : Option (Entry × MinHeap) :=
  match heap with
  | ⟨0, _, _⟩ => none
  | ⟨1, entries, arrivals⟩ => some (entries[0], ⟨0, #v[], arrivals⟩)
  | ⟨n + 2, entries, arrivals⟩ =>
    let swapped := entries.swap 0 (n + 1)
    some (swapped[n + 1], ⟨n + 1, siftDown swapped.pop 0, arrivals⟩)

/-- The items in the order in which the heap holds them. -/
def items (heap : MinHeap) : List Literal := heap.entries.toList.map Entry.item

end MinHeap

end Storyboard.Queue
