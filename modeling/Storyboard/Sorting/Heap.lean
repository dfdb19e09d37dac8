import Storyboard.Sorting.Recording

/-!
# Heap sort

The positions are made a heap with the greatest value at its root, which then goes to the end of
what is left again and again.
-/

namespace Storyboard.Sorting

variable {n : Nat} {start : Vector Int n}

/-- The position of the greater value of `largest` and a child that lies before `stop`. -/
def greaterChild (stop : Nat) (hs : stop ≤ n) (child : Nat)
    (chosen : Fin n × Recording start) : Fin n × Recording start :=
  if h : child < stop then
    let (largest, r) := chosen
    let below : Fin n := ⟨child, Nat.lt_of_lt_of_le h hs⟩
    let r := r.add (.compare largest below)
    if r.now.get largest < r.now.get below then (below, r) else (largest, r)
  else chosen

theorem greaterChild_fst (stop : Nat) (hs : stop ≤ n) (child : Nat)
    (chosen : Fin n × Recording start) :
    (greaterChild stop hs child chosen).1 = chosen.1 ∨
      ((greaterChild stop hs child chosen).1 : Nat) = child ∧ child < stop := by
  unfold greaterChild
  split
  · dsimp only
    split
    · right; exact ⟨rfl, by assumption⟩
    · left; rfl
  · left; rfl

/-- The position of the greatest value of a node and its children. -/
def largestOfFamily (stop : Nat) (hs : stop ≤ n) (root : Fin n) (r : Recording start) :
    Fin n × Recording start :=
  greaterChild stop hs (2 * root + 2) (greaterChild stop hs (2 * root + 1) (root, r))

theorem largestOfFamily_fst (stop : Nat) (hs : stop ≤ n) (root : Fin n) (r : Recording start) :
    (largestOfFamily stop hs root r).1 = root ∨
      (root : Nat) < (largestOfFamily stop hs root r).1 ∧
        ((largestOfFamily stop hs root r).1 : Nat) < stop := by
  unfold largestOfFamily
  rcases greaterChild_fst stop hs (2 * root + 2) (greaterChild stop hs (2 * root + 1) (root, r))
    with h | h <;>
  rcases greaterChild_fst stop hs (2 * root + 1) (root, r) with h' | h'
  · left; rw [h, h']
  · right; rw [h]; omega
  · right; omega
  · right; omega

/-- Moves the value at `root` down below greater ones. -/
def sink (stop : Nat) (hs : stop ≤ n) (root : Fin n) (r : Recording start) : Recording start :=
  match hf : largestOfFamily stop hs root r with
  | (largest, r') =>
    if h : largest = root then r'
    else
      -- a child stands behind its parent, so the recursion comes to an end
      have := largestOfFamily_fst stop hs root r
      have : (root : Nat) < largest ∧ (largest : Nat) < stop := by simp_all
      sink stop hs largest (r'.add (.swap root largest))
termination_by stop - root

/-- Makes the subtree below `root` a heap, where all below it are heaps. -/
def siftDown (stop : Nat) (hs : stop ≤ n) (root : Fin n) (r : Recording start) : Recording start :=
  sink stop hs root (r.add (.heapify root))

/-- Makes the subtrees below the first `count` positions heaps, from the last one on. -/
def buildHeap : (count : Nat) → count ≤ n → Recording start → Recording start
  | 0, _, r => r
  | count + 1, h, r =>
    buildHeap count (Nat.le_of_succ_le h) (siftDown n (Nat.le_refl n) ⟨count, h⟩ r)

/-- The position of the root of a heap that reaches to a position. -/
def rootOf (i : Fin n) : Fin n := ⟨0, Nat.zero_lt_of_lt i.isLt⟩

/-- Moves the root of a heap behind it, for smaller and smaller heaps. -/
def drainHeap : (last : Nat) → last < n → Recording start → Recording start
  | 0, _, r => r
  | last + 1, h, r =>
    let highest : Fin n := ⟨last + 1, h⟩
    let root := rootOf highest
    drainHeap last (Nat.lt_of_succ_lt h)
      (siftDown (last + 1) (Nat.le_of_lt h) root (r.add (.swap root highest)))

/-- Heap sort. -/
def heap (r : Recording start) : Recording start :=
  let r := buildHeap (n / 2) (Nat.div_le_self n 2) r
  if h : n = 0 then r else drainHeap (n - 1) (Nat.sub_one_lt h) r

end Storyboard.Sorting
