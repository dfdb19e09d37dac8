import Storyboard.Sorting.Recording

/-!
# Merge sort

Two sorted halves are copied out and merged back; of equal values the one of the left half comes
first.
-/

namespace Storyboard.Sorting

variable {n : Nat} {start : Vector Int n}

/-- Writes values from position `k` on. -/
def writeFrom : (k : Nat) → (values : List Int) → k + values.length ≤ n →
    Recording start → Recording start
  | _, [], _, r => r
  | k, value :: rest, h, r =>
    have hk : k < n := by simp only [List.length_cons] at h; omega
    writeFrom (k + 1) rest (by simp only [List.length_cons] at h; omega)
      (r.add (.write ⟨k, hk⟩ value))

/-- Merges what is left of two halves into the positions from `k` on; `i` and `j` are the positions
that the first values of the halves came from. -/
def mergeHalves : (k i j : Nat) → (left right : List Int) →
    k + (left.length + right.length) ≤ n → Recording start → Recording start
  | k, _, _, [], right, h, r => writeFrom k right (Nat.zero_add right.length ▸ h) r
  | k, _, _, left, [], h, r => writeFrom k left (Nat.add_zero left.length ▸ h) r
  | k, i, j, a :: left, b :: right, h, r =>
    have hk : k < n := by simp only [List.length_cons] at h; omega
    let r := r.add (.compareHalves i j a b)
    -- of equal values the one of the left half is written first
    if b < a then
      mergeHalves (k + 1) i (j + 1) (a :: left) right
        (by simp only [List.length_cons] at h ⊢; omega) (r.add (.write ⟨k, hk⟩ b))
    else
      mergeHalves (k + 1) (i + 1) j left (b :: right)
        (by simp only [List.length_cons] at h ⊢; omega) (r.add (.write ⟨k, hk⟩ a))
termination_by _ _ _ left right => left.length + right.length

/-- The values from position `first` up to, but without, position `stop`. -/
def segment (arr : Vector Int n) (first stop : Nat) : List Int :=
  (arr.toList.take stop).drop first

theorem length_segment (arr : Vector Int n) {first stop : Nat} (h : stop ≤ n) :
    (segment arr first stop).length = stop - first := by
  simp [segment, Nat.min_eq_left h]

/-- Sorts the positions from `first` up to, but without, `stop`. -/
def mergeSegment (first stop : Nat) (h : stop ≤ n) (r : Recording start) : Recording start :=
  if hs : first + 2 ≤ stop then
    let middle := first + (stop - first) / 2
    let r := mergeSegment first middle (by omega) r
    let r := mergeSegment middle stop h r
    let r := mergeHalves first first middle (segment r.now first middle) (segment r.now middle stop)
      (by rw [length_segment _ (by omega), length_segment _ h]; omega) r
    r.add (.merged first (stop - 1))
  else r
termination_by stop - first

/-- Merge sort. -/
def merge (r : Recording start) : Recording start := mergeSegment 0 n (Nat.le_refl n) r

end Storyboard.Sorting
