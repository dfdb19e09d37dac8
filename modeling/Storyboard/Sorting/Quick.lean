import Storyboard.Sorting.Recording

/-!
# Quick sort

The last value of a segment is the pivot; the smaller ones are gathered at the front, and the pivot
is put behind them.
-/

namespace Storyboard.Sorting

variable {n : Nat} {start : Vector Int n}

/-- Exchanges two different positions. -/
def swapDistinct (i j : Fin n) (r : Recording start) : Recording start :=
  if i = j then r else r.add (.swap i j)

/-- Gathers the values below the pivot from position `j` on behind those already gathered, which
end at `store`. -/
def gather (last : Fin n) (pivot : Int) (first store j : Nat) (hf : first ≤ store) (hs : store ≤ j)
    (hj : j ≤ last) (r : Recording start) :
    { place : Fin n // first ≤ place ∧ place ≤ last } × Recording start :=
  if h : j < last then
    let here : Fin n := ⟨j, Nat.lt_trans h last.isLt⟩
    let r := r.add (.compare here last)
    if r.now.get here < pivot then
      gather last pivot first (store + 1) (j + 1) (Nat.le_succ_of_le hf) (Nat.succ_le_succ hs) h
        (swapDistinct ⟨store, Nat.lt_of_le_of_lt hs here.isLt⟩ here r)
    else gather last pivot first store (j + 1) hf (Nat.le_succ_of_le hs) h r
  else
    have hl : store ≤ last := Nat.le_trans hs hj
    (⟨⟨store, Nat.lt_of_le_of_lt hl last.isLt⟩, hf, hl⟩, r)
termination_by last - j

/-- Sorts the positions from `first` to `last`. -/
def quickSegment (first last : Nat) (h : last < n) (r : Recording start) : Recording start :=
  if hl : first < last then
    let lowest : Fin n := ⟨first, Nat.lt_trans hl h⟩
    let highest : Fin n := ⟨last, h⟩
    let pivot := r.now.get highest
    let (⟨place, hp⟩, r) := gather highest pivot first first first (Nat.le_refl _) (Nat.le_refl _)
      (by simp only [highest]; omega) (r.add (.pivot lowest highest pivot))
    have : place.val ≤ last := hp.2
    let r := (swapDistinct place highest r).add (.partition place pivot)
    -- the position before the pivot exists only when the front part is not empty
    let r := if first < place then quickSegment first (place - 1) (by omega) r else r
    quickSegment (place + 1) last h r
  else r
termination_by last + 1 - first

/-- Quick sort. -/
def quick (r : Recording start) : Recording start :=
  if h : n = 0 then r else quickSegment 0 (n - 1) (Nat.sub_one_lt h) r

end Storyboard.Sorting
