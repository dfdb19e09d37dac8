import Storyboard.Proofs.Literal.IntegerList
import Storyboard.Proofs.Sorting.Checked
import Storyboard.Proofs.Sorting.Exchange
import Storyboard.Proofs.Sorting.Heap
import Storyboard.Proofs.Sorting.Merge
import Storyboard.Proofs.Sorting.Quick
import Storyboard.Proofs.Sorting.Trace
import Storyboard.Source.Hints

/-!
# What a sort does, from the text of a program to its last step

The results of the algorithms put together: a run of any kind of sort, on any array, stays within the
array, ends in its values in order, and marks every position.  A program that assigns a list of
integers to `arr` has that list sorted, whatever comes after it.
-/

/-! ## The array that a program declares -/

namespace Storyboard.Source

/-- A list of integers is found where it stands. -/
theorem intListAt?_integers (v : Int) (values : List Int)
    (h : ∀ w ∈ v :: values, Decimal.fitsInt64 w = true) (rest : List Char) :
    intListAt? ('[' :: (Literal.itemsText (v :: values) ++ ']' :: rest)) = some (v :: values) := by
  have hmap : ∀ l : List Int, (∀ w ∈ l, Decimal.fitsInt64 w = true) →
      (l.map fun w => Literal.int (Int64.ofInt w)).mapM
        (fun item => (Literal.int? item).map Int64.toInt) = some l := by
    intro l hl
    induction l with
    | nil => rfl
    | cons w l ih =>
      rw [List.map_cons, List.mapM_cons, ih fun u hu => hl u (List.mem_cons_of_mem _ hu)]
      show some ((Int64.ofInt w).toInt :: l) = _
      rw [Decimal.toInt_ofInt (hl w List.mem_cons_self)]
  unfold intListAt?
  rw [Literal.readAt_integers v values h rest, List.map_cons]
  exact hmap (v :: values) h

/-- A text starts its first line. -/
theorem exists_lineStarts_eq (cs : List Char) : ∃ later, Text.lineStarts cs = cs :: later := by
  cases cs with
  | nil => exact ⟨[], rfl⟩
  | cons c cs => exact ⟨_, rfl⟩

/-- A list that is assigned to `arr` in the first line is the array of the program. -/
theorem declaredArray_eq {code : String} {values : List Int} {rest : List Char}
    (hcode : code.toList = "arr = [".toList ++ (Literal.itemsText values ++ ']' :: rest))
    (hne : values ≠ []) (h : ∀ v ∈ values, Decimal.fitsInt64 v = true) :
    declaredArray code = values := by
  obtain ⟨v, values, rfl⟩ := List.exists_cons_of_ne_nil hne
  have hfound : (arrayAssignment? code.toList).bind intListAt? = some (v :: values) := by
    rw [hcode]
    exact intListAt?_integers v values h rest
  have hassigned : assignedArray? code = some (v :: values) := by
    obtain ⟨later, hlines⟩ := exists_lineStarts_eq code.toList
    unfold assignedArray?
    rw [hlines, List.findSome?_cons, hfound]
  unfold declaredArray declaredArray?
  rw [hassigned]
  rfl

end Storyboard.Source

/-! ## Its sort -/

namespace Storyboard.Sorting

variable {n : Nat} {start : Vector Int n}

theorem sort_sorts (kind : SortKind) (r : Recording start) : Sorts r (sort kind r) := by
  cases kind with
  | selection => exact selection_sorts r
  | insertion => exact insertion_sorts r
  | merge => exact merge_sorts r
  | quick => exact quick_sorts r
  | heap => exact heap_sorts r
  | bubble => exact bubble_sorts r
  | generic => exact bubble_sorts r

/-- The steps end in one mark for every position, from the first to the last, each with the array
`final`, and there is no mark before them. -/
def EndsMarked (final : Vector Int n) (steps : List Step) : Prop :=
  ∃ earlier : List Step, (∀ step ∈ earlier, step.action ≠ "mark_sorted") ∧
    steps = earlier ++ (List.finRange n).map (markStep final)

/-- A run is what it should be. -/
structure RunSorts (kind : SortKind) (start : Vector Int n) : Prop where
  /-- With every position and every difference checked, the run is the same. -/
  checked : run? kind start = some (run kind start)
  perm : (run kind start).now.toList.Perm start.toList
  sorted : (run kind start).now.toList.Pairwise (· ≤ ·)
  marked : EndsMarked (run kind start).now (steps kind start)

theorem runSorts (kind : SortKind) (start : Vector Int n) : RunSorts kind start := by
  have hsorts := sort_sorts kind (.empty start)
  have hnow : (run kind start).now = (sort kind (.empty start)).now := markFrom_now 0 _
  constructor
  case checked => exact run?_eq kind start
  case perm =>
    rw [hnow]
    exact hsorts.rearranged.perm
  case sorted =>
    rw [hnow, ← segment_zero]
    exact sortedOn_iff_pairwise.mp hsorts.sorted
  case marked => exact steps_eq kind start

theorem toList_arrayText (values : List Int) :
    (arrayText values).toList = '[' :: (Literal.itemsText values ++ [']']) := by
  unfold arrayText Literal.itemsText
  rw [String.toList_append, String.toList_append, String.toList_intercalate, List.map_map]
  rfl

/-- The story of a program that assigns a list to `arr` is that of sorting the list. -/
theorem simulate_steps (kind : SortKind) {values : List Int} (hne : values ≠ [])
    (h : ∀ v ∈ values, Decimal.fitsInt64 v = true) (rest : String) :
    (simulate kind ("arr = " ++ arrayText values ++ rest)).steps =
      steps (algorithm kind ("arr = " ++ arrayText values ++ rest)) values.toArray.toVector := by
  have hcode : ("arr = " ++ arrayText values ++ rest).toList =
      "arr = [".toList ++ (Literal.itemsText values ++ ']' :: rest.toList) := by
    rw [String.toList_append, String.toList_append, toList_arrayText]
    simp
  unfold simulate
  rw [Source.declaredArray_eq hcode hne h]

/-- Every run sorts its array, and the story of a program that assigns a list of 64-bit integers to
`arr` ends in the marks of that list in order. -/
theorem sorts_every_array (kind : SortKind) :
    (∀ (n : Nat) (start : Vector Int n), RunSorts kind start) ∧
    ∀ (values : List Int) (rest : String), values ≠ [] →
      (∀ v ∈ values, Decimal.fitsInt64 v = true) →
      ∃ (n : Nat) (final : Vector Int n), final.toList.Perm values ∧
        final.toList.Pairwise (· ≤ ·) ∧
        EndsMarked final (simulate kind ("arr = " ++ arrayText values ++ rest)).steps := by
  refine ⟨fun n start => runSorts kind start, ?_⟩
  intro values rest hne h
  have hrun := runSorts (algorithm kind ("arr = " ++ arrayText values ++ rest))
    values.toArray.toVector
  rw [simulate_steps kind hne h rest]
  exact ⟨_, _, hrun.perm, hrun.sorted, hrun.marked⟩

theorem sorts_every_array_three :
    ([3, -1, 3] : List Int) ≠ [] ∧ (∀ v ∈ ([3, -1, 3] : List Int), Decimal.fitsInt64 v = true) ∧
      ∃ (n : Nat) (final : Vector Int n), final.toList.Perm [3, -1, 3] ∧
        final.toList.Pairwise (· ≤ ·) ∧
        EndsMarked final (simulate .quick ("arr = " ++ arrayText [3, -1, 3] ++ "\n")).steps :=
  ⟨by decide, by decide, (sorts_every_array .quick).2 [3, -1, 3] "\n" (by decide) (by decide)⟩

end Storyboard.Sorting
