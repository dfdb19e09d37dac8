import Storyboard.Memory.Similarity
import Storyboard.Proofs.Decimal.Rounding
import Storyboard.Proofs.Memory.EditDistance

/-!
# Rows of distances

Behind every beginning of the first text stands a row: the distances of this beginning to all
beginnings of the second text.  As the distance does not depend on the direction of reading, such a
row follows from the one before by the recursion of the distance (`nextRow_rowOf`), and the last cell
of the last row is the distance of the texts (`distance_eq_editDistance`).  Two rows that change
places are enough: what is left in a row from an earlier turn is written over before it is read
(`distanceInRows?_eq`).  Set against the longer text the distance is a part of one, and rounding keeps
the ratio between zero and one (`ratio_mem_unitInterval`).
-/

namespace Storyboard.Similarity

/-! ## Rows -/

/-- The distances of a text to the beginnings of another that lie behind `passed`; both texts stand
backwards. -/
def cellsBehind (taken passed : List Char) : List Char → List Nat
  | [] => []
  | d :: ds => editDistance taken (d :: passed) :: cellsBehind taken (d :: passed) ds

/-- The distances of what has been taken to all beginnings of a text. -/
def rowOf (taken b : List Char) : List Nat := editDistance taken [] :: cellsBehind taken [] b

theorem length_cellsBehind (taken passed ds : List Char) :
    (cellsBehind taken passed ds).length = ds.length := by
  induction ds generalizing passed with
  | nil => rfl
  | cons d ds ih => rw [cellsBehind, List.length_cons, ih, List.length_cons]

theorem length_rowOf (taken b : List Char) : (rowOf taken b).length = b.length + 1 := by
  rw [rowOf, List.length_cons, length_cellsBehind]

theorem rowCells_cellsBehind (c : Char) (taken passed ds : List Char) :
    rowCells c (editDistance taken passed) (editDistance (c :: taken) passed) ds
      (cellsBehind taken passed ds) = cellsBehind (c :: taken) passed ds := by
  induction ds generalizing passed with
  | nil => rfl
  | cons d ds ih =>
    rw [cellsBehind, cellsBehind, rowCells, ← editDistance_cons_cons, ih]

/-- The recursion of the distance makes the row of one more character from a row. -/
theorem nextRow_rowOf (c : Char) (taken b : List Char) :
    nextRow b (rowOf taken b) c = rowOf (c :: taken) b := by
  have hfirst : editDistance taken [] + 1 = editDistance (c :: taken) [] := by
    rw [editDistance_nil_right, editDistance_nil_right, List.length_cons]
  rw [rowOf, rowOf, nextRow, hfirst, rowCells_cellsBehind]

theorem foldl_nextRow (a taken b : List Char) :
    a.foldl (nextRow b) (rowOf taken b) = rowOf (a.reverse ++ taken) b := by
  induction a generalizing taken with
  | nil => rfl
  | cons c a ih =>
    rw [List.foldl_cons, nextRow_rowOf, ih, List.reverse_cons, List.append_assoc]
    rfl

/-- Nothing is as far from a text as the text is long. -/
theorem rowOf_nil (b : List Char) : rowOf [] b = List.range (b.length + 1) := by
  have hcells : ∀ passed ds : List Char,
      cellsBehind [] passed ds = List.range' (passed.length + 1) ds.length := by
    intro passed ds
    induction ds generalizing passed with
    | nil => rfl
    | cons d ds ih =>
      rw [cellsBehind, editDistance_nil_left, ih, List.length_cons, List.length_cons,
        List.range'_succ]
  rw [rowOf, editDistance_nil_left, hcells, List.range_eq_range', List.length_nil,
    List.range'_succ]

theorem getLastD_rowOf (taken b : List Char) (d : Nat) :
    (rowOf taken b).getLastD d = editDistance taken b.reverse := by
  have hcells : ∀ passed ds : List Char,
      (editDistance taken passed :: cellsBehind taken passed ds).getLastD d =
        editDistance taken (ds.reverse ++ passed) := by
    intro passed ds
    induction ds generalizing passed with
    | nil => rfl
    | cons y ds ih =>
      rw [cellsBehind, List.reverse_cons, List.append_assoc]
      exact ih (y :: passed)
  rw [rowOf, hcells, List.append_nil]

/-- The distance that is computed row by row is the one that is defined by recursion. -/
theorem distance_eq_editDistance (a b : List Char) : distance a b = editDistance a b := by
  rw [distance, ← rowOf_nil, foldl_nextRow, getLastD_rowOf, List.append_nil, editDistance_reverse]

/-! ## Two rows -/

/-- Writes the cell at a place; there is no result outside of the row. -/
def write? (row : List Nat) (place cell : Nat) : Option (List Nat) :=
  if place < row.length then some (row.set place cell) else none

/-- Writes the cells that belong to a character over those of a row, behind the first `place` ones;
`above` is the row before. -/
def fill? (c : Char) (above : List Nat) : Nat → List Char → List Nat → Option (List Nat)
  | _, [], row => some row
  | place, d :: ds, row => do
    let diagonal ← above[place]?
    let up ← above[place + 1]?
    let left ← row[place]?
    let cell := min (min (diagonal + if c = d then 0 else 1) (up + 1)) (left + 1)
    fill? c above (place + 1) ds (← write? row (place + 1) cell)

/-- Turns the rows over for each character: the spare row is filled and becomes the last one. -/
def turns? (b : List Char) : Nat → List Char → List Nat → List Nat → Option (List Nat)
  | _, [], last, _ => some last
  | taken, c :: cs, last, spare => do
    let started ← write? spare 0 (taken + 1)
    let filled ← fill? c last 0 b started
    turns? b (taken + 1) cs filled last

/-- The edit distance by two rows that change places. -/
def distanceInRows? (a b : List Char) : Option Nat :=
  if a.isEmpty then some b.length
  else do
    let last ← turns? b 0 a (List.range (b.length + 1)) (List.replicate (b.length + 1) 0)
    last[b.length]?

theorem write?_eq (row rest : List Nat) (old cell : Nat) :
    write? (row ++ old :: rest) row.length cell = some (row ++ cell :: rest) := by
  rw [write?, if_pos (by simp), List.set_append_right _ _ le_rfl, Nat.sub_self, List.set_cons_zero]

/-- What is written over does not matter. -/
theorem fill?_eq (c : Char) (ds : List Char) (above stale done doneAbove : List Nat)
    (diagonal left : Nat) (hdone : doneAbove.length = done.length)
    (habove : above.length = ds.length) (hstale : stale.length = ds.length) :
    fill? c (doneAbove ++ diagonal :: above) done.length ds (done ++ left :: stale) =
      some (done ++ left :: rowCells c diagonal left ds above) := by
  induction ds generalizing above stale done doneAbove diagonal left with
  | nil =>
    obtain rfl := List.length_eq_zero_iff.mp hstale
    obtain rfl := List.length_eq_zero_iff.mp habove
    rfl
  | cons d ds ih =>
    obtain ⟨up, above, rfl⟩ := List.exists_cons_of_length_eq_add_one habove
    obtain ⟨old, stale, rfl⟩ := List.exists_cons_of_length_eq_add_one hstale
    -- the three cells that the next one is computed from
    have hdiagonal : (doneAbove ++ diagonal :: up :: above)[done.length]? = some diagonal := by
      rw [← hdone, List.getElem?_append_right le_rfl, Nat.sub_self]
      rfl
    have hup : (doneAbove ++ diagonal :: up :: above)[done.length + 1]? = some up := by
      rw [← hdone, List.getElem?_append_right (Nat.le_add_right _ 1), Nat.add_sub_cancel_left]
      rfl
    have hleft : (done ++ left :: old :: stale)[done.length]? = some left := by
      rw [List.getElem?_append_right le_rfl, Nat.sub_self]
      rfl
    rw [fill?, hdiagonal, hup, hleft]
    set cell := min (min (diagonal + if c = d then 0 else 1) (up + 1)) (left + 1) with hcell
    have hwrite := write?_eq (done ++ [left]) stale old cell
    have hnext := ih above stale (done ++ [left]) (doneAbove ++ [diagonal]) up cell
      (by simp [hdone]) (by simpa using habove) (by simpa using hstale)
    simp only [List.append_assoc, List.singleton_append, List.length_append, List.length_singleton]
      at hwrite hnext
    simp only [Option.bind_eq_bind, Option.bind_some, hwrite, hnext, rowCells, ← hcell]

/-- Turning the rows over gives the rows of the text that has been taken, whatever the spare row
held. -/
theorem turns?_rowOf (a taken b spare : List _) (hspare : spare.length = b.length + 1) :
    turns? b taken.length a (rowOf taken b) spare = some (rowOf (a.reverse ++ taken) b) := by
  induction a generalizing taken spare with
  | nil => rfl
  | cons c a ih =>
    obtain ⟨old, stale, rfl⟩ := List.exists_cons_of_length_eq_add_one hspare
    have hstart := write?_eq [] stale old (taken.length + 1)
    have hfill := fill?_eq c b (cellsBehind taken [] b) stale [] [] (editDistance taken [])
      (taken.length + 1) rfl (length_cellsBehind taken [] b) (by simpa using hspare)
    have hnext : (taken.length + 1) :: rowCells c (editDistance taken []) (taken.length + 1) b
        (cellsBehind taken [] b) = rowOf (c :: taken) b := by
      rw [← nextRow_rowOf, rowOf, nextRow, editDistance_nil_right]
    simp only [List.nil_append, List.length_nil] at hstart hfill
    rw [hnext] at hfill
    have hrest := ih (c :: taken) (rowOf taken b) (length_rowOf taken b)
    rw [List.length_cons] at hrest
    rw [turns?, hstart]
    show (fill? c (rowOf taken b) 0 b ((taken.length + 1) :: stale)).bind _ = _
    rw [rowOf, hfill, Option.bind_some, ← rowOf, hrest, List.reverse_cons, List.append_assoc]
    rfl

theorem getElem?_rowOf (taken b : List Char) :
    (rowOf taken b)[b.length]? = some (editDistance taken b.reverse) := by
  have hlast : (rowOf taken b).getLast? = some ((rowOf taken b).getLastD 0) := by
    rw [List.getLastD_eq_getLast?, rowOf, List.getLast?_cons]
    rfl
  rw [← getLastD_rowOf taken b 0, ← hlast, List.getLast?_eq_getElem?, length_rowOf,
    Nat.add_sub_cancel]

/-- Two rows that change places give the distance, and no cell outside of them is read or written. -/
theorem distanceInRows?_eq (a b : List Char) : distanceInRows? a b = some (distance a b) := by
  rw [distanceInRows?, distance_eq_editDistance]
  cases a with
  | nil => rw [editDistance_nil_left]; rfl
  | cons c a =>
    have hturns := turns?_rowOf (c :: a) [] b (List.replicate (b.length + 1) 0)
      List.length_replicate
    rw [rowOf_nil, List.length_nil, List.append_nil] at hturns
    rw [if_neg (by simp), hturns, Option.bind_eq_bind, Option.bind_some, getElem?_rowOf,
      editDistance_reverse]

/-! ## The ratio -/

theorem distance_le_max (a b : List Char) : distance a b ≤ max a.length b.length := by
  rw [distance_eq_editDistance]
  exact editDistance_le_max a b

/-- The distance set against the longer text is a part of one. -/
theorem one_sub_mem_unitInterval (a b : List Char) :
    0 ≤ 1 - (distance a b : ℚ) / (max a.length b.length : ℕ) ∧
      1 - (distance a b : ℚ) / (max a.length b.length : ℕ) ≤ 1 := by
  have hle : (distance a b : ℚ) ≤ (max a.length b.length : ℕ) := by
    exact_mod_cast distance_le_max a b
  constructor
  · exact sub_nonneg.mpr (div_le_one_of_le₀ hle (Nat.cast_nonneg _))
  · exact sub_le_self 1 (by positivity)

/-- The ratio of texts whose lengths are machine words lies between zero and one. -/
theorem ratio_mem_unitInterval {a b : String} (h : max a.length b.length < 2 ^ 64) :
    0.0 ≤ ratio a b ∧ ratio a b ≤ 1.0 := by
  have hone : ∃ q, Decimal.value? (ratio a b) = some q ∧ 0 ≤ q ∧ q ≤ 1 := by
    rw [ratio]
    split
    next => exact ⟨1, Decimal.value?_one, zero_le_one, le_rfl⟩
    next hne =>
      have hlog : (max a.length b.length).log2 < 64 := (Nat.log2_lt hne).mpr h
      have hle := distance_le_max a.toList b.toList
      rw [String.length_toList, String.length_toList] at hle
      obtain ⟨x, y, hx, hy, hnonneg, hxy, hpos⟩ :=
        Decimal.exists_value?_ofNat_le hle (Nat.pos_of_ne_zero hne) (by omega)
      obtain ⟨q, hq, hq0, hq1⟩ := Decimal.exists_value?_div hx hy hnonneg hxy hpos
      exact Decimal.exists_value?_one_sub hq hq0 hq1
  obtain ⟨q, hq, hnonneg, hle⟩ := hone
  exact ⟨(Decimal.le_iff_value_le Decimal.value?_zero hq).mpr hnonneg,
    (Decimal.le_iff_value_le hq Decimal.value?_one).mpr hle⟩

/-! ## The distance -/

/-- The distance is the one that is defined by recursion, also when it is computed in two rows.  It is
a metric, is at least the difference and at most the maximum of the lengths, and set against the
longer text it lies between zero and one; so does the ratio. -/
theorem distance_measures_edits (a b c : String) :
    distance a.toList b.toList = editDistance a.toList b.toList ∧
    distanceInRows? a.toList b.toList = some (editDistance a.toList b.toList) ∧
    distance a.toList b.toList = distance b.toList a.toList ∧
    (distance a.toList b.toList = 0 ↔ a = b) ∧
    distance a.toList c.toList ≤ distance a.toList b.toList + distance b.toList c.toList ∧
    max a.length b.length - min a.length b.length ≤ distance a.toList b.toList ∧
    distance a.toList b.toList ≤ max a.length b.length ∧
    (0 ≤ 1 - (distance a.toList b.toList : ℚ) / (max a.length b.length : ℕ) ∧
      1 - (distance a.toList b.toList : ℚ) / (max a.length b.length : ℕ) ≤ 1) ∧
    (max a.length b.length < 2 ^ 64 → 0.0 ≤ ratio a b ∧ ratio a b ≤ 1.0) := by
  have hunit := one_sub_mem_unitInterval a.toList b.toList
  have hmax := distance_le_max a.toList b.toList
  have hfirst := length_le_add_editDistance a.toList b.toList
  have hsecond := length_le_add_editDistance b.toList a.toList
  rw [editDistance_comm b.toList] at hsecond
  simp only [String.length_toList] at hunit hmax hfirst hsecond
  refine ⟨distance_eq_editDistance _ _, ?_, ?_, ?_, ?_, ?_, hmax, hunit, ratio_mem_unitInterval⟩
  · rw [distanceInRows?_eq, distance_eq_editDistance]
  · rw [distance_eq_editDistance, distance_eq_editDistance, editDistance_comm]
  · rw [distance_eq_editDistance, editDistance_eq_zero_iff, String.toList_inj]
  · simp only [distance_eq_editDistance]
    exact editDistance_triangle _ _ _
  · rw [distance_eq_editDistance]
    omega

/-- Two replacements and an insertion at the end. -/
theorem distance_measures_edits_kitten :
    max "kitten".length "sitting".length < 2 ^ 64 ∧
      editDistance "kitten".toList "sitting".toList = 3 ∧
      distanceInRows? "kitten".toList "sitting".toList = some 3 ∧
      0.0 ≤ ratio "kitten" "sitting" ∧ ratio "kitten" "sitting" ≤ 1.0 := by
  have h := distance_measures_edits "kitten" "sitting" ""
  have hrows : distance "kitten".toList "sitting".toList = 3 := by decide +kernel
  have hlength : max "kitten".length "sitting".length < 2 ^ 64 := by decide
  have hdistance := h.1.symm.trans hrows
  exact ⟨hlength, hdistance, h.2.1.trans (congrArg some hdistance), h.2.2.2.2.2.2.2.2 hlength⟩

end Storyboard.Similarity
