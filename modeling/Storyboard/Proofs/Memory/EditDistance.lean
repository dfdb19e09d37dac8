import Mathlib

/-!
# Edit distance

The distance of two texts is computed by recursion on both (`editDistance`): a first character is
replaced, deleted or inserted at a cost of one, or kept.  An alignment writes the texts above each
other with gaps, and costs one for every column whose two places differ; the distance is the cost of
the cheapest alignment (`exists_alignment`, `editDistance_le`).  As alignments can be turned over,
read backwards and joined, the distance is a metric, and reading both texts backwards does not
change it.
-/

namespace Storyboard.Similarity

/-- The distance of two texts, by what happens to the first character of each. -/
def editDistance : List Char → List Char → Nat
  | [], b => b.length
  | a, [] => a.length
  | c :: a, d :: b =>
    min (min (editDistance a b + if c = d then 0 else 1) (editDistance a (d :: b) + 1))
      (editDistance (c :: a) b + 1)

theorem editDistance_nil_left (b : List Char) : editDistance [] b = b.length := by
  rw [editDistance]

theorem editDistance_nil_right (a : List Char) : editDistance a [] = a.length := by
  cases a with
  | nil => rw [editDistance, List.length_nil]
  | cons c a => rw [editDistance]; nofun

theorem editDistance_cons_cons (c d : Char) (a b : List Char) :
    editDistance (c :: a) (d :: b) =
      min (min (editDistance a b + if c = d then 0 else 1) (editDistance a (d :: b) + 1))
        (editDistance (c :: a) b + 1) := by
  rw [editDistance]

/-! ## Alignments -/

/-- A character of each text, or a gap in its place. -/
abbrev Column := Option Char × Option Char

/-- What stands in the upper places. -/
def upper (columns : List Column) : List Char := columns.filterMap Prod.fst

/-- What stands in the lower places. -/
def lower (columns : List Column) : List Char := columns.filterMap Prod.snd

/-- The number of columns whose places differ. -/
def cost (columns : List Column) : Nat := columns.countP fun (x, y) => x != y

theorem upper_cons (x y : Option Char) (columns : List Column) :
    upper ((x, y) :: columns) = x.toList ++ upper columns := by
  cases x <;> rfl

theorem lower_cons (x y : Option Char) (columns : List Column) :
    lower ((x, y) :: columns) = y.toList ++ lower columns := by
  cases y <;> rfl

theorem cost_cons (x y : Option Char) (columns : List Column) :
    cost ((x, y) :: columns) = cost columns + if x = y then 0 else 1 := by
  rw [cost, List.countP_cons]
  by_cases h : x = y <;> simp [h, cost]

/-- The texts can be aligned at the cost. -/
def Aligns (a b : List Char) (n : Nat) : Prop :=
  ∃ columns, upper columns = a ∧ lower columns = b ∧ cost columns = n

variable {a b c : List Char} {m n : Nat}

theorem Aligns.cons (h : Aligns a b n) (x y : Option Char) :
    Aligns (x.toList ++ a) (y.toList ++ b) (n + if x = y then 0 else 1) := by
  obtain ⟨columns, rfl, rfl, rfl⟩ := h
  exact ⟨(x, y) :: columns, upper_cons x y columns, lower_cons x y columns, cost_cons x y columns⟩

/-- Texts are aligned at the cost of their distance. -/
theorem aligns_editDistance (a b : List Char) : Aligns a b (editDistance a b) := by
  have hgaps : ∀ b : List Char, Aligns [] b b.length := by
    intro b
    induction b with
    | nil => exact ⟨[], rfl, rfl, rfl⟩
    | cons d b ih => exact ih.cons none (some d)
  have hgaps' : ∀ a : List Char, Aligns a [] a.length := by
    intro a
    induction a with
    | nil => exact ⟨[], rfl, rfl, rfl⟩
    | cons c a ih => exact ih.cons (some c) none
  fun_induction editDistance a b with
  | case1 b => exact hgaps b
  | case2 a => exact hgaps' a
  | case3 c a d b hreplace hdelete hinsert =>
    have hreplace := hreplace.cons (some c) (some d)
    simp only [Option.some_inj] at hreplace
    have hdelete := hdelete.cons (some c) none
    have hinsert := hinsert.cons none (some d)
    -- the least of the three costs is that of the column in front
    rcases min_choice (min (editDistance a b + if c = d then 0 else 1)
      (editDistance a (d :: b) + 1)) (editDistance (c :: a) b + 1) with hmin | hmin
    · rw [hmin]
      rcases min_choice (editDistance a b + if c = d then 0 else 1)
        (editDistance a (d :: b) + 1) with hmin | hmin <;> rw [hmin]
      · exact hreplace
      · exact hdelete
    · rw [hmin]
      exact hinsert

theorem editDistance_delete_le (c : Char) (a b : List Char) :
    editDistance (c :: a) b ≤ editDistance a b + 1 := by
  cases b with
  | nil => rw [editDistance_nil_right, editDistance_nil_right, List.length_cons]
  | cons d b =>
    rw [editDistance_cons_cons]
    exact (min_le_left _ _).trans (min_le_right _ _)

theorem editDistance_insert_le (d : Char) (a b : List Char) :
    editDistance a (d :: b) ≤ editDistance a b + 1 := by
  cases a with
  | nil => rw [editDistance_nil_left, editDistance_nil_left, List.length_cons]
  | cons c a =>
    rw [editDistance_cons_cons]
    exact min_le_right _ _

/-- One more column makes the distance no greater than its cost. -/
theorem editDistance_cons_le (x y : Option Char) (a b : List Char) :
    editDistance (x.toList ++ a) (y.toList ++ b) ≤ editDistance a b + if x = y then 0 else 1 := by
  match x, y with
  | none, none => exact Nat.le_add_right _ _
  | some c, none => exact editDistance_delete_le c a b
  | none, some d => exact editDistance_insert_le d a b
  | some c, some d =>
    simp only [Option.some_inj]
    show editDistance (c :: a) (d :: b) ≤ _
    rw [editDistance_cons_cons]
    exact (min_le_left _ _).trans (min_le_left _ _)

/-- No alignment costs less than the distance. -/
theorem editDistance_le (h : Aligns a b n) : editDistance a b ≤ n := by
  obtain ⟨columns, rfl, rfl, rfl⟩ := h
  induction columns with
  | nil => exact (editDistance_nil_left []).le
  | cons column columns ih =>
    obtain ⟨x, y⟩ := column
    rw [upper_cons, lower_cons, cost_cons]
    exact (editDistance_cons_le x y _ _).trans (Nat.add_le_add_right ih _)

/-! ## A metric -/

theorem cost_map_swap (columns : List Column) : cost (columns.map Prod.swap) = cost columns := by
  induction columns with
  | nil => rfl
  | cons column columns ih =>
    obtain ⟨x, y⟩ := column
    rw [List.map_cons, Prod.swap_prod_mk, cost_cons, cost_cons, ih]
    simp only [eq_comm]

theorem Aligns.symm (h : Aligns a b n) : Aligns b a n := by
  obtain ⟨columns, rfl, rfl, rfl⟩ := h
  refine ⟨columns.map Prod.swap, ?_, ?_, cost_map_swap columns⟩
  · rw [upper, List.filterMap_map]
    rfl
  · rw [lower, List.filterMap_map]
    rfl

theorem Aligns.reverse (h : Aligns a b n) : Aligns a.reverse b.reverse n := by
  obtain ⟨columns, rfl, rfl, rfl⟩ := h
  exact ⟨columns.reverse, List.filterMap_reverse, List.filterMap_reverse, List.countP_reverse⟩

theorem editDistance_comm (a b : List Char) : editDistance a b = editDistance b a :=
  le_antisymm (editDistance_le (aligns_editDistance b a).symm)
    (editDistance_le (aligns_editDistance a b).symm)

/-- The distance does not depend on the direction in which the texts are read. -/
theorem editDistance_reverse (a b : List Char) :
    editDistance a.reverse b.reverse = editDistance a b := by
  refine le_antisymm (editDistance_le (aligns_editDistance a b).reverse) (editDistance_le ?_)
  have h := (aligns_editDistance a.reverse b.reverse).reverse
  rwa [List.reverse_reverse, List.reverse_reverse] at h

/-- Two alignments are joined where the text in the middle stands in both; a character of it may then
be gone from the columns. -/
theorem exists_joined : ∀ above below : List Column, lower above = upper below →
    ∃ columns, upper columns = upper above ∧ lower columns = lower below ∧
      cost columns ≤ cost above + cost below
  | [], [], _ => ⟨[], rfl, rfl, le_rfl⟩
  | (x, none) :: above, below, h => by
    obtain ⟨columns, hupper, hlower, hcost⟩ := exists_joined above below h
    refine ⟨(x, none) :: columns, ?_, hlower, ?_⟩
    · rw [upper_cons, upper_cons, hupper]
    · rw [cost_cons, cost_cons]
      omega
  | above, (none, z) :: below, h => by
    obtain ⟨columns, hupper, hlower, hcost⟩ := exists_joined above below h
    refine ⟨(none, z) :: columns, hupper, ?_, ?_⟩
    · rw [lower_cons, lower_cons, hlower]
    · rw [cost_cons, cost_cons]
      omega
  | (x, some y) :: above, (some y', z) :: below, h => by
    rw [lower_cons, upper_cons] at h
    obtain ⟨rfl, hrest⟩ := List.cons.inj h
    obtain ⟨columns, hupper, hlower, hcost⟩ := exists_joined above below hrest
    refine ⟨(x, z) :: columns, ?_, ?_, ?_⟩
    · rw [upper_cons, upper_cons, hupper]
    · rw [lower_cons, lower_cons, hlower]
    · -- when neither step changes the character, both together do not
      have hstep : (if x = z then 0 else 1) ≤
          (if x = some y then 0 else 1) + if some y = z then 0 else 1 := by
        split_ifs <;> simp_all
      rw [cost_cons, cost_cons, cost_cons]
      omega
  | [], (some _, _) :: _, h => nomatch h
  | (_, some _) :: _, [], h => nomatch h
termination_by above below => above.length + below.length

theorem editDistance_triangle (a b c : List Char) :
    editDistance a c ≤ editDistance a b + editDistance b c := by
  obtain ⟨above, hupper, hmiddle, habove⟩ := aligns_editDistance a b
  obtain ⟨below, hmiddle', hlower, hbelow⟩ := aligns_editDistance b c
  obtain ⟨columns, hfirst, hlast, hcost⟩ := exists_joined above below (hmiddle.trans hmiddle'.symm)
  have hdistance := editDistance_le ⟨columns, hfirst.trans hupper, hlast.trans hlower, rfl⟩
  omega

/-- Columns whose places agree hold the same text above and below. -/
theorem eq_of_cost_eq_zero {columns : List Column} (h : cost columns = 0) :
    upper columns = lower columns := by
  induction columns with
  | nil => rfl
  | cons column columns ih =>
    obtain ⟨x, y⟩ := column
    rw [cost_cons] at h
    have hsame : x = y := by
      by_contra hne
      rw [if_neg hne] at h
      omega
    rw [upper_cons, lower_cons, hsame, ih (by omega)]

theorem editDistance_eq_zero_iff : editDistance a b = 0 ↔ a = b := by
  constructor
  · intro h
    obtain ⟨columns, rfl, rfl, hcost⟩ := aligns_editDistance a b
    exact eq_of_cost_eq_zero (hcost.trans h)
  · rintro rfl
    have hkept : Aligns a a 0 := by
      induction a with
      | nil => exact ⟨[], rfl, rfl, rfl⟩
      | cons c a ih =>
        have hcons := ih.cons (some c) (some c)
        rwa [if_pos rfl] at hcons
    exact Nat.le_zero.mp (editDistance_le hkept)

/-! ## Bounds -/

/-- A text is no longer than the other and what is inserted. -/
theorem length_le_add_editDistance (a b : List Char) : a.length ≤ b.length + editDistance a b := by
  have hcolumns : ∀ columns : List Column,
      (upper columns).length ≤ (lower columns).length + cost columns := by
    intro columns
    induction columns with
    | nil => exact Nat.zero_le _
    | cons column columns ih =>
      obtain ⟨x, y⟩ := column
      rw [upper_cons, lower_cons, cost_cons, List.length_append, List.length_append]
      cases x <;> cases y <;> simp <;> omega
  obtain ⟨columns, hupper, hlower, hcost⟩ := aligns_editDistance a b
  have h := hcolumns columns
  rwa [hupper, hlower, hcost] at h

theorem editDistance_le_max (a b : List Char) : editDistance a b ≤ max a.length b.length := by
  induction a generalizing b with
  | nil =>
    rw [editDistance_nil_left]
    exact le_max_right _ _
  | cons c a ih =>
    cases b with
    | nil =>
      rw [editDistance_nil_right]
      exact le_max_left _ _
    | cons d b =>
      have hfirst := editDistance_cons_le (some c) (some d) a b
      have hrest := ih b
      have hcost : (if some c = some d then 0 else 1) ≤ 1 := by split <;> omega
      show editDistance (c :: a) (d :: b) ≤ max (a.length + 1) (b.length + 1)
      rw [Option.toList_some, Option.toList_some] at hfirst
      simp only [List.singleton_append] at hfirst
      omega

end Storyboard.Similarity
