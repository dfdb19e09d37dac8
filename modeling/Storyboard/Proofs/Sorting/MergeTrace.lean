import Storyboard.Proofs.Sorting.Trace
import Mathlib.Data.List.Chain
import Mathlib.Tactic.TFAE

/-!
# What merge sort shows

Merge sort writes values back without showing it, so a comparison can show an array in which a value
has been written over before it has been written elsewhere.  This happens exactly when the halves of
some segment of three values or more are out of order (`HalvesInOrder`): otherwise every write
before a comparison puts a value where it is already (`mergeSegment_inPlace`), and else there is a
comparison that shows a value lost (`mergeSegment_displaced`).
-/

namespace Storyboard.Sorting

variable {n : Nat} {start : Vector Int n} {a b : Vector Int n}

/-! ## Halves in order -/

/-- At most two values, or two halves of which no value of the first is greater than one of the
second, with the same true of each half. -/
inductive HalvesInOrder : List Int → Prop
  | few {values : List Int} (length : values.length ≤ 2) : HalvesInOrder values
  | halves {left right : List Int} (half : left.length = (left ++ right).length / 2)
      (le : ∀ x ∈ left, ∀ y ∈ right, x ≤ y) (first : HalvesInOrder left)
      (second : HalvesInOrder right) : HalvesInOrder (left ++ right)

theorem halvesInOrder_iff {values : List Int} (h : 3 ≤ values.length) :
    HalvesInOrder values ↔
      (∀ x ∈ values.take (values.length / 2), ∀ y ∈ values.drop (values.length / 2), x ≤ y) ∧
        HalvesInOrder (values.take (values.length / 2)) ∧
        HalvesInOrder (values.drop (values.length / 2)) := by
  constructor
  · intro hvalues
    cases hvalues with
    | few length => omega
    | halves half le first second =>
      rw [← half, List.take_left, List.drop_left]
      exact ⟨le, first, second⟩
  · rintro ⟨le, first, second⟩
    rw [← List.take_append_drop (values.length / 2) values]
    refine .halves ?_ le first second
    rw [List.take_append_drop, List.length_take]
    omega

/-! ## Segments -/

theorem segment_eq_cons {k stop : Nat} (hk : k < n) {x : Int} {rest : List Int}
    (h : segment a k stop = x :: rest) : a.get ⟨k, hk⟩ = x ∧ segment a (k + 1) stop = rest := by
  unfold segment at h ⊢
  have hlen : k < (a.toList.take stop).length := by
    have := congrArg List.length h
    simp only [List.length_drop, List.length_cons] at this
    omega
  rw [List.drop_eq_getElem_cons hlen, List.cons.injEq, List.getElem_take] at h
  exact ⟨h.1, h.2⟩

/-- A segment depends on the values at its own positions alone. -/
theorem segment_congr {first stop : Nat}
    (h : ∀ i : Fin n, first ≤ i → (i : Nat) < stop → b.get i = a.get i) :
    segment b first stop = segment a first stop := by
  unfold segment
  apply List.ext_getElem
  · simp
  · intro k hk _
    simp only [List.length_drop, List.length_take, Vector.length_toList] at hk
    simpa [get_eq_getElem] using
      h ⟨first + k, by omega⟩ (Nat.le_add_right ..) (by show first + k < stop; omega)

/-- The two parts of a segment are the halves of its values. -/
theorem segment_halves {first stop : Nat} (hf : first ≤ stop) (hs : stop ≤ n) :
    segment a first (first + (stop - first) / 2) =
        (segment a first stop).take ((segment a first stop).length / 2) ∧
      segment a (first + (stop - first) / 2) stop =
        (segment a first stop).drop ((segment a first stop).length / 2) := by
  have hparts := segment_append a (Nat.le_add_right first ((stop - first) / 2))
    (show first + (stop - first) / 2 ≤ stop by omega)
  have hlen : (segment a first (first + (stop - first) / 2)).length =
      (segment a first stop).length / 2 := by
    rw [length_segment _ (by omega), length_segment _ hs, Nat.add_sub_cancel_left]
  rw [← hlen, ← hparts, List.take_left, List.drop_left]
  exact ⟨rfl, rfl⟩

theorem halvesInOrder_segment_iff {first stop : Nat} (hs : first + 3 ≤ stop) (h : stop ≤ n) :
    HalvesInOrder (segment a first stop) ↔
      (∀ x ∈ segment a first (first + (stop - first) / 2),
        ∀ y ∈ segment a (first + (stop - first) / 2) stop, x ≤ y) ∧
        HalvesInOrder (segment a first (first + (stop - first) / 2)) ∧
        HalvesInOrder (segment a (first + (stop - first) / 2) stop) := by
  obtain ⟨hleft, hright⟩ := segment_halves (a := a) (show first ≤ stop by omega) h
  rw [halvesInOrder_iff (by rw [length_segment _ h]; omega), ← hleft, ← hright]

theorem halvesInOrder_segment {first stop : Nat} (hs : stop ≤ first + 2) :
    HalvesInOrder (segment a first stop) := by
  refine .few ?_
  simp only [segment, List.length_drop, List.length_take]
  omega

/-! ## Merging in place -/

/-- Values are compared when the array is as it was shown last, with the values of the first one. -/
inductive MergesInPlace (r : Recording start) : Event n → Prop
  | compareHalves {i j : Nat} {left right : Int} (still : r.now = r.shown)
      (whole : r.now.toList.Perm start.toList) : MergesInPlace r (.compareHalves i j left right)
  | write (k : Fin n) (value : Int) : MergesInPlace r (.write k value)
  | merged {first last : Nat} (whole : r.now.toList.Perm start.toList) :
      MergesInPlace r (.merged first last)

/-- A value of the first half that is not greater than the other one is written where it is already,
so the array stays as it was shown, with the rest of the first half behind. -/
theorem write_first_inPlace {k i j : Nat} (hk : k < n) {x y : Int} {left right : List Int}
    {r : Recording start}
    (hsegment : segment r.now k (k + ((x :: left).length + right.length)) = x :: left ++ right) :
    ((r.add (.compareHalves i j x y)).add (.write ⟨k, hk⟩ x)).now = r.now ∧
      ((r.add (.compareHalves i j x y)).add (.write ⟨k, hk⟩ x)).shown = r.now ∧
      segment r.now (k + 1) (k + 1 + (left.length + right.length)) = left ++ right := by
  obtain ⟨hx, hrest⟩ := segment_eq_cons hk hsegment
  refine ⟨?_, ?_, Eq.trans ?_ hrest⟩
  · rw [← hx]
    exact Vector.set_getElem_self ..
  · rw [shown_add_write, shown_add rfl]
    rfl
  · congr 1
    simp only [List.length_cons]
    omega

/-- The values of two halves in order, or of halves of which the second is a single value, are
compared before any of them is moved. -/
theorem mergeHalves_inPlace {k i j : Nat} {left right : List Int}
    {h : k + (left.length + right.length) ≤ n} {r : Recording start} (hstill : r.now = r.shown)
    (hperm : r.now.toList.Perm start.toList)
    (hsegment : segment r.now k (k + (left.length + right.length)) = left ++ right)
    (hle : right.length ≤ 1 ∨ ∀ x ∈ left, ∀ y ∈ right, x ≤ y) :
    Continues MergesInPlace r (mergeHalves k i j left right h r) := by
  fun_induction mergeHalves k i j left right h r with
  | case1 i j k right h r => exact writeFrom_continues (fun _ => .write) k right _ r
  | case2 i j k left h r => exact writeFrom_continues (fun _ => .write) k left _ r
  | case3 k i j x left y right h r hk r' hlt _ ih =>
    rcases hle with hle | hle
    · -- the second half is used up, so there is no comparison after the write
      obtain rfl : right = [] := List.length_eq_zero_iff.mp (by simpa using hle)
      have hcompared : Continues MergesInPlace r r' := .single (.compareHalves hstill hperm)
      rw [mergeHalves]
      · exact (hcompared.add (.write ⟨k, hk⟩ y)).trans
          (writeFrom_continues (fun _ => .write) _ _ _ _)
      · exact fun _ he => absurd he (List.cons_ne_nil x left)
    · exact absurd (hle x List.mem_cons_self y List.mem_cons_self) (Int.not_le.mpr hlt)
  | case4 k i j x left y right h r hk r' hge _ ih =>
    -- the value is written where it stands already, so that nothing shown changes
    obtain ⟨hnow, hshown, hrest⟩ := write_first_inPlace hk hsegment
    have hcompared : Continues MergesInPlace r r' := .single (.compareHalves hstill hperm)
    refine (hcompared.add (.write ⟨k, hk⟩ x)).trans (ih (hnow.trans hshown.symm) ?_ ?_ ?_)
    · rwa [hnow]
    · rwa [hnow]
    · exact hle.imp id fun hle z hz => hle z (List.mem_cons_of_mem x hz)

/-! ## A value written over -/

/-- At a comparison of the run the array is as it was shown last, except that one value has been
written over. -/
def Displaced (r' : Recording start) : Prop :=
  ∃ (r : Recording start) (k : Fin n) (value : Int) (i j : Nat) (x y : Int),
    r.now = r.shown ∧ r.now.toList.Perm start.toList ∧ r.now.get k ≠ value ∧
      GoesOn ((r.add (.write k value)).add (.compareHalves i j x y)) r'

theorem Displaced.goesOn {r r' : Recording start} (h : Displaced r) (h' : GoesOn r r') :
    Displaced r' := by
  obtain ⟨r₀, k, value, i, j, x, y, hstill, hperm, hne, hgoes⟩ := h
  exact ⟨r₀, k, value, i, j, x, y, hstill, hperm, hne, hgoes.trans h'⟩

/-- A merge of two halves that are not used up begins with a comparison. -/
theorem mergeHalves_compares {k i j : Nat} {x y : Int} {left right : List Int}
    {h : k + ((x :: left).length + (y :: right).length) ≤ n} {r : Recording start} :
    GoesOn (r.add (.compareHalves i j x y)) (mergeHalves k i j (x :: left) (y :: right) h r) := by
  have hshown : (r.add (.compareHalves i j x y)).now = (r.add (.compareHalves i j x y)).shown :=
    (shown_add rfl r).symm
  rw [mergeHalves]
  split
  · exact (Continues.single trivial).trans
      (mergeHalves_continues _ _ _ _ _ _ _ (.of_write hshown _ _)).goesOn
  · exact (Continues.single trivial).trans
      (mergeHalves_continues _ _ _ _ _ _ _ (.of_write hshown _ _)).goesOn

/-- When a value of the first half is greater than one of the second, and the second has another one
left to compare, a comparison shows that a value has been written over. -/
theorem mergeHalves_displaced {k i j : Nat} {left right : List Int}
    {h : k + (left.length + right.length) ≤ n} {r : Recording start} (hstill : r.now = r.shown)
    (hperm : r.now.toList.Perm start.toList)
    (hsegment : segment r.now k (k + (left.length + right.length)) = left ++ right)
    (hright : right.Pairwise (· ≤ ·)) (htwo : 2 ≤ right.length)
    (hout : ∃ x ∈ left, ∃ y ∈ right, y < x) :
    Displaced (mergeHalves k i j left right h r) := by
  fun_induction mergeHalves k i j left right h r with
  | case1 i j k right h r =>
    obtain ⟨x, hx, -⟩ := hout
    exact absurd hx List.not_mem_nil
  | case2 i j k left h r => exact absurd htwo (by simp)
  | case3 k i j x left y right h r hk r' hlt _ ih =>
    -- `y` is written over `x`, and compared are `x` and the next value of the second half
    obtain ⟨hx, -⟩ := segment_eq_cons hk hsegment
    obtain ⟨z, right, rfl⟩ : ∃ z rest, right = z :: rest :=
      List.exists_cons_of_length_pos (by simp only [List.length_cons] at htwo; omega)
    refine ⟨r', ⟨k, hk⟩, y, i, j + 1, x, z, (shown_add rfl r).symm, hperm, ?_, mergeHalves_compares⟩
    show r.now.get ⟨k, hk⟩ ≠ y
    omega
  | case4 k i j x left y right h r hk r' hge _ ih =>
    obtain ⟨hnow, hshown, hrest⟩ := write_first_inPlace hk hsegment
    refine ih (hnow.trans hshown.symm) ?_ ?_ hright htwo ?_
    · rwa [hnow]
    · rwa [hnow]
    · -- the first value is not greater than any of the second half, so it is another one that is
      obtain ⟨z, hz, w, hw, hlt⟩ := hout
      rcases List.mem_cons.mp hz with rfl | hz
      · rcases List.mem_cons.mp hw with rfl | hw
        · exact absurd hlt hge
        · exact absurd (List.rel_of_pairwise_cons hright hw) (by omega)
      · exact ⟨z, hz, w, hw, hlt⟩

/-! ## Sorting a segment -/

/-- Before the two halves of a segment are merged, each of them has its values of before, and the
array is as it was shown last. -/
structure HalvesSorted (first stop : Nat) (r r₂ : Recording start) : Prop where
  still : r₂.now = r₂.shown
  whole : r₂.now.toList.Perm start.toList
  left : (segment r₂.now first (first + (stop - first) / 2)).Perm
    (segment r.now first (first + (stop - first) / 2))
  right : (segment r₂.now (first + (stop - first) / 2) stop).Perm
    (segment r.now (first + (stop - first) / 2) stop)
  joined : segment r₂.now first (first +
      ((segment r₂.now first (first + (stop - first) / 2)).length +
        (segment r₂.now (first + (stop - first) / 2) stop).length)) =
    segment r₂.now first (first + (stop - first) / 2) ++
      segment r₂.now (first + (stop - first) / 2) stop
  rightSorted : (segment r₂.now (first + (stop - first) / 2) stop).Pairwise (· ≤ ·)

theorem halvesSorted {first stop : Nat} (hf : first ≤ stop) (hs : stop ≤ n) {r : Recording start}
    (hstill : r.now = r.shown) (hperm : r.now.toList.Perm start.toList) :
    HalvesSorted first stop r
      (mergeSegment (first + (stop - first) / 2) stop hs
        (mergeSegment first (first + (stop - first) / 2) (by omega) r)) := by
  have hmoved₁ := mergeSegment_rearranged first (first + (stop - first) / 2) (by omega) r
  have hmoved₂ := mergeSegment_rearranged (first + (stop - first) / 2) stop hs
    (mergeSegment first (first + (stop - first) / 2) (by omega) r)
  constructor
  case still => exact mergeSegment_shown (mergeSegment_shown hstill)
  case whole => exact hmoved₂.perm.trans (hmoved₁.perm.trans hperm)
  case left =>
    -- sorting the second half leaves the first one alone, and the other way round
    rw [segment_congr fun i _ hi => hmoved₂.outside i (.inl hi)]
    exact hmoved₁.segment_perm
  case right =>
    refine hmoved₂.segment_perm.trans (.of_eq ?_)
    exact segment_congr fun i hi _ => hmoved₁.outside i (.inr hi)
  case joined =>
    rw [segment_append _ (Nat.le_add_right ..) (by omega), length_segment _ (by omega),
      length_segment _ hs]
    congr 1
    omega
  case rightSorted => exact sortedOn_iff_pairwise.mp (mergeSegment_sorts hs _).2

/-- The array before the second half of a segment is sorted. -/
theorem secondHalf {first stop : Nat} (hf : first ≤ stop) (hs : stop ≤ n) {r : Recording start}
    (hperm : r.now.toList.Perm start.toList) :
    (mergeSegment first (first + (stop - first) / 2) (by omega) r).now.toList.Perm start.toList ∧
      segment (mergeSegment first (first + (stop - first) / 2) (by omega) r).now
          (first + (stop - first) / 2) stop =
        segment r.now (first + (stop - first) / 2) stop := by
  have hmoved := mergeSegment_rearranged first (first + (stop - first) / 2) (by omega) r
  exact ⟨hmoved.perm.trans hperm, segment_congr fun i hi _ => hmoved.outside i (.inr hi)⟩

/-- When the halves are in order, every comparison shows the array as it was shown before. -/
theorem mergeSegment_inPlace {first stop : Nat} {h : stop ≤ n} {r : Recording start}
    (hstill : r.now = r.shown) (hperm : r.now.toList.Perm start.toList)
    (hvalues : HalvesInOrder (segment r.now first stop)) :
    Continues MergesInPlace r (mergeSegment first stop h r) := by
  fun_induction mergeSegment first stop h r with
  | case1 first stop h r hs middle r₁ r₂ r₃ ih₁ _ ih₂ _ =>
    have hsorted := halvesSorted (show first ≤ stop by omega) h hstill hperm
    obtain ⟨hperm₁, hsecond⟩ := secondHalf (show first ≤ stop by omega) h hperm
    -- merging the halves in order needs each half in order, and no value of the first above one of the second
    have hparts : HalvesInOrder (segment r.now first middle) ∧
        HalvesInOrder (segment r.now middle stop) ∧
        ((segment r₂.now middle stop).length ≤ 1 ∨ ∀ x ∈ segment r₂.now first middle,
          ∀ y ∈ segment r₂.now middle stop, x ≤ y) := by
      rcases Nat.lt_or_ge stop (first + 3) with hlt | hge
      · refine ⟨halvesInOrder_segment (by omega), halvesInOrder_segment (by omega), .inl ?_⟩
        rw [length_segment _ h]
        omega
      · obtain ⟨hle, hfirst, hsecond⟩ := (halvesInOrder_segment_iff hge h).mp hvalues
        exact ⟨hfirst, hsecond, .inr fun x hx y hy =>
          hle x (hsorted.left.mem_iff.mp hx) y (hsorted.right.mem_iff.mp hy)⟩
    have hwhole : r₃.now.toList.Perm start.toList := by
      have hperm' := (mergeSegment_rearranged first stop h r).perm.trans hperm
      rwa [mergeSegment, dif_pos hs] at hperm'
    have hfirst : Continues MergesInPlace r r₁ := ih₁ hstill hperm hparts.1
    have hthen : Continues MergesInPlace r₁ r₂ :=
      ih₂ (mergeSegment_shown hstill) hperm₁ (hsecond ▸ hparts.2.1)
    have hmerged : Continues MergesInPlace r₂ r₃ :=
      mergeHalves_inPlace hsorted.still hsorted.whole hsorted.joined hparts.2.2
    exact ((hfirst.trans hthen).trans hmerged).add (.merged hwhole)
  | case2 first stop h r hs => exact .refl

/-- When they are not, one shows that a value has been written over. -/
theorem mergeSegment_displaced {first stop : Nat} {h : stop ≤ n} {r : Recording start}
    (hstill : r.now = r.shown) (hperm : r.now.toList.Perm start.toList)
    (hvalues : ¬HalvesInOrder (segment r.now first stop)) :
    Displaced (mergeSegment first stop h r) := by
  fun_induction mergeSegment first stop h r with
  | case1 first stop h r hs middle r₁ r₂ r₃ ih₁ _ ih₂ _ =>
    have hsorted := halvesSorted (show first ≤ stop by omega) h hstill hperm
    obtain ⟨hperm₁, hsecond⟩ := secondHalf (show first ≤ stop by omega) h hperm
    have hstill₁ : r₁.now = r₁.shown := mergeSegment_shown hstill
    have hthen : GoesOn r₁ r₂ := (mergeSegment_continues middle stop h r₁ hstill₁ hperm₁).goesOn
    have hmerged : GoesOn r₂ (r₃.add (.merged first (stop - 1))) :=
      (mergeHalves_continues _ _ _ _ _ _ r₂ (.inl hsorted.still)).goesOn.add trivial
    -- what is out of order lies within the first half, within the second one, or between the two
    by_cases hleft : HalvesInOrder (segment r.now first middle)
    · by_cases hright : HalvesInOrder (segment r.now middle stop)
      · have hge : first + 3 ≤ stop := by
          by_contra hlt
          exact hvalues (halvesInOrder_segment (by omega))
        have hout : ∃ x ∈ segment r₂.now first middle, ∃ y ∈ segment r₂.now middle stop, y < x := by
          by_contra hle
          refine hvalues ((halvesInOrder_segment_iff hge h).mpr
            ⟨fun x hx y hy => ?_, hleft, hright⟩)
          by_contra hlt
          exact hle ⟨x, hsorted.left.mem_iff.mpr hx, y, hsorted.right.mem_iff.mpr hy,
            Int.not_le.mp hlt⟩
        have htwo : 2 ≤ (segment r₂.now middle stop).length := by
          rw [length_segment _ h]
          omega
        have hdisplaced : Displaced r₃ := mergeHalves_displaced hsorted.still hsorted.whole
          hsorted.joined hsorted.rightSorted htwo hout
        exact hdisplaced.goesOn (.single trivial)
      · exact (ih₂ hstill₁ hperm₁ (hsecond ▸ hright)).goesOn hmerged
    · exact (ih₁ hstill hperm hleft).goesOn (hthen.trans hmerged)
  | case2 first stop h r hs => exact absurd (halvesInOrder_segment (by omega)) hvalues

/-! ## Steps -/

/-- The step shows the values of the first array in some order. -/
def ShowsRearranged (start : Vector Int n) (step : Step) : Prop :=
  ∃ arr : Vector Int n, ShowsArray arr step ∧ arr.toList.Perm start.toList

/-- Of two steps that follow each other, the second shows another array only if it is a merge. -/
def ChangesAtMerge (first second : Step) : Prop :=
  second.action ≠ "merge" → second.vars.lookup "arr" = first.vars.lookup "arr"

/-- Of two steps that follow each other, if the second is a comparison, it shows the same array. -/
def ComparesStill (first second : Step) : Prop :=
  second.action = "compare" → second.vars.lookup "arr" = first.vars.lookup "arr"

/-- Of two steps that follow each other, the second shows the array of the first one if it is
neither a comparison nor a merge, and a comparison shows it with at most one value written over. -/
structure ShownLate (n : Nat) (first second : Step) : Prop where
  compare : second.action = "compare" → ∃ arr : Vector Int n, ShowsArray arr first ∧
    (ShowsArray arr second ∨ ∃ (k : Fin n) (value : Int), ShowsArray (put arr k value) second)
  look : second.action ≠ "compare" → ChangesAtMerge first second

theorem arrayJson_injective : Function.Injective arrayJson := by
  intro values values' h
  refine List.map_injective_iff.mpr ?_ (Json.arr.inj h)
  exact fun _ _ => Json.int.inj

theorem ShowsArray.unique {step : Step} (ha : ShowsArray a step) (hb : ShowsArray b step) :
    a = b := by
  have h := arrayJson_injective (Option.some.inj (ha.symm.trans hb))
  exact Vector.toList_inj.mp h

/-- An array with one value written over has other values. -/
theorem get_eq_of_put_perm {k : Fin n} {value : Int} (h : (put a k value).toList.Perm a.toList) :
    a.get k = value := by
  have hlen : (k : Nat) < a.toList.length := by simp
  have hput : (put a k value).toList = a.toList.take k ++ value :: a.toList.drop (k + 1) := by
    rw [put, Vector.toList_set, List.set_eq_take_append_cons_drop, if_pos hlen]
  have ha : a.toList = a.toList.take k ++ a.get k :: a.toList.drop (k + 1) := by
    conv => lhs; rw [← List.take_append_drop k a.toList, List.drop_eq_getElem_cons hlen]
    rfl
  rw [hput] at h
  conv at h => rhs; rw [ha]
  rw [List.perm_append_left_iff] at h
  have hone : [value].Perm [a.get k] := (List.perm_append_right_iff (a.toList.drop (k + 1))).mp h
  exact (List.singleton_perm_singleton.mp hone).symm

theorem exists_stepOf? {event : Event n} (h : event.isShown = true) (arr : Vector Int n) :
    ∃ step, stepOf? event arr = some step := by
  cases event with
  | write k value => cases h
  | _ => exact ⟨_, rfl⟩

/-- Whatever is recorded has been recorded event by event. -/
theorem goesOn_empty (r : Recording start) : GoesOn (.empty start) r := by
  obtain ⟨events, now, rfl⟩ := r
  induction events with
  | nil => exact .refl
  | cons event earlier ih =>
    show GoesOn (.empty start) (Recording.add ⟨earlier, _, rfl⟩ event)
    exact ih.add trivial

/-- The steps of a recording begin those of every one that goes on from it. -/
theorem Continues.stepsOf_prefix {allowed : Recording start → Event n → Prop}
    {r r' : Recording start} (h : Continues allowed r r') :
    ∃ more, stepsOf r' = stepsOf r ++ more := by
  induction h with
  | refl => exact ⟨[], (List.append_nil _).symm⟩
  | add _ _ ih =>
    obtain ⟨more, hmore⟩ := ih
    exact ⟨_, by rw [stepsOf_add, hmore, List.append_assoc]⟩

/-- The last step shows the array as it was shown last. -/
theorem trace_ends (r : Recording start) :
    ∃ front last, openingStep start :: stepsOf r = front ++ [last] ∧ ShowsArray r.shown last := by
  refine (goesOn_empty r).preserves (P := fun r =>
    ∃ front last, openingStep start :: stepsOf r = front ++ [last] ∧ ShowsArray r.shown last) ?_ ?_
  · rintro r event ⟨front, last, htrace, hlast⟩ -
    rw [stepsOf_add, ← List.cons_append, htrace]
    cases hevent : event.isShown with
    | true =>
      obtain ⟨step, hstep⟩ := exists_stepOf? hevent (event.apply r.now)
      refine ⟨front ++ [last], step, by rw [hstep]; rfl, ?_⟩
      rw [shown_add hevent]
      exact stepOf?_showsArray hstep
    | false =>
      cases event with
      | write k value => exact ⟨front, last, List.append_nil _, hlast⟩
      | _ => cases hevent
  · exact ⟨[], openingStep start, rfl, stepOn_showsArray ..⟩

/-- When the step of every event that is allowed stands to the step before it as it should, all
steps follow each other so. -/
theorem trace_isChain {allowed : Recording start → Event n → Prop} {R : Step → Step → Prop}
    {r : Recording start} (h : Continues allowed (.empty start) r)
    (hstep : ∀ r event last step, allowed r event → ShowsArray r.shown last →
      stepOf? event (event.apply r.now) = some step → R last step) :
    (openingStep start :: stepsOf r).IsChain R := by
  refine h.preserves (P := fun r => (openingStep start :: stepsOf r).IsChain R) ?_ (.singleton _)
  intro r event hr hallowed
  obtain ⟨front, last, htrace, hlast⟩ := trace_ends r
  rw [stepsOf_add, ← List.cons_append]
  cases hevent : stepOf? event (event.apply r.now) with
  | none => rwa [Option.toList_none, List.append_nil]
  | some step =>
    rw [htrace] at hr ⊢
    rw [Option.toList_some, List.append_assoc, List.singleton_append, List.isChain_append_cons_cons]
    exact ⟨hr, hstep r event last step hallowed hlast hevent, .singleton _⟩

/-- The events of a run: those of the sort, and then marks of the array as it was shown last. -/
inductive OrMarks (allowed : Recording start → Event n → Prop) (r : Recording start) :
    Event n → Prop
  | sorts {event : Event n} (ok : allowed r event) : OrMarks allowed r event
  | marks {i : Fin n} (still : r.now = r.shown) (whole : r.now.toList.Perm start.toList) :
      OrMarks allowed r (.markSorted i)

theorem markFrom_continues {allowed : Recording start → Event n → Prop} (i : Nat)
    (r : Recording start) (hstill : r.now = r.shown) (hperm : r.now.toList.Perm start.toList) :
    Continues (OrMarks allowed) r (markFrom i r) := by
  fun_induction markFrom i r with
  | case1 i r h ih =>
    exact (Continues.single (.marks hstill hperm)).trans (ih (shown_add rfl r).symm hperm)
  | case2 i r h => exact .refl

theorem run_continues {allowed : Recording start → Event n → Prop}
    (h : Continues allowed (.empty start) (merge (.empty start))) :
    Continues (OrMarks allowed) (.empty start) (run .merge start) :=
  (h.mono fun _ _ => .sorts).trans
    (markFrom_continues 0 _ (mergeSegment_shown rfl) (mergeSegment_sorts _ _).1.perm)

/-- All steps but the comparisons show the values of the first array. -/
theorem showsRearranged_of_action {step : Step} (hstep : step ∈ steps .merge start)
    (hne : step.action ≠ "compare") : ShowsRearranged start step := by
  revert hne
  rcases List.mem_cons.mp hstep with rfl | hstep
  · exact fun _ => ⟨start, stepOn_showsArray .., .refl _⟩
  · refine forall_mem_stepsOf
      (P := fun step => step.action ≠ "compare" → ShowsRearranged start step)
      (run_continues (merge_continues start)) ?_ step hstep
    intro r event step hallowed hstep hne
    cases hallowed with
    | marks _ whole => exact ⟨r.now, stepOf?_showsArray hstep, whole⟩
    | sorts ok =>
      cases ok with
      | compareHalves =>
        obtain rfl := Option.some.inj hstep
        exact absurd rfl hne
      | write => cases hstep
      | merged whole => exact ⟨r.now, stepOf?_showsArray hstep, whole⟩

/-- The step of an event that changes nothing shows the array that was shown before, if it has not
changed since. -/
theorem lookup_arr_of_still {event : Event n} {r : Recording start} {last step : Step}
    (hstill : r.now = r.shown) (hlook : event.apply r.now = r.now) (hlast : ShowsArray r.shown last)
    (hstep : stepOf? event (event.apply r.now) = some step) :
    step.vars.lookup "arr" = last.vars.lookup "arr" := by
  have hshows : ShowsArray (event.apply r.now) step := stepOf?_showsArray hstep
  rw [hlook, hstill] at hshows
  exact hshows.trans hlast.symm

/-- A comparison is shown after one write at most, and a mark after none. -/
theorem merge_shownLate (start : Vector Int n) :
    (steps .merge start).IsChain (ShownLate n) := by
  refine trace_isChain (run_continues (merge_continues start)) ?_
  intro r event last step hallowed hlast hstep
  cases hallowed with
  | marks still =>
    have hsame := lookup_arr_of_still still rfl hlast hstep
    obtain rfl := Option.some.inj hstep
    exact ⟨fun hcompare => absurd hcompare (by simp [stepOn]), fun _ _ => hsame⟩
  | sorts ok =>
    cases ok with
    | compareHalves late =>
      have hshows := stepOf?_showsArray hstep
      refine ⟨fun _ => ⟨r.shown, hlast, ?_⟩, fun hcompare => ?_⟩
      · rcases late with hstill | ⟨k, value, hput⟩
        · exact .inl (hstill ▸ hshows)
        · exact .inr ⟨k, value, hput ▸ hshows⟩
      · obtain rfl := Option.some.inj hstep
        exact absurd rfl hcompare
    | write => cases hstep
    | merged =>
      obtain rfl := Option.some.inj hstep
      exact ⟨fun hcompare => absurd hcompare (by simp [stepOn]), fun _ hmerge => absurd rfl hmerge⟩

/-! ## Halves in order, and out of order -/

/-- With its halves in order, an array is shown whole, and changes at merges only. -/
theorem shownWhole_of_halvesInOrder (h : HalvesInOrder start.toList) :
    (steps .merge start).IsChain ChangesAtMerge ∧
      ∀ step ∈ steps .merge start, ShowsRearranged start step := by
  rw [← segment_zero] at h
  have hrun : Continues (OrMarks MergesInPlace) (.empty start) (run .merge start) :=
    run_continues (mergeSegment_inPlace rfl (.refl _) h)
  constructor
  · refine trace_isChain hrun ?_
    intro r event last step hallowed hlast hstep hmerge
    cases hallowed with
    | marks still => exact lookup_arr_of_still still rfl hlast hstep
    | sorts ok =>
      cases ok with
      | compareHalves still => exact lookup_arr_of_still still rfl hlast hstep
      | write => cases hstep
      | merged =>
        -- the step that shows the merge is a merge
        obtain rfl := Option.some.inj hstep
        exact absurd rfl hmerge
  · refine List.forall_mem_cons.mpr ⟨⟨start, stepOn_showsArray .., .refl _⟩, ?_⟩
    refine forall_mem_stepsOf hrun ?_
    intro r event step hallowed hstep
    cases hallowed with
    | marks _ whole => exact ⟨r.now, stepOf?_showsArray hstep, whole⟩
    | sorts ok =>
      cases ok with
      | compareHalves _ whole => exact ⟨r.now, stepOf?_showsArray hstep, whole⟩
      | write => cases hstep
      | merged whole => exact ⟨r.now, stepOf?_showsArray hstep, whole⟩

/-- With halves out of order, a comparison shows an array in which a value has been lost. -/
theorem shownDisplaced_of_not_halvesInOrder (h : ¬HalvesInOrder start.toList) :
    ∃ (front more : List Step) (last step : Step) (arr : Vector Int n) (k : Fin n) (value : Int),
      steps .merge start = front ++ last :: step :: more ∧ step.action = "compare" ∧
        ShowsArray arr last ∧ arr.toList.Perm start.toList ∧
        ShowsArray (put arr k value) step ∧ arr.get k ≠ value := by
  rw [← segment_zero] at h
  have hmerge : Displaced (merge (.empty start)) := mergeSegment_displaced rfl (.refl _) h
  have hmarks : Continues (OrMarks fun _ _ => True) (merge (.empty start)) (run .merge start) :=
    markFrom_continues 0 _ (mergeSegment_shown rfl) (mergeSegment_sorts _ _).1.perm
  obtain ⟨r, k, value, i, j, x, y, hstill, hperm, hne, hgoes⟩ := hmerge.goesOn hmarks.goesOn
  obtain ⟨front, last, htrace, hlast⟩ := trace_ends r
  obtain ⟨more, hmore⟩ := hgoes.stepsOf_prefix
  obtain ⟨step, hstep⟩ : ∃ step, stepOf? (.compareHalves i j x y) (put r.now k value) = some step :=
    exists_stepOf? rfl _
  have haction : step.action = "compare" := by
    obtain rfl := Option.some.inj hstep
    rfl
  refine ⟨front, more, last, step, r.now, k, value, ?_, haction, hstill ▸ hlast, hperm,
    stepOf?_showsArray hstep, hne⟩
  -- the write has no step, and the comparison behind it has the array that it leaves
  have hcompared : stepsOf ((r.add (.write k value)).add (.compareHalves i j x y)) =
      stepsOf r ++ [step] := by
    rw [stepsOf_add, stepsOf_add]
    exact congrArg₂ (· ++ ·) (List.append_nil _) (congrArg Option.toList hstep)
  show openingStep start :: stepsOf (run .merge start) = _
  rw [hmore, hcompared, ← List.cons_append, ← List.cons_append, htrace]
  simp only [List.append_assoc, List.cons_append, List.nil_append]

/-- Comparisons change nothing, only merges do, and no value is ever missing: each of these is true
exactly when the halves are in order. -/
theorem shownWhole_tfae (start : Vector Int n) :
    List.TFAE [HalvesInOrder start.toList,
      (steps .merge start).IsChain ComparesStill,
      (steps .merge start).IsChain ChangesAtMerge,
      ∀ step ∈ steps .merge start, ShowsRearranged start step] := by
  tfae_have 1 → 4 := fun h => (shownWhole_of_halvesInOrder h).2
  tfae_have 1 → 3 := fun h => (shownWhole_of_halvesInOrder h).1
  tfae_have 3 → 2 := fun h => h.imp fun _ _ hchanges hcompare =>
    hchanges (by rw [hcompare]; decide)
  tfae_have 2 → 1 := by
    intro hchain
    by_contra hout
    -- a comparison shows another array than the step before it
    obtain ⟨front, more, last, step, arr, k, value, hsteps, hcompare, hlast, -, hstep, hne⟩ :=
      shownDisplaced_of_not_halvesInOrder hout
    rw [hsteps, List.isChain_append_cons_cons] at hchain
    have hshows : ShowsArray arr step := (hchain.2.1 hcompare).trans hlast
    exact hne (by rw [hshows.unique hstep, get_put_self])
  tfae_have 4 → 1 := by
    intro hwhole
    by_contra hout
    -- one of the steps shows a value twice in place of another one
    obtain ⟨front, more, last, step, arr, k, value, hsteps, -, -, hperm, hstep, hne⟩ :=
      shownDisplaced_of_not_halvesInOrder hout
    obtain ⟨arr', hshows, hperm'⟩ := hwhole step (by rw [hsteps]; simp)
    rw [hshows.unique hstep] at hperm'
    exact hne (get_eq_of_put_perm (hperm'.trans hperm.symm))
  tfae_finish

/-- All steps but the comparisons show the values of the array, and a comparison shows the array of
the step before it, or that array after the one write in between.  Every comparison shows the array
of the step before, the array changes at merges only, and every step shows its values: each of these
is true exactly when the halves are in order. -/
theorem merge_shows_whole_iff (start : Vector Int n) :
    (∀ step ∈ steps .merge start, step.action ≠ "compare" → ShowsRearranged start step) ∧
    (steps .merge start).IsChain (ShownLate n) ∧
    List.TFAE [HalvesInOrder start.toList,
      (steps .merge start).IsChain ComparesStill,
      (steps .merge start).IsChain ChangesAtMerge,
      ∀ step ∈ steps .merge start, ShowsRearranged start step] :=
  ⟨fun _ => showsRearranged_of_action, merge_shownLate start, shownWhole_tfae start⟩

theorem merge_shows_whole_iff_opening :
    openingStep #v[2, 1, 3] ∈ steps .merge #v[2, 1, 3] ∧
      (openingStep #v[2, 1, 3]).action ≠ "compare" ∧
      ShowsRearranged #v[2, 1, 3] (openingStep #v[2, 1, 3]) := by
  have hmem : openingStep #v[2, 1, 3] ∈ steps .merge #v[2, 1, 3] := List.mem_cons_self
  have haction : (openingStep #v[2, 1, 3]).action ≠ "compare" := by simp [openingStep, stepOn]
  exact ⟨hmem, haction, (merge_shows_whole_iff #v[2, 1, 3]).1 _ hmem haction⟩

/-- Of `2, 1, 3`, the second comparison at the merge of `2` with `1, 3` shows `1, 1, 3`. -/
theorem merge_shows_lost :
    ¬(steps .merge #v[2, 1, 3]).IsChain ComparesStill ∧
      ¬(steps .merge #v[2, 1, 3]).IsChain ChangesAtMerge ∧
      ¬∀ step ∈ steps .merge #v[2, 1, 3], ShowsRearranged #v[2, 1, 3] step := by
  have hout : ¬HalvesInOrder [2, 1, 3] := fun h => by
    obtain ⟨hle, -⟩ := (halvesInOrder_iff (by decide)).mp h
    exact absurd (hle 2 (by decide) 1 (by decide)) (by decide)
  have htfae := shownWhole_tfae #v[2, 1, 3]
  exact ⟨fun h => hout ((htfae.out 1 0).mp h), fun h => hout ((htfae.out 2 0).mp h),
    fun h => hout ((htfae.out 3 0).mp h)⟩

end Storyboard.Sorting
