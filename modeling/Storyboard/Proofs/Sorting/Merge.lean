import Storyboard.Sorting.Merge
import Storyboard.Proofs.Sorting.Rearrangement

/-!
# Merge sort puts an array in order

What a merge leaves behind is the merge of two lists in place of its segment (`mergeHalves_overwritten`):
of values in order that is in order, and it has the values of both halves.
-/

namespace Storyboard.Sorting

variable {n : Nat} {start : Vector Int n} {a b : Vector Int n}

/-- A segment in two parts. -/
theorem segment_append (a : Vector Int n) {first middle stop : Nat} (hf : first ≤ middle)
    (hm : middle ≤ stop) :
    segment a first middle ++ segment a middle stop = segment a first stop := by
  have hlate : segment a middle stop = (segment a first stop).drop (middle - first) := by
    rw [segment, segment, List.drop_drop, Nat.add_sub_cancel' hf]
  have hearly : segment a first middle = (segment a first stop).take (middle - first) := by
    rw [segment, segment, List.take_drop, Nat.add_sub_cancel' hf, List.take_take,
      Nat.min_eq_left hm]
  rw [hearly, hlate, List.take_append_drop]

/-! ## Writing -/

/-- The array `b` has `values` in place of those of `a` from position `k` on. -/
def Overwritten (k : Nat) (values : List Int) (a b : Vector Int n) : Prop :=
  b.toList = a.toList.take k ++ values ++ a.toList.drop (k + values.length)

namespace Overwritten

variable {k : Nat} {values : List Int}

theorem nil (k : Nat) (a : Vector Int n) : Overwritten k [] a a := by
  rw [Overwritten, List.append_nil, List.length_nil, Nat.add_zero, List.take_append_drop]

theorem cons {v : Int} (hk : k < n) (h : Overwritten (k + 1) values (put a ⟨k, hk⟩ v) b) :
    Overwritten k (v :: values) a b := by
  have hlen : k < a.toList.length := by rwa [Vector.length_toList]
  have hfront : (put a ⟨k, hk⟩ v).toList.take (k + 1) = a.toList.take k ++ [v] := by
    rw [put, Vector.toList_set, List.take_succ_eq_append_getElem (by simpa using hlen),
      List.take_set_of_le (Nat.le_refl k), List.getElem_set_self]
  have hback : (put a ⟨k, hk⟩ v).toList.drop (k + 1 + values.length) =
      a.toList.drop (k + (v :: values).length) := by
    rw [put, Vector.toList_set, List.drop_set_of_lt (show k < k + 1 + values.length by omega),
      List.length_cons]
    congr 1
    omega
  -- the value at `k` becomes the last one before the rest
  rw [Overwritten] at h ⊢
  rw [h, hfront, hback, List.append_assoc _ [v] values, List.singleton_append]

theorem segment_eq (h : Overwritten k values a b) (hk : k + values.length ≤ n) :
    segment b k (k + values.length) = values := by
  have hlen : (a.toList.take k).length = k := by
    rw [List.length_take, Vector.length_toList]
    omega
  have hfront : (a.toList.take k ++ values).length = k + values.length := by
    rw [List.length_append, hlen]
  rw [segment, h, List.take_left' hfront, List.drop_left' hlen]

theorem outside (h : Overwritten k values a b) (hk : k + values.length ≤ n) (i : Fin n)
    (hi : (i : Nat) < k ∨ k + values.length ≤ i) : b.get i = a.get i := by
  have hlen : (a.toList.take k).length = k := by
    rw [List.length_take, Vector.length_toList]
    omega
  have hget : b.toList[(i : Nat)]? = a.toList[(i : Nat)]? := by
    rw [h]
    rcases hi with hi | hi
    · rw [List.append_assoc, List.getElem?_append_left (by rwa [hlen]),
        List.getElem?_take_of_lt hi]
    · rw [List.getElem?_append_right (by rwa [List.length_append, hlen]), List.getElem?_drop,
        List.length_append, hlen, Nat.add_sub_cancel' hi]
  simpa [get_eq_getElem] using hget

/-- Values in place of the same ones in another order are a rearrangement. -/
theorem rearranged (h : Overwritten k values a b) (hk : k + values.length ≤ n)
    (hperm : values.Perm (segment a k (k + values.length))) :
    Rearranged k (k + values.length) a b :=
  .of_segment_perm (by rwa [h.segment_eq hk]) (h.outside hk)

end Overwritten

/-! ## Merging -/

theorem writeFrom_overwritten {k : Nat} {values : List Int} {h : k + values.length ≤ n}
    {r : Recording start} : Overwritten k values r.now (writeFrom k values h r).now := by
  fun_induction writeFrom k values h r with
  | case1 k h r => exact .nil ..
  | case2 k value rest h r hk ih => exact ih.cons hk

/-- What a merge leaves behind. -/
theorem mergeHalves_overwritten {k i j : Nat} {left right : List Int}
    {h : k + (left.length + right.length) ≤ n} {r : Recording start} :
    Overwritten k (left.merge right) r.now (mergeHalves k i j left right h r).now := by
  fun_induction mergeHalves k i j left right h r with
  | case1 _ _ k right h r =>
    rw [List.nil_merge]
    exact writeFrom_overwritten
  | case2 _ _ k left h r =>
    rw [List.merge_right]
    exact writeFrom_overwritten
  | case3 k i j a left b right h r hk r' hlt _ ih =>
    rw [List.cons_merge_cons_neg _ _ _ (by simpa using hlt)]
    exact ih.cons hk
  | case4 k i j a left b right h r hk r' hge _ ih =>
    rw [List.cons_merge_cons_pos _ _ _ (by simpa using hge)]
    exact ih.cons hk

/-- The merge of values in order is in order. -/
theorem pairwise_merge {left right : List Int} (hl : left.Pairwise (· ≤ ·))
    (hr : right.Pairwise (· ≤ ·)) : (left.merge right).Pairwise (· ≤ ·) := by
  have h := @List.pairwise_merge Int (fun a b => decide (a ≤ b))
    (fun a b c hab hbc => by simp only [decide_eq_true_eq] at *; omega)
    (fun a b => by simp only [Bool.or_eq_true, decide_eq_true_eq]; omega)
    left right (by simpa using hl) (by simpa using hr)
  simpa using h

/-- Merging the two halves of a segment puts it in order. -/
theorem mergeHalves_sorts {first middle stop : Nat} {i j : Nat} {r : Recording start}
    (hf : first ≤ middle) (hm : middle ≤ stop) (hn : stop ≤ n)
    {h : first + ((segment r.now first middle).length + (segment r.now middle stop).length) ≤ n}
    (hleft : SortedOn first middle r.now) (hright : SortedOn middle stop r.now) :
    Rearranged first stop r.now (mergeHalves first i j (segment r.now first middle)
        (segment r.now middle stop) h r).now ∧
      SortedOn first stop (mergeHalves first i j (segment r.now first middle)
        (segment r.now middle stop) h r).now := by
  have hwritten := mergeHalves_overwritten (k := first) (i := i) (j := j) (h := h) (r := r)
  have hlen : first + ((segment r.now first middle).merge (segment r.now middle stop)).length =
      stop := by
    rw [List.length_merge, length_segment _ (by omega), length_segment _ hn]
    omega
  have hperm : ((segment r.now first middle).merge (segment r.now middle stop)).Perm
      (segment r.now first stop) := by
    rw [← segment_append r.now hf hm]
    exact List.merge_perm_append _
  have hmoved := hwritten.rearranged (by rwa [hlen]) (by rwa [hlen])
  have hsegment := hwritten.segment_eq (by rwa [hlen])
  -- a merge has as many values as its two halves, so it ends where the second one does
  rw [hlen] at hmoved hsegment
  refine ⟨hmoved, sortedOn_iff_pairwise.mpr ?_⟩
  rw [hsegment]
  exact pairwise_merge (sortedOn_iff_pairwise.mp hleft) (sortedOn_iff_pairwise.mp hright)

theorem mergeSegment_sorts {first stop : Nat} (h : stop ≤ n) (r : Recording start) :
    Rearranged first stop r.now (mergeSegment first stop h r).now ∧
      SortedOn first stop (mergeSegment first stop h r).now := by
  fun_induction mergeSegment first stop h r with
  | case1 first stop h r hs middle r₁ r₂ r₃ ih₁ _ ih₂ _ =>
    obtain ⟨hmoved₁, hsorted₁⟩ := ih₁
    obtain ⟨hmoved₂, hsorted₂⟩ := ih₂
    -- sorting the second half leaves the first one alone
    have hleft : SortedOn first middle r₂.now :=
      hsorted₁.congr fun k _ hk => hmoved₂.outside k (Or.inl hk)
    obtain ⟨hmoved₃, hsorted₃⟩ := mergeHalves_sorts (i := first) (j := middle) (by omega)
      (by omega) h hleft hsorted₂
    exact ⟨((hmoved₁.widen (Nat.le_refl _) (by omega)).trans
      (hmoved₂.widen (by omega) (Nat.le_refl _))).trans hmoved₃, hsorted₃⟩
  | case2 first stop h r hs => exact ⟨.refl .., sortedOn_of_le (by omega)⟩

theorem merge_sorts (r : Recording start) : Sorts r (merge r) :=
  let ⟨hmoved, hsorted⟩ := mergeSegment_sorts (Nat.le_refl n) r
  ⟨hmoved, hsorted⟩

end Storyboard.Sorting
