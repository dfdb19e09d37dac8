import Storyboard.Sorting.Merge
import Mathlib.Data.List.Perm.Basic

/-!
# Rearranging a segment

What every sort here does to its array: it moves values about between two positions and leaves the
others alone.  `Rearranged first stop a b` says so; it is kept by a swap (`swap`) and by steps that
follow each other (`trans`), and a property of all values of the segment outlives it (`forall_mem`),
however the values are moved.

`SortedOn` and `SettledFrom` are the two kinds of order that the sorts build up: a segment in order,
and positions whose values are where they belong.
-/

namespace Storyboard.Sorting

variable {n : Nat} {a b c : Vector Int n} {first stop : Nat}

/-- The values of a segment are those at its positions. -/
theorem mem_segment {x : Int} :
    x ∈ segment a first stop ↔ ∃ i : Fin n, first ≤ i ∧ (i : Nat) < stop ∧ a.get i = x := by
  unfold segment
  constructor
  · intro hx
    obtain ⟨k, hk, rfl⟩ := List.getElem_of_mem hx
    simp only [List.length_drop, List.length_take, Vector.length_toList] at hk
    -- the `k`-th value of the segment stands `k` positions behind its first one
    refine ⟨⟨first + k, by omega⟩, Nat.le_add_right .., by show first + k < stop; omega, ?_⟩
    simp [get_eq_getElem]
  · rintro ⟨i, hf, hs, rfl⟩
    have hi := i.isLt
    rw [List.mem_iff_getElem]
    refine ⟨i - first, ?_, ?_⟩
    · simp only [List.length_drop, List.length_take, Vector.length_toList]
      omega
    · simp [Nat.add_sub_cancel' hf, get_eq_getElem]

/-- A segment of everything is everything. -/
theorem segment_zero (a : Vector Int n) : segment a 0 n = a.toList := by
  rw [segment, List.drop_zero, List.take_of_length_le (Nat.le_of_eq Vector.length_toList)]

/-- The values before a segment, the segment and those behind it. -/
theorem toList_eq_segments (a : Vector Int n) (first stop : Nat) :
    a.toList = ((a.toList.take stop).take first ++ segment a first stop) ++ a.toList.drop stop := by
  rw [segment, List.take_append_drop, List.take_append_drop]

/-- A position is exchanged with itself to no effect. -/
theorem exchange_self (a : Vector Int n) (i : Fin n) : exchange a i i = a := by
  apply Vector.ext
  intro k hk
  rw [exchange, Vector.getElem_swap]
  split
  next h => simp only [h]
  next => rfl

/-! ## Rearrangement -/

/-- `b` holds the values of `a`, moved about between the positions from `first` up to, but without,
`stop`. -/
structure Rearranged (first stop : Nat) (a b : Vector Int n) : Prop where
  perm : b.toList.Perm a.toList
  outside : ∀ i : Fin n, (i : Nat) < first ∨ stop ≤ i → b.get i = a.get i

/-- Arrays that agree outside a segment have the same values before it and behind it. -/
theorem around_segment (h : ∀ i : Fin n, (i : Nat) < first ∨ stop ≤ i → b.get i = a.get i) :
    (b.toList.take stop).take first = (a.toList.take stop).take first ∧
      b.toList.drop stop = a.toList.drop stop := by
  constructor
  · apply List.ext_getElem
    · simp
    · intro k hk _
      simp only [List.length_take, Vector.length_toList] at hk
      simpa [get_eq_getElem] using h ⟨k, by omega⟩ (Or.inl (by show k < first; omega))
  · apply List.ext_getElem
    · simp
    · intro k hk _
      simp only [List.length_drop, Vector.length_toList] at hk
      simpa [get_eq_getElem] using h ⟨stop + k, by omega⟩ (Or.inr (Nat.le_add_right ..))

namespace Rearranged

theorem refl (first stop : Nat) (a : Vector Int n) : Rearranged first stop a a :=
  ⟨.refl _, fun _ _ => rfl⟩

theorem trans (h : Rearranged first stop a b) (h' : Rearranged first stop b c) :
    Rearranged first stop a c :=
  ⟨h'.perm.trans h.perm, fun i hi => (h'.outside i hi).trans (h.outside i hi)⟩

theorem widen {first' stop' : Nat} (h : Rearranged first stop a b) (hf : first' ≤ first)
    (hs : stop ≤ stop') : Rearranged first' stop' a b :=
  ⟨h.perm, fun i hi => h.outside i (by omega)⟩

theorem swap (a : Vector Int n) {i j : Fin n} (hi : first ≤ i ∧ (i : Nat) < stop)
    (hj : first ≤ j ∧ (j : Nat) < stop) : Rearranged first stop a (exchange a i j) := by
  refine ⟨(Vector.swap_perm i.isLt j.isLt).toList, fun k hk => ?_⟩
  have hki : (k : Nat) ≠ i := by omega
  have hkj : (k : Nat) ≠ j := by omega
  exact get_exchange_of_ne a (Fin.ne_of_val_ne hki) (Fin.ne_of_val_ne hkj)

/-- The values of the segment are the same ones. -/
theorem segment_perm (h : Rearranged first stop a b) :
    (segment b first stop).Perm (segment a first stop) := by
  obtain ⟨hfront, hback⟩ := around_segment h.outside
  have hperm := h.perm
  -- what stands before the segment and behind it is the same in both arrays, and cancels
  rw [toList_eq_segments a first stop, toList_eq_segments b first stop, hfront, hback,
    List.perm_append_right_iff, List.perm_append_left_iff] at hperm
  exact hperm

/-- Moving the values of a segment about, by whatever means, is a rearrangement. -/
theorem of_segment_perm (hperm : (segment b first stop).Perm (segment a first stop))
    (hout : ∀ i : Fin n, (i : Nat) < first ∨ stop ≤ i → b.get i = a.get i) :
    Rearranged first stop a b := by
  obtain ⟨hfront, hback⟩ := around_segment hout
  refine ⟨?_, hout⟩
  rw [toList_eq_segments a first stop, toList_eq_segments b first stop, hfront, hback]
  exact (hperm.append_left _).append_right _

/-- What holds of all values of the segment before holds of all of them afterwards. -/
theorem forall_mem (h : Rearranged first stop a b) {P : Int → Prop}
    (hP : ∀ i : Fin n, first ≤ i → (i : Nat) < stop → P (a.get i)) :
    ∀ i : Fin n, first ≤ i → (i : Nat) < stop → P (b.get i) := by
  intro i hf hs
  -- the value stood somewhere in the segment before, though not at the same position
  have hmem : b.get i ∈ segment a first stop :=
    h.segment_perm.mem_iff.mp (mem_segment.mpr ⟨i, hf, hs, rfl⟩)
  obtain ⟨k, hkf, hks, hk⟩ := mem_segment.mp hmem
  rw [← hk]
  exact hP k hkf hks

end Rearranged

/-! ## Order -/

/-- The positions from `first` up to, but without, `stop` are in order. -/
def SortedOn (first stop : Nat) (a : Vector Int n) : Prop :=
  ∀ i j : Fin n, first ≤ i → i < j → (j : Nat) < stop → a.get i ≤ a.get j

/-- A segment of at most one position is in order. -/
theorem sortedOn_of_le (h : stop ≤ first + 1) : SortedOn first stop a := by
  intro i j hi hij hj
  have : (i : Nat) < j := hij
  omega

/-- Order depends on the values of the segment alone. -/
theorem SortedOn.congr (h : SortedOn first stop a)
    (heq : ∀ i : Fin n, first ≤ i → (i : Nat) < stop → b.get i = a.get i) : SortedOn first stop b := by
  intro i j hi hij hj
  have hlt : (i : Nat) < j := hij
  rw [heq i hi (by omega), heq j (by omega) hj]
  exact h i j hi hij hj

/-- A segment in order stays so with one more value in front that is not greater than its first. -/
theorem SortedOn.cons {i j : Fin n} (h : SortedOn j stop a) (hij : (j : Nat) = i + 1)
    (hle : a.get i ≤ a.get j) : SortedOn i stop a := by
  intro p q hp hpq hq
  have hlt : (p : Nat) < q := hpq
  rcases Nat.lt_or_ge i p with hip | hpi
  · exact h p q (by omega) hpq hq
  · have : p = i := Fin.ext (Nat.le_antisymm hpi hp)
    subst this
    rcases Nat.lt_or_ge j q with hjq | hqj
    · exact Int.le_trans hle (h j q (Nat.le_refl _) hjq hq)
    · have : q = j := Fin.ext (by omega)
      exact this ▸ hle

theorem sortedOn_iff_pairwise : SortedOn first stop a ↔ (segment a first stop).Pairwise (· ≤ ·) := by
  rw [List.pairwise_iff_getElem]
  constructor
  · intro h i j hi hj hij
    simp only [segment, List.length_drop, List.length_take, Vector.length_toList] at hi hj
    simpa [segment, get_eq_getElem] using
      h ⟨first + i, by omega⟩ ⟨first + j, by omega⟩ (Nat.le_add_right ..)
      (by show first + i < first + j; omega) (by show first + j < stop; omega)
  · intro h i j hi hij hj
    have hlt : (i : Nat) < j := hij
    have hjn := j.isLt
    have hlen : (segment a first stop).length = min stop n - first := by
      simp [segment]
    have := h (i - first) (j - first) (by omega) (by omega) (by omega)
    simpa [segment, get_eq_getElem, Nat.add_sub_cancel' hi,
      Nat.add_sub_cancel' (show first ≤ j by omega)] using this

/-- From position `first` on no value is less than one before it. -/
def SettledFrom (first : Nat) (a : Vector Int n) : Prop :=
  ∀ i j : Fin n, i < j → first ≤ j → a.get i ≤ a.get j

namespace SettledFrom

/-- Behind the last position there is nothing to settle. -/
theorem of_le (h : n ≤ first) : SettledFrom first a := by
  intro i j _ hj
  exact absurd j.isLt (by omega)

/-- Values that are settled stay so while those before them are moved about. -/
theorem rearranged (h : SettledFrom stop a) (hab : Rearranged 0 stop a b) : SettledFrom stop b := by
  intro i j hij hj
  have hlt : (i : Nat) < j := hij
  rw [hab.outside j (Or.inr hj)]
  rcases Nat.lt_or_ge i stop with hi | hi
  · -- whatever value has come to `i`, it was one of those before the settled ones
    exact hab.forall_mem (P := fun x => x ≤ a.get j)
      (fun k _ hk => h k j (by show (k : Nat) < j; omega) hj) i (Nat.zero_le _) hi
  · rw [hab.outside i (Or.inr hi)]
    exact h i j hij hj

/-- One more position is settled when no value before it is greater. -/
theorem extend {m : Fin n} (h : SettledFrom (m + 1) a)
    (hm : ∀ i : Fin n, i < m → a.get i ≤ a.get m) : SettledFrom m a := by
  intro i j hij hj
  rcases Nat.lt_or_ge m j with hlt | hge
  · exact h i j hij hlt
  · have : j = m := Fin.ext (Nat.le_antisymm hge hj)
    subst this
    exact hm i hij

/-- When the positions before the settled ones are in order, everything is. -/
theorem sortedOn (h : SettledFrom stop a) (hs : SortedOn 0 stop a) : SortedOn 0 n a := by
  intro i j hi hij _
  rcases Nat.lt_or_ge j stop with hlt | hge
  · exact hs i j hi hij hlt
  · exact h i j hij hge

end SettledFrom

/-- Before position `stop` no value is greater than one behind it. -/
def SettledTo (stop : Nat) (a : Vector Int n) : Prop :=
  ∀ i j : Fin n, i < j → (i : Nat) < stop → a.get i ≤ a.get j

namespace SettledTo

theorem zero (a : Vector Int n) : SettledTo 0 a := fun _ _ _ hi => absurd hi (Nat.not_lt_zero _)

/-- Values that are settled stay so while those behind them are moved about. -/
theorem rearranged (h : SettledTo first a) (hab : Rearranged first n a b) : SettledTo first b := by
  intro i j hij hi
  rw [hab.outside i (Or.inl hi)]
  rcases Nat.lt_or_ge j first with hj | hj
  · rw [hab.outside j (Or.inl hj)]
    exact h i j hij hi
  · exact hab.forall_mem (P := fun x => a.get i ≤ x)
      (fun k hk _ => h i k (by show (i : Nat) < k; omega) hi) j hj j.isLt

/-- One more position is settled when no value behind it is less. -/
theorem extend {i : Fin n} (h : SettledTo i a) (hi : ∀ j : Fin n, i < j → a.get i ≤ a.get j) :
    SettledTo (i + 1) a := by
  intro p q hpq hp
  rcases Nat.lt_or_ge p i with hlt | hge
  · exact h p q hpq hlt
  · have : p = i := Fin.ext (by omega)
    subst this
    exact hi q hpq

/-- With everything but the last position settled, everything is in order. -/
theorem sortedOn (h : SettledTo first a) (hf : n ≤ first + 1) : SortedOn 0 n a := by
  intro i j _ hij hj
  have hlt : (i : Nat) < j := hij
  exact h i j hij (by omega)

end SettledTo

/-! ## Sorting -/

/-- The second recording ends in the values of the first one, in order. -/
structure Sorts {start : Vector Int n} (r r' : Recording start) : Prop where
  rearranged : Rearranged 0 n r.now r'.now
  sorted : SortedOn 0 n r'.now

end Storyboard.Sorting
