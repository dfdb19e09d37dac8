import Storyboard.Sorting.Quick
import Storyboard.Proofs.Sorting.Rearrangement

/-!
# Quick sort puts an array in order

The loop of a partition has the positions that it has gone over in two parts (`Gathered`): the
values less than the pivot, and behind them the others.  With the pivot between the two parts
(`Divided`), sorting either of them keeps it where it is, so the segment is in order when both are.
-/

namespace Storyboard.Sorting

variable {n : Nat} {start : Vector Int n} {a b : Vector Int n}

/-- Exchanging two positions only when they differ is exchanging them. -/
theorem swapDistinct_now (i j : Fin n) (r : Recording start) :
    (swapDistinct i j r).now = exchange r.now i j := by
  unfold swapDistinct
  split
  next h =>
    rw [h]
    exact (exchange_self r.now j).symm
  next => rfl

/-! ## The partition -/

/-- From `first` to `j` the values less than the pivot come first, up to `store`. -/
structure Gathered (pivot : Int) (first store j : Nat) (a : Vector Int n) : Prop where
  less : ∀ k : Fin n, first ≤ k → (k : Nat) < store → a.get k < pivot
  rest : ∀ k : Fin n, store ≤ k → (k : Nat) < j → pivot ≤ a.get k

namespace Gathered

variable {pivot : Int} {first store : Nat} {j : Fin n}

/-- A value that is not less than the pivot stays. -/
theorem keep (h : Gathered pivot first store j a) (hle : pivot ≤ a.get j) :
    Gathered pivot first store (j + 1) a where
  less := h.less
  rest k hk hkj := by
    rcases Nat.lt_or_ge k j with hlt | hge
    · exact h.rest k hk hlt
    · have : k = j := Fin.ext (Nat.le_antisymm (Nat.le_of_lt_succ hkj) hge)
      exact this ▸ hle

/-- A value less than the pivot changes places with the first one that is not. -/
theorem swap {s : Fin n} (h : Gathered pivot first s j a) (hsj : s ≤ j) (hlt : a.get j < pivot) :
    Gathered pivot first (s + 1) (j + 1) (exchange a s j) := by
  have hother : ∀ k : Fin n, (k : Nat) ≠ s → (k : Nat) ≠ j → (exchange a s j).get k = a.get k :=
    fun k hs hj => get_exchange_of_ne a (Fin.ne_of_val_ne hs) (Fin.ne_of_val_ne hj)
  have hle : (s : Nat) ≤ j := hsj
  constructor
  · intro k hf hk
    rcases Nat.lt_or_ge k s with hks | hsk
    · rw [hother k (by omega) (by omega)]
      exact h.less k hf hks
    · have : k = s := Fin.ext (by omega)
      rw [this, get_exchange_left]
      exact hlt
  · intro k hk hkj
    rcases Nat.lt_or_ge k j with hlt' | hge
    · rw [hother k (by omega) (by omega)]
      exact h.rest k (by omega) hlt'
    · -- the value that goes back is the first of those that are not less
      have : k = j := Fin.ext (by omega)
      rw [this, get_exchange_right]
      exact h.rest s (Nat.le_refl _) (by omega)

end Gathered

theorem gather_rearranged (last : Fin n) (pivot : Int) (first store j : Nat) (hf : first ≤ store)
    (hs : store ≤ j) (hj : j ≤ last) (r : Recording start) :
    Rearranged first last r.now (gather last pivot first store j hf hs hj r).2.now := by
  fun_induction gather last pivot first store j hf hs hj r with
  | case1 store j hf hs hj r h here r' hlt ih =>
    have hswap : Rearranged first last r.now (swapDistinct ⟨store, by omega⟩ here r').now := by
      rw [swapDistinct_now]
      exact .swap r.now ⟨hf, by show store < last; omega⟩ ⟨by show first ≤ j; omega, h⟩
    exact hswap.trans ih
  | case2 store j hf hs hj r h here r' hge ih => exact ih
  | case3 store j hf hs hj r h => exact .refl ..

theorem gather_gathered (last : Fin n) (pivot : Int) (first store j : Nat) (hf : first ≤ store)
    (hs : store ≤ j) (hj : j ≤ last) (r : Recording start)
    (h : Gathered pivot first store j r.now) :
    Gathered pivot first (gather last pivot first store j hf hs hj r).1.val last
      (gather last pivot first store j hf hs hj r).2.now := by
  fun_induction gather last pivot first store j hf hs hj r with
  | case1 store j hf hs hj r hlt here r' hless ih =>
    apply ih
    rw [swapDistinct_now]
    exact Gathered.swap (s := ⟨store, by omega⟩) (j := here) h hs hless
  | case2 store j hf hs hj r hlt here r' hge ih =>
    exact ih (Gathered.keep (j := here) h (Int.not_lt.mp hge))
  | case3 store j hf hs hj r hge =>
    have : j = last := Nat.le_antisymm hj (Nat.not_lt.mp hge)
    exact this ▸ h

/-- In a segment no value before `place` is greater than the one there, and no value behind it is
less. -/
structure Divided (first stop : Nat) (place : Fin n) (a : Vector Int n) : Prop where
  before : ∀ k : Fin n, first ≤ k → k < place → a.get k ≤ a.get place
  behind : ∀ k : Fin n, place < k → (k : Nat) < stop → a.get place ≤ a.get k

/-- The pivot divides the segment when it is swapped behind the lesser values. -/
theorem Gathered.divided {first : Nat} {place : Fin n} (last : Fin n)
    (h : Gathered (a.get last) first place last a) (hle : place ≤ last) :
    Divided first (last + 1) place (exchange a place last) := by
  have hleft := get_exchange_left a place last
  have hother : ∀ k : Fin n, (k : Nat) ≠ place → (k : Nat) ≠ last →
      (exchange a place last).get k = a.get k := fun k hp hl =>
    get_exchange_of_ne a (Fin.ne_of_val_ne hp) (Fin.ne_of_val_ne hl)
  have hpl : (place : Nat) ≤ last := hle
  constructor
  · intro k hf hk
    have hkp : (k : Nat) < place := hk
    rw [hleft, hother k (by omega) (by omega)]
    exact Int.le_of_lt (h.less k hf hkp)
  · -- the value at `place` goes to the end, so it stays behind the pivot
    intro k hk hks
    have hpk : (place : Nat) < k := hk
    rw [hleft]
    rcases Nat.lt_or_ge k last with hlt | hge
    · rw [hother k (by omega) (by omega)]
      exact h.rest k (Nat.le_of_lt hpk) hlt
    · have : k = last := Fin.ext (by omega)
      rw [this, get_exchange_right]
      exact h.rest place (Nat.le_refl _) (by omega)

namespace Divided

variable {first stop : Nat} {place : Fin n}

/-- Moving about the values before the dividing one keeps it dividing. -/
theorem rearranged_before (h : Divided first stop place a) (hab : Rearranged first place a b) :
    Divided first stop place b := by
  have hplace : b.get place = a.get place := hab.outside place (Or.inr (Nat.le_refl _))
  constructor
  · intro k hf hk
    rw [hplace]
    exact hab.forall_mem (P := fun x => x ≤ a.get place) h.before k hf hk
  · intro k hk hks
    rw [hplace, hab.outside k (Or.inr (Nat.le_of_lt hk))]
    exact h.behind k hk hks

/-- Moving about the values behind the dividing one keeps it dividing. -/
theorem rearranged_behind (h : Divided first stop place a)
    (hab : Rearranged (place + 1) stop a b) : Divided first stop place b := by
  have hplace : b.get place = a.get place := hab.outside place (Or.inl (Nat.lt_succ_self _))
  constructor
  · intro k hf hk
    have hlt : (k : Nat) < place := hk
    rw [hplace, hab.outside k (Or.inl (by omega))]
    exact h.before k hf hk
  · intro k hk hks
    rw [hplace]
    exact hab.forall_mem (P := fun x => a.get place ≤ x) (fun q hq hqs => h.behind q hq hqs) k hk hks

/-- A divided segment is in order when both its parts are. -/
theorem sortedOn (h : Divided first stop place a) (hbefore : SortedOn first place a)
    (hbehind : SortedOn (place + 1) stop a) : SortedOn first stop a := by
  intro i j hi hij hj
  have hlt : (i : Nat) < j := hij
  rcases Nat.lt_trichotomy i place with hip | hip | hip
  · rcases Nat.lt_trichotomy j place with hjp | hjp | hjp
    · exact hbefore i j hi hij hjp
    · have : j = place := Fin.ext hjp
      exact this ▸ h.before i hi hip
    · exact Int.le_trans (h.before i hi hip) (h.behind j hjp hj)
  · have : i = place := Fin.ext hip
    subst this
    exact h.behind j hij hj
  · exact hbehind i j hip hij hj

end Divided

/-! ## The recursion -/

/-- A segment is divided by its pivot, and then both parts are sorted. -/
theorem quickSegment_sorts (first last : Nat) (h : last < n) (r : Recording start) :
    Rearranged first (last + 1) r.now (quickSegment first last h r).now ∧
      SortedOn first (last + 1) (quickSegment first last h r).now := by
  fun_induction quickSegment first last h r with
  | case1 first last h r hl lowest highest pivot place hp r₁ hgather hle r₂ r₃ ihb _ ihr =>
    have hgathered := gather_rearranged highest pivot first first first (Nat.le_refl _)
      (Nat.le_refl _) (Nat.le_of_lt hl) (r.add (.pivot lowest highest pivot))
    have hparts := gather_gathered highest pivot first first first (Nat.le_refl _) (Nat.le_refl _)
      (Nat.le_of_lt hl) (r.add (.pivot lowest highest pivot))
      ⟨fun k hf hk => by omega, fun k hf hk => by omega⟩
    rw [hgather] at hgathered hparts
    -- the pivot itself has not been moved by the loop
    have hpivot : r₁.now.get highest = pivot := hgathered.outside highest (Or.inr (Nat.le_refl _))
    have hr₂ : r₂.now = exchange r₁.now place highest := swapDistinct_now place highest r₁
    have hdivided : Divided first (last + 1) place r₂.now := by
      rw [hr₂]
      exact Gathered.divided highest (by rw [hpivot]; exact hparts) hp.2
    have hmoved₂ : Rearranged first (last + 1) r.now r₂.now := by
      rw [hr₂]
      exact (hgathered.widen (Nat.le_refl _) (Nat.le_succ _)).trans
        (.swap r₁.now ⟨hp.1, Nat.lt_succ_of_le hle⟩ ⟨Nat.le_of_lt hl, Nat.lt_succ_self _⟩)
    -- the front part is left alone when it is empty
    have hleft : Rearranged first place r₂.now r₃.now ∧ SortedOn first place r₃.now := by
      rcases Nat.lt_or_ge first place with hlt | hge
      · have hplace : (place : Nat) - 1 + 1 = place := Nat.sub_add_cancel (by omega)
        have hr₃ : r₃ = quickSegment first (place - 1) (by omega) r₂ := dif_pos hlt
        have hdone := ihb hlt
        rw [hplace] at hdone
        rw [hr₃]
        exact hdone
      · have hr₃ : r₃ = r₂ := dif_neg (Nat.not_lt.mpr hge)
        rw [hr₃]
        exact ⟨.refl .., sortedOn_of_le (Nat.le_succ_of_le hge)⟩
    obtain ⟨hmoved₃, hsorted₃⟩ := hleft
    obtain ⟨hmoved, hsorted⟩ := ihr
    refine ⟨?_, ?_⟩
    · exact (hmoved₂.trans (hmoved₃.widen (Nat.le_refl _) (by omega))).trans
        (hmoved.widen (by omega) (Nat.le_refl _))
    · -- each part is moved about on its own, and the pivot keeps dividing them
      refine ((hdivided.rearranged_before hmoved₃).rearranged_behind hmoved).sortedOn ?_ hsorted
      exact hsorted₃.congr fun k _ hk => hmoved.outside k (Or.inl (Nat.lt_succ_of_lt hk))
  | case2 first last h r hge => exact ⟨.refl .., sortedOn_of_le (by omega)⟩

theorem quick_sorts (r : Recording start) : Sorts r (quick r) := by
  unfold quick
  split
  next h => exact ⟨.refl .., sortedOn_of_le (by omega)⟩
  next h =>
    have hdone := quickSegment_sorts 0 (n - 1) (by omega) r
    rw [Nat.sub_add_cancel (Nat.pos_of_ne_zero h)] at hdone
    exact ⟨hdone.1, hdone.2⟩

end Storyboard.Sorting
