import Storyboard.Sorting.Heap
import Storyboard.Proofs.Sorting.Rearrangement

/-!
# Heap sort puts an array in order

`HeapFrom lo stop` is the order of a heap below `stop`, as far as parents from `lo` on go.  While a
value sinks, it may be less than its own children and nothing else is out of order (`Sinks`); a swap
with the greatest child hands this on to the child.  The root of a heap has its greatest value, so a
drained heap settles one position after the other.
-/

namespace Storyboard.Sorting

variable {n : Nat} {start : Vector Int n} {a : Vector Int n} {lo stop : Nat}

/-! ## Heaps -/

/-- `c` is one of the two children of `p`. -/
def IsChild (p c : Nat) : Prop := c = 2 * p + 1 ∨ c = 2 * p + 2

theorem IsChild.lt {p c : Nat} (h : IsChild p c) : p < c := by
  unfold IsChild at h
  omega

theorem IsChild.parent_unique {p q c : Nat} (hp : IsChild p c) (hq : IsChild q c) : p = q := by
  unfold IsChild at hp hq
  omega

/-- Every position but the first is a child. -/
theorem exists_isChild {c : Nat} (h : 0 < c) : ∃ p, IsChild p c := by
  refine ⟨(c - 1) / 2, ?_⟩
  unfold IsChild
  omega

/-- Before `stop` no child is greater than its parent, for parents from `lo` on. -/
def HeapFrom (lo stop : Nat) (a : Vector Int n) : Prop :=
  ∀ p c : Fin n, lo ≤ p → IsChild p c → (c : Nat) < stop → a.get c ≤ a.get p

/-- The second half of an array has no children. -/
theorem heapFrom_half (a : Vector Int n) : HeapFrom (n / 2) n a := by
  intro p c hp hc _
  have := c.isLt
  unfold IsChild at hc
  omega

/-- The root of a heap has the greatest value. -/
theorem HeapFrom.le_root (h : HeapFrom 0 stop a) (i : Fin n) :
    (i : Nat) < stop → a.get i ≤ a.get (rootOf i) := by
  obtain ⟨i, hi⟩ := i
  induction i using Nat.strongRecOn with
  | ind i ih =>
    intro hs
    rcases Nat.eq_zero_or_pos i with rfl | hpos
    · exact Int.le_refl _
    · -- the parent stands nearer to the root
      obtain ⟨p, hp⟩ := exists_isChild hpos
      have hlt := hp.lt
      exact Int.le_trans (h ⟨p, Nat.lt_trans hlt hi⟩ ⟨i, hi⟩ (Nat.zero_le _) hp hs)
        (ih p hlt (Nat.lt_trans hlt hi) (Nat.lt_trans hlt hs))

/-! ## The greatest value of a family -/

theorem greaterChild_now (hs : stop ≤ n) (child : Nat) (chosen : Fin n × Recording start) :
    (greaterChild stop hs child chosen).2.now = chosen.2.now := by
  unfold greaterChild
  split
  · dsimp only
    split
    · rfl
    · rfl
  · rfl

/-- The choice is not less than what was chosen before. -/
theorem greaterChild_ge (hs : stop ≤ n) (child : Nat) (chosen : Fin n × Recording start) :
    chosen.2.now.get chosen.1 ≤ chosen.2.now.get (greaterChild stop hs child chosen).1 := by
  unfold greaterChild
  split
  · dsimp only
    split
    next h => exact Int.le_of_lt h
    next => exact Int.le_refl _
  · exact Int.le_refl _

/-- The choice is not less than the child. -/
theorem greaterChild_ge_child (hs : stop ≤ n) {child : Nat} {c : Fin n} (hc : (c : Nat) = child)
    (hcs : (c : Nat) < stop) (chosen : Fin n × Recording start) :
    chosen.2.now.get c ≤ chosen.2.now.get (greaterChild stop hs child chosen).1 := by
  subst hc
  unfold greaterChild
  split
  · dsimp only
    split
    next => exact Int.le_refl _
    next h => exact Int.not_lt.mp h
  next h => exact absurd hcs h

theorem largestOfFamily_now (hs : stop ≤ n) (root : Fin n) (r : Recording start) :
    (largestOfFamily stop hs root r).2.now = r.now := by
  unfold largestOfFamily
  rw [greaterChild_now, greaterChild_now]

/-- The choice is not less than the node. -/
theorem largestOfFamily_ge (hs : stop ≤ n) (root : Fin n) (r : Recording start) :
    r.now.get root ≤ r.now.get (largestOfFamily stop hs root r).1 := by
  unfold largestOfFamily
  have h₁ := greaterChild_ge hs (2 * root + 1) (root, r)
  have h₂ := greaterChild_ge hs (2 * root + 2) (greaterChild stop hs (2 * root + 1) (root, r))
  simp only [greaterChild_now] at h₂
  exact Int.le_trans h₁ h₂

/-- The choice is not less than a child of the node. -/
theorem largestOfFamily_ge_child (hs : stop ≤ n) {root c : Fin n} (hc : IsChild root c)
    (hcs : (c : Nat) < stop) (r : Recording start) :
    r.now.get c ≤ r.now.get (largestOfFamily stop hs root r).1 := by
  unfold largestOfFamily
  have h₂ := greaterChild_ge hs (2 * root + 2) (greaterChild stop hs (2 * root + 1) (root, r))
  simp only [greaterChild_now] at h₂
  rcases hc with hc | hc
  · exact Int.le_trans (greaterChild_ge_child hs hc hcs (root, r)) h₂
  · have h₁ := greaterChild_ge_child hs hc hcs (greaterChild stop hs (2 * root + 1) (root, r))
    simp only [greaterChild_now] at h₁
    exact h₁

/-- The choice is the node or one of its children. -/
theorem largestOfFamily_isChild (hs : stop ≤ n) (root : Fin n) (r : Recording start)
    (hne : (largestOfFamily stop hs root r).1 ≠ root) :
    IsChild root (largestOfFamily stop hs root r).1 := by
  unfold largestOfFamily at hne ⊢
  rcases greaterChild_fst stop hs (2 * root + 2) (greaterChild stop hs (2 * root + 1) (root, r))
    with h | ⟨h, -⟩
  · rw [h] at hne ⊢
    rcases greaterChild_fst stop hs (2 * root + 1) (root, r) with h' | ⟨h', -⟩
    · exact absurd h' hne
    · exact Or.inl h'
  · exact Or.inr h

/-! ## Sinking -/

/-- Only the value at `root` may be less than its children, and these are not greater than the
parent of `root`. -/
structure Sinks (lo stop : Nat) (root : Fin n) (a : Vector Int n) : Prop where
  others : ∀ p c : Fin n, lo ≤ p → p ≠ root → IsChild p c → (c : Nat) < stop → a.get c ≤ a.get p
  above : ∀ p c : Fin n, lo ≤ p → IsChild p root → IsChild root c → (c : Nat) < stop → a.get c ≤ a.get p

namespace Sinks

variable {root m : Fin n}

/-- The value has sunk when it is not less than its children. -/
theorem heapFrom (h : Sinks lo stop root a)
    (hroot : ∀ c : Fin n, IsChild root c → (c : Nat) < stop → a.get c ≤ a.get root) :
    HeapFrom lo stop a := by
  intro p c hp hc hcs
  by_cases hpr : p = root
  · subst hpr
    exact hroot c hc hcs
  · exact h.others p c hp hpr hc hcs

/-- A value that is swapped with the greatest of its children sinks on from there. -/
theorem swap (h : Sinks lo stop root a) (hlo : lo ≤ root) (hm : IsChild root m)
    (hms : (m : Nat) < stop) (hge : a.get root ≤ a.get m)
    (hmax : ∀ c : Fin n, IsChild root c → (c : Nat) < stop → a.get c ≤ a.get m) :
    Sinks lo stop m (exchange a root m) := by
  have hrm : (root : Nat) < m := hm.lt
  have hleft := get_exchange_left a root m
  have hright := get_exchange_right a root m
  have hother : ∀ k : Fin n, k ≠ root → k ≠ m → (exchange a root m).get k = a.get k :=
    fun _ => get_exchange_of_ne a
  constructor
  · intro p c hp hpm hc hcs
    by_cases hpr : p = root
    · subst hpr
      rw [hleft]
      by_cases hcm : c = m
      · rw [hcm, hright]
        exact hge
      · rw [hother c (Fin.ne_of_gt hc.lt) hcm]
        exact hmax c hc hcs
    · rw [hother p hpr hpm]
      by_cases hcr : c = root
      · -- the value that comes up was a grandchild of `p`
        subst hcr
        rw [hleft]
        exact h.above p m hp hc hm hms
      · have hcm : c ≠ m := fun he => hpr (Fin.ext ((he ▸ hc).parent_unique hm))
        rw [hother c hcr hcm]
        exact h.others p c hp hpr hc hcs
  · intro p c _ hp hc hcs
    have hpr : p = root := Fin.ext (hp.parent_unique hm)
    have hmc : (m : Nat) < c := hc.lt
    -- the old value of `m` now stands above its children, as it did before
    rw [hpr, hleft, hother c (fun he => by rw [he] at hmc; omega) (Fin.ne_of_gt hmc)]
    exact h.others m c (by omega) (Fin.ne_of_gt hrm) hc hcs

end Sinks

theorem sink_eq (hs : stop ≤ n) (root : Fin n) (r : Recording start) :
    sink stop hs root r =
      if (largestOfFamily stop hs root r).1 = root then (largestOfFamily stop hs root r).2
      else sink stop hs (largestOfFamily stop hs root r).1
        ((largestOfFamily stop hs root r).2.add
          (.swap root (largestOfFamily stop hs root r).1)) := by
  conv => lhs; unfold sink
  split
  next => rfl
  next => rfl

/-- A value that sinks ends in a heap, and nothing before it is moved. -/
theorem sink_heapFrom (hs : stop ≤ n) (root : Fin n) (r : Recording start) (hlo : lo ≤ root)
    (h : Sinks lo stop root r.now) :
    Rearranged root stop r.now (sink stop hs root r).now ∧
      HeapFrom lo stop (sink stop hs root r).now := by
  have hnow := largestOfFamily_now hs root r
  rw [sink_eq]
  split
  next hm =>
    -- no child is greater, so the value stays
    rw [hnow]
    refine ⟨.refl .., h.heapFrom fun c hc hcs => ?_⟩
    have hmax := largestOfFamily_ge_child hs hc hcs r
    simpa only [hm] using hmax
  next hm =>
    obtain ⟨hlt, hms⟩ := (largestOfFamily_fst stop hs root r).resolve_left hm
    have hsinks := h.swap hlo (largestOfFamily_isChild hs root r hm) hms
      (largestOfFamily_ge hs root r) fun c hc hcs => largestOfFamily_ge_child hs hc hcs r
    have hr : ((largestOfFamily stop hs root r).2.add
        (.swap root (largestOfFamily stop hs root r).1)).now =
        exchange r.now root (largestOfFamily stop hs root r).1 := by
      rw [Recording.now_add, hnow]
      rfl
    obtain ⟨hmoved, hheap⟩ := sink_heapFrom hs (largestOfFamily stop hs root r).1 _ (by omega)
      (hr ▸ hsinks)
    rw [hr] at hmoved
    exact ⟨(Rearranged.swap r.now ⟨Nat.le_refl _, by omega⟩ ⟨Nat.le_of_lt hlt, hms⟩).trans
      (hmoved.widen (Nat.le_of_lt hlt) (Nat.le_refl _)), hheap⟩
termination_by stop - root

/-- With heaps below it, a subtree becomes one. -/
theorem siftDown_heapFrom (hs : stop ≤ n) (root : Fin n) (r : Recording start)
    (h : HeapFrom (root + 1) stop r.now) :
    Rearranged root stop r.now (siftDown stop hs root r).now ∧
      HeapFrom root stop (siftDown stop hs root r).now := by
  refine sink_heapFrom hs root (r.add (.heapify root)) (Nat.le_refl _) ⟨?_, ?_⟩
  · intro p c hp hpr hc hcs
    exact h p c (Nat.lt_of_le_of_ne hp fun he => hpr (Fin.ext he.symm)) hc hcs
  · -- no parent from `root` on has `root` as its child
    intro p c hp hpr _ _
    exact absurd hpr.lt (Nat.not_lt.mpr hp)

/-! ## Building and draining -/

theorem buildHeap_heapFrom {count : Nat} (h : count ≤ n) (r : Recording start)
    (hheap : HeapFrom count n r.now) :
    Rearranged 0 n r.now (buildHeap count h r).now ∧ HeapFrom 0 n (buildHeap count h r).now := by
  induction count generalizing r with
  | zero => exact ⟨.refl .., hheap⟩
  | succ count ih =>
    obtain ⟨hmoved, hroot⟩ := siftDown_heapFrom (Nat.le_refl n) ⟨count, h⟩ r hheap
    obtain ⟨hrest, hdone⟩ := ih (by omega) _ hroot
    exact ⟨(hmoved.widen (Nat.zero_le _) (Nat.le_refl _)).trans hrest, hdone⟩

theorem Rearranged.swapRoot (a : Vector Int n) (last : Fin n) :
    Rearranged 0 (last + 1) a (exchange a (rootOf last) last) :=
  .swap a ⟨Nat.le_refl _, Nat.succ_pos _⟩ ⟨Nat.zero_le _, Nat.lt_succ_self _⟩

/-- Taking the root of a heap behind it settles its new position. -/
theorem SettledFrom.swapRoot (last : Fin n) (hset : SettledFrom (last + 1) a)
    (hheap : HeapFrom 0 (last + 1) a) : SettledFrom last (exchange a (rootOf last) last) := by
  have hmoved := Rearranged.swapRoot a last
  refine (hset.rearranged hmoved).extend fun i hi => ?_
  rw [get_exchange_right]
  exact hmoved.forall_mem (P := fun x => x ≤ a.get (rootOf last))
    (fun k _ hk => hheap.le_root k hk) i (Nat.zero_le _) (Nat.lt_succ_of_lt hi)

/-- Taking the root of a heap behind it leaves heaps below the root. -/
theorem HeapFrom.swapRoot (last : Fin n) (hheap : HeapFrom 0 (last + 1) a) :
    HeapFrom 1 last (exchange a (rootOf last) last) := by
  intro p c hp hc hcs
  have hpc := hc.lt
  have hother : ∀ k : Fin n, (k : Nat) ≠ 0 → (k : Nat) ≠ last →
      (exchange a (rootOf last) last).get k = a.get k := fun k h0 hl =>
    get_exchange_of_ne a (Fin.ne_of_val_ne h0) (Fin.ne_of_val_ne hl)
  rw [hother p (by omega) (by omega), hother c (by omega) (by omega)]
  exact hheap p c (Nat.zero_le _) hc (by omega)

theorem drainHeap_sorts (last : Nat) (h : last < n) (r : Recording start)
    (hheap : HeapFrom 0 (last + 1) r.now) (hset : SettledFrom (last + 1) r.now) :
    Rearranged 0 (last + 1) r.now (drainHeap last h r).now ∧
      SortedOn 0 n (drainHeap last h r).now := by
  induction last generalizing r with
  | zero => exact ⟨.refl .., hset.sortedOn (sortedOn_of_le (Nat.le_refl _))⟩
  | succ last ih =>
    let highest : Fin n := ⟨last + 1, h⟩
    obtain ⟨hmoved, hroot⟩ := siftDown_heapFrom (Nat.le_of_lt h) (rootOf highest)
      (r.add (.swap (rootOf highest) highest)) (hheap.swapRoot highest)
    obtain ⟨hrest, hsorted⟩ := ih (Nat.lt_of_succ_lt h) _ hroot
      ((hset.swapRoot highest hheap).rearranged hmoved)
    exact ⟨(Rearranged.swapRoot r.now highest).trans ((hmoved.trans hrest).widen (Nat.le_refl _) (Nat.le_succ _)), hsorted⟩

theorem heap_sorts (r : Recording start) : Sorts r (heap r) := by
  obtain ⟨hbuilt, hheap⟩ := buildHeap_heapFrom (Nat.div_le_self n 2) r (heapFrom_half _)
  unfold heap
  dsimp only
  split
  next h => exact ⟨hbuilt, sortedOn_of_le (by omega)⟩
  next h =>
    have hn : n - 1 + 1 = n := Nat.sub_add_cancel (Nat.pos_of_ne_zero h)
    obtain ⟨hdrained, hsorted⟩ := drainHeap_sorts (n - 1) (by omega)
      (buildHeap (n / 2) (Nat.div_le_self n 2) r) (by rwa [hn]) (.of_le (Nat.le_of_eq hn.symm))
    rw [hn] at hdrained
    exact ⟨hbuilt.trans hdrained, hsorted⟩

end Storyboard.Sorting
