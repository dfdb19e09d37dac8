import Mathlib
import Storyboard.Queue.MinHeap
import Storyboard.Proofs.Literal.Order
import Storyboard.Proofs.Sorting.Heap

/-!
# A heap gives up its entries in order

Among entries without doubles, coming no later is transitive, so the root of a heap comes no later
than any entry.  While an entry rises or sinks, the heap is in order but for the pairs that this entry
makes with its parent or with its children, and these children come no earlier than that parent
(`Rises`, `Sinks`); a swap hands this on to the next position.  Arrivals tell the entries apart, so
equal priorities leave in the order in which they came.
-/

namespace Storyboard.Queue

open Sorting (IsChild exists_isChild)
open scoped List

/-! ## The order of entries -/

namespace Entry

variable {a b c : Entry}

/-- No double stands in the priority. -/
def IsFloatFree (entry : Entry) : Prop := entry.priority.isFloatFree = true

/-- The entry comes no later than the other one. -/
def NotAfter (a b : Entry) : Prop := ¬ b.before a = true

/-- The entry leaves first: its priority comes first, or else it came earlier with an equal one. -/
def LeavesFirst (a b : Entry) : Prop :=
  a.priority.before b.priority = true ∨ (a.priority = b.priority ∧ a.arrival < b.arrival)

/-- Comparing is by priority and then by arrival. -/
theorem before_iff (ha : a.IsFloatFree) (hb : b.IsFloatFree) : a.before b = true ↔ a.LeavesFirst b := by
  rw [before, beq_iff_eq, cmp, Ordering.then_eq_lt, Nat.compare_eq_lt, LeavesFirst, Literal.before_iff]
  refine or_congr_right (and_congr_left' ⟨Literal.eq_of_cmp _ _ ha hb, ?_⟩)
  intro heq
  rw [heq]
  exact Literal.cmp_self _

theorem LeavesFirst.trans (ha : a.IsFloatFree) (hb : b.IsFloatFree) (hc : c.IsFloatFree)
    (hab : a.LeavesFirst b) (hbc : b.LeavesFirst c) : a.LeavesFirst c := by
  rcases hab with hab | ⟨hab, hab'⟩
  · rcases hbc with hbc | ⟨hbc, -⟩
    · exact Or.inl (Literal.before_trans ha hb hc hab hbc)
    · exact Or.inl (hbc ▸ hab)
  · rcases hbc with hbc | ⟨hbc, hbc'⟩
    · exact Or.inl (hab ▸ hbc)
    · exact Or.inr ⟨hab.trans hbc, hab'.trans hbc'⟩

/-- Two entries leave one after the other unless they agree in priority and arrival. -/
theorem leavesFirst_trichotomy (ha : a.IsFloatFree) (hb : b.IsFloatFree) :
    a.LeavesFirst b ∨ (a.priority = b.priority ∧ a.arrival = b.arrival) ∨ b.LeavesFirst a := by
  obtain h | h | h := Literal.before_trichotomy ha hb
  · exact Or.inl (Or.inl h)
  · obtain h' | h' | h' := Nat.lt_trichotomy a.arrival b.arrival
    · exact Or.inl (Or.inr ⟨h, h'⟩)
    · exact Or.inr (Or.inl ⟨h, h'⟩)
    · exact Or.inr (Or.inr (Or.inr ⟨h.symm, h'⟩))
  · exact Or.inr (Or.inr (Or.inl h))

theorem notAfter_self (a : Entry) : a.NotAfter a := by
  rw [NotAfter, before, beq_iff_eq, cmp, Literal.cmp_self, Nat.compare_eq_eq.mpr rfl]
  nofun

theorem LeavesFirst.notAfter (ha : a.IsFloatFree) (hb : b.IsFloatFree) (h : a.LeavesFirst b) :
    a.NotAfter b := by
  intro hba
  rw [before_iff hb ha] at hba
  have haa := h.trans ha hb ha hba
  rw [← before_iff ha ha] at haa
  exact notAfter_self a haa

theorem NotAfter.trans (ha : a.IsFloatFree) (hb : b.IsFloatFree) (hc : c.IsFloatFree)
    (hab : a.NotAfter b) (hbc : b.NotAfter c) : a.NotAfter c := by
  intro hca
  rw [before_iff hc ha] at hca
  obtain h | ⟨hpriority, harrival⟩ | h := leavesFirst_trichotomy hb hc
  · exact hab ((before_iff hb ha).mpr (h.trans hb hc ha hca))
  · -- the two cannot be told apart, so the first of them comes before `a` as well
    rw [LeavesFirst, ← hpriority, ← harrival] at hca
    exact hab ((before_iff hb ha).mpr hca)
  · exact hbc ((before_iff hc hb).mpr h)

/-- Of entries that did not arrive together, one that comes no later leaves first. -/
theorem NotAfter.leavesFirst (ha : a.IsFloatFree) (hb : b.IsFloatFree) (h : a.NotAfter b)
    (hne : a.arrival ≠ b.arrival) : a.LeavesFirst b := by
  obtain h' | ⟨-, h'⟩ | h' := leavesFirst_trichotomy ha hb
  · exact h'
  · exact absurd h' hne
  · exact absurd ((before_iff hb ha).mpr h') h

end Entry

namespace MinHeap

variable {n : Nat} {entries : Vector Entry n}

/-! ## Entries in a vector -/

/-- No double stands in a priority. -/
def AreFloatFree (entries : Vector Entry n) : Prop := ∀ i : Fin n, (entries.get i).IsFloatFree

/-- No entry comes before its parent. -/
def InOrder (entries : Vector Entry n) : Prop :=
  ∀ p c : Fin n, IsChild p c → (entries.get p).NotAfter (entries.get c)

theorem swap_left (entries : Vector Entry n) (i j : Fin n) : (entries.swap i j).get i = entries.get j :=
  Vector.getElem_swap_left i.isLt j.isLt

theorem swap_right (entries : Vector Entry n) (i j : Fin n) : (entries.swap i j).get j = entries.get i :=
  Vector.getElem_swap_right i.isLt j.isLt

theorem swap_of_ne (entries : Vector Entry n) {i j k : Fin n} (hi : k ≠ i) (hj : k ≠ j) :
    (entries.swap i j).get k = entries.get k :=
  Vector.getElem_swap_of_ne (Fin.val_ne_of_ne hi) (Fin.val_ne_of_ne hj)

theorem AreFloatFree.swap (h : AreFloatFree entries) (i j : Fin n) :
    AreFloatFree (entries.swap i j) := by
  intro k
  by_cases hi : k = i
  · rw [hi, swap_left]
    exact h j
  · by_cases hj : k = j
    · rw [hj, swap_right]
      exact h i
    · rw [swap_of_ne entries hi hj]
      exact h k

theorem areFloatFree_iff :
    AreFloatFree entries ↔ ∀ entry ∈ entries.toList, entry.IsFloatFree := by
  constructor
  · intro h entry hentry
    obtain ⟨i, hi, rfl⟩ := Vector.mem_iff_getElem.mp (Vector.mem_toList_iff.mp hentry)
    exact h ⟨i, hi⟩
  · intro h i
    exact h _ (Vector.mem_toList_iff.mpr (Vector.getElem_mem i.isLt))

/-- The root of a heap comes no later than any entry. -/
theorem InOrder.root_notAfter (h : InOrder entries) (hfree : AreFloatFree entries) (root i : Fin n)
    (hroot : root.val = 0) : (entries.get root).NotAfter (entries.get i) := by
  obtain ⟨i, hi⟩ := i
  induction i using Nat.strongRecOn with
  | ind i ih =>
    rcases Nat.eq_zero_or_pos i with rfl | hpos
    · rw [show root = ⟨0, hi⟩ from Fin.ext hroot]
      exact Entry.notAfter_self _
    · -- the parent stands nearer to the root
      obtain ⟨p, hp⟩ := exists_isChild hpos
      have hpn : p < n := Nat.lt_trans hp.lt hi
      exact (ih p hp.lt hpn).trans (hfree root) (hfree ⟨p, hpn⟩) (hfree ⟨i, hi⟩)
        (h ⟨p, hpn⟩ ⟨i, hi⟩ hp)

/-! ## Rising -/

/-- Only the entry at `i` may come before its parent, and the children of `i` come no earlier than
this parent. -/
structure Rises (i : Fin n) (entries : Vector Entry n) : Prop where
  others : ∀ p c : Fin n, c ≠ i → IsChild p c → (entries.get p).NotAfter (entries.get c)
  above : ∀ p c : Fin n, IsChild p i → IsChild i c → (entries.get p).NotAfter (entries.get c)

/-- Only the entry at `i` may come after its children, and these come no earlier than the parent of
`i`. -/
structure Sinks (i : Fin n) (entries : Vector Entry n) : Prop where
  others : ∀ p c : Fin n, p ≠ i → IsChild p c → (entries.get p).NotAfter (entries.get c)
  above : ∀ p c : Fin n, IsChild p i → IsChild i c → (entries.get p).NotAfter (entries.get c)

theorem Rises.inOrder {i : Fin n} (h : Rises i entries)
    (hi : ∀ p : Fin n, IsChild p i → (entries.get p).NotAfter (entries.get i)) : InOrder entries := by
  intro p c hc
  by_cases hci : c = i
  · subst hci
    exact hi p hc
  · exact h.others p c hci hc

theorem Sinks.inOrder {i : Fin n} (h : Sinks i entries)
    (hi : ∀ c : Fin n, IsChild i c → (entries.get i).NotAfter (entries.get c)) : InOrder entries := by
  intro p c hc
  by_cases hpi : p = i
  · subst hpi
    exact hi c hc
  · exact h.others p c hpi hc

/-- An entry that comes before its parent rises on from there. -/
theorem Rises.swap {i q : Fin n} (h : Rises i entries) (hfree : AreFloatFree entries)
    (hq : IsChild q i) (hbefore : (entries.get i).before (entries.get q) = true) :
    Rises q (entries.swap i q) := by
  have hiq : (entries.get i).NotAfter (entries.get q) :=
    ((Entry.before_iff (hfree i) (hfree q)).mp hbefore).notAfter (hfree i) (hfree q)
  have hleft := swap_left entries i q
  have hright := swap_right entries i q
  constructor
  case others =>
    intro p c hcq hc
    by_cases hci : c = i
    · -- the parent that came down stands below the entry that rose
      have hpq : p = q := Fin.ext ((hci ▸ hc).parent_unique hq)
      rw [hpq, hright, hci, hleft]
      exact hiq
    · rw [swap_of_ne entries hci hcq]
      by_cases hpq : p = q
      · subst hpq
        rw [hright]
        exact hiq.trans (hfree i) (hfree p) (hfree c) (h.others p c hci hc)
      · by_cases hpi : p = i
        · subst hpi
          rw [hleft]
          exact h.above q c hq hc
        · rw [swap_of_ne entries hpi hpq]
          exact h.others p c hci hc
  case above =>
    intro p c hp hc
    have hpq : (p : Nat) < q := hp.lt
    have hqi : (q : Nat) < i := hq.lt
    -- the entry that came down was no earlier than those above, and no later than those below
    have hparent : (entries.get p).NotAfter (entries.get q) := h.others p q (Fin.ne_of_lt hqi) hp
    rw [swap_of_ne entries (Fin.ne_of_lt (hpq.trans hqi)) (Fin.ne_of_lt hpq)]
    by_cases hci : c = i
    · rw [hci, hleft]
      exact hparent
    · rw [swap_of_ne entries hci (Fin.ne_of_gt hc.lt)]
      exact hparent.trans (hfree p) (hfree q) (hfree c) (h.others q c hci hc)

theorem siftUp_perm (entries : Vector Entry n) (i : Nat) (h : i < n) :
    (siftUp entries i h).toList ~ entries.toList := by
  fun_induction siftUp entries i h with
  | case1 => rfl
  | case2 entries i h hi hparent hbefore ih => exact ih.trans (Vector.swap_perm _ _).toList
  | case3 => rfl

/-- An entry that has risen as far as it can leaves a heap. -/
theorem siftUp_inOrder (entries : Vector Entry n) (i : Nat) (h : i < n)
    (hfree : AreFloatFree entries) (hrises : Rises ⟨i, h⟩ entries) :
    InOrder (siftUp entries i h) := by
  fun_induction siftUp entries i h with
  | case1 => exact hrises.inOrder fun p hp => absurd hp.lt (Nat.not_lt_zero _)
  | case2 entries i h hi hparent hbefore ih =>
    have hchild : IsChild ((i - 1) / 2) i := by
      unfold IsChild
      omega
    exact ih (hfree.swap ⟨i, h⟩ ⟨(i - 1) / 2, hparent⟩)
      (hrises.swap (q := ⟨(i - 1) / 2, hparent⟩) hfree hchild hbefore)
  | case3 entries i h hi hparent hbefore =>
    refine hrises.inOrder fun p hp => ?_
    have hp' : p = ⟨(i - 1) / 2, hparent⟩ := by
      unfold IsChild at hp
      exact Fin.ext (by dsimp only at hp ⊢; omega)
    rw [hp']
    exact hbefore

/-! ## Sinking -/

theorem firstOf_notAfter (entries : Vector Entry n) (hfree : AreFloatFree entries) (i : Fin n)
    (j : Nat) : (entries.get (firstOf entries i j)).NotAfter (entries.get i) := by
  unfold firstOf
  split
  next h =>
    split
    next hbefore =>
      exact ((Entry.before_iff (hfree ⟨j, h⟩) (hfree i)).mp hbefore).notAfter (hfree ⟨j, h⟩) (hfree i)
    next => exact Entry.notAfter_self _
  next => exact Entry.notAfter_self _

theorem firstOf_notAfter_other (entries : Vector Entry n) (i j : Fin n) :
    (entries.get (firstOf entries i j)).NotAfter (entries.get j) := by
  unfold firstOf
  rw [dif_pos j.isLt]
  split
  next => exact Entry.notAfter_self _
  next hbefore => exact hbefore

theorem firstOf_eq (entries : Vector Entry n) (i : Fin n) (j : Nat) :
    firstOf entries i j = i ∨ (firstOf entries i j).val = j := by
  unfold firstOf
  split
  next =>
    split
    next => exact Or.inr rfl
    next => exact Or.inl rfl
  next => exact Or.inl rfl

/-- The choice of a family comes no later than its parent. -/
theorem firstOfFamily_notAfter (entries : Vector Entry n) (hfree : AreFloatFree entries)
    (i : Fin n) : (entries.get (firstOfFamily entries i)).NotAfter (entries.get i) :=
  (firstOf_notAfter entries hfree _ _).trans (hfree _) (hfree _) (hfree _)
    (firstOf_notAfter entries hfree i _)

/-- The choice of a family comes no later than any child. -/
theorem firstOfFamily_notAfter_child (entries : Vector Entry n) (hfree : AreFloatFree entries)
    {i c : Fin n} (hc : IsChild i c) : (entries.get (firstOfFamily entries i)).NotAfter (entries.get c) := by
  unfold firstOfFamily
  rcases hc with hc | hc
  · rw [← hc]
    exact (firstOf_notAfter entries hfree _ _).trans (hfree _) (hfree _) (hfree _)
      (firstOf_notAfter_other entries i c)
  · rw [← hc]
    exact firstOf_notAfter_other entries _ c

/-- The choice of a family is its parent or a child. -/
theorem firstOfFamily_isChild (entries : Vector Entry n) (i : Fin n)
    (hne : firstOfFamily entries i ≠ i) : IsChild i (firstOfFamily entries i) := by
  unfold firstOfFamily at hne ⊢
  rcases firstOf_eq entries (firstOf entries i (2 * i + 1)) (2 * i + 2) with h | h
  · rw [h] at hne ⊢
    exact Or.inl ((firstOf_eq entries i (2 * i + 1)).resolve_left hne)
  · exact Or.inr h

/-- An entry that is swapped with the first of its children sinks on from there. -/
theorem Sinks.swap {i m : Fin n} (h : Sinks i entries) (hm : IsChild i m)
    (hparent : (entries.get m).NotAfter (entries.get i))
    (hfirst : ∀ c : Fin n, IsChild i c → (entries.get m).NotAfter (entries.get c)) :
    Sinks m (entries.swap i m) := by
  have him : (i : Nat) < m := hm.lt
  have hleft := swap_left entries i m
  have hright := swap_right entries i m
  constructor
  · intro p c hpm hc
    by_cases hpi : p = i
    · subst hpi
      rw [hleft]
      by_cases hcm : c = m
      · rw [hcm, hright]
        exact hparent
      · rw [swap_of_ne entries (Fin.ne_of_gt hc.lt) hcm]
        exact hfirst c hc
    · rw [swap_of_ne entries hpi hpm]
      by_cases hci : c = i
      · -- the child that came up was a grandchild of `p`
        subst hci
        rw [hleft]
        exact h.above p m hc hm
      · have hcm : c ≠ m := fun he => hpi (Fin.ext ((he ▸ hc).parent_unique hm))
        rw [swap_of_ne entries hci hcm]
        exact h.others p c hpi hc
  · intro p c hp hc
    have hpi : p = i := Fin.ext (hp.parent_unique hm)
    have hmc : (m : Nat) < c := hc.lt
    -- the child that came up keeps its own children below it
    rw [hpi, hleft, swap_of_ne entries (Fin.ne_of_gt (him.trans hmc)) (Fin.ne_of_gt hmc)]
    exact h.others m c (Fin.ne_of_gt him) hc

theorem siftDown_perm (entries : Vector Entry n) (i : Fin n) :
    (siftDown entries i).toList ~ entries.toList := by
  fun_induction siftDown entries i with
  | case1 => rfl
  | case2 entries i j hne hlt ih => exact ih.trans (Vector.swap_perm _ _).toList

/-- An entry that has sunk as far as it must leaves a heap. -/
theorem siftDown_inOrder (entries : Vector Entry n) (i : Fin n) (hfree : AreFloatFree entries)
    (hsinks : Sinks i entries) : InOrder (siftDown entries i) := by
  fun_induction siftDown entries i with
  | case1 entries i j hj =>
    refine hsinks.inOrder fun c hc => ?_
    have hfirst := firstOfFamily_notAfter_child entries hfree hc
    rwa [show firstOfFamily entries i = i from hj] at hfirst
  | case2 entries i j hne hlt ih =>
    exact ih (hfree.swap i j) (hsinks.swap (firstOfFamily_isChild entries i hne)
      (firstOfFamily_notAfter entries hfree i)
      fun c hc => firstOfFamily_notAfter_child entries hfree hc)

end MinHeap

end Storyboard.Queue
