import Storyboard.Sorting.Exchange
import Storyboard.Proofs.Sorting.Rearrangement

/-!
# Bubble, selection and insertion sort put an array in order

One invariant a loop:

* a bubble pass at `j` has the greatest value so far at `j` (`GreatestTo`), so that a whole pass
  settles its last position; and a pass without a swap has seen that everything is in order;
* a selection round has the position of the least value so far, and settles one position;
* an insertion round has a free position, with greater values behind it (`Sinking`); with the key in
  the free position the array is at every moment a rearrangement of the one before the round.
-/

namespace Storyboard.Sorting

variable {n : Nat} {start : Vector Int n} {a : Vector Int n}

/-! ## Bubble sort -/

/-- No value up to position `j` is greater than the one there. -/
def GreatestTo (j : Fin n) (a : Vector Int n) : Prop := ∀ i : Fin n, i ≤ j → a.get i ≤ a.get j

theorem GreatestTo.next {i j : Fin n} (h : GreatestTo i a) (hij : (j : Nat) = i + 1)
    (hle : a.get i ≤ a.get j) : GreatestTo j a := by
  intro k hk
  rcases Nat.lt_or_ge i k with hlt | hge
  · have : k = j := Fin.ext (by have : (k : Nat) ≤ j := hk; omega)
    exact Int.le_of_eq (by rw [this])
  · exact Int.le_trans (h k hge) hle

theorem GreatestTo.swap {i j : Fin n} (h : GreatestTo i a) (hij : (j : Nat) = i + 1)
    (hlt : a.get j < a.get i) : GreatestTo j (exchange a i j) := by
  intro k hk
  have hkj : (k : Nat) ≤ j := hk
  rw [get_exchange_right]
  by_cases hki : k = i
  · -- the lesser value of the pair has come down
    rw [hki, get_exchange_left]
    exact Int.le_of_lt hlt
  · by_cases hkj' : k = j
    · exact Int.le_of_eq (by rw [hkj', get_exchange_right])
    · have hne : (k : Nat) ≠ j := fun he => hkj' (Fin.ext he)
      rw [get_exchange_of_ne a hki hkj']
      exact h k (by show (k : Nat) ≤ i; omega)

theorem bubblePass_rearranged {last : Nat} (h : last < n) (j : Nat) (swapped : Bool)
    (r : Recording start) :
    Rearranged j (last + 1) r.now (bubblePass last h j swapped r).2.now := by
  fun_induction bubblePass last h j swapped r with
  | case1 j swapped r hj here next r' hlt ih =>
    have hswap : Rearranged j (last + 1) r.now (r'.add (.swap here next)).now :=
      .swap r.now ⟨Nat.le_refl _, by show j < last + 1; omega⟩
        ⟨Nat.le_succ _, by show j + 1 < last + 1; omega⟩
    exact hswap.trans (ih.widen (Nat.le_succ _) (Nat.le_refl _))
  | case2 j swapped r hj here next r' hge ih => exact ih.widen (Nat.le_succ _) (Nat.le_refl _)
  | case3 j swapped r hj => exact .refl ..

/-- A pass carries the greatest value to its end. -/
theorem bubblePass_greatest {last : Nat} (h : last < n) {j : Nat} (hj : j ≤ last) (swapped : Bool)
    (r : Recording start) (hmax : GreatestTo ⟨j, Nat.lt_of_le_of_lt hj h⟩ r.now) :
    GreatestTo ⟨last, h⟩ (bubblePass last h j swapped r).2.now := by
  fun_induction bubblePass last h j swapped r with
  | case1 j swapped r hlt here next r' hless ih => exact ih hlt (hmax.swap rfl hless)
  | case2 j swapped r hlt here next r' hge ih => exact ih hlt (hmax.next rfl (Int.not_lt.mp hge))
  | case3 j swapped r hge =>
    have : j = last := by omega
    subst this
    exact hmax

/-- A pass without a swap has gone over neighbours in order, and has changed nothing. -/
theorem bubblePass_unswapped {last : Nat} (h : last < n) (j : Nat) (swapped : Bool)
    (r : Recording start) (hstill : (bubblePass last h j swapped r).1 = false) :
    swapped = false ∧ (bubblePass last h j swapped r).2.now = r.now ∧
      SortedOn j (last + 1) r.now := by
  fun_induction bubblePass last h j swapped r with
  | case1 j swapped r hlt here next r' hless ih =>
    -- a pass that has swapped once tells so in the end
    cases (ih hstill).1
  | case2 j swapped r hlt here next r' hge ih =>
    obtain ⟨hs, hnow, hsorted⟩ := ih hstill
    exact ⟨hs, hnow, SortedOn.cons (i := here) (j := next) hsorted rfl (Int.not_lt.mp hge)⟩
  | case3 j swapped r hge => exact ⟨hstill, rfl, sortedOn_of_le (by omega)⟩

theorem bubbleDown_rearranged {last : Nat} (h : last < n) (r : Recording start) :
    Rearranged 0 (last + 1) r.now (bubbleDown last h r).now := by
  fun_induction bubbleDown last h r with
  | case1 h r => exact .refl ..
  | case2 last h r r' hpass ih =>
    have := bubblePass_rearranged h 0 false r
    rw [hpass] at this
    exact this.trans (ih.widen (Nat.le_refl _) (Nat.le_succ _))
  | case3 last h r r' hpass =>
    have := bubblePass_rearranged h 0 false r
    rw [hpass] at this
    exact this

theorem bubbleDown_sorted {last : Nat} (h : last < n) (r : Recording start)
    (hset : SettledFrom (last + 1) r.now) : SortedOn 0 n (bubbleDown last h r).now := by
  fun_induction bubbleDown last h r with
  | case1 h r => exact hset.sortedOn (sortedOn_of_le (Nat.le_refl _))
  | case2 last h r r' hpass ih =>
    -- the pass has put the greatest value of those not settled at their end
    have hmoved := bubblePass_rearranged h 0 false r
    have hmax := bubblePass_greatest h (Nat.zero_le _) false r (by
      intro i hi
      have : i = ⟨0, by omega⟩ := Fin.ext (Nat.le_zero.mp hi)
      exact Int.le_of_eq (by rw [this]))
    rw [hpass] at hmoved hmax
    refine ih (SettledFrom.extend (m := ⟨last + 1, h⟩) (hset.rearranged hmoved) ?_)
    exact fun i hi => hmax i (Nat.le_of_lt hi)
  | case3 last h r r' hpass =>
    have hstill := bubblePass_unswapped h 0 false r (by rw [hpass])
    rw [hpass] at hstill
    obtain ⟨-, hnow, hsorted⟩ := hstill
    rw [hnow]
    exact hset.sortedOn hsorted

theorem bubble_sorts (r : Recording start) : Sorts r (bubble r) := by
  unfold bubble
  split
  next h => exact ⟨.refl .., sortedOn_of_le (by omega)⟩
  next h =>
    have hn : n - 1 + 1 = n := Nat.sub_add_cancel (Nat.pos_of_ne_zero h)
    exact ⟨(bubbleDown_rearranged _ r).widen (Nat.le_refl _) (Nat.le_of_eq hn),
      bubbleDown_sorted _ r (.of_le (Nat.le_of_eq hn.symm))⟩

/-! ## Selection sort -/

/-- Looking for the least value changes nothing. -/
theorem leastFrom_now (i : Fin n) (j : Nat) (least : Fin n) (r : Recording start) :
    (leastFrom i j least r).2.now = r.now := by
  fun_induction leastFrom i j least r with
  | case1 j least r hj here r' hlt ih => exact ih
  | case2 j least r hj here r' hge ih => exact ih
  | case3 j least r hj => rfl

/-- The position that is found has the least value from the round's position on. -/
theorem leastFrom_least {i : Fin n} {j : Nat} {least m : Fin n} {r : Recording start} (hij : i ≤ j)
    (hi : i ≤ least)
    (hleast : ∀ k : Fin n, i ≤ k → (k : Nat) < j → r.now.get least ≤ r.now.get k) :
    (leastFrom i j least r).1 = m → i ≤ m ∧ ∀ k : Fin n, i ≤ k → r.now.get m ≤ r.now.get k := by
  fun_induction leastFrom i j least r with
  | case1 j least r hj here r' hlt ih =>
    refine ih (Nat.le_succ_of_le hij) hij (fun k hik hk => ?_)
    rcases Nat.lt_or_ge k j with hkj | hjk
    · exact Int.le_trans (Int.le_of_lt hlt) (hleast k hik hkj)
    · have : k = here := Fin.ext (Nat.le_antisymm (Nat.le_of_lt_succ hk) hjk)
      exact Int.le_of_eq (by rw [this])
  | case2 j least r hj here r' hge ih =>
    refine ih (Nat.le_succ_of_le hij) hi (fun k hik hk => ?_)
    rcases Nat.lt_or_ge k j with hkj | hjk
    · exact hleast k hik hkj
    · have : k = here := Fin.ext (Nat.le_antisymm (Nat.le_of_lt_succ hk) hjk)
      rw [this]
      exact Int.not_lt.mp hge
  | case3 j least r hj =>
    rintro rfl
    exact ⟨hi, fun k hik => hleast k hik (Nat.lt_of_lt_of_le k.isLt (Nat.not_lt.mp hj))⟩

/-- The least value from position `i` on is settled when it is swapped there. -/
theorem SettledTo.swap {i m : Fin n} (h : SettledTo i a) (him : i ≤ m)
    (hleast : ∀ k : Fin n, i ≤ k → a.get m ≤ a.get k) : SettledTo (i + 1) (exchange a i m) := by
  have hmoved : Rearranged i n a (exchange a i m) :=
    .swap a ⟨Nat.le_refl _, i.isLt⟩ ⟨him, m.isLt⟩
  refine (h.rearranged hmoved).extend (fun j hij => ?_)
  rw [get_exchange_left]
  exact hmoved.forall_mem (P := fun x => a.get m ≤ x) (fun k hk _ => hleast k hk) j
    (Nat.le_of_lt hij) j.isLt

/-- A round puts the least value from its position on there. -/
theorem selectionFrom_sorts {i : Nat} {r : Recording start} (hset : SettledTo i r.now) :
    Rearranged i n r.now (selectionFrom i r).now ∧ SortedOn 0 n (selectionFrom i r).now := by
  fun_induction selectionFrom i r with
  | case1 i r hi here least r' hfound ih =>
    have hnow := leastFrom_now here (i + 1) here r
    rw [hfound] at hnow
    have hfirst : ∀ k : Fin n, here ≤ k → (k : Nat) < i + 1 → r.now.get here ≤ r.now.get k := by
      intro k hik hk
      have : k = here := Fin.ext (Nat.le_antisymm (Nat.le_of_lt_succ hk) hik)
      exact Int.le_of_eq (by rw [this])
    obtain ⟨hle, hleast⟩ := leastFrom_least (m := least) (Nat.le_succ i) (Nat.le_refl _) hfirst
      (by rw [hfound])
    -- a round that swaps nothing exchanges its position with itself
    have hround : (if least = here then r' else r'.add (.swap here least)).now =
        exchange r.now here least := by
      rw [← hnow]
      split
      next h =>
        rw [h]
        exact (exchange_self r'.now here).symm
      next => rfl
    have hmoved : Rearranged i n r.now (exchange r.now here least) :=
      .swap r.now ⟨Nat.le_refl _, here.isLt⟩ ⟨hle, least.isLt⟩
    simp only [dite_eq_ite, hround] at ih
    have hdone := ih (hset.swap hle hleast)
    exact ⟨hmoved.trans (hdone.1.widen (Nat.le_succ i) (Nat.le_refl n)), hdone.2⟩
  | case2 i r hi => exact ⟨.refl .., hset.sortedOn (by omega)⟩

theorem selection_sorts (r : Recording start) : Sorts r (selection r) :=
  let ⟨hmoved, hsorted⟩ := selectionFrom_sorts (SettledTo.zero r.now)
  ⟨hmoved, hsorted⟩

/-! ## Insertion sort -/

/-- In round `i` the position `free` is free: the other values up to `i` are in order, and those
behind the free position are not less than the key. -/
structure Sinking (i : Fin n) (key : Int) (free : Fin n) (a : Vector Int n) : Prop where
  others : ∀ p q : Fin n, p < q → q ≤ i → p ≠ free → q ≠ free → a.get p ≤ a.get q
  behind : ∀ q : Fin n, free < q → q ≤ i → key ≤ a.get q

namespace Sinking

variable {i free : Fin n} {key : Int}

/-- At first the position of the round itself is free. -/
theorem ofSortedOn (h : SortedOn 0 i a) : Sinking i (a.get i) i a where
  others p q hpq hq _ hqi :=
    h p q (Nat.zero_le _) hpq (Nat.lt_of_le_of_ne hq fun he => hqi (Fin.ext he))
  behind _ hi hq := absurd hi (Nat.not_lt.mpr hq)

/-- A greater value moves up into the free position, and leaves its own free. -/
theorem shift {j : Fin n} (h : Sinking i key free a) (hfi : free ≤ i)
    (hj : (free : Nat) = j + 1) (hkey : key < a.get j) : Sinking i key j (put a free (a.get j)) := by
  have hself := get_put_self a free (a.get j)
  have hother : ∀ k : Fin n, k ≠ free → (put a free (a.get j)).get k = a.get k := fun k =>
    get_put_of_ne a (a.get j)
  have hjf : j ≠ free := fun he => by rw [he] at hj; omega
  constructor
  case others =>
    intro p q hpq hq hp hqj
    have hlt : (p : Nat) < q := hpq
    have hpj : (p : Nat) ≠ j := fun he => hp (Fin.ext he)
    by_cases hpf : p = free
    · -- the moved value is not greater than those behind its new position
      rw [hpf, hself, hother q (fun he => by rw [he, hpf] at hlt; omega)]
      exact h.others j q (by show (j : Nat) < q; rw [hpf] at hlt; omega) hq hjf
        (fun he => by rw [he, hpf] at hlt; omega)
    · by_cases hqf : q = free
      · rw [hqf, hself, hother p hpf]
        exact h.others p j (by show (p : Nat) < j; rw [hqf] at hlt; omega)
          (by show (j : Nat) ≤ i; have : (free : Nat) ≤ i := hfi; omega) hpf hjf
      · rw [hother p hpf, hother q hqf]
        exact h.others p q hpq hq hpf hqf
  case behind =>
    intro q hjq hq
    by_cases hqf : q = free
    · rw [hqf, hself]
      exact Int.le_of_lt hkey
    · rw [hother q hqf]
      exact h.behind q (by
        have hne : (q : Nat) ≠ free := fun he => hqf (Fin.ext he)
        have hlt : (j : Nat) < q := hjq
        show (free : Nat) < q
        omega) hq

/-- The key belongs in the free position when no value before it is greater. -/
theorem place (h : Sinking i key free a) (hbefore : ∀ p : Fin n, p < free → a.get p ≤ key) :
    SortedOn 0 (i + 1) (put a free key) := by
  have hself := get_put_self a free key
  have hother : ∀ k : Fin n, k ≠ free → (put a free key).get k = a.get k := fun k =>
    get_put_of_ne a key
  intro p q _ hpq hq
  have hqi : q ≤ i := Nat.le_of_lt_succ hq
  by_cases hpf : p = free
  · subst hpf
    rw [hself, hother q (Fin.ne_of_gt hpq)]
    exact h.behind q hpq hqi
  · rw [hother p hpf]
    by_cases hqf : q = free
    · subst hqf
      rw [hself]
      exact hbefore p hpq
    · rw [hother q hqf]
      exact h.others p q hpq hqi hpf hqf

end Sinking

/-- The key is in the free position afterwards, whether it has been written there or not. -/
theorem placeKey_now {i j : Fin n} {key : Int} {r : Recording start}
    (hkey : j = i → r.now.get j = key) : (placeKey i key j r).now = put r.now j key := by
  unfold placeKey
  split
  next h =>
    rw [← hkey h]
    exact (Vector.set_getElem_self ..).symm
  next => rfl

/-- Moving a value up into the free position is, with the key in that position, a swap. -/
theorem put_shift (a : Vector Int n) (j free : Fin n) (hne : (j : Nat) ≠ free) (key : Int) :
    put (put a free (a.get j)) j key = exchange (put a free key) j free := by
  apply Vector.ext
  intro k hk
  simp only [put, exchange, Vector.getElem_swap, Vector.getElem_set, get_eq_getElem]
  by_cases hkj : k = j
  · simp [hkj]
  · by_cases hkf : k = free
    · simp [hkf, hne, Ne.symm hne]
    · simp [Ne.symm hkj, Ne.symm hkf, hkj, hkf]

/-- A round of insertion sort puts the key where it belongs, and moves nothing behind the round's
position. -/
theorem sinkKey_sorts (i : Fin n) (key : Int) {j : Nat} {h : j < n} {r : Recording start}
    (hji : j ≤ i) (hsink : Sinking i key ⟨j, h⟩ r.now)
    (hkey : ⟨j, h⟩ = i → r.now.get ⟨j, h⟩ = key) :
    Rearranged 0 (i + 1) (put r.now ⟨j, h⟩ key) (sinkKey i key j h r).now ∧
      SortedOn 0 (i + 1) (sinkKey i key j h r).now := by
  fun_induction sinkKey i key j h r with
  | case1 h r =>
    rw [placeKey_now hkey]
    exact ⟨.refl .., hsink.place fun p hp => absurd hp (Nat.not_lt_zero _)⟩
  | case2 j h r before free r' hle =>
    rw [placeKey_now (r := r') hkey]
    refine ⟨.refl .., hsink.place fun p hp => ?_⟩
    -- the values before the free position are in order, so the last of them is the greatest
    rcases Nat.lt_or_ge p j with hpj | hpj
    · have hfree : ∀ k : Fin n, (k : Nat) ≤ j → k ≠ free := fun k hk he => by
        rw [he] at hk
        exact absurd hk (Nat.not_succ_le_self j)
      exact Int.le_trans (hsink.others p before hpj (Nat.le_trans (Nat.le_succ j) hji)
        (hfree p (Nat.le_of_lt hpj)) (hfree before (Nat.le_refl _))) hle
    · have : p = before := Fin.ext (Nat.le_antisymm (Nat.le_of_lt_succ hp) hpj)
      rw [this]
      exact hle
  | case3 j h r before free r' hgt ih =>
    have hji' : j < i := hji
    obtain ⟨hmoved, hsorted⟩ := ih (Nat.le_of_lt hji')
      (hsink.shift hji rfl (Int.not_le.mp hgt)) (fun he => by
        rw [← he] at hji'
        exact absurd hji' (Nat.lt_irrefl _))
    refine ⟨?_, hsorted⟩
    -- the shift alone doubles a value; with the key put in, the array is one with a swap
    have hswap : put (r'.add (.shift i before free)).now before key =
        exchange (put r.now free key) before free :=
      put_shift r.now before free (Nat.ne_of_lt (Nat.lt_succ_self j)) key
    rw [hswap] at hmoved
    exact (Rearranged.swap _ ⟨Nat.zero_le _, by show j < i + 1; omega⟩
      ⟨Nat.zero_le _, by show j + 1 < i + 1; omega⟩).trans hmoved

theorem insertionFrom_sorts {i : Nat} {r : Recording start} (hi : i ≤ n)
    (hsorted : SortedOn 0 i r.now) : Sorts r (insertionFrom i r) := by
  fun_induction insertionFrom i r with
  | case1 i r hlt here key ih =>
    obtain ⟨hmoved, hround⟩ := sinkKey_sorts here key (h := hlt)
      (r := r.add (.selectKey here key)) (Nat.le_refl _) (Sinking.ofSortedOn (i := here) hsorted)
      (fun _ => rfl)
    have hsame : put (r.add (.selectKey here key)).now here key = r.now := Vector.set_getElem_self ..
    rw [hsame] at hmoved
    have hdone := ih hlt hround
    exact ⟨(hmoved.widen (Nat.le_refl 0) hlt).trans hdone.rearranged, hdone.sorted⟩
  | case2 i r hge =>
    have : i = n := Nat.le_antisymm hi (Nat.not_lt.mp hge)
    exact ⟨.refl .., this ▸ hsorted⟩

theorem insertion_sorts (r : Recording start) : Sorts r (insertion r) := by
  unfold insertion
  rcases Nat.eq_zero_or_pos n with rfl | hpos
  · rw [insertionFrom]
    exact ⟨.refl .., sortedOn_of_le (Nat.zero_le _)⟩
  · -- the first round is that of position 1, before which a single value is in order
    exact insertionFrom_sorts hpos (sortedOn_of_le (Nat.le_refl _))

end Storyboard.Sorting
