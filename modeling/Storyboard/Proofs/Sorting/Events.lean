import Storyboard.Sorting.Simulation
import Storyboard.Proofs.Sorting.Exchange
import Storyboard.Proofs.Sorting.Heap
import Storyboard.Proofs.Sorting.Merge

/-!
# What each sort records

A sort only ever adds events to its recording, and each kind of event only where something holds.
`Continues allowed` says so of two recordings, and `allowed` is what a sort may add and when:

* bubble sort swaps neighbours that are out of order (`Bubbles`);
* selection, quick and heap sort swap different positions (`Exchanges`);
* insertion sort has a key in its hand (`hand?`), moves greater values into the free position, and
  writes the key there (`Inserts`);
* merge sort writes without showing it, at most one value before a comparison (`Merges`).

Whatever one event of the kind keeps, a whole sort keeps (`Continues.preserves`).
-/

namespace Storyboard.Sorting

variable {n : Nat} {start : Vector Int n}

/-- A recording goes on from another by events that were each allowed where they happened. -/
inductive Continues (allowed : Recording start → Event n → Prop) :
    Recording start → Recording start → Prop
  | refl {r : Recording start} : Continues allowed r r
  | add {r r' : Recording start} {event : Event n} (before : Continues allowed r r')
      (ok : allowed r' event) : Continues allowed r (r'.add event)

namespace Continues

variable {allowed allowed' : Recording start → Event n → Prop} {r r' r'' : Recording start}

theorem single {event : Event n} (ok : allowed r event) : Continues allowed r (r.add event) :=
  .add .refl ok

theorem trans (h : Continues allowed r r') (h' : Continues allowed r' r'') :
    Continues allowed r r'' := by
  induction h' with
  | refl => exact h
  | add _ ok ih => exact .add ih ok

theorem mono (h : Continues allowed r r')
    (himp : ∀ r event, allowed r event → allowed' r event) : Continues allowed' r r' := by
  induction h with
  | refl => exact .refl
  | add _ ok ih => exact .add ih (himp _ _ ok)

/-- What every allowed event keeps is kept from the first recording to the last. -/
theorem preserves {P : Recording start → Prop} (h : Continues allowed r r')
    (hadd : ∀ r event, P r → allowed r event → P (r.add event)) (hr : P r) : P r' := by
  induction h with
  | refl => exact hr
  | add _ ok ih => exact hadd _ _ ih ok

end Continues

/-- The second recording has whatever happens in the first one, and more. -/
abbrev GoesOn (r r' : Recording start) : Prop := Continues (fun _ _ => True) r r'

theorem Continues.goesOn {allowed : Recording start → Event n → Prop} {r r' : Recording start}
    (h : Continues allowed r r') : GoesOn r r' :=
  h.mono fun _ _ _ => trivial

/-! ## Bubble sort -/

/-- Neighbours are compared, and those out of order are swapped. -/
inductive Bubbles (r : Recording start) : Event n → Prop
  | compare (i j : Fin n) : Bubbles r (.compare i j)
  | swap {i j : Fin n} (next : (j : Nat) = i + 1) (greater : r.now.get j < r.now.get i) :
      Bubbles r (.swap i j)

theorem bubblePass_continues (last : Nat) (h : last < n) (j : Nat) (swapped : Bool)
    (r : Recording start) : Continues Bubbles r (bubblePass last h j swapped r).2 := by
  fun_induction bubblePass last h j swapped r with
  | case1 j swapped r hj here next r' hlt ih =>
    have hcompared : Continues Bubbles r r' := .single (.compare here next)
    exact (hcompared.add (.swap rfl hlt)).trans ih
  | case2 j swapped r hj here next r' hge ih =>
    have hcompared : Continues Bubbles r r' := .single (.compare here next)
    exact hcompared.trans ih
  | case3 j swapped r hj => exact .refl

theorem bubbleDown_continues (last : Nat) (h : last < n) (r : Recording start) :
    Continues Bubbles r (bubbleDown last h r) := by
  fun_induction bubbleDown last h r with
  | case1 h r => exact .refl
  | case2 last h r r' hpass ih =>
    have := bubblePass_continues (last + 1) h 0 false r
    rw [hpass] at this
    exact this.trans ih
  | case3 last h r r' hpass =>
    have := bubblePass_continues (last + 1) h 0 false r
    rw [hpass] at this
    exact this

theorem bubble_continues (r : Recording start) : Continues Bubbles r (bubble r) := by
  unfold bubble
  split
  · exact .refl
  · exact bubbleDown_continues _ _ r

/-! ## Selection, quick and heap sort -/

/-- The array changes by swaps of different positions only. -/
inductive Exchanges (r : Recording start) : Event n → Prop
  | compare (i j : Fin n) : Exchanges r (.compare i j)
  | swap {i j : Fin n} (distinct : i ≠ j) : Exchanges r (.swap i j)
  | selectMin (i j : Fin n) : Exchanges r (.selectMin i j)
  | pivot (first last : Fin n) (value : Int) : Exchanges r (.pivot first last value)
  | partition (place : Fin n) (value : Int) : Exchanges r (.partition place value)
  | heapify (root : Fin n) : Exchanges r (.heapify root)

theorem Bubbles.exchanges {r : Recording start} {event : Event n} (h : Bubbles r event) :
    Exchanges r event := by
  cases h with
  | compare i j => exact .compare i j
  | swap next _ => exact .swap (Fin.ne_of_val_ne (by omega))

theorem leastFrom_continues (i : Fin n) (j : Nat) (least : Fin n) (r : Recording start) :
    Continues Exchanges r (leastFrom i j least r).2 := by
  fun_induction leastFrom i j least r with
  | case1 j least r hj here r' hlt ih =>
    have hcompared : Continues Exchanges r r' := .single (.compare least here)
    exact (hcompared.add (.selectMin i here)).trans ih
  | case2 j least r hj here r' hge ih =>
    have hcompared : Continues Exchanges r r' := .single (.compare least here)
    exact hcompared.trans ih
  | case3 j least r hj => exact .refl

theorem selectionFrom_continues (i : Nat) (r : Recording start) :
    Continues Exchanges r (selectionFrom i r) := by
  fun_induction selectionFrom i r with
  | case1 i r hi here least r' hleast ih =>
    have hscan := leastFrom_continues here (i + 1) here r
    rw [hleast] at hscan
    refine hscan.trans (Continues.trans ?_ ih)
    split
    next => exact .refl
    next hne => exact .single (.swap (Ne.symm hne))
  | case2 i r hi => exact .refl

theorem swapDistinct_continues (i j : Fin n) (r : Recording start) :
    Continues Exchanges r (swapDistinct i j r) := by
  unfold swapDistinct
  split
  next => exact .refl
  next hne => exact .single (.swap hne)

theorem gather_continues (last : Fin n) (pivot : Int) (first store j : Nat) (hf : first ≤ store)
    (hs : store ≤ j) (hj : j ≤ last) (r : Recording start) :
    Continues Exchanges r (gather last pivot first store j hf hs hj r).2 := by
  fun_induction gather last pivot first store j hf hs hj r with
  | case1 store j hf hs hj r hlt here r' hless ih =>
    have hcompared : Continues Exchanges r r' := .single (.compare here last)
    exact (hcompared.trans (swapDistinct_continues _ here r')).trans ih
  | case2 store j hf hs hj r hlt here r' hge ih =>
    have hcompared : Continues Exchanges r r' := .single (.compare here last)
    exact hcompared.trans ih
  | case3 store j hf hs hj r hge => exact .refl

theorem quickSegment_continues (first last : Nat) (h : last < n) (r : Recording start) :
    Continues Exchanges r (quickSegment first last h r) := by
  fun_induction quickSegment first last h r with
  | case1 first last h r hl lowest highest pivot place hp r₁ hgather hle r₂ r₃ ihb _ ihr =>
    have hgathered := gather_continues highest pivot first first first (Nat.le_refl _)
      (Nat.le_refl _) (Nat.le_of_lt hl) (r.add (.pivot lowest highest pivot))
    rw [hgather] at hgathered
    have hchosen : Continues Exchanges r (r.add (.pivot lowest highest pivot)) :=
      .single (.pivot lowest highest pivot)
    have hplaced : Continues Exchanges r₁ r₂ :=
      (swapDistinct_continues place highest r₁).add (.partition place pivot)
    refine ((hchosen.trans hgathered).trans hplaced).trans (Continues.trans ?_ ihr)
    -- nothing happens to a front part that is empty
    by_cases hlt : first < (place : Nat)
    · have hr₃ : r₃ = quickSegment first (place - 1) (by omega) r₂ := dif_pos hlt
      rw [hr₃]
      exact ihb hlt
    · have hr₃ : r₃ = r₂ := dif_neg hlt
      rw [hr₃]
      exact .refl
  | case2 first last h r hge => exact .refl

theorem quick_continues (r : Recording start) : Continues Exchanges r (quick r) := by
  unfold quick
  split
  · exact .refl
  · exact quickSegment_continues _ _ _ r

theorem greaterChild_continues (stop : Nat) (hs : stop ≤ n) (child : Nat)
    (chosen : Fin n × Recording start) :
    Continues Exchanges chosen.2 (greaterChild stop hs child chosen).2 := by
  unfold greaterChild
  split
  · dsimp only
    split
    · exact .single (.compare _ _)
    · exact .single (.compare _ _)
  · exact .refl

theorem sink_continues (stop : Nat) (hs : stop ≤ n) (root : Fin n) (r : Recording start) :
    Continues Exchanges r (sink stop hs root r) := by
  have hlargest : Continues Exchanges r (largestOfFamily stop hs root r).2 :=
    (greaterChild_continues stop hs (2 * root + 1) (root, r)).trans
      (greaterChild_continues stop hs (2 * root + 2) _)
  rw [sink_eq]
  split
  next => exact hlargest
  next hne =>
    have hfst := (largestOfFamily_fst stop hs root r).resolve_left hne
    exact (hlargest.add (.swap (Ne.symm hne))).trans (sink_continues stop hs _ _)
termination_by stop - root

theorem siftDown_continues (stop : Nat) (hs : stop ≤ n) (root : Fin n) (r : Recording start) :
    Continues Exchanges r (siftDown stop hs root r) :=
  (Continues.single (.heapify root)).trans (sink_continues stop hs root _)

theorem buildHeap_continues (count : Nat) (h : count ≤ n) (r : Recording start) :
    Continues Exchanges r (buildHeap count h r) := by
  induction count generalizing r with
  | zero => exact .refl
  | succ count ih => exact (siftDown_continues _ _ _ r).trans (ih _ _)

theorem drainHeap_continues (last : Nat) (h : last < n) (r : Recording start) :
    Continues Exchanges r (drainHeap last h r) := by
  induction last generalizing r with
  | zero => exact .refl
  | succ last ih =>
    have hdistinct : rootOf (⟨last + 1, h⟩ : Fin n) ≠ ⟨last + 1, h⟩ :=
      Fin.ne_of_val_ne (Nat.succ_ne_zero last).symm
    have hswapped : Continues Exchanges r (r.add (.swap _ _)) := .single (.swap hdistinct)
    exact (hswapped.trans (siftDown_continues _ _ _ _)).trans (ih _ _)

theorem heap_continues (r : Recording start) : Continues Exchanges r (heap r) := by
  have hbuilt := buildHeap_continues (n / 2) (Nat.div_le_self n 2) r
  unfold heap
  dsimp only
  split
  · exact hbuilt
  · exact hbuilt.trans (drainHeap_continues _ _ _)

/-! ## Insertion sort -/

/-- The free position of a round and the key that was taken for it: at first the position of the key
itself is free, and then that of the value that was moved last. -/
def hand? : List (Event n) → Option (Fin n × Int)
  | .selectKey i key :: _ => some (i, key)
  | .shift _ source _ :: earlier => (hand? earlier).map fun held => (source, held.2)
  | _ :: earlier => hand? earlier
  | [] => none

/-- The array with the key in the free position. -/
def withHand (r : Recording start) : Vector Int n :=
  match hand? r.events with
  | some (free, key) => put r.now free key
  | none => r.now

/-- A key is taken when none is missing from the array; greater values are moved into the free
position from the one before it, and the key is written there. -/
inductive Inserts (r : Recording start) : Event n → Prop
  | selectKey {i : Fin n} (complete : withHand r = r.now) : Inserts r (.selectKey i (r.now.get i))
  | compareKey (i j : Fin n) (key : Int) : Inserts r (.compareKey i j key)
  | shift {i source target : Fin n} {key : Int} (held : hand? r.events = some (target, key))
      (next : (target : Nat) = source + 1) (greater : key < r.now.get source) :
      Inserts r (.shift i source target)
  | insert {i j : Fin n} {key : Int} (held : hand? r.events = some (j, key)) :
      Inserts r (.insert i j key)

theorem withHand_eq {r : Recording start} {free : Fin n} {key : Int}
    (held : hand? r.events = some (free, key)) : withHand r = put r.now free key := by
  rw [withHand, held]

/-- The key is in the free position afterwards, whether it has been written there or not. -/
theorem placeKey_continues {i j : Fin n} {key : Int} {r : Recording start}
    (held : hand? r.events = some (j, key)) (unmoved : j = i → r.now.get j = key) :
    Continues Inserts r (placeKey i key j r) ∧
      withHand (placeKey i key j r) = (placeKey i key j r).now := by
  unfold placeKey
  split
  next hi =>
    have hself : put r.now j key = r.now := by
      rw [← unmoved hi]
      exact Vector.set_getElem_self ..
    exact ⟨.refl, by rw [withHand_eq held, hself]⟩
  next =>
    have held' : hand? (r.add (.insert i j key)).events = some (j, key) := held
    refine ⟨.single (.insert held), ?_⟩
    rw [withHand_eq held']
    exact Vector.set_set ..

/-- A round takes the key in the free position on to where it belongs. -/
theorem sinkKey_continues (i : Fin n) (key : Int) {j : Nat} {h : j < n} {r : Recording start}
    (hji : j ≤ i) (held : hand? r.events = some (⟨j, h⟩, key))
    (unmoved : ⟨j, h⟩ = i → r.now.get ⟨j, h⟩ = key) :
    Continues Inserts r (sinkKey i key j h r) ∧
      withHand (sinkKey i key j h r) = (sinkKey i key j h r).now := by
  fun_induction sinkKey i key j h r with
  | case1 h r => exact placeKey_continues held unmoved
  | case2 j h r before free r' hle =>
    have hcompared : Continues Inserts r r' := .single (.compareKey i before key)
    obtain ⟨hplaced, hdone⟩ := placeKey_continues (r := r') held unmoved
    exact ⟨hcompared.trans hplaced, hdone⟩
  | case3 j h r before free r' hgt ih =>
    have hcompared : Continues Inserts r r' := .single (.compareKey i before key)
    have hshift : Inserts r' (.shift i before free) := .shift held rfl (Int.not_le.mp hgt)
    obtain ⟨hsunk, hdone⟩ := ih (Nat.le_of_succ_le hji)
      (by rw [Recording.events_add, hand?, show hand? r'.events = _ from held]; rfl)
      (fun he => absurd (congrArg Fin.val he) (Nat.ne_of_lt hji))
    exact ⟨(hcompared.add hshift).trans hsunk, hdone⟩

theorem insertionFrom_continues {i : Nat} {r : Recording start} (hr : withHand r = r.now) :
    Continues Inserts r (insertionFrom i r) ∧
      withHand (insertionFrom i r) = (insertionFrom i r).now := by
  fun_induction insertionFrom i r with
  | case1 i r hi here key ih =>
    have htaken : Continues Inserts r (r.add (.selectKey here key)) := .single (.selectKey hr)
    obtain ⟨hsunk, hplaced⟩ := sinkKey_continues here key (h := hi)
      (r := r.add (.selectKey here key)) (Nat.le_refl _) rfl (fun _ => rfl)
    obtain ⟨hrest, hdone⟩ := ih hplaced
    exact ⟨(htaken.trans hsunk).trans hrest, hdone⟩
  | case2 i r hi => exact ⟨.refl, hr⟩

theorem insertion_continues (start : Vector Int n) :
    Continues Inserts (.empty start) (insertion (.empty start)) ∧
      withHand (insertion (.empty start)) = (insertion (.empty start)).now :=
  insertionFrom_continues rfl

/-! ## Merge sort -/

/-- The array after the last event that is shown; a write of a merge is not. -/
def shownAfter (start : Vector Int n) : List (Event n) → Vector Int n
  | .write _ _ :: earlier => shownAfter start earlier
  | events => events.foldr Event.apply start

/-- The array as it was shown last. -/
def Recording.shown (r : Recording start) : Vector Int n := shownAfter start r.events

/-- Everything but a write of a merge is shown. -/
def Event.isShown : Event n → Bool
  | .write _ _ => false
  | _ => true

theorem shown_add_write (r : Recording start) (k : Fin n) (value : Int) :
    (r.add (.write k value)).shown = r.shown := rfl

theorem shown_add {event : Event n} (h : event.isShown = true) (r : Recording start) :
    (r.add event).shown = (r.add event).now := by
  have hshown : (r.add event).shown = (event :: r.events).foldr Event.apply start := by
    cases event with
    | write k value => cases h
    | _ => rfl
  exact hshown.trans (r.add event).now_eq

/-- One value at most has been written since the array was shown. -/
def LagsBehind (r : Recording start) : Prop :=
  r.now = r.shown ∨ ∃ (k : Fin n) (value : Int), r.now = put r.shown k value

/-- Values are compared when one value at most has been written since the array was shown; writes
are not shown, and the end of a merge is shown when the array has the values of the first one. -/
inductive Merges (r : Recording start) : Event n → Prop
  | compareHalves {i j : Nat} {left right : Int} (late : LagsBehind r) :
      Merges r (.compareHalves i j left right)
  | write (k : Fin n) (value : Int) : Merges r (.write k value)
  | merged {first last : Nat} (whole : r.now.toList.Perm start.toList) :
      Merges r (.merged first last)

theorem LagsBehind.of_write {r : Recording start} (hr : r.now = r.shown) (k : Fin n) (value : Int) :
    LagsBehind (r.add (.write k value)) := by
  refine .inr ⟨k, value, ?_⟩
  rw [shown_add_write, ← hr]
  rfl

theorem writeFrom_continues {allowed : Recording start → Event n → Prop}
    (hwrite : ∀ r k value, allowed r (.write k value)) (k : Nat) (values : List Int)
    (h : k + values.length ≤ n) (r : Recording start) :
    Continues allowed r (writeFrom k values h r) := by
  fun_induction writeFrom k values h r with
  | case1 k h r => exact .refl
  | case2 k value rest h r hk ih => exact (Continues.single (hwrite r ⟨k, hk⟩ value)).trans ih

theorem mergeHalves_continues (k i j : Nat) (left right : List Int)
    (h : k + (left.length + right.length) ≤ n) (r : Recording start) (hr : LagsBehind r) :
    Continues Merges r (mergeHalves k i j left right h r) := by
  fun_induction mergeHalves k i j left right h r with
  | case1 i j k right h r => exact writeFrom_continues (fun _ => .write) k right _ r
  | case2 i j k left h r => exact writeFrom_continues (fun _ => .write) k left _ r
  | case3 k i j a left b right h r hk r' hlt _ ih =>
    have hcompared : Continues Merges r r' := .single (.compareHalves hr)
    -- the comparison has shown the array, and the write is the only one since
    exact (hcompared.add (.write ⟨k, hk⟩ b)).trans (ih (.of_write (shown_add rfl r).symm ⟨k, hk⟩ b))
  | case4 k i j a left b right h r hk r' hge _ ih =>
    have hcompared : Continues Merges r r' := .single (.compareHalves hr)
    exact (hcompared.add (.write ⟨k, hk⟩ a)).trans (ih (.of_write (shown_add rfl r).symm ⟨k, hk⟩ a))

/-- The end of a merge is shown, so after a segment is sorted nothing is left to show. -/
theorem mergeSegment_shown {first stop : Nat} {h : stop ≤ n} {r : Recording start}
    (hr : r.now = r.shown) :
    (mergeSegment first stop h r).now = (mergeSegment first stop h r).shown := by
  unfold mergeSegment
  split
  next => exact (shown_add rfl _).symm
  next => exact hr

/-- Sorting a segment rearranges it. -/
theorem mergeSegment_rearranged (first stop : Nat) (h : stop ≤ n) (r : Recording start) :
    Rearranged first stop r.now (mergeSegment first stop h r).now :=
  (mergeSegment_sorts h r).1

theorem mergeSegment_continues (first stop : Nat) (h : stop ≤ n) (r : Recording start)
    (hr : r.now = r.shown) (hperm : r.now.toList.Perm start.toList) :
    Continues Merges r (mergeSegment first stop h r) := by
  fun_induction mergeSegment first stop h r with
  | case1 first stop h r hs middle r₁ r₂ r₃ ih₁ _ ih₂ _ =>
    have hperm₁ : r₁.now.toList.Perm start.toList :=
      (mergeSegment_rearranged first middle _ r).perm.trans hperm
    have hperm₂ : r₂.now.toList.Perm start.toList :=
      (mergeSegment_rearranged middle stop h r₁).perm.trans hperm₁
    have hshown₁ : r₁.now = r₁.shown := mergeSegment_shown hr
    have hshown₂ : r₂.now = r₂.shown := mergeSegment_shown hshown₁
    have hmerged : Continues Merges r₂ r₃ := mergeHalves_continues _ _ _ _ _ _ _ (.inl hshown₂)
    -- the end of the merge changes nothing, so the array has been rearranged before it
    have hwhole : r₃.now.toList.Perm start.toList := by
      have hperm' := (mergeSegment_rearranged first stop h r).perm.trans hperm
      rwa [mergeSegment, dif_pos hs] at hperm'
    exact (((ih₁ hr hperm).trans (ih₂ hshown₁ hperm₁)).trans hmerged).add (.merged hwhole)
  | case2 first stop h r hs => exact .refl

theorem merge_continues (start : Vector Int n) :
    Continues Merges (.empty start) (merge (.empty start)) :=
  mergeSegment_continues 0 n _ _ rfl (.refl _)

end Storyboard.Sorting
