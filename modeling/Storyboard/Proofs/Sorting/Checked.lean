import Storyboard.Sorting.Simulation
import Storyboard.Proofs.Sorting.Heap

/-!
# Every position that a sort uses exists

The sorts carry proofs that their positions lie in the array, and they subtract natural numbers, for
which there is always a difference.  Here each of them is written once more with plain numbers: a
position is looked up (`position?`), a difference is taken (`minus?`), and a loop that goes on
checks that it has come further; each of these fails where there is no result.  The checked run
of every sort succeeds, and it is the run itself: no position is out of bounds, and no difference
falls below zero.
-/

namespace Storyboard.Sorting

variable {n : Nat} {start : Vector Int n}

/-- The position of an array of `n` values with the number `i`. -/
def position? (n i : Nat) : Option (Fin n) := if h : i < n then some ⟨i, h⟩ else none

theorem position?_eq {i : Nat} (h : i < n) : position? n i = some ⟨i, h⟩ := dif_pos h

/-- A difference that does not fall below zero. -/
def minus? (a b : Nat) : Option { d : Nat // d + b = a } :=
  if h : b ≤ a then some ⟨a - b, Nat.sub_add_cancel h⟩ else none

theorem minus?_eq {a b : Nat} (h : b ≤ a) : minus? a b = some ⟨a - b, Nat.sub_add_cancel h⟩ :=
  dif_pos h

/-! ## Bubble sort -/

def bubblePass? (last j : Nat) (swapped : Bool) (r : Recording start) :
    Option (Bool × Recording start) :=
  if _ : j < last then do
    let here ← position? n j
    let next ← position? n (j + 1)
    let r := r.add (.compare here next)
    if r.now.get next < r.now.get here then bubblePass? last (j + 1) true (r.add (.swap here next))
    else bubblePass? last (j + 1) swapped r
  else some (swapped, r)
termination_by last - j

/-- Passes from round `i` on; round `i` goes up to position `n - 1 - i`. -/
def bubbleFrom? (i : Nat) (r : Recording start) : Option (Recording start) :=
  if _ : i < n - 1 then do
    let ⟨whole, _⟩ ← minus? n 1
    let ⟨last, _⟩ ← minus? whole i
    match ← bubblePass? last 0 false r with
    | (true, r) => bubbleFrom? (i + 1) r
    | (false, r) => some r
  else some r
termination_by n - i

theorem bubblePass?_eq (last : Nat) (h : last < n) (j : Nat) (swapped : Bool)
    (r : Recording start) :
    bubblePass? last j swapped r = some (bubblePass last h j swapped r) := by
  fun_induction bubblePass last h j swapped r with
  | case1 j swapped r hj here next r' hlt ih =>
    rw [bubblePass?, dif_pos hj, position?_eq here.isLt, position?_eq next.isLt]
    exact (if_pos hlt).trans ih
  | case2 j swapped r hj here next r' hge ih =>
    rw [bubblePass?, dif_pos hj, position?_eq here.isLt, position?_eq next.isLt]
    exact (if_neg hge).trans ih
  | case3 j swapped r hj => rw [bubblePass?, dif_neg hj]

theorem bubbleFrom?_eq (last : Nat) (h : last < n) (i : Nat) (hi : last = n - 1 - i)
    (r : Recording start) : bubbleFrom? i r = some (bubbleDown last h r) := by
  induction last generalizing i r with
  | zero =>
    rw [bubbleFrom?, dif_neg (by omega)]
    rfl
  | succ last ih =>
    rw [bubbleFrom?, dif_pos (by omega), minus?_eq (by omega)]
    show (minus? (n - 1) i >>= _) = _
    rw [minus?_eq (by omega)]
    show (bubblePass? (n - 1 - i) 0 false r >>= _) = _
    rw [← hi, bubblePass?_eq (last + 1) h, bubbleDown]
    obtain ⟨swapped, r'⟩ := bubblePass (last + 1) h 0 false r
    cases swapped with
    | true => exact ih (by omega) (i + 1) (by omega) r'
    | false => rfl

theorem bubbleFrom?_zero (r : Recording start) : bubbleFrom? 0 r = some (bubble r) := by
  unfold bubble
  split
  next => rw [bubbleFrom?, dif_neg (by omega)]
  next => exact bubbleFrom?_eq (n - 1) (by omega) 0 rfl r

/-! ## Selection sort -/

def leastFrom? (i least j : Nat) (r : Recording start) : Option (Nat × Recording start) :=
  if _ : j < n then do
    let round ← position? n i
    let best ← position? n least
    let here ← position? n j
    let r := r.add (.compare best here)
    if r.now.get here < r.now.get best then leastFrom? i j (j + 1) (r.add (.selectMin round here))
    else leastFrom? i least (j + 1) r
  else some (least, r)
termination_by n - j

def selectionFrom? (i : Nat) (r : Recording start) : Option (Recording start) :=
  if _ : i < n - 1 then do
    let (least, r) ← leastFrom? i i (i + 1) r
    let here ← position? n i
    let best ← position? n least
    selectionFrom? (i + 1) (if least = i then r else r.add (.swap here best))
  else some r
termination_by n - i

theorem leastFrom?_eq (i : Fin n) (j : Nat) (least : Fin n) (r : Recording start) :
    leastFrom? i least j r = some ((leastFrom i j least r).1.val, (leastFrom i j least r).2) := by
  fun_induction leastFrom i j least r with
  | case1 j least r hj here r' hlt ih =>
    rw [leastFrom?, dif_pos hj, position?_eq i.isLt, position?_eq least.isLt, position?_eq hj]
    exact (if_pos hlt).trans ih
  | case2 j least r hj here r' hge ih =>
    rw [leastFrom?, dif_pos hj, position?_eq i.isLt, position?_eq least.isLt, position?_eq hj]
    exact (if_neg hge).trans ih
  | case3 j least r hj => rw [leastFrom?, dif_neg hj]

theorem selectionFrom?_eq (i : Nat) (r : Recording start) :
    selectionFrom? i r = some (selectionFrom i r) := by
  fun_induction selectionFrom i r with
  | case1 i r hi here least r' hleast ih =>
    rw [selectionFrom?, dif_pos (by omega)]
    have hfound := leastFrom?_eq here (i + 1) here r
    rw [hleast] at hfound
    rw [show leastFrom? i i (i + 1) r = some ((least : Nat), r') from hfound]
    -- positions are compared as numbers here, and as positions in the sort
    show (position? n i >>= fun here => position? n least >>= _) = _
    rw [position?_eq here.isLt, position?_eq least.isLt]
    show selectionFrom? (i + 1) (if (least : Nat) = i then r' else r'.add (.swap here least)) = _
    by_cases hsame : least = here
    · rw [if_pos (congrArg Fin.val hsame), if_pos hsame]
      rwa [dif_pos hsame] at ih
    · rw [if_neg fun he => hsame (Fin.ext he), if_neg hsame]
      rwa [dif_neg hsame] at ih
  | case2 i r hi => rw [selectionFrom?, dif_neg (by omega)]

/-! ## Insertion sort -/

def placeKey? (i : Nat) (key : Int) (j : Nat) (r : Recording start) : Option (Recording start) :=
  if j = i then some r
  else do
    let round ← position? n i
    let free ← position? n j
    return r.add (.insert round free key)

def sinkKey? (i : Nat) (key : Int) (j : Nat) (r : Recording start) : Option (Recording start) :=
  if h : 0 < j then do
    let round ← position? n i
    let before ← position? n (← minus? j 1).val
    let free ← position? n j
    let r := r.add (.compareKey round before key)
    if r.now.get before ≤ key then placeKey? i key j r
    else sinkKey? i key (j - 1) (r.add (.shift round before free))
  else placeKey? i key j r
termination_by j

def insertionFrom? (i : Nat) (r : Recording start) : Option (Recording start) :=
  if _ : i < n then do
    let here ← position? n i
    let key := r.now.get here
    let r ← sinkKey? i key i (r.add (.selectKey here key))
    insertionFrom? (i + 1) r
  else some r
termination_by n - i

theorem placeKey?_eq (i : Fin n) (key : Int) (j : Fin n) (r : Recording start) :
    placeKey? i key j r = some (placeKey i key j r) := by
  unfold placeKey? placeKey
  rw [position?_eq i.isLt, position?_eq j.isLt]
  by_cases h : j = i
  · rw [if_pos h, if_pos (congrArg Fin.val h)]
  · rw [if_neg h, if_neg fun he => h (Fin.ext he)]
    rfl

theorem sinkKey?_eq (i : Fin n) (key : Int) (j : Nat) (h : j < n) (r : Recording start) :
    sinkKey? i key j r = some (sinkKey i key j h r) := by
  induction j generalizing r with
  | zero =>
    rw [sinkKey?, dif_neg (Nat.lt_irrefl 0)]
    exact placeKey?_eq i key ⟨0, h⟩ r
  | succ j ih =>
    have hj : j < n := Nat.lt_of_succ_lt h
    rw [sinkKey?, dif_pos (Nat.succ_pos j), position?_eq i.isLt, minus?_eq (Nat.succ_pos j),
      position?_eq h]
    show (position? n j >>= _) = _
    rw [position?_eq hj, sinkKey]
    by_cases hle : r.now.get ⟨j, hj⟩ ≤ key
    · exact (if_pos hle).trans ((placeKey?_eq i key ⟨j + 1, h⟩ _).trans
        (congrArg some (if_pos hle).symm))
    · exact (if_neg hle).trans ((ih hj _).trans (congrArg some (if_neg hle).symm))

theorem insertionFrom?_eq (i : Nat) (r : Recording start) :
    insertionFrom? i r = some (insertionFrom i r) := by
  fun_induction insertionFrom i r with
  | case1 i r hi here key ih =>
    rw [insertionFrom?, dif_pos hi, position?_eq hi]
    show (sinkKey? i key i (r.add (.selectKey here key)) >>= _) = _
    rw [sinkKey?_eq here key i hi]
    exact ih
  | case2 i r hi => rw [insertionFrom?, dif_neg hi]

/-! ## Merge sort -/

/-- The values of a slice that lies in the array. -/
def slice? (arr : Vector Int n) (first stop : Nat) : Option (List Int) :=
  if first ≤ stop ∧ stop ≤ n then some (segment arr first stop) else none

theorem slice?_eq (arr : Vector Int n) {first stop : Nat} (h : first ≤ stop) (hs : stop ≤ n) :
    slice? arr first stop = some (segment arr first stop) := if_pos ⟨h, hs⟩

/-- The values from position `a` on of a list that has so many. -/
def rest? (values : List Int) (a : Nat) : Option (List Int) :=
  if a ≤ values.length then some (values.drop a) else none

theorem rest?_eq {values : List Int} {a : Nat} (h : a ≤ values.length) :
    rest? values a = some (values.drop a) := if_pos h

def writeFrom? (k : Nat) : List Int → Recording start → Option (Recording start)
  | [], r => some r
  | value :: rest, r => do
    let here ← position? n k
    writeFrom? (k + 1) rest (r.add (.write here value))

/-- Merges two halves of which `a` and `b` values have been taken. -/
def mergeHalves? (first middle : Nat) (left right : List Int) (a b k : Nat)
    (r : Recording start) : Option (Recording start) :=
  if _ : a < left.length ∧ b < right.length then do
    let x ← left[a]?
    let y ← right[b]?
    let r := r.add (.compareHalves (first + a) (middle + b) x y)
    let here ← position? n k
    if y < x then mergeHalves? first middle left right a (b + 1) (k + 1) (r.add (.write here y))
    else mergeHalves? first middle left right (a + 1) b (k + 1) (r.add (.write here x))
  else do
    let left ← rest? left a
    let right ← rest? right b
    writeFrom? k (left ++ right) r
termination_by (left.length - a) + (right.length - b)

def mergeSegment? (first stop : Nat) (r : Recording start) : Option (Recording start) := do
  let ⟨width, hw⟩ ← minus? stop first
  if _ : width < 2 then return r
  else
    let middle := first + width / 2
    let r ← mergeSegment? first middle r
    let r ← mergeSegment? middle stop r
    let left ← slice? r.now first middle
    let right ← slice? r.now middle stop
    let r ← mergeHalves? first middle left right 0 0 first r
    return r.add (.merged first (← minus? stop 1).val)
termination_by stop - first

theorem writeFrom?_eq (k : Nat) (values : List Int) (h : k + values.length ≤ n)
    (r : Recording start) : writeFrom? k values r = some (writeFrom k values h r) := by
  induction values generalizing k r with
  | nil => rfl
  | cons value rest ih =>
    have hk : k < n := by
      simp only [List.length_cons] at h
      omega
    rw [writeFrom?, position?_eq hk]
    exact ih (k + 1) _ _

/-- The first of the values from position `a` on is the one there. -/
theorem getElem?_of_drop {values rest : List Int} {a : Nat} {x : Int}
    (h : values.drop a = x :: rest) :
    a < values.length ∧ values[a]? = some x ∧ values.drop (a + 1) = rest := by
  have ha : a < values.length := by
    have hlen := congrArg List.length h
    simp only [List.length_drop, List.length_cons] at hlen
    omega
  rw [List.drop_eq_getElem_cons ha, List.cons.injEq] at h
  exact ⟨ha, by rw [List.getElem?_eq_getElem ha, h.1], h.2⟩

/-- What is left of the halves are their values from `a` and `b` on. -/
theorem mergeHalves?_eq (first middle : Nat) (left right : List Int) (k i j : Nat)
    (l s : List Int) (h : k + (l.length + s.length) ≤ n) (r : Recording start) :
    ∀ a b : Nat, a ≤ left.length → b ≤ right.length → i = first + a → j = middle + b →
      l = left.drop a → s = right.drop b →
      mergeHalves? first middle left right a b k r = some (mergeHalves k i j l s h r) := by
  fun_induction mergeHalves k i j l s h r with
  | case1 i j k s h r =>
    intro a b ha hb hi hj hl hs
    have hdone : ¬(a < left.length ∧ b < right.length) := by
      have := List.drop_eq_nil_iff.mp hl.symm
      omega
    rw [mergeHalves?, dif_neg hdone, rest?_eq ha, rest?_eq hb, ← hl, ← hs]
    exact writeFrom?_eq k s _ r
  | case2 i j k l h r hne =>
    intro a b ha hb hi hj hl hs
    have hdone : ¬(a < left.length ∧ b < right.length) := by
      have := List.drop_eq_nil_iff.mp hs.symm
      omega
    -- nothing is left of the right half, and what is left of the other is written
    rw [mergeHalves?, dif_neg hdone, rest?_eq ha, rest?_eq hb, ← hl, ← hs]
    show writeFrom? k (l ++ []) r = _
    rw [List.append_nil]
    exact writeFrom?_eq k l _ r
  | case3 k i j x l y s h r hk r' hlt _ ih =>
    intro a b ha hb hi hj hl hs
    obtain ⟨ha', hx, hl'⟩ := getElem?_of_drop hl.symm
    obtain ⟨hb', hy, hs'⟩ := getElem?_of_drop hs.symm
    rw [mergeHalves?, dif_pos ⟨ha', hb'⟩, hx, hy, position?_eq hk, ← hi, ← hj]
    exact (if_pos hlt).trans (ih a (b + 1) ha hb' hi (by omega) hl hs'.symm)
  | case4 k i j x l y s h r hk r' hge _ ih =>
    intro a b ha hb hi hj hl hs
    obtain ⟨ha', hx, hl'⟩ := getElem?_of_drop hl.symm
    obtain ⟨hb', hy, hs'⟩ := getElem?_of_drop hs.symm
    rw [mergeHalves?, dif_pos ⟨ha', hb'⟩, hx, hy, position?_eq hk, ← hi, ← hj]
    exact (if_neg hge).trans (ih (a + 1) b ha' hb (by omega) hj hl'.symm hs)

theorem mergeSegment?_eq (first stop : Nat) (hf : first ≤ stop) (h : stop ≤ n)
    (r : Recording start) : mergeSegment? first stop r = some (mergeSegment first stop h r) := by
  fun_induction mergeSegment first stop h r with
  | case1 first stop h r hs middle r₁ r₂ r₃ ih₁ _ ih₂ _ =>
    -- the middle lies between both ends, so every slice exists
    have hm : first ≤ middle := Nat.le_add_right ..
    have hms : middle ≤ stop := by
      show first + (stop - first) / 2 ≤ stop
      omega
    rw [mergeSegment?, minus?_eq hf]
    refine (dif_neg (show ¬stop - first < 2 by omega)).trans ?_
    show (mergeSegment? first middle r >>= _) = _
    rw [ih₁ hm]
    show (mergeSegment? middle stop r₁ >>= _) = _
    rw [ih₂ hms]
    show (slice? r₂.now first middle >>= fun left => slice? r₂.now middle stop >>= _) = _
    rw [slice?_eq _ hm (Nat.le_trans hms h), slice?_eq _ hms h]
    show (mergeHalves? first middle (segment r₂.now first middle) (segment r₂.now middle stop) 0 0
      first r₂ >>= _) = _
    rw [mergeHalves?_eq first middle _ _ first first middle _ _ _ r₂ 0 0 (Nat.zero_le _)
      (Nat.zero_le _) rfl rfl rfl rfl]
    show (minus? stop 1 >>= _) = _
    rw [minus?_eq (by omega)]
    rfl
  | case2 first stop h r hs =>
    rw [mergeSegment?, minus?_eq hf]
    exact dif_pos (by omega)

/-! ## Quick sort -/

def swapDistinct? (i j : Nat) (r : Recording start) : Option (Recording start) :=
  if i = j then some r
  else do
    let here ← position? n i
    let there ← position? n j
    return r.add (.swap here there)

def gather? (last : Nat) (pivot : Int) (store j : Nat) (r : Recording start) :
    Option (Nat × Recording start) :=
  if _ : j < last then do
    let here ← position? n j
    let highest ← position? n last
    let r := r.add (.compare here highest)
    if r.now.get here < pivot then
      let r ← swapDistinct? store j r
      gather? last pivot (store + 1) (j + 1) r
    else gather? last pivot store (j + 1) r
  else some (store, r)
termination_by last - j

def quickSegment? (first last : Nat) (r : Recording start) : Option (Recording start) :=
  if _ : first < last then do
    let lowest ← position? n first
    let highest ← position? n last
    let pivot := r.now.get highest
    let (store, r) ← gather? last pivot first first (r.add (.pivot lowest highest pivot))
    if _ : first ≤ store ∧ store ≤ last then
      let r ← swapDistinct? store last r
      let place ← position? n store
      let r := r.add (.partition place pivot)
      let r ← if first < store then do
          let ⟨before, _⟩ ← minus? store 1
          quickSegment? first before r
        else some r
      quickSegment? (store + 1) last r
    else none
  else some r
termination_by last + 1 - first

theorem swapDistinct?_eq (i j : Fin n) (r : Recording start) :
    swapDistinct? i j r = some (swapDistinct i j r) := by
  unfold swapDistinct? swapDistinct
  rw [position?_eq i.isLt, position?_eq j.isLt]
  by_cases h : i = j
  · rw [if_pos h, if_pos (congrArg Fin.val h)]
  · rw [if_neg h, if_neg fun he => h (Fin.ext he)]
    rfl

theorem gather?_eq (last : Fin n) (pivot : Int) (first store j : Nat) (hf : first ≤ store)
    (hs : store ≤ j) (hj : j ≤ last) (r : Recording start) :
    gather? last pivot store j r =
      some ((gather last pivot first store j hf hs hj r).1.val.val,
        (gather last pivot first store j hf hs hj r).2) := by
  fun_induction gather last pivot first store j hf hs hj r with
  | case1 store j hf hs hj r hlt here r' hless ih =>
    rw [gather?, dif_pos hlt, position?_eq here.isLt, position?_eq last.isLt]
    refine (if_pos hless).trans ?_
    rw [show swapDistinct? store j r' = _ from swapDistinct?_eq ⟨store, by omega⟩ here r']
    exact ih
  | case2 store j hf hs hj r hlt here r' hge ih =>
    rw [gather?, dif_pos hlt, position?_eq here.isLt, position?_eq last.isLt]
    exact (if_neg hge).trans ih
  | case3 store j hf hs hj r hge => rw [gather?, dif_neg hge]

theorem quickSegment?_eq (first last : Nat) (h : last < n) (r : Recording start) :
    quickSegment? first last r = some (quickSegment first last h r) := by
  fun_induction quickSegment first last h r with
  | case1 first last h r hl lowest highest pivot place hp r₁ hgather hle r₂ r₃ ihb _ ihr =>
    have hfound := gather?_eq highest pivot first first first (Nat.le_refl _) (Nat.le_refl _)
      (Nat.le_of_lt hl) (r.add (.pivot lowest highest pivot))
    rw [hgather] at hfound
    rw [quickSegment?, dif_pos hl, position?_eq lowest.isLt, position?_eq highest.isLt]
    show (gather? last pivot first first (r.add (.pivot lowest highest pivot)) >>= _) = _
    rw [show gather? last pivot first first (r.add (.pivot lowest highest pivot)) =
      some ((place : Nat), r₁) from hfound]
    refine (dif_pos (show first ≤ (place : Nat) ∧ (place : Nat) ≤ last from hp)).trans ?_
    rw [show swapDistinct? place last r₁ = _ from swapDistinct?_eq place highest r₁]
    show (position? n place >>= _) = _
    rw [position?_eq place.isLt]
    -- only a front part that is not empty is sorted, so the difference exists
    by_cases hlt : first < (place : Nat)
    · have hr₃ : r₃ = quickSegment first (place - 1) (by omega) r₂ := dif_pos hlt
      refine (if_pos hlt).trans ?_
      rw [minus?_eq (by omega)]
      show (quickSegment? first (place - 1) r₂ >>= fun r => quickSegment? (place + 1) last r) = _
      rw [ihb hlt, ← hr₃]
      exact ihr
    · have hr₃ : r₃ = r₂ := dif_neg hlt
      rw [hr₃] at ihr ⊢
      exact (if_neg hlt).trans ihr
  | case2 first last h r hge => rw [quickSegment?, dif_neg hge]

/-! ## Heap sort -/

def greaterChild? (stop child largest : Nat) (r : Recording start) :
    Option (Nat × Recording start) :=
  if child < stop then do
    let best ← position? n largest
    let below ← position? n child
    let r := r.add (.compare best below)
    return if r.now.get best < r.now.get below then (child, r) else (largest, r)
  else some (largest, r)

def sink? (stop root : Nat) (r : Recording start) : Option (Recording start) := do
  let (largest, r) ← greaterChild? stop (2 * root + 1) root r
  let (largest, r) ← greaterChild? stop (2 * root + 2) largest r
  if largest = root then some r
  else if _ : root < largest ∧ largest < stop then
    let here ← position? n root
    let below ← position? n largest
    sink? stop largest (r.add (.swap here below))
  else none
termination_by stop - root

def siftDown? (stop root : Nat) (r : Recording start) : Option (Recording start) := do
  let here ← position? n root
  sink? stop root (r.add (.heapify here))

def buildHeap? : Nat → Recording start → Option (Recording start)
  | 0, r => some r
  | count + 1, r => do
    let r ← siftDown? n count r
    buildHeap? count r

def drainHeap? : Nat → Recording start → Option (Recording start)
  | 0, r => some r
  | last + 1, r => do
    let root ← position? n 0
    let highest ← position? n (last + 1)
    let r ← siftDown? (last + 1) 0 (r.add (.swap root highest))
    drainHeap? last r

theorem greaterChild?_eq (stop : Nat) (hs : stop ≤ n) (child : Nat)
    (chosen : Fin n × Recording start) :
    greaterChild? stop child chosen.1 chosen.2 =
      some ((greaterChild stop hs child chosen).1.val, (greaterChild stop hs child chosen).2) := by
  obtain ⟨largest, r⟩ := chosen
  unfold greaterChild? greaterChild
  by_cases h : child < stop
  · have hchild : child < n := Nat.lt_of_lt_of_le h hs
    rw [if_pos h, dif_pos h, position?_eq largest.isLt, position?_eq hchild]
    show some _ = some
      ((if r.now.get largest < r.now.get ⟨child, hchild⟩ then _ else _ : Fin n × _).1.val,
        (if r.now.get largest < r.now.get ⟨child, hchild⟩ then _ else _ : Fin n × _).2)
    by_cases hlt : r.now.get largest < r.now.get ⟨child, hchild⟩
    · rw [if_pos hlt]
      exact congrArg some (if_pos hlt)
    · rw [if_neg hlt]
      exact congrArg some (if_neg hlt)
  · rw [if_neg h, dif_neg h]

theorem sink?_eq (stop : Nat) (hs : stop ≤ n) (root : Fin n) (r : Recording start) :
    sink? stop root r = some (sink stop hs root r) := by
  have hleft := greaterChild?_eq stop hs (2 * root + 1) (root, r)
  have hboth : greaterChild? stop (2 * root + 2) (greaterChild stop hs (2 * root + 1) (root, r)).1
      (greaterChild stop hs (2 * root + 1) (root, r)).2 =
      some ((largestOfFamily stop hs root r).1.val, (largestOfFamily stop hs root r).2) :=
    greaterChild?_eq stop hs (2 * root + 2) (greaterChild stop hs (2 * root + 1) (root, r))
  rw [sink?, show greaterChild? stop (2 * root + 1) root r = _ from hleft]
  show (greaterChild? stop (2 * root + 2) (greaterChild stop hs (2 * root + 1) (root, r)).1
    (greaterChild stop hs (2 * root + 1) (root, r)).2 >>= _) = _
  rw [hboth, sink_eq]
  by_cases hsame : (largestOfFamily stop hs root r).1 = root
  · rw [if_pos hsame]
    exact if_pos (congrArg Fin.val hsame)
  · -- the value goes on sinking at a greater position
    have hfst := (largestOfFamily_fst stop hs root r).resolve_left hsame
    rw [if_neg hsame]
    refine (if_neg fun he => hsame (Fin.ext he)).trans ((dif_pos hfst).trans ?_)
    rw [position?_eq root.isLt, position?_eq (largestOfFamily stop hs root r).1.isLt]
    exact sink?_eq stop hs (largestOfFamily stop hs root r).1 _
termination_by stop - root

theorem siftDown?_eq (stop : Nat) (hs : stop ≤ n) (root : Fin n) (r : Recording start) :
    siftDown? stop root r = some (siftDown stop hs root r) := by
  rw [siftDown?, position?_eq root.isLt]
  exact sink?_eq stop hs root _

theorem buildHeap?_eq (count : Nat) (h : count ≤ n) (r : Recording start) :
    buildHeap? count r = some (buildHeap count h r) := by
  induction count generalizing r with
  | zero => rfl
  | succ count ih =>
    rw [buildHeap?, show siftDown? n count r = _ from
      siftDown?_eq n (Nat.le_refl n) ⟨count, h⟩ r]
    exact ih (Nat.le_of_succ_le h) _

theorem drainHeap?_eq (last : Nat) (h : last < n) (r : Recording start) :
    drainHeap? last r = some (drainHeap last h r) := by
  induction last generalizing r with
  | zero => rfl
  | succ last ih =>
    have hroot : 0 < n := Nat.zero_lt_of_lt h
    rw [drainHeap?, position?_eq hroot, position?_eq h]
    show (siftDown? (last + 1) 0 (r.add (.swap ⟨0, hroot⟩ ⟨last + 1, h⟩)) >>= _) = _
    rw [show siftDown? (last + 1) 0 (r.add (.swap ⟨0, hroot⟩ ⟨last + 1, h⟩)) = _ from
      siftDown?_eq (last + 1) (Nat.le_of_lt h) ⟨0, hroot⟩ _]
    exact ih (Nat.lt_of_succ_lt h) _

/-! ## A whole run -/

def sort? (kind : SortKind) (r : Recording start) : Option (Recording start) :=
  match kind with
  | .selection => selectionFrom? 0 r
  | .insertion => insertionFrom? 1 r
  | .merge => mergeSegment? 0 n r
  | .quick =>
    if 0 < n then do
      let ⟨last, _⟩ ← minus? n 1
      quickSegment? 0 last r
    else some r
  | .heap => do
    let r ← buildHeap? (n / 2) r
    drainHeap? (n - 1) r
  | .bubble | .generic => bubbleFrom? 0 r

def markFrom? (i : Nat) (r : Recording start) : Option (Recording start) :=
  if _ : i < n then do
    let here ← position? n i
    markFrom? (i + 1) (r.add (.markSorted here))
  else some r
termination_by n - i

/-- A whole run that checks its positions and differences. -/
def run? (kind : SortKind) (start : Vector Int n) : Option (Recording start) := do
  let r ← sort? kind (.empty start)
  markFrom? 0 r

theorem sort?_eq (kind : SortKind) (r : Recording start) : sort? kind r = some (sort kind r) := by
  cases kind with
  | selection => exact selectionFrom?_eq 0 r
  | insertion => exact insertionFrom?_eq 1 r
  | merge => exact mergeSegment?_eq 0 n (Nat.zero_le n) (Nat.le_refl n) r
  | quick =>
    show (if 0 < n then _ else some r) = some (quick r)
    unfold quick
    by_cases h : n = 0
    · rw [dif_pos h, if_neg (by omega)]
    · rw [dif_neg h, if_pos (Nat.pos_of_ne_zero h), minus?_eq (by omega)]
      exact quickSegment?_eq 0 (n - 1) (by omega) r
  | heap =>
    show (buildHeap? (n / 2) r >>= _) = some (heap r)
    rw [buildHeap?_eq _ (Nat.div_le_self n 2)]
    unfold heap
    by_cases h : n = 0
    · subst h
      rfl
    · rw [dif_neg h]
      exact drainHeap?_eq (n - 1) (by omega) _
  | bubble => exact bubbleFrom?_zero r
  | generic => exact bubbleFrom?_zero r

theorem markFrom?_eq (i : Nat) (r : Recording start) : markFrom? i r = some (markFrom i r) := by
  fun_induction markFrom i r with
  | case1 i r h ih =>
    rw [markFrom?, dif_pos h, position?_eq h]
    exact ih
  | case2 i r h => rw [markFrom?, dif_neg h]

/-- No run leaves its array or subtracts below zero. -/
theorem run?_eq (kind : SortKind) (start : Vector Int n) : run? kind start = some (run kind start) := by
  rw [run?, sort?_eq]
  exact markFrom?_eq 0 _

end Storyboard.Sorting
