import Storyboard.Proofs.Queue.Heap

/-!
# A priority queue serves the first in line

`Sound` is what pushes and pops keep of a heap: its order, and arrivals that tell its entries apart.
So whatever has been pushed and popped before, a pop gives up the entry of least priority, among
equals the one that came first, and leaves all others (`serveAll_servesInOrder`).
-/

namespace Storyboard.Queue.MinHeap

open Sorting (IsChild)
open scoped List

variable {heap left : MinHeap} {entry : Entry} {priority item : Literal}

/-! ## One push and one pop -/

/-- A heap in order whose entries have arrived one by one. -/
structure Sound (heap : MinHeap) : Prop where
  inOrder : InOrder heap.entries
  floatFree : ∀ entry ∈ heap.entries.toList, entry.IsFloatFree
  distinct : (heap.entries.toList.map Entry.arrival).Nodup
  arrived : ∀ entry ∈ heap.entries.toList, entry.arrival < heap.arrivals

theorem sound_empty : Sound empty where
  inOrder := fun p => p.elim0
  floatFree := nofun
  distinct := .nil
  arrived := nofun

/-- The entry that a push adds. -/
def newcomer (heap : MinHeap) (priority item : Literal) : Entry := ⟨priority, item, heap.arrivals⟩

theorem push_perm (heap : MinHeap) (priority item : Literal) :
    (heap.push priority item).entries.toList ~
      heap.entries.toList ++ [heap.newcomer priority item] := by
  rw [← Vector.toList_push]
  exact siftUp_perm _ _ _

/-- Only a new entry behind the last one may come before its parent. -/
theorem rises_push {n : Nat} {entries : Vector Entry n} (h : InOrder entries) (entry : Entry) :
    Rises ⟨n, Nat.lt_succ_self n⟩ (entries.push entry) := by
  have hold : ∀ i : Fin (n + 1), (hi : i.val < n) → (entries.push entry).get i = entries.get ⟨i, hi⟩ :=
    fun i hi => Vector.getElem_push_lt hi
  constructor
  · intro p c hc hchild
    have hcn : c.val < n := Nat.lt_of_le_of_ne (Nat.le_of_lt_succ c.isLt) fun he => hc (Fin.ext he)
    have hpn : p.val < n := Nat.lt_trans hchild.lt hcn
    rw [hold p hpn, hold c hcn]
    exact h ⟨p, hpn⟩ ⟨c, hcn⟩ hchild
  · -- there is no child of the last position
    intro p c _ hchild
    exact absurd hchild.lt (Nat.not_lt.mpr (Nat.le_of_lt_succ c.isLt))

theorem Sound.push (h : heap.Sound) (hpriority : priority.isFloatFree = true) (item : Literal) :
    (heap.push priority item).Sound := by
  have hperm := push_perm heap priority item
  have hfree : ∀ entry ∈ heap.entries.toList ++ [heap.newcomer priority item],
      entry.IsFloatFree := by
    rw [List.forall_mem_append, List.forall_mem_singleton]
    exact ⟨h.floatFree, hpriority⟩
  constructor
  · have hgrown : AreFloatFree (heap.entries.push (heap.newcomer priority item)) := by
      rw [areFloatFree_iff, Vector.toList_push]
      exact hfree
    exact siftUp_inOrder _ _ _ hgrown (rises_push h.inOrder _)
  · exact fun entry hentry => hfree entry (hperm.mem_iff.mp hentry)
  · rw [(hperm.map Entry.arrival).nodup_iff, List.map_append, List.nodup_append]
    refine ⟨h.distinct, List.nodup_singleton _, ?_⟩
    -- the number of the newcomer is still free
    rintro _ ha _ hb rfl
    obtain ⟨entry, hentry, harrival⟩ := List.mem_map.mp ha
    rw [List.map_singleton, List.mem_singleton] at hb
    exact Nat.ne_of_lt (h.arrived entry hentry) (harrival.trans hb)
  · intro entry hentry
    rcases List.mem_append.mp (hperm.mem_iff.mp hentry) with hold | hnew
    · exact Nat.lt_succ_of_lt (h.arrived entry hold)
    · obtain rfl := List.mem_singleton.mp hnew
      exact Nat.lt_succ_self _

/-- The entries without the root, with the last one in its place. -/
def lastAtRoot {n : Nat} (entries : Vector Entry (n + 2)) : Vector Entry (n + 1) :=
  (entries.swap 0 (n + 1) (Nat.succ_pos _) (Nat.lt_succ_self _)).pop

theorem lastAtRoot_perm {n : Nat} (entries : Vector Entry (n + 2)) :
    entries.toList ~ entries.get 0 :: (lastAtRoot entries).toList := by
  have hswap : (entries.swap 0 (n + 1)).toList = (lastAtRoot entries).toList ++ [entries.get 0] := by
    have hback : (entries.swap 0 (n + 1)).back = entries.get 0 :=
      Vector.getElem_swap_right (Nat.succ_pos _) (Nat.lt_succ_self _)
    rw [← hback, lastAtRoot, ← Vector.toList_push, Vector.push_pop_back]
  calc entries.toList ~ (entries.swap 0 (n + 1)).toList := (Vector.swap_perm _ _).toList.symm
    _ ~ entries.get 0 :: (lastAtRoot entries).toList := by
      rw [hswap]
      exact List.perm_append_singleton _ _

/-- Only the entry that has come to the root may come after its children. -/
theorem sinks_lastAtRoot {n : Nat} {entries : Vector Entry (n + 2)} (h : InOrder entries) :
    Sinks 0 (lastAtRoot entries) := by
  have hold : ∀ i : Fin (n + 1), i ≠ 0 → (lastAtRoot entries).get i = entries.get i.castSucc := by
    intro i hi
    refine (Vector.getElem_pop i.isLt).trans (Vector.getElem_swap_of_ne ?_ (Nat.ne_of_lt i.isLt))
    exact Fin.val_ne_of_ne hi
  constructor
  · intro p c hp hchild
    have hc : c ≠ 0 := Fin.ne_of_gt (Nat.lt_of_le_of_lt (Nat.zero_le p) hchild.lt)
    rw [hold p hp, hold c hc]
    exact h p.castSucc c.castSucc hchild
  · -- the root is no child
    exact fun p _ hp _ => absurd hp.lt (Nat.not_lt_zero _)

theorem pop?_eq_none_iff : heap.pop? = none ↔ heap.size = 0 := by
  unfold pop?
  split
  next => exact iff_of_true rfl rfl
  next => exact iff_of_false nofun nofun
  next => exact iff_of_false nofun nofun

/-- A pop takes the root and leaves all other entries. -/
theorem pop?_eq_some (h : heap.pop? = some (entry, left)) :
    heap.peek? = some entry ∧ heap.entries.toList ~ entry :: left.entries.toList ∧
      left.arrivals = heap.arrivals := by
  unfold pop? at h
  split at h
  next => cases h
  next entries arrivals =>
    obtain ⟨rfl, rfl⟩ := Prod.mk.inj (Option.some.inj h)
    refine ⟨rfl, ?_, rfl⟩
    have hone : entries = #v[entries[0]] := by
      ext i hi
      obtain rfl := Nat.lt_one_iff.mp hi
      rfl
    conv => lhs; rw [hone]
    rfl
  next n entries arrivals =>
    obtain ⟨hentry, rfl⟩ := Prod.mk.inj (Option.some.inj h)
    have hroot : entry = entries.get 0 :=
      hentry.symm.trans (Vector.getElem_swap_right (Nat.succ_pos _) (Nat.lt_succ_self _))
    rw [hroot]
    exact ⟨rfl, (lastAtRoot_perm entries).trans ((siftDown_perm _ _).symm.cons _), rfl⟩

/-- What a pop of a heap leaves is a heap, and no entry comes before the one that is given up. -/
theorem pop?_inOrder (h : InOrder heap.entries) (hfree : AreFloatFree heap.entries)
    (hpop : heap.pop? = some (entry, left)) :
    InOrder left.entries ∧ ∀ other ∈ heap.entries.toList, entry.NotAfter other := by
  obtain ⟨hpeek, hperm, -⟩ := pop?_eq_some hpop
  constructor
  · unfold pop? at hpop
    split at hpop
    next => cases hpop
    next =>
      obtain ⟨-, rfl⟩ := Prod.mk.inj (Option.some.inj hpop)
      exact fun p => p.elim0
    next n entries arrivals =>
      obtain ⟨-, rfl⟩ := Prod.mk.inj (Option.some.inj hpop)
      have hrest : AreFloatFree (lastAtRoot entries) := by
        rw [areFloatFree_iff] at hfree ⊢
        exact fun other hother =>
          hfree other ((lastAtRoot_perm entries).mem_iff.mpr (List.mem_cons_of_mem _ hother))
      exact siftDown_inOrder _ _ hrest (sinks_lastAtRoot h)
  · intro other hother
    obtain ⟨hroot, hentry⟩ := Vector.getElem?_eq_some_iff.mp hpeek
    obtain ⟨i, hi, rfl⟩ := Vector.mem_iff_getElem.mp (Vector.mem_toList_iff.mp hother)
    rw [← hentry]
    exact h.root_notAfter hfree ⟨0, hroot⟩ ⟨i, hi⟩ rfl

theorem Sound.pop? (h : heap.Sound) (hpop : heap.pop? = some (entry, left)) :
    left.Sound ∧ ∀ other ∈ left.entries.toList, entry.LeavesFirst other := by
  obtain ⟨-, hperm, harrivals⟩ := pop?_eq_some hpop
  obtain ⟨hinOrder, hleast⟩ := pop?_inOrder h.inOrder (areFloatFree_iff.mpr h.floatFree) hpop
  have hmem : ∀ other ∈ left.entries.toList, other ∈ heap.entries.toList := fun other hother =>
    hperm.mem_iff.mpr (List.mem_cons_of_mem _ hother)
  have hdistinct := (hperm.map Entry.arrival).nodup_iff.mp h.distinct
  rw [List.map_cons, List.nodup_cons] at hdistinct
  refine ⟨⟨hinOrder, ?_, hdistinct.2, ?_⟩, ?_⟩
  · exact fun other hother => h.floatFree other (hmem other hother)
  · intro other hother
    rw [harrivals]
    exact h.arrived other (hmem other hother)
  · intro other hother
    have hentry : entry ∈ heap.entries.toList := hperm.mem_iff.mpr List.mem_cons_self
    refine (hleast other (hmem other hother)).leavesFirst (h.floatFree entry hentry)
      (h.floatFree other (hmem other hother)) fun heq => hdistinct.1 ?_
    rw [heq]
    exact List.mem_map_of_mem hother

/-! ## Any pushes and pops -/

/-- What is asked of a priority queue. -/
inductive Request where
  | push (priority item : Literal)
  | pop

/-- No double stands in the priority that is pushed. -/
def Request.isFloatFree : Request → Bool
  | push priority _ => priority.isFloatFree
  | pop => true

/-- The heap after a request, and the entry that it gives up. -/
def serve (heap : MinHeap) : Request → MinHeap × Option Entry
  | .push priority item => (heap.push priority item, none)
  | .pop =>
    match heap.pop? with
    | some (entry, left) => (left, some entry)
    | none => (heap, none)

/-- The heap after requests, and the entries that it gives up one after the other. -/
def serveAll : MinHeap → List Request → MinHeap × List Entry
  | heap, [] => (heap, [])
  | heap, request :: rest =>
    let (next, given) := heap.serve request
    let (last, more) := serveAll next rest
    (last, given.toList ++ more)

/-- The entries that are pushed, numbered in this order from `first` on. -/
def pushed : Nat → List Request → List Entry
  | _, [] => []
  | first, .push priority item :: rest => ⟨priority, item, first⟩ :: pushed (first + 1) rest
  | first, .pop :: rest => pushed first rest

/-- The entries that so many pops in a row give up. -/
def drained (heap : MinHeap) (count : Nat) : List Entry :=
  (serveAll heap (List.replicate count .pop)).2

theorem Sound.serve (h : heap.Sound) {request : Request} (hrequest : request.isFloatFree = true) :
    (heap.serve request).1.Sound := by
  cases request with
  | push priority item => exact h.push hrequest item
  | pop =>
    unfold MinHeap.serve
    dsimp only
    split
    next hpop => exact (h.pop? hpop).1
    next => exact h

/-- A request adds what it pushes and takes what it gives up. -/
theorem serve_perm (heap : MinHeap) (request : Request) (rest : List Request) :
    (heap.serve request).2.toList ++ ((heap.serve request).1.entries.toList ++
        pushed (heap.serve request).1.arrivals rest) ~
      heap.entries.toList ++ pushed heap.arrivals (request :: rest) := by
  cases request with
  | push priority item =>
    refine ((push_perm heap priority item).append_right _).trans ?_
    rw [List.append_assoc]
    rfl
  | pop =>
    unfold MinHeap.serve
    dsimp only
    split
    next entry left hpop =>
      obtain ⟨-, hperm, harrivals⟩ := pop?_eq_some hpop
      dsimp only
      rw [harrivals]
      exact hperm.symm.append_right _
    next => rfl

theorem Sound.serveAll (h : heap.Sound) {requests : List Request}
    (hrequests : ∀ request ∈ requests, request.isFloatFree = true) :
    (heap.serveAll requests).1.Sound := by
  induction requests generalizing heap with
  | nil => exact h
  | cons request rest ih =>
    rw [List.forall_mem_cons] at hrequests
    exact ih (h.serve hrequests.1) hrequests.2

/-- Nothing is lost and nothing is there twice. -/
theorem serveAll_perm (heap : MinHeap) (requests : List Request) :
    (heap.serveAll requests).2 ++ (heap.serveAll requests).1.entries.toList ~
      heap.entries.toList ++ pushed heap.arrivals requests := by
  induction requests generalizing heap with
  | nil => exact .of_eq (List.append_nil _).symm
  | cons request rest ih =>
    rw [MinHeap.serveAll]
    dsimp only
    rw [List.append_assoc]
    exact ((ih _).append_left _).trans (serve_perm heap request rest)

theorem drained_succ (heap : MinHeap) (count : Nat) :
    heap.drained (count + 1) =
      match heap.pop? with
      | some (entry, left) => entry :: left.drained count
      | none => heap.drained count := by
  rw [drained, List.replicate_succ, MinHeap.serveAll, MinHeap.serve]
  dsimp only
  split
  next => rfl
  next => rfl

/-- What is drained of a heap is some of its entries. -/
theorem mem_of_mem_drained {count : Nat} (h : entry ∈ heap.drained count) :
    entry ∈ heap.entries.toList := by
  induction count generalizing heap with
  | zero => cases h
  | succ count ih =>
    rw [drained_succ] at h
    split at h
    next first left hpop =>
      rw [(pop?_eq_some hpop).2.1.mem_iff]
      rcases List.mem_cons.mp h with rfl | hrest
      · exact List.mem_cons_self
      · exact List.mem_cons_of_mem _ (ih hrest)
    next => exact ih h

theorem length_drained (heap : MinHeap) (count : Nat) :
    (heap.drained count).length = min count heap.size := by
  induction count generalizing heap with
  | zero => exact (Nat.zero_min _).symm
  | succ count ih =>
    rw [drained_succ]
    split
    next entry left hpop =>
      have hsize := (pop?_eq_some hpop).2.1.length_eq
      rw [List.length_cons, Vector.length_toList, Vector.length_toList] at hsize
      rw [List.length_cons, ih, hsize, Nat.add_min_add_right]
    next hpop => rw [ih, pop?_eq_none_iff.mp hpop, Nat.min_zero, Nat.min_zero]

/-- Entries that are given up in a row leave in order. -/
theorem Sound.drained_pairwise (h : heap.Sound) (count : Nat) :
    (heap.drained count).Pairwise Entry.LeavesFirst := by
  induction count generalizing heap with
  | zero => exact .nil
  | succ count ih =>
    rw [drained_succ]
    split
    next entry left hpop =>
      obtain ⟨hleft, hfirst⟩ := h.pop? hpop
      exact .cons (fun other hother => hfirst other (mem_of_mem_drained hother)) (ih hleft)
    next => exact ih h

/-- What a priority queue promises of its heap. -/
structure ServesInOrder (heap : MinHeap) : Prop where
  /-- No entry comes before its parent. -/
  inOrder : InOrder heap.entries
  /-- A pop gives nothing exactly when there is no entry. -/
  empty_iff : heap.pop? = none ↔ heap.entries.toList = []
  /-- A pop gives up the entry that leaves before all others, and these are what is left. -/
  first : ∀ entry left, heap.pop? = some (entry, left) →
    heap.entries.toList ~ entry :: left.entries.toList ∧
      ∀ other ∈ left.entries.toList, entry.LeavesFirst other
  /-- A look shows the entry that a pop would give up. -/
  shown : heap.peek? = heap.pop?.map Prod.fst
  /-- Pops in a row give up entries as long as there are any, and in order. -/
  inTurn : ∀ count, (heap.drained count).length = min count heap.entries.toList.length ∧
    (heap.drained count).Pairwise Entry.LeavesFirst

theorem Sound.servesInOrder (h : heap.Sound) : heap.ServesInOrder where
  inOrder := h.inOrder
  empty_iff := by
    rw [pop?_eq_none_iff, ← List.length_eq_zero_iff, Vector.length_toList]
  first := fun entry left hpop => ⟨(pop?_eq_some hpop).2.1, (h.pop? hpop).2⟩
  shown := by
    cases hpop : heap.pop? with
    | none => exact Vector.getElem?_eq_none (Nat.le_of_eq (pop?_eq_none_iff.mp hpop))
    | some given => exact (pop?_eq_some hpop).1
  inTurn := by
    intro count
    rw [Vector.length_toList]
    exact ⟨length_drained heap count, h.drained_pairwise count⟩

/-- Whatever has been pushed and popped, without doubles among the priorities: the heap serves in
order, and it holds exactly what has been pushed and not yet given up. -/
theorem serveAll_servesInOrder (requests : List Request)
    (hrequests : ∀ request ∈ requests, request.isFloatFree = true) :
    (serveAll empty requests).1.ServesInOrder ∧
      (serveAll empty requests).2 ++ (serveAll empty requests).1.entries.toList ~
        pushed 0 requests :=
  ⟨(sound_empty.serveAll hrequests).servesInOrder, serveAll_perm empty requests⟩

/-- Three items of which the first two are equally urgent, one pop, and a more urgent item. -/
def equallyUrgent : List Request :=
  [.push (.int 1) (.text "x"), .push (.int 1) (.text "y"), .push (.int 2) (.text "z"), .pop,
    .push (.int 0) .none]

theorem serveAll_servesInOrder_ties :
    (∀ request ∈ equallyUrgent, request.isFloatFree = true) ∧
      (serveAll empty equallyUrgent).1.ServesInOrder ∧
      (serveAll empty equallyUrgent).2.map Entry.arrival = [0] ∧
      (serveAll empty equallyUrgent).2 ++ (serveAll empty equallyUrgent).1.entries.toList ~
        [⟨.int 1, .text "x", 0⟩, ⟨.int 1, .text "y", 1⟩, ⟨.int 2, .text "z", 2⟩,
          ⟨.int 0, .none, 3⟩] := by
  have hfree : ∀ request ∈ equallyUrgent, request.isFloatFree = true := by decide
  obtain ⟨hserves, hperm⟩ := serveAll_servesInOrder equallyUrgent hfree
  exact ⟨hfree, hserves, by decide +kernel, hperm⟩

end Storyboard.Queue.MinHeap
