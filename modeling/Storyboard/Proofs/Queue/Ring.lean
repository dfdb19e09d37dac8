import Mathlib
import Storyboard.Queue.Ring

/-!
# A ring holds a bounded queue

`Holds ring queue`: from the head on, the slots of the ring hold the values of the queue in order,
and the slots behind the last one are free.  Every operation on a ring does to the queue that it
holds what its name says.  All positions are told as a number of places ahead of the head
(`ahead`), so that wrapping around is dealt with once, in the lemmas on `ahead`.

`Serves` is what is seen of such a ring from outside.
-/

namespace Storyboard.Queue.Ring

variable {n : Nat}

/-! ## Places on a ring -/

/-- The slot that lies some places ahead of another one. -/
def ahead (i : Fin n) (places : Nat) : Fin n :=
  ⟨(i + places) % n, Nat.mod_lt _ (Nat.zero_lt_of_lt i.isLt)⟩

/-- Less than a round ahead, a position wraps around at most once. -/
theorem val_ahead (i : Fin n) {k : Nat} (hk : k ≤ n) :
    (ahead i k).val = if i + k < n then i + k else i + k - n := by
  have hi := i.isLt
  show (i.val + k) % n = _
  split
  next hlt => exact Nat.mod_eq_of_lt hlt
  next hge => rw [Nat.mod_eq_sub_mod (Nat.le_of_not_lt hge), Nat.mod_eq_of_lt (by omega)]

@[simp] theorem ahead_zero (i : Fin n) : ahead i 0 = i := Fin.ext (Nat.mod_eq_of_lt i.isLt)

/-- A whole round leads back. -/
@[simp] theorem ahead_capacity (i : Fin n) : ahead i n = i :=
  Fin.ext ((Nat.add_mod_right _ _).trans (Nat.mod_eq_of_lt i.isLt))

theorem next_ahead (i : Fin n) (k : Nat) : next (ahead i k) = ahead i (k + 1) := by
  refine Fin.ext ?_
  show ((i.val + k) % n + 1) % n = (i.val + (k + 1)) % n
  rw [Nat.mod_add_mod, Nat.add_assoc]

theorem ahead_next (i : Fin n) (k : Nat) : ahead (next i) k = ahead i (k + 1) := by
  refine Fin.ext ?_
  show ((i.val + 1) % n + k) % n = (i.val + (k + 1)) % n
  rw [Nat.mod_add_mod, Nat.add_assoc, Nat.add_comm 1 k]

/-- Less than a round ahead, no slot comes twice. -/
theorem ahead_inj (i : Fin n) {j k : Nat} (hj : j < n) (hk : k < n) :
    ahead i j = ahead i k ↔ j = k := by
  have hi := i.isLt
  rw [Fin.ext_iff, val_ahead i (Nat.le_of_lt hj), val_ahead i (Nat.le_of_lt hk)]
  split <;> split <;> omega

/-- Every slot lies less than a round ahead. -/
theorem exists_ahead (i s : Fin n) : ∃ k < n, ahead i k = s := by
  have hi := i.isLt
  have hs := s.isLt
  by_cases h : i.val ≤ s.val
  · refine ⟨s - i, by omega, Fin.ext ?_⟩
    rw [val_ahead i (by omega), if_pos (by omega)]
    omega
  · refine ⟨s + n - i, by omega, Fin.ext ?_⟩
    rw [val_ahead i (by omega), if_neg (by omega)]
    omega

/-- The distance from a slot to one ahead of it, counted around the ring. -/
theorem distance_ahead (i : Fin n) {k : Nat} (hk : k < n) :
    (((ahead i k).val : Int) - i.val) % n = k := by
  have hi := i.isLt
  rw [val_ahead i (Nat.le_of_lt hk)]
  split
  next =>
    have hplain : ((i.val + k : Nat) : Int) - i.val = k := by omega
    rw [hplain]
    exact Int.emod_eq_of_lt (Int.natCast_nonneg k) (Int.ofNat_lt.mpr hk)
  next hge =>
    have hback : ((i.val + k - n : Nat) : Int) - i.val = k - n := by omega
    rw [hback, Int.sub_emod_right]
    exact Int.emod_eq_of_lt (Int.natCast_nonneg k) (Int.ofNat_lt.mpr hk)

/-! ## The queue in the slots -/

/-- A slot that is written holds what is written, and all others what they held. -/
theorem get_set {α : Type} (slots : Vector α n) (i : Fin n) (x : α) (j : Fin n) :
    (slots.set i x i.isLt).get j = if i = j then x else slots.get j := by
  show (slots.set i.val x)[j.val] = _
  rw [Vector.getElem_set]
  exact if_congr Fin.ext_iff.symm rfl rfl

/-- The slots hold a queue: its oldest value at the head, each further one a place ahead, the
youngest at the tail; all slots behind are free. -/
structure Holding (slots : Vector (Option Literal) n) (head tail : Fin n) (queue : List Literal) :
    Prop where
  nonempty : queue ≠ []
  fits : queue.length ≤ n
  tail_eq : tail = ahead head (queue.length - 1)
  slot_eq : ∀ k < n, slots.get (ahead head k) = queue[k]?

/-- The ring holds a queue. -/
inductive Holds : Ring → List Literal → Prop
  | empty {n : Nat} (hn : 0 < n) : Holds ⟨n, Vector.replicate n none, none⟩ []
  | stored {n : Nat} {slots : Vector (Option Literal) n} {head tail : Fin n} {queue : List Literal}
      (held : Holding slots head tail queue) : Holds ⟨n, slots, some (head, tail)⟩ queue

theorem Holds.capacity_pos {ring : Ring} {queue : List Literal} (h : Holds ring queue) :
    0 < ring.capacity := by
  cases h with
  | empty hn => exact hn
  | @stored n slots head tail queue held => exact Nat.zero_lt_of_lt head.isLt

theorem ofCapacity_holds (capacity : Nat) : Holds (ofCapacity capacity) [] :=
  .empty (Nat.lt_of_lt_of_le Nat.zero_lt_one (Nat.le_max_right capacity 1))

section Holding

variable {slots : Vector (Option Literal) n} {head tail : Fin n} {queue : List Literal}

theorem Holding.length_pos (h : Holding slots head tail queue) : 0 < queue.length :=
  List.length_pos_of_ne_nil h.nonempty

/-- A slot is the tail when the last value is in it. -/
theorem Holding.ahead_eq_tail_iff (h : Holding slots head tail queue) {k : Nat} (hk : k < n) :
    ahead head k = tail ↔ k = queue.length - 1 := by
  have hpos := h.length_pos
  have hfits := h.fits
  rw [h.tail_eq, ahead_inj head hk (by omega)]

/-- Reading on from a place gives the rest of the queue, when there are enough slots to read. -/
theorem Holding.valuesFrom_eq (h : Holding slots head tail queue) {count k : Nat}
    (hk : k < queue.length) (hcount : queue.length ≤ count + k) :
    valuesFrom slots tail count (ahead head k) = queue.drop k := by
  have hfits := h.fits
  induction count generalizing k with
  | zero => omega
  | succ count ih =>
    have hslot : slots[ahead head k] = some queue[k] :=
      (h.slot_eq k (by omega)).trans (List.getElem?_eq_getElem hk)
    rw [valuesFrom, hslot, List.drop_eq_getElem_cons hk]
    by_cases hlast : k = queue.length - 1
    · rw [if_pos ((h.ahead_eq_tail_iff (by omega)).mpr hlast), List.drop_of_length_le (by omega)]
      rfl
    · rw [if_neg fun he => hlast ((h.ahead_eq_tail_iff (by omega)).mp he), next_ahead,
        ih (by omega) (by omega)]
      rfl

theorem Holding.head_eq_tail_iff (h : Holding slots head tail queue) :
    head = tail ↔ queue.length = 1 := by
  have hpos := h.length_pos
  have hfirst := h.ahead_eq_tail_iff (k := 0) (Nat.zero_lt_of_lt head.isLt)
  rw [ahead_zero] at hfirst
  rw [hfirst]
  omega

/-- The slot behind the tail. -/
theorem Holding.next_tail (h : Holding slots head tail queue) :
    next tail = ahead head queue.length := by
  rw [h.tail_eq, next_ahead, Nat.sub_add_cancel h.length_pos]

/-- The ring is full when the queue is as long as it can be. -/
theorem Holding.next_tail_eq_head_iff (h : Holding slots head tail queue) :
    next tail = head ↔ queue.length = n := by
  have hpos := h.length_pos
  rw [h.next_tail]
  constructor
  · intro hback
    by_contra hne
    have hlt : queue.length < n := Nat.lt_of_le_of_ne h.fits hne
    have hsame : ahead head queue.length = ahead head 0 := hback.trans (ahead_zero head).symm
    have hzero := (ahead_inj head hlt (by omega)).mp hsame
    omega
  · intro hlen
    rw [hlen, ahead_capacity]

/-! ## Storing and giving up values -/

/-- A value goes into the slot behind the tail. -/
theorem Holding.push (h : Holding slots head tail queue) (hlt : queue.length < n)
    (value : Literal) :
    Holding (slots.set (next tail) (some value)) head (next tail) (queue ++ [value]) := by
  constructor
  case nonempty => exact List.append_ne_nil_of_right_ne_nil _ (List.cons_ne_nil _ _)
  case fits =>
    rw [List.length_append, List.length_singleton]
    exact hlt
  case tail_eq => rw [h.next_tail, List.length_append, List.length_singleton, Nat.add_sub_cancel]
  case slot_eq =>
    intro k hk
    rw [get_set, h.next_tail]
    by_cases hlast : k = queue.length
    · rw [if_pos (congrArg (ahead head) hlast.symm), hlast, List.getElem?_concat_length]
    · rw [if_neg fun he => hlast ((ahead_inj head hlt hk).mp he).symm, h.slot_eq k hk]
      rcases Nat.lt_or_gt_of_ne hlast with hin | hout
      · rw [List.getElem?_append_left hin]
      · rw [List.getElem?_eq_none (by omega), List.getElem?_eq_none]
        rw [List.length_append, List.length_singleton]
        omega

/-- The oldest value stands at the head. -/
theorem Holding.front {oldest : Literal} {rest : List Literal}
    (h : Holding slots head tail (oldest :: rest)) : slots.get head = some oldest := by
  have hslot := h.slot_eq 0 (Nat.zero_lt_of_lt head.isLt)
  rwa [ahead_zero] at hslot

/-- What the slots hold a place ahead, when the head is cleared. -/
theorem Holding.slot_pop {oldest : Literal} {rest : List Literal}
    (h : Holding slots head tail (oldest :: rest)) {k : Nat} (hk : k < n) :
    (slots.set head none head.isLt).get (ahead (next head) k) = rest[k]? := by
  have hfits := h.fits
  rw [List.length_cons] at hfits
  rw [get_set, ahead_next]
  by_cases hround : k + 1 = n
  · rw [hround, ahead_capacity, if_pos rfl, List.getElem?_eq_none (by omega)]
  · have hne : head ≠ ahead head (k + 1) := by
      intro he
      have hzero := (ahead_inj head (by omega) (by omega)).mp ((ahead_zero head).trans he)
      omega
    rw [if_neg hne, h.slot_eq (k + 1) (by omega), List.getElem?_cons_succ]

/-- The oldest of several values leaves the others. -/
theorem Holding.pop {oldest : Literal} {rest : List Literal}
    (h : Holding slots head tail (oldest :: rest)) (hrest : rest ≠ []) :
    Holding (slots.set head none head.isLt) (next head) tail rest := by
  have hpos : 0 < rest.length := List.length_pos_of_ne_nil hrest
  refine ⟨hrest, Nat.le_of_succ_le h.fits, ?_, fun k hk => h.slot_pop hk⟩
  rw [h.tail_eq, ahead_next, List.length_cons, Nat.add_sub_cancel, Nat.sub_add_cancel hpos]

/-- The only value leaves no other. -/
theorem Holding.pop_single {value : Literal} (h : Holding slots head tail [value]) :
    slots.set head none head.isLt = Vector.replicate n none := by
  refine Vector.ext fun i hi => ?_
  obtain ⟨k, hk, hi⟩ := exists_ahead (next head) ⟨i, hi⟩
  have hslot := h.slot_pop hk
  rw [hi] at hslot
  rw [Vector.getElem_replicate]
  exact hslot

end Holding

section Holds

variable {ring : Ring} {queue : List Literal}

theorem Holds.fits (h : Holds ring queue) : queue.length ≤ ring.capacity := by
  cases h with
  | empty => exact Nat.zero_le _
  | stored held => exact held.fits

/-- Reading a ring from its head gives the queue. -/
theorem Holds.values_eq (h : Holds ring queue) : ring.values = queue := by
  cases h with
  | empty => rfl
  | @stored n slots head tail queue held =>
    show valuesFrom slots tail n head = queue
    have hread : valuesFrom slots tail n (ahead head 0) = queue.drop 0 :=
      held.valuesFrom_eq held.length_pos held.fits
    rwa [ahead_zero, List.drop_zero] at hread

theorem Holds.isEmpty_iff (h : Holds ring queue) : ring.isEmpty = true ↔ queue = [] := by
  cases h with
  | empty => exact iff_of_true rfl rfl
  | stored held => exact iff_of_false Bool.false_ne_true held.nonempty

theorem Holds.isFull_iff (h : Holds ring queue) :
    ring.isFull = true ↔ queue.length = ring.capacity := by
  cases h with
  | empty hn => exact iff_of_false Bool.false_ne_true (Nat.ne_of_lt hn)
  | stored held => exact beq_iff_eq.trans held.next_tail_eq_head_iff

theorem Holds.push (h : Holds ring queue) (hlt : queue.length < ring.capacity) (value : Literal) :
    Holds (ring.push value) (queue ++ [value]) := by
  cases h with
  | @empty n hn =>
    obtain ⟨n, rfl⟩ := Nat.exists_eq_succ_of_ne_zero (Nat.ne_of_gt hn)
    refine .stored ⟨List.cons_ne_nil _ _, Nat.succ_pos n, (ahead_zero _).symm, ?_⟩
    intro k hk
    have hplace : (ahead ⟨0, Nat.succ_pos n⟩ k).val = k :=
      (congrArg (· % (n + 1)) (Nat.zero_add k)).trans (Nat.mod_eq_of_lt hk)
    refine (get_set _ ⟨0, Nat.succ_pos n⟩ _ _).trans ?_
    cases k with
    | zero => exact if_pos (ahead_zero _).symm
    | succ k =>
      rw [if_neg fun he => Nat.succ_ne_zero k (hplace.symm.trans (congrArg Fin.val he.symm))]
      exact Vector.getElem_replicate _
  | @stored n slots head tail queue held =>
    obtain ⟨n, rfl⟩ := Nat.exists_eq_succ_of_ne_zero (Nat.ne_of_gt (Nat.zero_lt_of_lt head.isLt))
    have hroom : next tail ≠ head := fun he =>
      Nat.ne_of_lt hlt (held.next_tail_eq_head_iff.mp he)
    unfold push
    dsimp only
    rw [if_neg hroom]
    exact .stored (held.push hlt value)

theorem Holds.front? {oldest : Literal} {rest : List Literal} (h : Holds ring (oldest :: rest)) :
    ring.front? = some oldest := by
  cases h with
  | stored held => exact held.front

theorem Holds.pop {oldest : Literal} {rest : List Literal} (h : Holds ring (oldest :: rest)) :
    Holds ring.pop rest := by
  cases h with
  | @stored n slots head tail queue held =>
    show Holds ⟨n, slots.set head none, if head = tail then none else some (next head, tail)⟩ rest
    by_cases hone : rest = []
    · subst hone
      rw [if_pos (held.head_eq_tail_iff.mpr rfl), held.pop_single]
      exact .empty (Nat.zero_lt_of_lt head.isLt)
    · have hne : head ≠ tail := fun he =>
        hone (List.eq_nil_of_length_eq_zero (Nat.succ.inj (held.head_eq_tail_iff.mp he)))
      rw [if_neg hne]
      exact .stored (held.pop hone)

end Holds

/-! ## What is seen of a ring -/

/-- Going around from `head`, the slot `i` comes no later than `tail`; an empty ring has no slot on
the way. -/
def OnArc (capacity : Nat) (head tail i : Int) : Prop :=
  head ≠ -1 ∧ (i - head) % capacity ≤ (tail - head) % capacity

/-- What is seen of a ring with room for `capacity` values that holds a queue. -/
structure Shows (ring : Ring) (capacity : Nat) (queue : List Literal) : Prop where
  capacity_eq : ring.capacity = capacity
  fits : queue.length ≤ capacity
  values_eq : ring.values = queue
  empty_iff : ring.head = -1 ∧ ring.tail = -1 ↔ queue = []
  inside : queue ≠ [] →
    (0 ≤ ring.head ∧ ring.head < capacity) ∧ 0 ≤ ring.tail ∧ ring.tail < capacity
  taken_iff : ∀ i : Fin ring.capacity,
    (ring.slots.get i).isSome = true ↔ OnArc ring.capacity ring.head ring.tail i.val

/-- A step pictures a ring and the queue that it holds. -/
structure Pictures (step : Step) (ring : Ring) (queue : List Literal) : Prop where
  head_eq : step.head = some ring.head
  tail_eq : step.tail = some ring.tail
  buffer_eq : step.buffer = some ring.buffer
  vars_eq : step.vars = [("queue", .arr (Literal.jsonItems queue)),
    ("front", Literal.toJson? queue.head?), ("rear", Literal.toJson? queue.getLast?),
    ("size", .ofNat queue.length), ("capacity", .ofNat ring.capacity)]

/-- The ring serves as a bounded queue: it shows the queue, and storing and giving up a value do to
the ring what they do to the queue. -/
structure Serves (ring : Ring) (capacity : Nat) (queue : List Literal) : Prop where
  shows_queue : Shows ring capacity queue
  overflow_iff : ∀ value line,
    (ring.enqueue value line).2.action = "overflow" ↔ queue.length = capacity
  overflow_same : ∀ value line, queue.length = capacity → (ring.enqueue value line).1 = ring
  enqueued : ∀ value line, queue.length ≠ capacity →
    (ring.enqueue value line).2.action = "enqueue" ∧
      Shows (ring.enqueue value line).1 capacity (queue ++ [value])
  underflow_iff : ∀ line, (ring.dequeue line).2.action = "underflow" ↔ queue = []
  underflow_same : ∀ line, queue = [] → (ring.dequeue line).1 = ring
  dequeued : ∀ line oldest rest, queue = oldest :: rest →
    (ring.dequeue line).2.action = "dequeue" ∧
      (ring.dequeue line).2.value = some oldest.toJson ∧ Shows (ring.dequeue line).1 capacity rest

section Seen

variable {slots : Vector (Option Literal) n} {head tail : Fin n} {ring : Ring}
  {queue : List Literal}

/-- The slots that hold a value are those on the arc from the head to the tail. -/
theorem Holding.taken_iff (h : Holding slots head tail queue) (i : Fin n) :
    (slots.get i).isSome = true ↔ OnArc n head.val tail.val i.val := by
  have hpos := h.length_pos
  have hfits := h.fits
  obtain ⟨k, hk, rfl⟩ := exists_ahead head i
  have hhead : (head.val : Int) ≠ -1 := by omega
  rw [h.slot_eq k hk, OnArc, and_iff_right hhead, distance_ahead head hk, h.tail_eq,
    distance_ahead head (k := queue.length - 1) (by omega), Option.isSome_iff_ne_none, ne_eq,
    List.getElem?_eq_none_iff]
  omega

theorem Holds.shows_queue (h : Holds ring queue) : Shows ring ring.capacity queue := by
  constructor
  case capacity_eq => exact rfl
  case fits => exact h.fits
  case values_eq => exact h.values_eq
  case empty_iff =>
    cases h with
    | empty => exact iff_of_true ⟨rfl, rfl⟩ rfl
    | stored held =>
      refine iff_of_false ?_ held.nonempty
      rintro ⟨hhead, -⟩
      exact Int.noConfusion hhead
  case inside =>
    intro hne
    cases h with
    | empty => exact absurd rfl hne
    | @stored n slots head tail queue held =>
      have hhead := head.isLt
      have htail := tail.isLt
      show ((0 : Int) ≤ head.val ∧ (head.val : Int) < n) ∧ (0 : Int) ≤ tail.val ∧ (tail.val : Int) < n
      omega
  case taken_iff =>
    cases h with
    | @empty n =>
      intro i
      have hfree : (Vector.replicate n none).get i = (none : Option Literal) :=
        Vector.getElem_replicate i.isLt
      rw [hfree]
      exact iff_of_false Bool.false_ne_true fun harc => harc.1 rfl
    | stored held => exact held.taken_iff

/-- A step on a ring that holds a queue pictures both. -/
theorem Holds.snapshot_pictures (h : Holds ring queue) (line : Nat) (action description : String) :
    Pictures (ring.snapshot line action description) ring queue := by
  refine ⟨rfl, rfl, rfl, ?_⟩
  unfold snapshot
  rw [h.values_eq]

/-- A step that pictures a ring does so with any value. -/
theorem Pictures.withValue {step : Step} (h : Pictures step ring queue) (value : Json) :
    Pictures (step.withValue value) ring queue :=
  ⟨h.head_eq, h.tail_eq, h.buffer_eq, h.vars_eq⟩

theorem push_capacity (ring : Ring) (value : Literal) :
    (ring.push value).capacity = ring.capacity := by
  obtain ⟨_ | n, slots, _ | ⟨head, tail⟩⟩ := ring
  · rfl
  · rfl
  · rfl
  · unfold push
    dsimp only
    split <;> rfl

theorem pop_capacity (ring : Ring) : ring.pop.capacity = ring.capacity := by
  obtain ⟨n, slots, _ | ⟨head, tail⟩⟩ := ring
  · rfl
  · rfl

/-- Storing into a full ring changes nothing. -/
theorem Holds.enqueue_full (h : Holds ring queue) (hfull : queue.length = ring.capacity)
    (value : Literal) (line : Nat) :
    (ring.enqueue value line).1 = ring ∧ (ring.enqueue value line).2.action = "overflow" ∧
      Pictures (ring.enqueue value line).2 ring queue := by
  unfold enqueue
  rw [if_pos (h.isFull_iff.mpr hfull)]
  exact ⟨rfl, rfl, (h.snapshot_pictures line "overflow" _).withValue _⟩

/-- Storing into a ring that is not full adds the value to the queue. -/
theorem Holds.enqueue_room (h : Holds ring queue) (hroom : queue.length < ring.capacity)
    (value : Literal) (line : Nat) :
    (ring.enqueue value line).1 = ring.push value ∧
      (ring.enqueue value line).2.action = "enqueue" ∧
      Pictures (ring.enqueue value line).2 (ring.push value) (queue ++ [value]) := by
  have hnotFull : ¬ring.isFull = true := fun hfull =>
    Nat.ne_of_lt hroom (h.isFull_iff.mp hfull)
  unfold enqueue
  rw [if_neg hnotFull]
  exact ⟨rfl, rfl, ((h.push hroom value).snapshot_pictures line "enqueue" _).withValue _⟩

/-- Taking from an empty ring changes nothing. -/
theorem Holds.dequeue_empty (h : Holds ring []) (line : Nat) :
    (ring.dequeue line).1 = ring ∧ (ring.dequeue line).2.action = "underflow" ∧
      Pictures (ring.dequeue line).2 ring [] := by
  unfold dequeue
  rw [if_pos (h.isEmpty_iff.mpr rfl)]
  exact ⟨rfl, rfl, h.snapshot_pictures line "underflow" _⟩

/-- Taking from a ring gives up the oldest value. -/
theorem Holds.dequeue_cons {oldest : Literal} {rest : List Literal}
    (h : Holds ring (oldest :: rest)) (line : Nat) :
    (ring.dequeue line).1 = ring.pop ∧ (ring.dequeue line).2.action = "dequeue" ∧
      (ring.dequeue line).2.value = some oldest.toJson ∧
      Pictures (ring.dequeue line).2 ring.pop rest := by
  have hnotEmpty : ¬ring.isEmpty = true := fun hempty =>
    List.cons_ne_nil _ _ (h.isEmpty_iff.mp hempty)
  unfold dequeue
  rw [if_neg hnotEmpty, h.front?]
  exact ⟨rfl, rfl, rfl, (h.pop.snapshot_pictures line "dequeue" _).withValue _⟩

theorem Holds.peek_pictures (h : Holds ring queue) (line : Nat) :
    Pictures (ring.peek line) ring queue := by
  unfold peek
  rw [h.values_eq]
  cases queue with
  | nil => exact h.snapshot_pictures line "peek" _
  | cons oldest rest => exact (h.snapshot_pictures line "peek" _).withValue _

/-- A ring that holds a queue serves as it. -/
theorem Holds.serves (h : Holds ring queue) : Serves ring ring.capacity queue := by
  have overflow_or_room : queue.length = ring.capacity ∨ queue.length < ring.capacity :=
    Nat.eq_or_lt_of_le h.fits
  constructor
  case shows_queue => exact h.shows_queue
  case overflow_iff =>
    intro value line
    rcases overflow_or_room with hfull | hroom
    · exact iff_of_true (h.enqueue_full hfull value line).2.1 hfull
    · rw [(h.enqueue_room hroom value line).2.1]
      exact iff_of_false (by decide) (Nat.ne_of_lt hroom)
  case overflow_same => exact fun value line hfull => (h.enqueue_full hfull value line).1
  case enqueued =>
    intro value line hne
    have hroom := overflow_or_room.resolve_left hne
    obtain ⟨hring, haction, -⟩ := h.enqueue_room hroom value line
    have hshows := (h.push hroom value).shows_queue
    rw [push_capacity] at hshows
    exact ⟨haction, hring ▸ hshows⟩
  case underflow_iff =>
    intro line
    cases queue with
    | nil => exact iff_of_true (h.dequeue_empty line).2.1 rfl
    | cons oldest rest =>
      rw [(h.dequeue_cons line).2.1]
      exact iff_of_false (by decide) (List.cons_ne_nil _ _)
  case underflow_same =>
    rintro line rfl
    exact (h.dequeue_empty line).1
  case dequeued =>
    rintro line oldest rest rfl
    obtain ⟨hring, haction, hvalue, -⟩ := h.dequeue_cons line
    have hshows := h.pop.shows_queue
    rw [pop_capacity] at hshows
    exact ⟨haction, hvalue, hring ▸ hshows⟩

end Seen

end Storyboard.Queue.Ring
