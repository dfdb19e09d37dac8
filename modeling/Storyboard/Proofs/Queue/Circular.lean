import Storyboard.Proofs.Queue.Checked

/-!
# A circular queue is a bounded queue

`Bounded` is a queue with room for so many values, and `Bounded.after` what an operation leaves of it.
Whatever operations a ring goes through, it serves as the queue that has gone through the same
(`ring_serves_bounded_queue`), and every step of a circular queue pictures such a ring.
-/

namespace Storyboard.Queue.Circular

/-- A queue with room for so many values. -/
structure Bounded where
  capacity : Nat
  items : List Literal

namespace Bounded

/-- The empty queue; it has room for at least one value. -/
def ofCapacity (capacity : Nat) : Bounded := ⟨max capacity 1, []⟩

/-- What an operation leaves of a queue. -/
def after (queue : Bounded) : Op → Bounded
  | .declare capacity | .resize capacity => ofCapacity capacity
  | .enqueue value =>
    if queue.items.length < queue.capacity then { queue with items := queue.items ++ [value] }
    else queue
  | .dequeue => { queue with items := queue.items.tail }
  | .peek | .display => queue
  | .clear => { queue with items := [] }

/-- The ring holds the queue and has room for as many values. -/
structure HeldBy (queue : Bounded) (ring : Ring) : Prop where
  capacity_eq : ring.capacity = queue.capacity
  holds : Ring.Holds ring queue.items

/-- Only a declared capacity replaces the capacity of a queue. -/
theorem after_capacity (queue : Bounded) (op : Op) :
    (queue.after op).capacity = (op.capacity?.map (max · 1)).getD queue.capacity := by
  cases op with
  | enqueue value =>
    unfold after
    dsimp only
    split <;> rfl
  | _ => rfl

theorem HeldBy.serves {queue : Bounded} {ring : Ring} (h : queue.HeldBy ring) :
    Ring.Serves ring queue.capacity queue.items :=
  h.capacity_eq ▸ h.holds.serves

theorem ofCapacity_heldBy (capacity : Nat) : (ofCapacity capacity).HeldBy (.ofCapacity capacity) :=
  ⟨rfl, Ring.ofCapacity_holds capacity⟩

end Bounded

variable {ring : Ring} {queue : Bounded}

/-- A value is put behind the others in both, or is refused by both. -/
theorem enqueue_heldBy (h : queue.HeldBy ring) (value : Literal) (line : Nat) :
    (queue.after (.enqueue value)).HeldBy (ring.enqueue value line).1 ∧
      Ring.Pictures (ring.enqueue value line).2 (ring.enqueue value line).1
        (queue.after (.enqueue value)).items := by
  obtain ⟨hcapacity, hholds⟩ := h
  unfold Bounded.after
  dsimp only
  by_cases hroom : queue.items.length < queue.capacity
  · obtain ⟨hring, -, hpictures⟩ := hholds.enqueue_room (hcapacity ▸ hroom) value line
    rw [if_pos hroom, hring]
    exact ⟨⟨(Ring.push_capacity ring value).trans hcapacity,
      hholds.push (hcapacity ▸ hroom) value⟩, hpictures⟩
  · have hfull : queue.items.length = ring.capacity :=
      Nat.le_antisymm hholds.fits (hcapacity ▸ Nat.le_of_not_lt hroom)
    obtain ⟨hring, -, hpictures⟩ := hholds.enqueue_full hfull value line
    rw [if_neg hroom, hring]
    exact ⟨⟨hcapacity, hholds⟩, hpictures⟩

/-- The oldest value leaves both, if there is one. -/
theorem dequeue_heldBy (h : queue.HeldBy ring) (line : Nat) :
    (queue.after .dequeue).HeldBy (ring.dequeue line).1 ∧
      Ring.Pictures (ring.dequeue line).2 (ring.dequeue line).1 (queue.after .dequeue).items := by
  obtain ⟨hcapacity, hholds⟩ := h
  unfold Bounded.after
  obtain ⟨capacity, items⟩ := queue
  cases items with
  | nil =>
    obtain ⟨hring, -, hpictures⟩ := hholds.dequeue_empty line
    rw [hring]
    exact ⟨⟨hcapacity, hholds⟩, hpictures⟩
  | cons oldest rest =>
    obtain ⟨hring, -, -, hpictures⟩ := hholds.dequeue_cons line
    rw [hring]
    exact ⟨⟨(Ring.pop_capacity ring).trans hcapacity, hholds.pop⟩, hpictures⟩

/-- An operation does the same to a ring and to the queue that it holds, and tells of nothing else. -/
theorem perform_heldBy (h : queue.HeldBy ring) (cue : Cue Op) :
    (queue.after cue.op).HeldBy (perform ring cue).1 ∧
      ∀ step ∈ (perform ring cue).2,
        Ring.Pictures step (perform ring cue).1 (queue.after cue.op).items := by
  obtain ⟨line, op⟩ := cue
  cases op with
  | declare capacity => exact ⟨Bounded.ofCapacity_heldBy capacity, fun step hstep => by cases hstep⟩
  | resize capacity =>
    refine ⟨Bounded.ofCapacity_heldBy capacity, fun step hstep => ?_⟩
    obtain rfl := List.mem_singleton.mp hstep
    exact (Ring.ofCapacity_holds capacity).snapshot_pictures line "resize" _
  | enqueue value =>
    obtain ⟨hheld, hpictures⟩ := enqueue_heldBy h value line
    exact ⟨hheld, List.forall_mem_singleton.mpr hpictures⟩
  | dequeue =>
    obtain ⟨hheld, hpictures⟩ := dequeue_heldBy h line
    exact ⟨hheld, List.forall_mem_singleton.mpr hpictures⟩
  | peek => exact ⟨h, List.forall_mem_singleton.mpr (h.holds.peek_pictures line)⟩
  | display =>
    exact ⟨h, List.forall_mem_singleton.mpr (h.holds.snapshot_pictures line "display" _)⟩
  | clear =>
    obtain ⟨hcapacity, hholds⟩ := h
    have hempty : Ring.Holds (Ring.ofCapacity ring.capacity) [] := Ring.ofCapacity_holds _
    -- a capacity that holds a queue is at least one, so that clearing keeps it
    have hsame : (Ring.ofCapacity ring.capacity).capacity = queue.capacity :=
      (Nat.max_eq_left hholds.capacity_pos).trans hcapacity
    exact ⟨⟨hsame, hempty⟩, List.forall_mem_singleton.mpr (hempty.snapshot_pictures line "clear" _)⟩

/-- What a ring has become by some operations. -/
def ringAfter (capacity : Nat) (cues : List (Cue Op)) : Ring :=
  (replay perform (Ring.ofCapacity capacity) cues).1

/-- What a bounded queue has become by some operations. -/
def queueAfter (capacity : Nat) (cues : List (Cue Op)) : Bounded :=
  cues.foldl (fun queue cue => queue.after cue.op) (Bounded.ofCapacity capacity)

/-- A run keeps a ring and its queue together. -/
theorem replay_heldBy (h : queue.HeldBy ring) (cues : List (Cue Op)) :
    (cues.foldl (fun queue cue => queue.after cue.op) queue).HeldBy (replay perform ring cues).1 := by
  induction cues generalizing ring queue with
  | nil => exact h
  | cons cue rest ih => exact ih (perform_heldBy h cue).1

/-- Every step of a run pictures the ring as some of the operations have left it. -/
theorem replay_pictures (h : queue.HeldBy ring) (cues : List (Cue Op)) :
    ∀ step ∈ (replay perform ring cues).2, ∃ done rest, cues = done ++ rest ∧
      Ring.Pictures step (replay perform ring done).1
        (done.foldl (fun queue cue => queue.after cue.op) queue).items := by
  induction cues generalizing ring queue with
  | nil => exact fun step hstep => absurd hstep List.not_mem_nil
  | cons cue rest ih =>
    intro step hstep
    obtain ⟨hheld, hpictures⟩ := perform_heldBy h cue
    rcases List.mem_append.mp hstep with hfirst | hlater
    · exact ⟨[cue], rest, rfl, hpictures step hfirst⟩
    · obtain ⟨done, later, rfl, hdone⟩ := ih hheld step hlater
      exact ⟨cue :: done, later, rfl, hdone⟩

/-- A declared capacity fits 64 bits with sign. -/
def Op.Fits (op : Op) : Prop := ∀ capacity ∈ op.capacity?, capacity < 2 ^ 63

/-- A run within 64 bits uses slots only. -/
theorem foldlM_perform? (h : queue.HeldBy ring) (hfits : ring.capacity < 2 ^ 63)
    {cues : List (Cue Op)} (hcues : ∀ cue ∈ cues, cue.op.Fits) :
    cues.foldlM (fun ring cue => ring.perform? cue.op) ring.plain =
        some (replay perform ring cues).1.plain ∧
      (replay perform ring cues).1.capacity < 2 ^ 63 := by
  induction cues generalizing ring queue with
  | nil => exact ⟨rfl, hfits⟩
  | cons cue rest ih =>
    obtain ⟨hcue, hrest⟩ := List.forall_mem_cons.mp hcues
    have hnext := (perform_heldBy h cue).1
    have hnextFits : (perform ring cue).1.capacity < 2 ^ 63 := by
      rw [hnext.capacity_eq, Bounded.after_capacity]
      cases hcapacity : cue.op.capacity? with
      | none => exact h.capacity_eq ▸ hfits
      | some capacity =>
        exact Nat.max_lt.mpr ⟨hcue capacity hcapacity, by decide⟩
    rw [List.foldlM_cons, plain_perform? h.holds.capacity_pos hfits cue]
    exact ih hnext hnextFits hrest

/-- A ring that has gone through some operations is the queue that has gone through the same. -/
structure ServesThrough (capacity : Nat) (cues : List (Cue Op)) : Prop where
  /-- In plain numbers the operations use slots only, and reading the ring ends. -/
  checked : cues.foldlM (fun ring cue => ring.perform? cue.op) (PlainRing.ofCapacity capacity) =
    some (ringAfter capacity cues).plain
  read : ∀ values, (ringAfter capacity cues).plain.Reads values ↔
    values = (ringAfter capacity cues).values
  serves : Ring.Serves (ringAfter capacity cues) (queueAfter capacity cues).capacity
    (queueAfter capacity cues).items
  capacity_eq : (∀ cue ∈ cues, cue.op.capacity? = none) →
    (queueAfter capacity cues).capacity = max capacity 1

theorem queueAfter_capacity (capacity : Nat) {cues : List (Cue Op)}
    (h : ∀ cue ∈ cues, cue.op.capacity? = none) :
    (queueAfter capacity cues).capacity = max capacity 1 := by
  have hkept : ∀ (cues : List (Cue Op)) (queue : Bounded), (∀ cue ∈ cues, cue.op.capacity? = none) →
      (cues.foldl (fun queue cue => queue.after cue.op) queue).capacity = queue.capacity := by
    intro cues
    induction cues with
    | nil => exact fun _ _ => rfl
    | cons cue rest ih =>
      intro queue h
      obtain ⟨hcue, hrest⟩ := List.forall_mem_cons.mp h
      rw [List.foldl_cons, ih _ hrest, Bounded.after_capacity, hcue]
      rfl
  exact hkept cues _ h

/-- Whatever operations it goes through, a ring serves as a queue with room for so many values; and
every step of a circular queue pictures a ring that does. -/
theorem ring_serves_bounded_queue :
    (∀ (capacity : Nat) (cues : List (Cue Op)), capacity < 2 ^ 63 →
      (∀ cue ∈ cues, cue.op.Fits) → ServesThrough capacity cues) ∧
    ∀ (code : String), ∀ step ∈ (simulate code).steps, ∃ done rest, script code = done ++ rest ∧
      Ring.Serves (ringAfter defaultCapacity done) (queueAfter defaultCapacity done).capacity
        (queueAfter defaultCapacity done).items ∧
      Ring.Pictures step (ringAfter defaultCapacity done)
        (queueAfter defaultCapacity done).items := by
  constructor
  · intro capacity cues hcapacity hcues
    have hstart := Bounded.ofCapacity_heldBy capacity
    have hfits : (Ring.ofCapacity capacity).capacity < 2 ^ 63 :=
      Nat.max_lt.mpr ⟨hcapacity, by decide⟩
    obtain ⟨hchecked, hlast⟩ := foldlM_perform? hstart hfits hcues
    rw [Ring.plain_ofCapacity] at hchecked
    exact ⟨hchecked, fun _ => Ring.plain_reads_iff hlast, (replay_heldBy hstart cues).serves,
      queueAfter_capacity capacity⟩
  · intro code step hstep
    have hstart := Bounded.ofCapacity_heldBy defaultCapacity
    obtain ⟨done, rest, hscript, hpictures⟩ := replay_pictures hstart (script code) step hstep
    exact ⟨done, rest, hscript, (replay_heldBy hstart done).serves, hpictures⟩

/-- Three values into a ring with room for two, and one out of it. -/
def overfull : List (Cue Op) :=
  [⟨1, .enqueue (.int 1)⟩, ⟨2, .enqueue .none⟩, ⟨3, .enqueue (.int 3)⟩, ⟨4, .dequeue⟩]

theorem ring_serves_bounded_queue_overfull :
    2 < 2 ^ 63 ∧ (∀ cue ∈ overfull, cue.op.Fits) ∧ ServesThrough 2 overfull ∧
      (queueAfter 2 overfull).items = [.none] ∧
      (Circular.simulate "q.enqueue(1)").steps ≠ [] ∧
      ∀ step ∈ (simulate "q.enqueue(1)").steps, ∃ done rest, script "q.enqueue(1)" = done ++ rest ∧
        Ring.Serves (ringAfter defaultCapacity done) (queueAfter defaultCapacity done).capacity
          (queueAfter defaultCapacity done).items ∧
        Ring.Pictures step (ringAfter defaultCapacity done)
          (queueAfter defaultCapacity done).items := by
  have hfits : ∀ cue ∈ overfull, cue.op.Fits := by
    unfold overfull
    simp [Op.Fits, Op.capacity?]
  exact ⟨by decide, hfits, ring_serves_bounded_queue.1 2 overfull (by decide) hfits, rfl,
    by decide +kernel, ring_serves_bounded_queue.2 _⟩

end Storyboard.Queue.Circular
