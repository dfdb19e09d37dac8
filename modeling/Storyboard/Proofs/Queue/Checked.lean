import Storyboard.Queue.Circular
import Storyboard.Proofs.Queue.Ring

/-!
# Every slot that a ring uses exists

A ring keeps its head and tail as slots, so that it cannot leave its slots, and reads at most as many
of them as there are.  Here the ring is written once more with plain numbers, -1 for a head and tail
that are missing.  Using a number that is no slot, or stepping to one that does not fit 64 bits, has
no result, and the slots are read on for as long as the tail has not been met (`ReadsFrom`), which
need not ever happen.  Every operation on the numbers succeeds, and gives the numbers of the ring
after the operation; and every reading ends.
-/

namespace Storyboard.Queue

/-- A ring in plain numbers. -/
structure PlainRing where
  capacity : Nat
  slots : List (Option Literal)
  head : Int
  tail : Int

namespace PlainRing

/-- The content of a slot. -/
def slot? (ring : PlainRing) (i : Int) : Option (Option Literal) :=
  if 0 ≤ i then ring.slots[i.toNat]? else none

/-- The ring with another content of a slot. -/
def write? (ring : PlainRing) (i : Int) (content : Option Literal) : Option PlainRing :=
  if 0 ≤ i ∧ i < ring.slots.length then
    some { ring with slots := ring.slots.set i.toNat content }
  else none

/-- The slot after a slot, as long as the numbers on the way fit 64 bits with sign. -/
def after? (ring : PlainRing) (i : Int) : Option Int :=
  if i + 1 < 2 ^ 63 ∧ 0 < ring.capacity ∧ ring.capacity < 2 ^ 63 then
    some (Int.tmod (i + 1) ring.capacity)
  else none

/-- An empty ring with at least one slot. -/
def ofCapacity (capacity : Nat) : PlainRing :=
  ⟨max capacity 1, List.replicate (max capacity 1) none, -1, -1⟩

def isEmpty (ring : PlainRing) : Bool := ring.head == -1

def isFull? (ring : PlainRing) : Option Bool :=
  if ring.isEmpty then some false
  else do
    let next ← ring.after? ring.tail
    return next == ring.head

/-- Reading the slots from `i` on ends at the tail, and gives the values.  There is no other bound on
how far it goes. -/
inductive ReadsFrom (ring : PlainRing) : Int → List Literal → Prop
  | last {i : Int} {content : Option Literal} (hslot : ring.slot? i = some content)
      (htail : i = ring.tail) : ReadsFrom ring i content.toList
  | onward {i next : Int} {content : Option Literal} {later : List Literal}
      (hslot : ring.slot? i = some content) (htail : i ≠ ring.tail)
      (hnext : ring.after? i = some next) (hlater : ReadsFrom ring next later) :
      ReadsFrom ring i (content.toList ++ later)

/-- Reading the ring ends, and gives the values. -/
def Reads (ring : PlainRing) (values : List Literal) : Prop :=
  if ring.isEmpty then values = [] else ring.ReadsFrom ring.head values

theorem ReadsFrom.unique {ring : PlainRing} {i : Int} {values others : List Literal}
    (h : ring.ReadsFrom i values) (h' : ring.ReadsFrom i others) : values = others := by
  induction h generalizing others with
  | last hslot htail =>
    cases h' with
    | last hslot' _ => rw [Option.some.inj (hslot.symm.trans hslot')]
    | onward _ htail' _ _ => exact absurd htail htail'
  | onward hslot htail hnext _ ih =>
    cases h' with
    | last _ htail' => exact absurd htail' htail
    | onward hslot' _ hnext' hlater' =>
      obtain rfl := Option.some.inj (hnext.symm.trans hnext')
      rw [Option.some.inj (hslot.symm.trans hslot'), ih hlater']

def enqueue? (ring : PlainRing) (value : Literal) : Option PlainRing := do
  if ← ring.isFull? then return ring
  else if ring.isEmpty then write? { ring with head := 0, tail := 0 } 0 (some value)
  else
    let tail ← ring.after? ring.tail
    write? { ring with tail } tail (some value)

def dequeue? (ring : PlainRing) : Option PlainRing :=
  if ring.isEmpty then some ring
  else do
    let _ ← ring.slot? ring.head
    let left ← ring.write? ring.head none
    if ring.head = ring.tail then return { left with head := -1, tail := -1 }
    else
      let head ← ring.after? ring.head
      return { left with head }

open Circular in
/-- What an operation leaves of a ring. -/
def perform? (ring : PlainRing) : Op → Option PlainRing
  | .declare capacity | .resize capacity => some (ofCapacity capacity)
  | .enqueue value => ring.enqueue? value
  | .dequeue => ring.dequeue?
  | .peek | .display => some ring
  | .clear => some (ofCapacity ring.capacity)

end PlainRing

namespace Ring

/-- The ring in plain numbers. -/
def plain (ring : Ring) : PlainRing := ⟨ring.capacity, ring.slots.toList, ring.head, ring.tail⟩

section Slots

variable {n : Nat} {slots : Vector (Option Literal) n} {ends : Option (Fin n × Fin n)}

theorem plain_slot? (i : Fin n) : (plain ⟨n, slots, ends⟩).slot? i.val = some (slots.get i) := by
  have hsize : i.val < slots.toList.length := by
    rw [Vector.length_toList]
    exact i.isLt
  show (if (0 : Int) ≤ i.val then slots.toList[i.val]? else none) = _
  rw [if_pos (Int.natCast_nonneg _), List.getElem?_eq_getElem hsize, Vector.getElem_toList]
  rfl

/-- Writing to a slot, whatever the head and the tail are. -/
theorem plain_write? (i : Fin n) (content : Option Literal) (head tail : Int) :
    PlainRing.write? ⟨n, slots.toList, head, tail⟩ i.val content =
      some ⟨n, (slots.set i content i.isLt).toList, head, tail⟩ := by
  have hsize : (i.val : Int) < slots.toList.length := by
    rw [Vector.length_toList]
    exact Int.ofNat_lt.mpr i.isLt
  unfold PlainRing.write?
  rw [if_pos ⟨Int.natCast_nonneg _, hsize⟩, Vector.toList_set]
  rfl

/-- Stepping on from a slot stays within 64 bits when the capacity does. -/
theorem plain_after? (hn : n < 2 ^ 63) (i : Fin n) (head tail : Int) :
    PlainRing.after? ⟨n, slots.toList, head, tail⟩ i.val = some (next i).val := by
  have hi := i.isLt
  have hfits : (i.val : Int) + 1 < 2 ^ 63 := by omega
  unfold PlainRing.after?
  rw [if_pos ⟨hfits, Nat.zero_lt_of_lt hi, hn⟩]
  rfl

/-- Reading on to the tail ends, and gives what is read in as many slots as it is away. -/
theorem plain_readsFrom (hn : n < 2 ^ 63) {head tail : Fin n} {count : Nat} {i : Fin n}
    (hmeets : ∃ k < count, ahead i k = tail) :
    (plain ⟨n, slots, some (head, tail)⟩).ReadsFrom i.val (valuesFrom slots tail count i) := by
  induction count generalizing i with
  | zero =>
    obtain ⟨k, hk, -⟩ := hmeets
    exact absurd hk (Nat.not_lt_zero k)
  | succ count ih =>
    rw [valuesFrom]
    by_cases hlast : i = tail
    · rw [if_pos hlast, List.append_nil]
      exact .last (plain_slot? i) (congrArg (fun s : Fin n => (s.val : Int)) hlast)
    · have hne : (i.val : Int) ≠ tail.val := fun he => hlast (Fin.ext (Int.ofNat_inj.mp he))
      -- the tail is a place nearer from the next slot
      have hnear : ∃ k < count, ahead (next i) k = tail := by
        obtain ⟨k, hk, hmeet⟩ := hmeets
        cases k with
        | zero => exact absurd ((ahead_zero i).symm.trans hmeet) hlast
        | succ k => exact ⟨k, Nat.lt_of_succ_lt_succ hk, (ahead_next i k).trans hmeet⟩
      rw [if_neg hlast]
      exact .onward (plain_slot? i) hne (plain_after? hn i _ _) (ih hnear)

end Slots

variable {ring : Ring}

/-- Slots are compared as their numbers are. -/
theorem beq_val {n : Nat} (i j : Fin n) : ((i.val : Int) == (j.val : Int)) = (i == j) := by
  rw [Bool.eq_iff_iff, beq_iff_eq, beq_iff_eq, Int.ofNat_inj, Fin.ext_iff]

theorem plain_isEmpty (ring : Ring) : ring.plain.isEmpty = ring.isEmpty := by
  obtain ⟨n, slots, _ | ⟨head, tail⟩⟩ := ring
  · rfl
  · show ((head.val : Int) == -1) = false
    rw [beq_eq_false_iff_ne]
    omega

/-- Reading a ring ends, with its values and no others. -/
theorem plain_reads_iff (hfits : ring.capacity < 2 ^ 63) {values : List Literal} :
    ring.plain.Reads values ↔ values = ring.values := by
  unfold PlainRing.Reads
  rw [plain_isEmpty]
  obtain ⟨n, slots, _ | ⟨head, tail⟩⟩ := ring
  · exact Iff.rfl
  · have hreads : (plain ⟨n, slots, some (head, tail)⟩).ReadsFrom head.val
        (valuesFrom slots tail n head) := plain_readsFrom hfits (exists_ahead head tail)
    exact ⟨fun h => h.unique hreads, fun h => h ▸ hreads⟩

theorem plain_isFull? (hfits : ring.capacity < 2 ^ 63) :
    ring.plain.isFull? = some ring.isFull := by
  unfold PlainRing.isFull?
  rw [plain_isEmpty]
  obtain ⟨n, slots, _ | ⟨head, tail⟩⟩ := ring
  · rfl
  · have hnext : (plain ⟨n, slots, some (head, tail)⟩).after? (plain ⟨n, slots, some (head, tail)⟩).tail =
        some ((next tail).val : Int) := plain_after? hfits tail _ _
    show ((plain ⟨n, slots, some (head, tail)⟩).after? _ >>= _) = _
    rw [hnext]
    exact congrArg some (beq_val (next tail) head)

/-- Storing a value uses slots only, and gives the same ring. -/
theorem plain_enqueue? (hpos : 0 < ring.capacity) (hfits : ring.capacity < 2 ^ 63)
    (value : Literal) (line : Nat) :
    ring.plain.enqueue? value = some (ring.enqueue value line).1.plain := by
  unfold PlainRing.enqueue? enqueue
  rw [plain_isFull? hfits, plain_isEmpty]
  show (if ring.isFull = true then _ else _) = _
  by_cases hfull : ring.isFull = true
  · rw [if_pos hfull, if_pos hfull]
    rfl
  · rw [if_neg hfull, if_neg hfull]
    obtain ⟨_ | n, slots, _ | ⟨head, tail⟩⟩ := ring
    · exact absurd hpos (Nat.lt_irrefl 0)
    · exact absurd hpos (Nat.lt_irrefl 0)
    · exact @plain_write? _ slots ⟨0, Nat.succ_pos n⟩ (some value) 0 0
    · have hroom : next tail ≠ head := fun he => hfull (beq_iff_eq.mpr he)
      have hnext : (plain ⟨n + 1, slots, some (head, tail)⟩).after? tail.val =
        some ((next tail).val : Int) := plain_after? hfits tail _ _
      show ((plain ⟨n + 1, slots, some (head, tail)⟩).after? tail.val >>= _) = _
      rw [hnext]
      unfold push
      dsimp only
      rw [if_neg hroom]
      exact @plain_write? _ slots (next tail) (some value) head.val (next tail).val

/-- Giving up a value uses slots only, and gives the same ring. -/
theorem plain_dequeue? (hfits : ring.capacity < 2 ^ 63) (line : Nat) :
    ring.plain.dequeue? = some (ring.dequeue line).1.plain := by
  unfold PlainRing.dequeue? dequeue
  rw [plain_isEmpty]
  by_cases hempty : ring.isEmpty = true
  · rw [if_pos hempty, if_pos hempty]
  · rw [if_neg hempty, if_neg hempty]
    obtain ⟨n, slots, _ | ⟨head, tail⟩⟩ := ring
    · exact absurd rfl hempty
    · have hslot : (plain ⟨n, slots, some (head, tail)⟩).slot? head.val = some (slots.get head) :=
        plain_slot? head
      have hwrite : (plain ⟨n, slots, some (head, tail)⟩).write? head.val none =
          some ⟨n, (slots.set head none).toList, head.val, tail.val⟩ :=
        plain_write? head none head.val tail.val
      have hnext : (plain ⟨n, slots, some (head, tail)⟩).after? head.val =
        some ((next head).val : Int) := plain_after? hfits head _ _
      show ((plain ⟨n, slots, some (head, tail)⟩).slot? head.val >>= _) = _
      rw [hslot]
      show ((plain ⟨n, slots, some (head, tail)⟩).write? head.val none >>= _) = _
      rw [hwrite]
      show (if (head.val : Int) = tail.val then _ else _) =
        some (plain ⟨n, slots.set head none, if head = tail then none else some (next head, tail)⟩)
      -- the last value leaves the ring empty, any other one moves the head
      by_cases hlast : head = tail
      · rw [if_pos (congrArg (fun s : Fin n => (s.val : Int)) hlast), if_pos hlast]
        rfl
      · have hne : (head.val : Int) ≠ tail.val := fun he => hlast (Fin.ext (Int.ofNat_inj.mp he))
        rw [if_neg hne, if_neg hlast]
        show ((plain ⟨n, slots, some (head, tail)⟩).after? head.val >>= _) = _
        rw [hnext]
        rfl

theorem plain_ofCapacity (capacity : Nat) :
    (ofCapacity capacity).plain = PlainRing.ofCapacity capacity := by
  show PlainRing.mk _ (Vector.replicate (max capacity 1) none).toList (-1) (-1) = _
  rw [Vector.toList_replicate]
  rfl

end Ring

namespace Circular

/-- The capacity that an operation gives to a new ring. -/
def Op.capacity? : Op → Option Nat
  | .declare capacity | .resize capacity => some capacity
  | _ => none

/-- Every operation uses slots only, and leaves the same ring. -/
theorem plain_perform? {ring : Ring} (hpos : 0 < ring.capacity) (hfits : ring.capacity < 2 ^ 63)
    (cue : Cue Op) : ring.plain.perform? cue.op = some (perform ring cue).1.plain := by
  obtain ⟨line, op⟩ := cue
  cases op with
  | declare capacity => exact congrArg some (Ring.plain_ofCapacity capacity).symm
  | resize capacity => exact congrArg some (Ring.plain_ofCapacity capacity).symm
  | enqueue value => exact Ring.plain_enqueue? hpos hfits value line
  | dequeue => exact Ring.plain_dequeue? hfits line
  | peek => rfl
  | display => rfl
  | clear => exact congrArg some (Ring.plain_ofCapacity ring.capacity).symm

end Circular

end Storyboard.Queue
