import Storyboard.Simulation.Cue

/-!
# Ring buffers

A ring holds a bounded queue in a fixed number of slots.  Head and tail are slots of the ring, so no
index can leave it; a ring without them is empty, and it is full when the slot after the tail is the
head.
-/

namespace Storyboard.Queue

/-- A queue in the slots of a ring. -/
structure Ring where
  capacity : Nat
  slots : Vector (Option Literal) capacity
  /-- The slots of the oldest and of the youngest value, unless the ring is empty. -/
  ends : Option (Fin capacity × Fin capacity)

namespace Ring

/-- The empty ring; it has at least one slot. -/
def ofCapacity (capacity : Nat) : Ring := ⟨max capacity 1, Vector.replicate _ none, none⟩

/-- The slot after a slot. -/
def next {n : Nat} (i : Fin n) : Fin n := ⟨(i + 1) % n, Nat.mod_lt _ (Nat.zero_lt_of_lt i.isLt)⟩

/-- Nothing is stored. -/
def isEmpty (ring : Ring) : Bool := ring.ends.isNone

/-- Every slot is taken. -/
def isFull (ring : Ring) : Bool :=
  match ring.ends with
  | none => false
  | some (head, tail) => next tail == head

/-- The head slot as a number, or -1. -/
def head (ring : Ring) : Int := ring.ends.elim (-1) fun (head, _) => head.val

/-- The tail slot as a number, or -1. -/
def tail (ring : Ring) : Int := ring.ends.elim (-1) fun (_, tail) => tail.val

/-- The values in at most `count` slots from `i` on to the tail. -/
def valuesFrom {n : Nat} (slots : Vector (Option Literal) n) (tail : Fin n) :
    Nat → Fin n → List Literal
  | 0, _ => []
  | count + 1, i =>
    slots[i].toList ++ (if i = tail then [] else valuesFrom slots tail count (next i))

/-- The stored values, oldest first. -/
def values (ring : Ring) : List Literal :=
  match ring.ends with
  | none => []
  | some (head, tail) => valuesFrom ring.slots tail ring.capacity head

/-- The slots as data, free ones as null. -/
def buffer (ring : Ring) : List Json := ring.slots.toList.map Literal.toJson?

/-- The ring with a value at its tail; a full ring stays as it is. -/
def push (ring : Ring) (value : Literal) : Ring :=
  match ring with
  | ⟨0, slots, ends⟩ => ⟨0, slots, ends⟩
  | ⟨n + 1, slots, none⟩ =>
    let first : Fin (n + 1) := ⟨0, Nat.succ_pos n⟩
    ⟨n + 1, slots.set 0 (some value) (Nat.succ_pos n), some (first, first)⟩
  | ⟨n + 1, slots, some (head, tail)⟩ =>
    if next tail = head then ⟨n + 1, slots, some (head, tail)⟩
    else ⟨n + 1, slots.set (next tail) (some value), some (head, next tail)⟩

/-- The ring without its oldest value. -/
def pop (ring : Ring) : Ring :=
  match ring.ends with
  | none => ring
  | some (head, tail) =>
    { ring with
      slots := ring.slots.set head none
      ends := if head = tail then none else some (next head, tail) }

/-- The content of the head slot. -/
def front? (ring : Ring) : Option Literal :=
  match ring.ends with
  | none => none
  | some (head, _) => ring.slots[head]

/-- A step on the ring. -/
def snapshot (ring : Ring) (line : Nat) (action description : String) : Step :=
  let values := ring.values
  { stepAt line action description with
    buffer := some ring.buffer
    head := some ring.head
    tail := some ring.tail
    vars := [("queue", .arr (Literal.jsonItems values)), ("front", Literal.toJson? values.head?),
      ("rear", Literal.toJson? values.getLast?), ("size", .ofNat values.length),
      ("capacity", .ofNat ring.capacity)] }

/-- Stores a value, or reports an overflow and changes nothing. -/
def enqueue (ring : Ring) (value : Literal) (line : Nat) : Ring × Step :=
  if ring.isFull then
    (ring, (ring.snapshot line "overflow" s!"Queue is full - {value.shown} ignored").withValue
      value.toJson)
  else
    let grown := ring.push value
    let index := Decimal.intText grown.tail
    (grown, (grown.snapshot line "enqueue" s!"Enqueued {value.shown} at index {index}").withValue
      value.toJson)

/-- Gives up the oldest value, or reports an underflow and changes nothing. -/
def dequeue (ring : Ring) (line : Nat) : Ring × Step :=
  if ring.isEmpty then
    (ring, ring.snapshot line "underflow" "Queue is empty - dequeue ignored")
  else
    let left := ring.pop
    let index := Decimal.intText ring.head
    let shown := (ring.front?.map Literal.shown).getD "None"
    let step := left.snapshot line "dequeue" s!"Dequeued {shown} from index {index}"
    (left, ring.front?.elim step fun value => step.withValue value.toJson)

/-- Shows the oldest value. -/
def peek (ring : Ring) (line : Nat) : Step :=
  match ring.values with
  | value :: _ =>
    (ring.snapshot line "peek" s!"Front element is {value.shown}").withValue value.toJson
  | [] => ring.snapshot line "peek" "Queue is empty; no front element"

end Ring

end Storyboard.Queue
