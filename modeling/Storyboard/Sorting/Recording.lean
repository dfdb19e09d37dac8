/-!
# Recorded runs

A run on an array is recorded as the events that happen to it, the latest first.  A recording
carries the array as it is now, with the proof that the events lead from the first array to it;
so whatever an algorithm does to its array, it does by an event.
-/

namespace Storyboard.Sorting

/-- What happens to an array of `n` integers. -/
inductive Event (n : Nat) where
  /-- Two positions are compared. -/
  | compare (i j : Fin n)
  /-- Two positions exchange their values. -/
  | swap (i j : Fin n)
  /-- In round `i` the least value so far is at `j`. -/
  | selectMin (i j : Fin n)
  /-- Round `i` takes its value as the key. -/
  | selectKey (i : Fin n) (key : Int)
  /-- In round `i` the value at `j` is compared with the key. -/
  | compareKey (i j : Fin n) (key : Int)
  /-- In round `i` the value at `source` is copied to `target`. -/
  | shift (i source target : Fin n)
  /-- In round `i` the key is written at `j`. -/
  | insert (i j : Fin n) (key : Int)
  /-- The values that came from positions `i` and `j` are compared. -/
  | compareHalves (i j : Nat) (left right : Int)
  /-- A value is written. -/
  | write (i : Fin n) (value : Int)
  /-- The positions from `first` to `last` are in order. -/
  | merged (first last : Nat)
  /-- Among the positions from `first` to `last` the value at `last` is the pivot. -/
  | pivot (first last : Fin n) (value : Int)
  /-- The pivot has come to its place. -/
  | partition (place : Fin n) (value : Int)
  /-- The subtree below `root` is made a heap. -/
  | heapify (root : Fin n)
  /-- The value at a position is final. -/
  | markSorted (i : Fin n)

/-- The array with the values at two positions exchanged. -/
def exchange {n : Nat} (arr : Vector Int n) (i j : Fin n) : Vector Int n :=
  arr.swap i j i.isLt j.isLt

/-- The array with a value written at a position. -/
def put {n : Nat} (arr : Vector Int n) (i : Fin n) (value : Int) : Vector Int n :=
  arr.set i value i.isLt

section

variable {n : Nat} (arr : Vector Int n)

theorem get_eq_getElem (i : Fin n) : arr.get i = getElem arr i.val i.isLt := rfl

theorem get_exchange_left (i j : Fin n) : (exchange arr i j).get i = arr.get j :=
  Vector.getElem_swap_left i.isLt j.isLt

theorem get_exchange_right (i j : Fin n) : (exchange arr i j).get j = arr.get i :=
  Vector.getElem_swap_right i.isLt j.isLt

theorem get_exchange_of_ne {i j k : Fin n} (hi : k ≠ i) (hj : k ≠ j) :
    (exchange arr i j).get k = arr.get k :=
  Vector.getElem_swap_of_ne (fun h => hi (Fin.ext h)) fun h => hj (Fin.ext h)

theorem get_put_self (i : Fin n) (value : Int) : (put arr i value).get i = value :=
  Vector.getElem_set_self i.isLt

theorem get_put_of_ne {i k : Fin n} (value : Int) (h : k ≠ i) :
    (put arr i value).get k = arr.get k :=
  Vector.getElem_set_ne i.isLt k.isLt fun he => h (Fin.ext he.symm)

end

/-- The array after an event. -/
def Event.apply {n : Nat} (event : Event n) (arr : Vector Int n) : Vector Int n :=
  match event with
  | .swap i j => exchange arr i j
  | .shift _ source target => put arr target (arr.get source)
  | .insert _ j key => put arr j key
  | .write i value => put arr i value
  | _ => arr

/-- The events of a run from `start`, the latest first, and the array that they lead to. -/
structure Recording {n : Nat} (start : Vector Int n) where
  events : List (Event n)
  now : Vector Int n
  now_eq : events.foldr Event.apply start = now

namespace Recording

variable {n : Nat} {start : Vector Int n}

/-- The recording in which nothing has happened yet. -/
def empty (start : Vector Int n) : Recording start where
  events := []
  now := start
  now_eq := rfl

/-- Records one more event. -/
def add (r : Recording start) (event : Event n) : Recording start where
  events := event :: r.events
  now := event.apply r.now
  now_eq := congrArg event.apply r.now_eq

@[simp] theorem now_add (r : Recording start) (event : Event n) :
    (r.add event).now = event.apply r.now := rfl

@[simp] theorem events_add (r : Recording start) (event : Event n) :
    (r.add event).events = event :: r.events := rfl

/-- The events from the first on, each with the array after it. -/
def framesOf (start : Vector Int n) : List (Event n) → List (Event n × Vector Int n)
  | [] => []
  | event :: rest => (event, event.apply start) :: framesOf (event.apply start) rest

/-- The frames of a recording. -/
def frames (r : Recording start) : List (Event n × Vector Int n) :=
  framesOf start r.events.reverse

end Recording

end Storyboard.Sorting
