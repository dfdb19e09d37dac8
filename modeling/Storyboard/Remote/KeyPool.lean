import Storyboard.Remote.Model

/-!
# Pools of keys

A pool has keys of which any may fail at any time.  A prompt is tried with the key that answered
last, and then with the others in turn, until one of them answers.  Only an answer moves the pool,
and then to the key that gave it; when every key has failed, the last failure is told.
-/

namespace Storyboard.Remote

/-- Keys in a fixed order, and the place of the one that answered last. -/
structure KeyPool where
  keys : List String
  current : Nat := 0

namespace KeyPool

variable {σ : Type}

/-- The keys with their places, in the order in which they are tried. -/
def inTurn (pool : KeyPool) : List (String × Nat) :=
  pool.keys.zipIdx.drop pool.current ++ pool.keys.zipIdx.take pool.current

/-- The first answer that one of some keys gets, with the place of the key; without an answer the
failure of the last of them, or `last` where there is none. -/
def firstAnswer (ask : String → Request σ String) (last : Failure) :
    List (String × Nat) → Request σ (String × Nat)
  | [], state => (.error last, state)
  | (key, place) :: rest, state =>
    match ask key state with
    | (.ok answer, state) => (.ok (answer, place), state)
    | (.error failure, state) => firstAnswer ask failure rest state

/-- Tries the keys of a pool in turn. -/
def tryInTurn (ask : String → Request σ String) : Request (KeyPool × σ) String :=
  fun (pool, state) =>
    if pool.keys.isEmpty then (.error .unavailable, pool, state)
    else
      match firstAnswer ask .unavailable pool.inTurn state with
      | (.ok (answer, place), state) => (.ok answer, { pool with current := place }, state)
      | (.error last, state) => (.error (.exhausted pool.keys.length last.message?), pool, state)

/-- The model that is asked with the keys of a pool. -/
def model (ask : String → Model σ) : Model (KeyPool × σ) := fun prompt =>
  tryInTurn fun key => ask key prompt

end KeyPool

end Storyboard.Remote
