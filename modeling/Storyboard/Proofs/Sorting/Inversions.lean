import Storyboard.Proofs.Sorting.Replay
import Mathlib.Data.Finset.Card
import Mathlib.Data.Fintype.Prod
import Mathlib.Logic.Equiv.Basic

/-!
# Bubble sort and insertion sort remove one inversion a move

An inversion is a pair of positions whose values are out of order.  A swap of neighbours that are
out of order removes that one pair and no other (`card_inversions_exchange`).  For insertion sort
the same holds of the array with the key in the free position, in which a shift is a swap of
neighbours.  So a run of either sort has as many moves as its array has inversions
(`moves_count_inversions`).
-/

namespace Storyboard.Sorting

variable {n : Nat} {start : Vector Int n} {a : Vector Int n}

/-! ## Inversions -/

/-- The pairs of positions whose values are out of order. -/
def inversions (a : Vector Int n) : Finset (Fin n × Fin n) :=
  Finset.univ.filter fun pair => pair.1 < pair.2 ∧ a.get pair.2 < a.get pair.1

theorem mem_inversions {p q : Fin n} : (p, q) ∈ inversions a ↔ p < q ∧ a.get q < a.get p := by
  simp [inversions]

theorem get_exchange (a : Vector Int n) (i j k : Fin n) :
    (exchange a i j).get k = a.get (Equiv.swap i j k) := by
  by_cases hi : k = i
  · rw [hi, get_exchange_left, Equiv.swap_apply_left]
  · by_cases hj : k = j
    · rw [hj, get_exchange_right, Equiv.swap_apply_right]
    · rw [get_exchange_of_ne a hi hj, Equiv.swap_apply_of_ne_of_ne hi hj]

/-- Exchanging neighbours keeps the order of all positions but their own. -/
theorem swap_lt_swap {i j p q : Fin n} (hij : (j : Nat) = i + 1) (hpq : p < q)
    (hne : (p, q) ≠ (i, j)) : Equiv.swap i j p < Equiv.swap i j q := by
  have hlt : (p : Nat) < q := hpq
  have hpair : ¬((p : Nat) = i ∧ (q : Nat) = j) := fun h =>
    hne (Prod.ext (Fin.ext h.1) (Fin.ext h.2))
  simp only [Equiv.swap_apply_def, Fin.ext_iff, Fin.lt_def]
  split_ifs <;> omega

/-- A swap of neighbours that are out of order removes one inversion, theirs. -/
theorem card_inversions_exchange {i j : Fin n} (hij : (j : Nat) = i + 1)
    (hgreater : a.get j < a.get i) :
    (inversions (exchange a i j)).card + 1 = (inversions a).card := by
  have hmem : (i, j) ∈ inversions a :=
    mem_inversions.mpr ⟨by show (i : Nat) < j; omega, hgreater⟩
  rw [← Finset.card_erase_add_one hmem]
  congr 1
  -- the positions of the other pairs change places with the values there
  refine Finset.card_nbij' (fun pair => (Equiv.swap i j pair.1, Equiv.swap i j pair.2))
    (fun pair => (Equiv.swap i j pair.1, Equiv.swap i j pair.2)) ?_ ?_ ?_ ?_
  · rintro ⟨p, q⟩ hpair
    obtain ⟨hpq, hout⟩ := mem_inversions.mp hpair
    rw [get_exchange, get_exchange] at hout
    have hne : (p, q) ≠ (i, j) := by
      rintro ⟨⟩
      rw [Equiv.swap_apply_left, Equiv.swap_apply_right] at hout
      omega
    have hne' : (Equiv.swap i j p, Equiv.swap i j q) ≠ (i, j) := by
      intro he
      rw [Prod.mk.injEq, Equiv.swap_apply_eq_iff, Equiv.swap_apply_eq_iff, Equiv.swap_apply_left,
        Equiv.swap_apply_right] at he
      obtain ⟨rfl, rfl⟩ := he
      have : (p : Nat) < q := hpq
      omega
    exact Finset.mem_erase.mpr ⟨hne', mem_inversions.mpr ⟨swap_lt_swap hij hpq hne, hout⟩⟩
  · rintro ⟨p, q⟩ hpair
    obtain ⟨hne, hpair⟩ := Finset.mem_erase.mp hpair
    obtain ⟨hpq, hout⟩ := mem_inversions.mp hpair
    refine mem_inversions.mpr ⟨swap_lt_swap hij hpq hne, ?_⟩
    rwa [get_exchange, get_exchange, Equiv.swap_apply_self, Equiv.swap_apply_self]
  · rintro ⟨p, q⟩ _
    simp only [Equiv.swap_apply_self]
  · rintro ⟨p, q⟩ _
    simp only [Equiv.swap_apply_self]

/-- An array in order has no inversion. -/
theorem inversions_eq_empty (h : SortedOn 0 n a) : inversions a = ∅ := by
  refine Finset.eq_empty_of_forall_notMem ?_
  rintro ⟨p, q⟩ hpair
  obtain ⟨hpq, hout⟩ := mem_inversions.mp hpair
  exact absurd (h p q (Nat.zero_le _) hpq q.isLt) (Int.not_le.mpr hout)

/-! ## Moves -/

/-- How many steps have the action. -/
def countOf (action : String) (steps : List Step) : Nat :=
  steps.countP fun step => step.action == action

/-- When each step of the action removes one inversion and no other step adds or removes one, the
steps and the inversions left come to the inversions at the start. -/
theorem countOf_stepsOf (action : String) (array : Recording start → Vector Int n)
    {allowed : Recording start → Event n → Prop} {r : Recording start}
    (h : Continues allowed (.empty start) r) (hstart : array (.empty start) = start)
    (hadd : ∀ r event, allowed r event →
      countOf action (stepOf? event (event.apply r.now)).toList +
        (inversions (array (r.add event))).card = (inversions (array r)).card) :
    countOf action (stepsOf r) + (inversions (array r)).card = (inversions start).card := by
  refine h.preserves (P := fun r =>
    countOf action (stepsOf r) + (inversions (array r)).card = (inversions start).card) ?_ ?_
  · intro r event hr hallowed
    have hmove := hadd r event hallowed
    rw [stepsOf_add, countOf, List.countP_append]
    unfold countOf at hr hmove
    omega
  · rw [hstart]
    exact Nat.zero_add _

/-- The marks of a run are no moves. -/
theorem countOf_steps {action : String} (hopening : "set_array" ≠ action)
    (hmark : "mark_sorted" ≠ action) (kind : SortKind) (start : Vector Int n) :
    countOf action (steps kind start) = countOf action (stepsOf (sort kind (.empty start))) := by
  have hmarks : countOf action ((List.finRange n).map
      (markStep (sort kind (.empty start)).now)) = 0 := by
    refine List.countP_eq_zero.mpr fun step hstep => ?_
    obtain ⟨i, -, rfl⟩ := List.mem_map.mp hstep
    exact fun h => hmark (beq_iff_eq.mp h)
  have hfirst : ((openingStep start).action == action) = false := beq_eq_false_iff_ne.mpr hopening
  unfold countOf at hmarks ⊢
  rw [steps_append, List.countP_append, hmarks, Nat.add_zero,
    List.countP_cons_of_neg (by simp [hfirst])]

/-- Each swap of bubble sort removes one inversion. -/
theorem Bubbles.card_inversions {r : Recording start} {event : Event n} (h : Bubbles r event) :
    countOf "swap" (stepOf? event (event.apply r.now)).toList +
      (inversions (r.add event).now).card = (inversions r.now).card := by
  cases h with
  | compare i j => exact Nat.zero_add _
  | swap next greater => exact (Nat.add_comm ..).trans (card_inversions_exchange next greater)

/-- With the key in the free position, each shift of insertion sort is a swap of neighbours. -/
theorem Inserts.card_inversions {r : Recording start} {event : Event n} (h : Inserts r event) :
    countOf "shift" (stepOf? event (event.apply r.now)).toList +
      (inversions (withHand (r.add event))).card = (inversions (withHand r)).card := by
  cases h with
  | @selectKey i complete =>
    have htaken : withHand (r.add (.selectKey i (r.now.get i))) = withHand r :=
      (Vector.set_getElem_self ..).trans complete.symm
    rw [htaken]
    exact Nat.zero_add _
  | compareKey i j key => exact Nat.zero_add _
  | @shift i source target key held next greater =>
    have hne : (source : Nat) ≠ target := by omega
    -- the key moves down as the greater value moves up
    have hmoved : withHand (r.add (.shift i source target)) =
        exchange (withHand r) source target := by
      have held' : hand? (r.add (.shift i source target)).events = some (source, key) := by
        simp [hand?, held]
      rw [withHand_eq held', withHand_eq held]
      exact put_shift r.now source target hne key
    rw [hmoved]
    refine (Nat.add_comm ..).trans (card_inversions_exchange next ?_)
    rw [withHand_eq held, get_put_self, get_put_of_ne r.now key (Fin.ne_of_val_ne hne)]
    exact greater
  | @insert i j key held =>
    have hplaced : withHand (r.add (.insert i j key)) = withHand r := by
      have held' : hand? (r.add (.insert i j key)).events = some (j, key) := held
      rw [withHand_eq held', withHand_eq held]
      exact Vector.set_set ..
    rw [hplaced]
    exact Nat.zero_add _

/-- Bubble sort swaps as often as there are inversions. -/
theorem countOf_bubble (start : Vector Int n) :
    countOf "swap" (steps .bubble start) = (inversions start).card := by
  have hcount := countOf_stepsOf "swap" Recording.now (bubble_continues (.empty start)) rfl
    fun _ _ => Bubbles.card_inversions
  rw [inversions_eq_empty (bubble_sorts _).sorted, Finset.card_empty, Nat.add_zero] at hcount
  rw [countOf_steps (by decide) (by decide)]
  exact hcount

/-- Insertion sort shifts as often as there are inversions. -/
theorem countOf_insertion (start : Vector Int n) :
    countOf "shift" (steps .insertion start) = (inversions start).card := by
  obtain ⟨hcontinues, hdone⟩ := insertion_continues start
  have hcount := countOf_stepsOf "shift" withHand hcontinues rfl
    fun _ _ => Inserts.card_inversions
  rw [hdone, inversions_eq_empty (insertion_sorts _).sorted, Finset.card_empty,
    Nat.add_zero] at hcount
  rw [countOf_steps (by decide) (by decide)]
  exact hcount

/-! ## What is moved -/

/-- A value is moved past lesser ones only: a swap exchanges neighbours that are out of order, and a
shift moves a value greater than the key that was taken last. -/
structure MovesGreater (before : Held n) (step : Step) : Prop where
  swap : step.action = "swap" → ∃ i j : Fin n, PointsAt "i" i step ∧ PointsAt "j" j step ∧
    (j : Nat) = i + 1 ∧ before.arr.get j < before.arr.get i
  shift : step.action = "shift" → ∃ (source target : Fin n) (key : Int),
    PointsAt "j" target step ∧ (target : Nat) = source + 1 ∧ before.key = some key ∧
      key < before.arr.get source

/-- The step does what it says, and moves values past lesser ones only. -/
def DoesMoveGreater (before : Held n) (step : Step) (after : Held n) : Prop :=
  Does before step after ∧ MovesGreater before step

/-- A step that is neither a swap nor a shift moves nothing. -/
theorem MovesGreater.of_action {before : Held n} {step : Step} (hswap : step.action ≠ "swap")
    (hshift : step.action ≠ "shift") : MovesGreater before step :=
  ⟨fun h => absurd h hswap, fun h => absurd h hshift⟩

theorem Bubbles.isDone_greater {r : Recording start} {event : Event n} (h : Bubbles r event) :
    IsDone DoesMoveGreater r event := by
  obtain ⟨step, hstep, hdoes⟩ := h.exchanges.isDone
  refine ⟨step, hstep, hdoes, ?_⟩
  cases h with
  | compare i j =>
    obtain rfl := Option.some.inj hstep
    exact .of_action (by simp [stepOn]) (by simp [stepOn])
  | @swap i j next greater =>
    obtain rfl := Option.some.inj hstep
    exact ⟨fun _ => ⟨i, j, rfl, rfl, next, greater⟩, fun h => absurd h (by simp [stepOn])⟩

theorem Inserts.isDone_greater {r : Recording start} {event : Event n} (h : Inserts r event) :
    IsDone DoesMoveGreater r event := by
  obtain ⟨step, hstep, hdoes⟩ := h.isDone
  refine ⟨step, hstep, hdoes, ?_⟩
  cases h with
  | @shift i source target key held next greater =>
    obtain rfl := Option.some.inj hstep
    have htaken : (heldOf r).key = some key := by simp [heldOf, held]
    exact ⟨fun h => absurd h (by simp [stepOn]),
      fun _ => ⟨source, target, key, rfl, next, htaken, greater⟩⟩
  | _ =>
    obtain rfl := Option.some.inj hstep
    exact .of_action (by simp [stepOn]) (by simp [stepOn])

theorem markStep_doesMoveGreater (held : Held n) (i : Fin n) :
    DoesMoveGreater held (markStep held.arr i) held :=
  ⟨markStep_does held i, .of_action (by simp [markStep, stepOn]) (by simp [markStep, stepOn])⟩

/-- A run without the action has no step of it. -/
theorem action_ne_of_countOf {action : String} {steps : List Step} (h : countOf action steps = 0)
    {step : Step} (hstep : step ∈ steps) : step.action ≠ action :=
  fun he => List.countP_eq_zero.mp h step hstep (beq_iff_eq.mpr he)

/-- Bubble sort swaps, and insertion sort shifts, once for each inversion of the array; values are
moved past lesser ones only, and those of an array in order are not moved at all. -/
theorem moves_count_inversions (start : Vector Int n) :
    countOf "swap" (steps .bubble start) = (inversions start).card ∧
    countOf "shift" (steps .insertion start) = (inversions start).card ∧
    Replays DoesMoveGreater start (steps .bubble start) ∧
    Replays DoesMoveGreater start (steps .insertion start) ∧
    (start.toList.Pairwise (· ≤ ·) →
      (∀ step ∈ steps .bubble start, step.action ≠ "swap") ∧
      ∀ step ∈ steps .insertion start, step.action ≠ "shift") := by
  have hswaps := countOf_bubble start
  have hshifts := countOf_insertion start
  refine ⟨hswaps, hshifts, ?_, ?_, fun hsorted => ?_⟩
  · exact replays_of_isDone (bubble_continues _) (fun _ _ => Bubbles.isDone_greater)
      markStep_doesMoveGreater
  · exact replays_of_isDone (insertion_continues start).1 (fun _ _ => Inserts.isDone_greater)
      markStep_doesMoveGreater
  · rw [← segment_zero, ← sortedOn_iff_pairwise] at hsorted
    rw [inversions_eq_empty hsorted, Finset.card_empty] at hswaps hshifts
    exact ⟨fun _ => action_ne_of_countOf hswaps, fun _ => action_ne_of_countOf hshifts⟩

theorem moves_count_inversions_equals :
    (#v[1, 1, 2] : Vector Int 3).toList.Pairwise (· ≤ ·) ∧
      (∀ step ∈ steps .bubble #v[1, 1, 2], step.action ≠ "swap") ∧
      ∀ step ∈ steps .insertion #v[1, 1, 2], step.action ≠ "shift" :=
  ⟨by decide, (moves_count_inversions #v[1, 1, 2]).2.2.2.2 (by decide)⟩

end Storyboard.Sorting
