import Storyboard.Queue.DoubleEnded
import Storyboard.Proofs.Literal.Order
import Storyboard.Proofs.Simulation.Answers

/-!
# A double-ended priority queue serves both of its ends

The items stand in increasing order.  So a value splits them into those that are not after it and those
that are (`Splits`), and halving finds the place between the two (`Splits.position_append`), behind all
items that are equal to the value.  Every operation keeps the order, in which the ends are a least and a
greatest item: `Moves` says how a step changes the items, `Tells` which steps answer an operation, and no
item is lost or made twice on the way (`replay_servesBothEnds`).
-/

namespace Storyboard.Queue.DoubleEnded

open scoped List

variable {items lower upper : List Literal} {value : Literal} {cue : Cue Op} {cues : List (Cue Op)}

/-! ## The order of the items -/

/-- No item comes before one that stands before it. -/
def InOrder (items : List Literal) : Prop := items.Pairwise fun a b => ¬ b.before a = true

/-- The first items are not after the value, and the other ones are. -/
structure Splits (value : Literal) (lower upper : List Literal) : Prop where
  notAfter : ∀ item ∈ lower, ¬ value.before item = true
  after : ∀ item ∈ upper, value.before item = true

/-- What every operation keeps: the items are in order, and no double stands in them. -/
structure Sound (items : List Literal) : Prop where
  inOrder : InOrder items
  floatFree : ∀ item ∈ items, item.isFloatFree = true

theorem sound_empty : Sound [] := ⟨.nil, nofun⟩

theorem Sound.sublist {fewer : List Literal} (h : Sound items) (hfewer : fewer.Sublist items) :
    Sound fewer := ⟨h.inOrder.sublist hfewer, fun item hitem => h.floatFree item (hfewer.mem hitem)⟩

/-- A value splits items in order: from the first one on that is after it, all are. -/
theorem Sound.exists_splits (h : Sound items) (hvalue : value.isFloatFree = true) :
    ∃ lower upper, items = lower ++ upper ∧ Splits value lower upper := by
  induction items with
  | nil => exact ⟨[], [], rfl, nofun, nofun⟩
  | cons first rest ih =>
    by_cases hfirst : value.before first = true
    · refine ⟨[], first :: rest, rfl, nofun, List.forall_mem_cons.mpr ⟨hfirst, fun item hitem => ?_⟩⟩
      exact Literal.before_of_not_before hvalue (h.floatFree first List.mem_cons_self)
        (h.floatFree item (List.mem_cons_of_mem first hitem)) hfirst
        ((List.pairwise_cons.mp h.inOrder).1 item hitem)
    · obtain ⟨lower, upper, rfl, hsplits⟩ := ih (h.sublist (List.sublist_cons_self first rest))
      exact ⟨first :: lower, upper, rfl, List.forall_mem_cons.mpr ⟨hfirst, hsplits.notAfter⟩,
        hsplits.after⟩

/-- A value between what is not after it and what is leaves the items in order. -/
theorem Sound.insert (h : Sound (lower ++ upper)) (hvalue : value.isFloatFree = true)
    (hsplits : Splits value lower upper) : Sound (lower ++ value :: upper) := by
  obtain ⟨hlower, hupper, hcross⟩ := List.pairwise_append.mp h.inOrder
  constructor
  · refine List.pairwise_append.mpr ⟨hlower, List.pairwise_cons.mpr ⟨fun item hitem => ?_, hupper⟩, ?_⟩
    · exact Literal.not_before_of_before (hsplits.after item hitem)
    · intro item hitem
      exact List.forall_mem_cons.mpr ⟨hsplits.notAfter item hitem, hcross item hitem⟩
  · obtain ⟨hfreeLower, hfreeUpper⟩ := List.forall_mem_append.mp h.floatFree
    exact List.forall_mem_append.mpr ⟨hfreeLower, List.forall_mem_cons.mpr ⟨hvalue, hfreeUpper⟩⟩

/-! ## Halving -/

/-- Where the items are split, the value tells on which side of the split an item stands. -/
theorem Splits.before_iff (h : Splits value lower upper) {i : Nat} {item : Literal}
    (hitem : (lower ++ upper)[i]? = some item) : value.before item = true ↔ lower.length ≤ i := by
  rcases Nat.lt_or_ge i lower.length with hi | hi
  · rw [List.getElem?_append_left hi] at hitem
    exact iff_of_false (h.notAfter item (List.mem_of_getElem? hitem)) (Nat.not_le.mpr hi)
  · rw [List.getElem?_append_right hi] at hitem
    exact iff_of_true (h.after item (List.mem_of_getElem? hitem)) hi

/-- Halving a range around the split ends at the last item before the split, or at the first of all
items if none stands before it. -/
theorem Splits.lastNotAfter_bounds (h : Splits value lower upper) (fuel base size : Nat)
    (hbase : base = 0 ∨ base < lower.length) (hsplit : lower.length ≤ base + size)
    (hrange : base + size ≤ (lower ++ upper).length) (hsize : 0 < size) (hfuel : size ≤ fuel + 1) :
    ∃ last, lastNotAfter (lower ++ upper) value fuel base size = last ∧
      (last = 0 ∨ last < lower.length) ∧ lower.length ≤ last + 1 ∧
      last < (lower ++ upper).length := by
  induction fuel generalizing base size with
  | zero => exact ⟨base, rfl, hbase, by omega, by omega⟩
  | succ fuel ih =>
    rw [lastNotAfter]
    split
    next hone => exact ⟨base, rfl, hbase, by omega, by omega⟩
    next hmany =>
      have hmiddle : base + size / 2 < (lower ++ upper).length := by omega
      have hread := List.getElem?_eq_getElem hmiddle
      have hside := h.before_iff hread
      simp only [hread]
      split
      next hbefore =>
        -- the split is at the middle or before it
        have hcut := hside.mp hbefore
        exact ih base _ hbase (by omega) (by omega) (by omega) (by omega)
      next hbefore =>
        have hcut := Nat.lt_of_not_le fun hle => hbefore (hside.mpr hle)
        exact ih (base + size / 2) _ (Or.inr hcut) (by omega) (by omega) (by omega) (by omega)

/-- A value belongs where it splits the items. -/
theorem Splits.position_append (h : Splits value lower upper) :
    position (lower ++ upper) value = lower.length := by
  rw [position]
  rcases Nat.eq_zero_or_pos (lower ++ upper).length with hnone | hsome
  · obtain ⟨rfl, rfl⟩ := List.append_eq_nil_iff.mp (List.length_eq_zero_iff.mp hnone)
    rfl
  · obtain ⟨last, hlast, hfirst, hsplit, hrange⟩ :=
      h.lastNotAfter_bounds (lower ++ upper).length 0 (lower ++ upper).length (Or.inl rfl)
        (by rw [List.length_append]; omega) (Nat.le_of_eq (Nat.zero_add _)) hsome (Nat.le_succ _)
    have hread := List.getElem?_eq_getElem hrange
    have hside := h.before_iff hread
    simp only [hlast, hread]
    split
    next hbefore =>
      have hcut := hside.mp hbefore
      omega
    next hbefore =>
      have hcut := Nat.lt_of_not_le fun hle => hbefore (hside.mpr hle)
      omega

theorem insertIdx_length_append (lower upper : List Literal) (value : Literal) :
    (lower ++ upper).insertIdx lower.length value = lower ++ value :: upper := by
  induction lower with
  | nil => rfl
  | cons first rest ih =>
    rw [List.cons_append, List.length_cons, List.insertIdx_succ_cons, ih, List.cons_append]

/-! ## The ends -/

/-- The items with a value more at an end. -/
def End.put (value : Literal) (items : List Literal) : End → List Literal
  | least => value :: items
  | greatest => items ++ [value]

/-- No item is further to an end than the value. -/
def End.Bounds (value : Literal) (items : List Literal) : End → Prop
  | least => ∀ item ∈ items, ¬ item.before value = true
  | greatest => ∀ item ∈ items, ¬ value.before item = true

theorem End.eq_nil_or_put (at_ : End) (items : List Literal) :
    items = [] ∨ ∃ value rest, items = at_.put value rest := by
  cases at_ with
  | least =>
    cases items with
    | nil => exact Or.inl rfl
    | cons value rest => exact Or.inr ⟨value, rest, rfl⟩
  | greatest =>
    rcases List.eq_nil_or_concat' items with rfl | ⟨rest, value, rfl⟩
    · exact Or.inl rfl
    · exact Or.inr ⟨value, rest, rfl⟩

theorem End.item?_put (at_ : End) (value : Literal) (items : List Literal) :
    at_.item? (at_.put value items) = some value := by
  cases at_ with
  | least => rfl
  | greatest => exact List.getLast?_concat

theorem End.rest_put (at_ : End) (value : Literal) (items : List Literal) :
    at_.rest (at_.put value items) = items := by
  cases at_ with
  | least => rfl
  | greatest => exact List.dropLast_concat

theorem End.item?_nil (at_ : End) : at_.item? [] = none := by cases at_ <;> rfl

theorem End.put_perm (at_ : End) (value : Literal) (items : List Literal) :
    at_.put value items ~ items ++ [value] := by
  cases at_ with
  | least => exact (List.perm_append_singleton value items).symm
  | greatest => exact .refl _

theorem End.sublist_put (at_ : End) (value : Literal) (items : List Literal) :
    items.Sublist (at_.put value items) := by
  cases at_ with
  | least => exact List.sublist_cons_self value items
  | greatest => exact List.sublist_append_left items [value]

theorem End.mem_put (at_ : End) (value : Literal) (items : List Literal) :
    value ∈ at_.put value items :=
  (at_.put_perm value items).mem_iff.mpr (List.mem_append_right _ List.mem_cons_self)

/-- Of items in order the one at an end is an extreme one. -/
theorem InOrder.bounds {at_ : End} (h : InOrder (at_.put value items)) :
    at_.Bounds value (at_.put value items) := by
  cases at_ with
  | least =>
    exact List.forall_mem_cons.mpr ⟨Literal.not_before_self value, (List.pairwise_cons.mp h).1⟩
  | greatest =>
    refine List.forall_mem_append.mpr ⟨fun item hitem => ?_, List.forall_mem_singleton.mpr ?_⟩
    · exact (List.pairwise_append.mp h).2.2 item hitem value List.mem_cons_self
    · exact Literal.not_before_self value

/-! ## What a step does -/

/-- What a step does to the items. -/
inductive Moves : List Literal → Step → List Literal → Prop
  | insert {step : Step} {value : Literal} {lower upper : List Literal}
      (splits : Splits value lower upper) (action : step.action = "insert")
      (told : step.value = some value.toJson)
      (index : step.extra.lookup "index" = some (.ofNat lower.length)) :
      Moves (lower ++ upper) step (lower ++ value :: upper)
  | remove {step : Step} {value : Literal} {items : List Literal} (at_ : End)
      (extreme : at_.Bounds value (at_.put value items)) (action : step.action = at_.removal)
      (told : step.value = some value.toJson) : Moves (at_.put value items) step items
  | peek {step : Step} {value : Literal} {items : List Literal} (at_ : End)
      (held : value ∈ items) (extreme : at_.Bounds value items) (action : step.action = at_.look)
      (told : step.value = some value.toJson) : Moves items step items
  | underflow {step : Step} (action : step.action = "underflow") : Moves [] step []

/-- The step shows the items and both ends. -/
structure Shows (step : Step) (items : List Literal) : Prop where
  heap : step.heap = some (Literal.jsonItems items)
  content : step.vars.lookup "items" = some (.arr (Literal.jsonItems items))
  min : step.vars.lookup "min" = some (Literal.toJson? items.head?)
  max : step.vars.lookup "max" = some (Literal.toJson? items.getLast?)

/-- The step moves the items as its action says, and shows them as they are afterwards, in order. -/
structure Obeys (before : List Literal) (step : Step) (after : List Literal) : Prop where
  moves : Moves before step after
  shows : Shows step after
  inOrder : InOrder after

/-- The operation looks for an item. -/
def Op.needsItem : Op → Bool
  | insert _ => false
  | remove _ | peek _ => true

/-- The steps that tell of an operation. -/
inductive Tells : List Literal → Op → List Step → Prop
  | insert {items : List Literal} {value : Literal} {step : Step} (action : step.action = "insert")
      (told : step.value = some value.toJson) : Tells items (.insert value) [step]
  | remove {items : List Literal} {at_ : End} {step : Step} (held : items ≠ [])
      (action : step.action = at_.removal) : Tells items (.remove at_) [step]
  | peek {items : List Literal} {at_ : End} {step : Step} (held : items ≠ [])
      (action : step.action = at_.look) : Tells items (.peek at_) [step]
  | underflow {op : Op} {step : Step} (needs : op.needsItem = true)
      (action : step.action = "underflow") : Tells [] op [step]

theorem snapshot_shows (items : List Literal) (line : Nat) (action description : String) :
    Shows (snapshot items line action description) items := ⟨rfl, rfl, rfl, rfl⟩

theorem Shows.withValue {step : Step} (h : Shows step items) (value : Json) :
    Shows (step.withValue value) items := ⟨h.heap, h.content, h.min, h.max⟩

theorem Shows.withExtra {step : Step} (h : Shows step items) (name : String) (value : Json) :
    Shows (step.withExtra name value) items := ⟨h.heap, h.content, h.min, h.max⟩

/-! ## Performing an operation -/

/-- The value of the operation, if it has one, holds no double. -/
def Op.isFloatFree : Op → Bool
  | insert value => value.isFloatFree
  | remove _ | peek _ => true

/-- The value that an operation puts in. -/
def insertion? (cue : Cue Op) : Option Literal :=
  match cue.op with
  | .insert value => some value
  | _ => none

/-- The value that an operation takes out of the items. -/
def removal? (items : List Literal) (cue : Cue Op) : Option Literal :=
  match cue.op with
  | .remove at_ => at_.item? items
  | _ => none

/-- What an operation makes of items in order: it is answered, leaves them in order, and leaves and
takes out what was there and what it puts in. -/
structure Serves (items : List Literal) (cue : Cue Op) : Prop where
  sound : Sound (perform items cue).1
  answer : Answer Obeys Tells items cue.op (perform items cue).2 (perform items cue).1
  balance : (perform items cue).1 ++ (removal? items cue).toList ~ items ++ (insertion? cue).toList

theorem serves_insert (h : Sound items) (hvalue : value.isFloatFree = true) (line : Nat) :
    Serves items ⟨line, .insert value⟩ := by
  obtain ⟨lower, upper, rfl, hsplits⟩ := h.exists_splits hvalue
  have hgrown : (lower ++ upper).insertIdx (position (lower ++ upper) value) value =
      lower ++ value :: upper := by
    rw [hsplits.position_append, insertIdx_length_append]
  have hsound := h.insert hvalue hsplits
  constructor
  · simpa only [perform, hgrown] using hsound
  · simp only [perform, hgrown]
    refine .single (.insert rfl rfl) ⟨.insert hsplits rfl rfl ?_, ?_, hsound.inOrder⟩
    · rw [hsplits.position_append]
      rfl
    · exact ((snapshot_shows _ line _ _).withValue _).withExtra _ _
  · simp only [perform, hgrown]
    show (lower ++ value :: upper) ++ [] ~ (lower ++ upper) ++ [value]
    rw [List.append_nil]
    exact List.perm_middle.trans (List.perm_append_singleton _ _).symm

/-- An operation that looks for an item of an empty queue underflows. -/
theorem serves_underflow {op : Op} (hneeds : op.needsItem = true) (line : Nat)
    (hperform : perform [] ⟨line, op⟩ = ([], [snapshot [] line "underflow" "Queue is empty"])) :
    Serves [] ⟨line, op⟩ := by
  constructor <;> rw [hperform]
  · exact sound_empty
  · exact .single (.underflow hneeds rfl) ⟨.underflow rfl, snapshot_shows _ line _ _, .nil⟩
  · cases op with
    | insert value => nomatch hneeds
    | remove at_ => cases at_ <;> exact .refl _
    | peek at_ => exact .refl _

theorem serves_remove (h : Sound items) (at_ : End) (line : Nat) :
    Serves items ⟨line, .remove at_⟩ := by
  rcases at_.eq_nil_or_put items with rfl | ⟨value, rest, rfl⟩
  · exact serves_underflow rfl line (by simp only [perform, at_.item?_nil])
  · have hleft := h.sublist (at_.sublist_put value rest)
    constructor <;> simp only [perform, at_.item?_put, at_.rest_put]
    · exact hleft
    · exact .single (.remove (List.ne_nil_of_mem (at_.mem_put value rest)) rfl)
        ⟨.remove at_ h.inOrder.bounds rfl rfl, (snapshot_shows _ line _ _).withValue _, hleft.inOrder⟩
    · simp only [removal?, insertion?, at_.item?_put, Option.toList, List.append_nil]
      exact (at_.put_perm value rest).symm

theorem serves_peek (h : Sound items) (at_ : End) (line : Nat) : Serves items ⟨line, .peek at_⟩ := by
  rcases at_.eq_nil_or_put items with rfl | ⟨value, rest, rfl⟩
  · exact serves_underflow rfl line (by simp only [perform, at_.item?_nil])
  · have hheld := at_.mem_put value rest
    constructor <;> simp only [perform, at_.item?_put]
    · exact h
    · exact .single (.peek (List.ne_nil_of_mem hheld) rfl)
        ⟨.peek at_ hheld h.inOrder.bounds rfl rfl, (snapshot_shows _ line _ _).withValue _, h.inOrder⟩
    · exact .refl _

/-- Every operation without a double is served by items in order. -/
theorem serves_of_sound (h : Sound items) (hcue : cue.op.isFloatFree = true) : Serves items cue := by
  obtain ⟨line, op⟩ := cue
  cases op with
  | insert value => exact serves_insert h hcue line
  | remove at_ => exact serves_remove h at_ line
  | peek at_ => exact serves_peek h at_ line

/-! ## Runs -/

/-- The values that the operations put in. -/
def inserted (cues : List (Cue Op)) : List Literal := cues.flatMap fun cue => (insertion? cue).toList

/-- The values that the removals take out, each out of the items that it meets. -/
def removed (cues : List (Cue Op)) : List Literal :=
  gathered perform (fun items cue => (removal? items cue).toList) [] cues

/-- What operations on an empty queue come to. -/
structure ServesBothEnds (cues : List (Cue Op)) : Prop where
  /-- The steps answer the operations one after the other, and show the items in order at any time. -/
  answers : Answers Obeys Tells [] (cues.map Cue.op) (replay perform [] cues).2
    (replay perform [] cues).1
  /-- What is left and what was removed is what was inserted. -/
  conserved : (replay perform [] cues).1 ++ removed cues ~ inserted cues

/-- Whatever is inserted, removed and looked at, doubles apart, the queue serves both ends. -/
theorem replay_servesBothEnds (cues : List (Cue Op))
    (hcues : ∀ cue ∈ cues, cue.op.isFloatFree = true) : ServesBothEnds cues := by
  have hserves : ∀ cue ∈ cues, ∀ items, Sound items → Serves items cue :=
    fun cue hcue items h => serves_of_sound h (hcues cue hcue)
  have hanswers := replay_answers Sound id
    (fun cue hcue items h => ⟨(hserves cue hcue items h).sound, (hserves cue hcue items h).answer⟩)
    [] sound_empty
  have hconserved := replay_conserves Sound id (fun items cue => (removal? items cue).toList)
    (fun cue => (insertion? cue).toList)
    (fun cue hcue items h => ⟨(hserves cue hcue items h).sound, (hserves cue hcue items h).balance⟩)
    [] sound_empty
  exact ⟨hanswers, hconserved⟩

/-- Equal values, a look and removals at both ends, and a removal and a look too many. -/
def bothEnds : List (Cue Op) :=
  [⟨1, .insert (.int 5)⟩, ⟨2, .insert (.text "a")⟩, ⟨3, .insert (.int 5)⟩,
    ⟨4, .insert (.list [.int 1, .none])⟩, ⟨5, .peek .greatest⟩, ⟨6, .remove .greatest⟩,
    ⟨7, .remove .least⟩, ⟨8, .remove .greatest⟩, ⟨9, .remove .least⟩, ⟨10, .remove .least⟩,
    ⟨11, .peek .least⟩]

theorem replay_servesBothEnds_underflow :
    (∀ cue ∈ bothEnds, cue.op.isFloatFree = true) ∧
      (replay perform [] bothEnds).2.map Step.action =
        ["insert", "insert", "insert", "insert", "peek_max", "delete_max", "delete_min", "delete_max",
          "delete_min", "underflow", "underflow"] ∧
      removed bothEnds = [.list [.int 1, .none], .int 5, .text "a", .int 5] ∧
      ServesBothEnds bothEnds := by
  have hcues : ∀ cue ∈ bothEnds, cue.op.isFloatFree = true := by decide
  exact ⟨hcues, by decide +kernel, by rfl, replay_servesBothEnds bothEnds hcues⟩

end Storyboard.Queue.DoubleEnded
