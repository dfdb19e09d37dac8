import Storyboard.Proofs.Source.Arguments
import Storyboard.Source.Bindings

/-!
# Loops over ranges

A range has the element `start + i * step` for each `i` for which that lies before the stop: below
it when the step is positive, above it when the step is negative (`IsRange`).  These are integers
without a bound; a loop runs over 64-bit ones, and gives up where the next would not fit.  Nothing
is lost there, because the stop fits and so the next element lies behind it (`not_isBefore_add`).
-/

namespace Storyboard.Source

variable {start stop step v : Int}

/-! ## The elements of a range -/

/-- The integer lies before the stop, in the direction of the step. -/
def IsBefore (stop step v : Int) : Prop := (0 < step ∧ v < stop) ∨ (step < 0 ∧ stop < v)

/-- The elements are those of the range, in order. -/
def IsRange (start stop step : Int) (elements : List Int) : Prop :=
  ∀ (i : Nat) (v : Int), elements[i]? = some v ↔ v = start + i * step ∧ IsBefore stop step v

/-- How many elements a range has: its width divided by its step, rounded up. -/
def rangeLength (start stop step : Int) : Nat :=
  if 0 < step then ((stop - start + (step - 1)) / step).toNat
  else ((start - stop + (-step - 1)) / -step).toNat

/-- The elements of a range. -/
def rangeElements (start stop step : Int) : List Int :=
  (List.range (rangeLength start stop step)).map fun i : Nat => start + i * step

/-- A quotient that is rounded up exceeds what times the divisor stays below the dividend. -/
theorem lt_toNat_ediv_iff {width size : Int} (h : 0 < size) (i : Nat) :
    i < ((width + (size - 1)) / size).toNat ↔ i * size < width := by
  have hdiv : (i : Int) + 1 ≤ (width + (size - 1)) / size ↔
      ((i : Int) + 1) * size ≤ width + (size - 1) := Int.le_ediv_iff_mul_le h
  rw [Int.add_mul, Int.one_mul] at hdiv
  omega

theorem lt_rangeLength_iff (h : step ≠ 0) (i : Nat) :
    i < rangeLength start stop step ↔ IsBefore stop step (start + i * step) := by
  unfold rangeLength IsBefore
  by_cases hpos : 0 < step
  · rw [if_pos hpos, lt_toNat_ediv_iff hpos]
    omega
  · have hneg : 0 < -step := by omega
    rw [if_neg hpos, lt_toNat_ediv_iff hneg, Int.mul_neg]
    omega

theorem isRange_rangeElements (h : step ≠ 0) :
    IsRange start stop step (rangeElements start stop step) := by
  intro i v
  have hlength : i < rangeLength start stop step ↔ IsBefore stop step (start + i * step) :=
    lt_rangeLength_iff h i
  rw [rangeElements, List.getElem?_map, Option.map_eq_some_iff]
  constructor
  · intro hv
    obtain ⟨j, hj, rfl⟩ := hv
    obtain ⟨hi, hij⟩ := List.getElem?_eq_some_iff.mp hj
    rw [List.getElem_range] at hij
    subst hij
    rw [List.length_range] at hi
    exact ⟨rfl, hlength.mp hi⟩
  · intro hv
    obtain ⟨rfl, hbefore⟩ := hv
    exact ⟨i, List.getElem?_range (hlength.mpr hbefore), rfl⟩

/-- A range has one list of elements. -/
theorem IsRange.eq {xs ys : List Int} (hxs : IsRange start stop step xs)
    (hys : IsRange start stop step ys) : xs = ys := by
  apply List.ext_getElem?
  intro i
  apply Option.ext
  intro v
  rw [hxs, hys]

/-- Behind its first element a range is the one that starts a step further on. -/
theorem IsRange.cons {rest : List Int} (hstart : IsBefore stop step start)
    (hrest : IsRange (start + step) stop step rest) :
    IsRange start stop step (start :: rest) := by
  intro i v
  cases i with
  | zero =>
    rw [List.getElem?_cons_zero, Option.some.injEq, Int.natCast_zero, Int.zero_mul, Int.add_zero]
    constructor
    · intro hv
      exact ⟨hv.symm, hv ▸ hstart⟩
    · intro hv
      exact hv.1.symm
  | succ i =>
    have hshift : start + step + i * step = start + (i + 1 : Nat) * step := by
      rw [Int.natCast_succ, Int.add_mul, Int.one_mul]
      omega
    rw [List.getElem?_cons_succ, hrest, hshift]

/-- A range that starts at its stop or behind it has no elements. -/
theorem isRange_nil (h : ¬ IsBefore stop step start) : IsRange start stop step [] := by
  intro i v
  constructor
  · intro hv
    exact nomatch hv
  · intro hv
    obtain ⟨rfl, hbefore⟩ := hv
    -- a later element would lie even further behind the stop
    refine absurd ?_ h
    unfold IsBefore at hbefore ⊢
    rcases hbefore with ⟨hpos, hlt⟩ | ⟨hneg, hlt⟩
    · have := Int.mul_nonneg (Int.natCast_nonneg i) (Int.le_of_lt hpos)
      omega
    · have := Int.mul_nonneg (Int.natCast_nonneg i) (Int.neg_nonneg_of_nonpos (Int.le_of_lt hneg))
      rw [Int.mul_neg] at this
      omega

theorem rangeElements_cons (h : IsBefore stop step start) :
    rangeElements start stop step = start :: rangeElements (start + step) stop step := by
  have hstep : step ≠ 0 := by
    unfold IsBefore at h
    omega
  exact (isRange_rangeElements hstep).eq ((isRange_rangeElements hstep).cons h)

theorem rangeElements_eq_nil (hstep : step ≠ 0) (h : ¬ IsBefore stop step start) :
    rangeElements start stop step = [] :=
  (isRange_rangeElements hstep).eq (isRange_nil h)

/-! ## Within 64 bits -/

theorem fitsInt64_iff : Decimal.fitsInt64 v = true ↔ -2 ^ 63 ≤ v ∧ v < 2 ^ 63 := by
  rw [Decimal.fitsInt64, Bool.and_eq_true, decide_eq_true_eq, decide_eq_true_eq,
    Int64.toInt_minValue, Int64.toInt_maxValue]
  omega

theorem fitsInt64_toInt (n : Int64) : Decimal.fitsInt64 n.toInt = true := by
  rw [fitsInt64_iff]
  exact ⟨n.le_toInt, n.toInt_lt⟩

/-- An element that does not fit lies behind the stop, which fits. -/
theorem not_isBefore_add (hstop : Decimal.fitsInt64 stop = true) (hv : Decimal.fitsInt64 v = true)
    (h : ¬ Decimal.fitsInt64 (v + step) = true) : ¬ IsBefore stop step (v + step) := by
  rw [fitsInt64_iff] at hstop hv h
  unfold IsBefore
  omega

/-- Elements from a start that fits on to a stop that fits do so themselves. -/
theorem fitsInt64_of_mem_rangeElements (hstep : step ≠ 0) (hstop : Decimal.fitsInt64 stop = true)
    (hstart : Decimal.fitsInt64 start = true) :
    ∀ n ∈ rangeElements start stop step, Decimal.fitsInt64 n = true := by
  intro n hn
  obtain ⟨i, hi⟩ := List.getElem?_of_mem hn
  obtain ⟨rfl, hbefore⟩ := (isRange_rangeElements hstep i n).mp hi
  rw [fitsInt64_iff] at hstop hstart ⊢
  unfold IsBefore at hbefore
  rcases hbefore with ⟨hpos, hlt⟩ | ⟨hneg, hlt⟩
  · have := Int.mul_nonneg (Int.natCast_nonneg i) (Int.le_of_lt hpos)
    omega
  · have := Int.mul_nonneg (Int.natCast_nonneg i) (Int.neg_nonneg_of_nonpos (Int.le_of_lt hneg))
    rw [Int.mul_neg] at this
    omega

/-- A loop over a range runs over its first elements. -/
theorem rangeValues_eq (hstep : step ≠ 0) (hstop : Decimal.fitsInt64 stop = true) (count : Nat)
    (hv : Decimal.fitsInt64 v = true) :
    rangeValues stop step count v =
      ((rangeElements v stop step).take count).map fun n => .int (Int64.ofInt n) := by
  induction count generalizing v with
  | zero => rfl
  | succ count ih =>
    rw [rangeValues]
    split
    next hbefore =>
      rw [rangeElements_cons hbefore, List.take_succ_cons, List.map_cons]
      by_cases hnext : Decimal.fitsInt64 (v + step) = true
      · rw [if_pos hnext, ih hnext]
      · rw [if_neg hnext, rangeElements_eq_nil hstep (not_isBefore_add hstop hv hnext),
          List.take_nil, List.map_nil]
    next hbefore =>
      rw [rangeElements_eq_nil hstep hbefore]
      rfl

/-- The values are the first 64 elements of a range, exactly as they are among all integers, and
there are none only if the range has none. -/
def ListsRange (values : List Literal) (start stop step : Int) : Prop :=
  IsRange start stop step (rangeElements start stop step) ∧
    ∃ words : List Int64, values = words.map Literal.int ∧
      words.map Int64.toInt = (rangeElements start stop step).take 64 ∧
      (words = [] ↔ rangeElements start stop step = [])

theorem rangeValues_listsRange (hstep : step ≠ 0) (start stop : Int64) :
    ListsRange (rangeValues stop.toInt step maxLoopValues start.toInt) start.toInt stop.toInt
      step := by
  have hfits : ∀ n ∈ (rangeElements start.toInt stop.toInt step).take 64,
      Decimal.fitsInt64 n = true := fun n hn =>
    fitsInt64_of_mem_rangeElements hstep (fitsInt64_toInt stop) (fitsInt64_toInt start) n
      (List.mem_of_mem_take hn)
  refine ⟨isRange_rangeElements hstep,
    ((rangeElements start.toInt stop.toInt step).take 64).map Int64.ofInt, ?_, ?_, ?_⟩
  · rw [rangeValues_eq hstep (fitsInt64_toInt stop) _ (fitsInt64_toInt start), List.map_map]
    rfl
  · rw [List.map_map]
    exact (List.map_congr_left fun n hn => Decimal.toInt_ofInt (hfits n hn)).trans (List.map_id _)
  · rw [List.map_eq_nil_iff, List.take_eq_nil_iff]
    simp

/-! ## Reading a range -/

/-- A range as it is written, with blanks behind its commas. -/
def rangeText (blanks : List Char) (bounds : List Int64) : List Char :=
  "range(".toList ++
    ((',' :: blanks).intercalate (bounds.map fun n => (Decimal.intText n.toInt).toList) ++ [')'])

theorem chars_int (n : Int64) : Literal.chars true (.int n) = (Decimal.intText n.toInt).toList := by
  rw [Literal.chars]

/-- A bound is read as the integer that it writes, whatever is assigned to names. -/
theorem known?_intText (constants : List (List Char × Literal)) (n : Int64) :
    known? constants (Decimal.intText n.toInt).toList = some (.int n) := by
  have hparse : Literal.parse (Decimal.intText n.toInt).toList = .ok (.int n) := by
    rw [← chars_int, ← String.toList_ofList (l := Literal.chars true _)]
    exact Literal.parse_nested (.int n) rfl rfl
  rw [known?, Literal.parse?, hparse]
  rfl

theorem rangeArguments?_rangeText {blanks : List Char}
    (hblanks : ∀ c ∈ blanks, Text.isBlank c = true) (bounds : List Int64) :
    rangeArguments? (rangeText blanks bounds) =
      some (bounds.map fun n => (Decimal.intText n.toInt).toList) := by
  have hargument : ∀ piece ∈ bounds.map fun n => (Decimal.intText n.toInt).toList,
      IsArgument piece := by
    intro piece hpiece
    obtain ⟨n, -, rfl⟩ := List.mem_map.mp hpiece
    rw [← chars_int]
    exact isArgument_chars rfl rfl
  have hclose : ∀ inner : List Char, Text.dropSuffix? [')'] (inner ++ [')']) = some inner :=
    fun inner => Text.dropSuffix?_eq_some_iff.mpr rfl
  have hinside : rangeArguments? (rangeText blanks bounds) =
      (Text.dropSuffix? [')'] ((',' :: blanks).intercalate
        (bounds.map fun n => (Decimal.intText n.toInt).toList) ++ [')'])).bind
          fun inner => some (splitArgs inner) := rfl
  rw [hinside, hclose, Option.bind_some, splitArgs_join hargument hblanks]

theorem trim_rangeText (blanks : List Char) (bounds : List Int64) :
    Text.trim (rangeText blanks bounds) = rangeText blanks bounds :=
  Text.trim_of_isTrimmed (Text.isTrimmed_cons_concat (['a', 'n', 'g', 'e', '('] ++
    (',' :: blanks).intercalate (bounds.map fun n => (Decimal.intText n.toInt).toList)) rfl rfl)

/-- A written range gives the values of the range with those bounds. -/
theorem iterableValues?_rangeText (constants : List (List Char × Literal)) {blanks : List Char}
    (hblanks : ∀ c ∈ blanks, Text.isBlank c = true) (bounds : List Int64) :
    iterableValues? constants (rangeText blanks bounds) = rangeOf? (bounds.map Int64.toInt) := by
  have hbounds : (bounds.map fun n => (Decimal.intText n.toInt).toList).mapM
      (fun arg => (known? constants arg).bind Literal.int?) = some bounds := by
    induction bounds with
    | nil => rfl
    | cons n bounds ih =>
      rw [List.map_cons, List.mapM_cons, known?_intText, ih]
      rfl
  unfold iterableValues?
  dsimp only
  rw [trim_rangeText, rangeArguments?_rangeText hblanks]
  dsimp only
  rw [hbounds]
  rfl

/-- A loop over a written range with a step other than zero runs over the first 64 elements of that
range among all integers; a range without a step goes up by one, and one without a start begins at
zero. -/
theorem iterableValues?_range (constants : List (List Char × Literal)) (blanks : List Char)
    (hblanks : ∀ c ∈ blanks, Text.isBlank c = true) (start stop step : Int64) (hstep : step ≠ 0) :
    (∃ values, iterableValues? constants (rangeText blanks [start, stop, step]) = some values ∧
      ListsRange values start.toInt stop.toInt step.toInt) ∧
    (∃ values, iterableValues? constants (rangeText blanks [start, stop]) = some values ∧
      ListsRange values start.toInt stop.toInt 1) ∧
    ∃ values, iterableValues? constants (rangeText blanks [stop]) = some values ∧
      ListsRange values 0 stop.toInt 1 := by
  have hstep' : step.toInt ≠ 0 := by
    intro hzero
    exact hstep (Int64.toInt_inj.mp hzero)
  simp only [iterableValues?_rangeText constants hblanks, List.map_cons, List.map_nil]
  refine ⟨⟨_, if_neg hstep', rangeValues_listsRange hstep' start stop⟩,
    ⟨_, rfl, rangeValues_listsRange Int.one_ne_zero start stop⟩,
    ⟨_, rfl, rangeValues_listsRange Int.one_ne_zero 0 stop⟩⟩

/-- Ranges that end at the least and at the greatest integer of 64 bits. -/
theorem iterableValues?_range_limits :
    (∃ values, iterableValues? []
        "range(-9223372036854775806, -9223372036854775808, -3)".toList = some values ∧
      ListsRange values (-9223372036854775806) (-9223372036854775808) (-3) ∧
      values.length = 1) ∧
    ∃ values, iterableValues? [] "range(9223372036854775800,9223372036854775807)".toList =
        some values ∧
      ListsRange values 9223372036854775800 9223372036854775807 1 ∧ values.length = 7 := by
  have hblank : ∀ c ∈ [' '], Text.isBlank c = true := List.forall_mem_singleton.mpr rfl
  have hdown := (iterableValues?_range [] [' '] hblank (-9223372036854775806)
    (-9223372036854775808) (-3) (by decide)).1
  have hup := (iterableValues?_range [] [] (List.forall_mem_nil _) 9223372036854775800
    9223372036854775807 1 (by decide)).2.1
  obtain ⟨down, hdownText, hdownRange⟩ := hdown
  obtain ⟨up, hupText, hupRange⟩ := hup
  refine ⟨⟨down, hdownText, hdownRange, ?_⟩, up, hupText, hupRange, ?_⟩
  · obtain ⟨-, words, rfl, hwords, -⟩ := hdownRange
    have hlength := congrArg List.length hwords
    rw [List.length_map] at hlength ⊢
    exact hlength
  · obtain ⟨-, words, rfl, hwords, -⟩ := hupRange
    have hlength := congrArg List.length hwords
    rw [List.length_map] at hlength ⊢
    exact hlength

end Storyboard.Source
