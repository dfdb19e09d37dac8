import Mathlib
import Storyboard.Text.Blank
import Storyboard.Text.Case

/-!
# The case tables, held against each other

A table is a set of code points, and a set of code points is a number with a bit for each of them.
That two tables have nothing in common is then one `&&&` of two numbers, where looking through the
one table for every entry of the other would take thousands of comparisons.
-/

namespace Storyboard.Text

/-! ## Sets of bits -/

/-- `count` bits, the lowest one first and each `stride` above the one before. -/
def teeth (stride count : Nat) : Nat := (2 ^ (stride * count) - 1) / (2 ^ stride - 1)

theorem teeth_succ {stride : Nat} (h : 0 < stride) (count : Nat) :
    teeth stride (count + 1) = 2 ^ stride * teeth stride count + 1 := by
  have htwo : 2 ≤ 2 ^ stride := Nat.le_self_pow h.ne' 2
  unfold teeth
  rw [pow_mul, pow_mul, ← Nat.geomSum_eq htwo, ← Nat.geomSum_eq htwo, Finset.sum_range_succ',
    Finset.mul_sum, pow_zero]
  simp only [pow_succ']

theorem testBit_teeth {stride count i : Nat} (h : 0 < stride) (hi : i < count) :
    (teeth stride count).testBit (stride * i) = true := by
  induction count generalizing i with
  | zero => exact absurd hi (Nat.not_lt_zero i)
  | succ count ih =>
    rw [teeth_succ h, Nat.testBit_two_pow_mul_add _ (Nat.one_lt_two_pow h.ne')]
    cases i with
    | zero => rw [Nat.mul_zero, if_pos h]; rfl
    | succ i =>
      have hle : stride ≤ stride * (i + 1) := Nat.le_mul_of_pos_right stride i.succ_pos
      rw [if_neg (Nat.not_lt.mpr hle), Nat.mul_succ, Nat.add_sub_cancel]
      exact ih (Nat.lt_of_succ_lt_succ hi)

/-- The bits of every set of the list. -/
def union (sets : List Nat) : Nat := sets.foldr (· ||| ·) 0

theorem testBit_union {sets : List Nat} {set n : Nat} (hset : set ∈ sets)
    (hn : set.testBit n = true) : (union sets).testBit n = true := by
  induction sets with
  | nil => exact absurd hset List.not_mem_nil
  | cons first rest ih =>
    rw [union, List.foldr_cons, Nat.testBit_or]
    rcases List.mem_cons.mp hset with rfl | hrest
    · rw [hn, Bool.true_or]
    · have hin := ih hrest
      rw [union] at hin
      rw [hin, Bool.or_true]

/-- Sets that are apart share no bit. -/
theorem testBit_of_apart {set other n : Nat} (h : set &&& other = 0)
    (hn : set.testBit n = true) : other.testBit n = false := by
  have hand : (set &&& other).testBit n = false := by rw [h, Nat.zero_testBit]
  rwa [Nat.testBit_and, hn, Bool.true_and] at hand

/-! ## Runs of capitals -/

namespace CaseRun

/-- The code point `n` is a capital of the run. -/
def Covers (run : CaseRun) (n : Nat) : Prop :=
  run.first ≤ n ∧ n ≤ run.last ∧ (n - run.first) % run.stride = 0

/-- The lower case of a capital of the run. -/
def imageAt (run : CaseRun) (n : Nat) : Nat := run.image + (n - run.first)

/-- As many bits from `start` on as the run has capitals, at the distance that these have. -/
def bitsFrom (run : CaseRun) (start : Nat) : Nat :=
  2 ^ start * teeth run.stride ((run.last - run.first) / run.stride + 1)

theorem testBit_bitsFrom {run : CaseRun} {n : Nat} (h : 0 < run.stride) (hn : run.Covers n)
    (start : Nat) : (run.bitsFrom start).testBit (start + (n - run.first)) = true := by
  obtain ⟨hfirst, hlast, hstep⟩ := hn
  have hplace : n - run.first = run.stride * ((n - run.first) / run.stride) :=
    (Nat.mul_div_cancel' (Nat.dvd_of_mod_eq_zero hstep)).symm
  have hcount : (n - run.first) / run.stride < (run.last - run.first) / run.stride + 1 :=
    Nat.lt_succ_of_le (Nat.div_le_div_right (Nat.sub_le_sub_right hlast _))
  unfold bitsFrom
  rw [Nat.testBit_two_pow_mul, Nat.add_sub_cancel_left, hplace, testBit_teeth h hcount]
  simp

end CaseRun

/-- The code points of all runs, from what `start` gives for a run on. -/
def runBits (start : CaseRun → Nat) : Nat :=
  union (caseRuns.toList.map fun run => run.bitsFrom (start run))

/-- The code points of a table of ranges. -/
def rangeBits (table : Array (Nat × Nat)) : Nat :=
  union (table.toList.map fun range => 2 ^ range.1 * teeth 1 (range.2 - range.1 + 1))

theorem testBit_rangeBits {table : Array (Nat × Nat)} {n : Nat} (h : inRanges table n = true) :
    (rangeBits table).testBit n = true := by
  unfold inRanges at h
  obtain ⟨range, hrange, hmem⟩ := Array.any_eq_true'.mp h
  simp only [Bool.and_eq_true, decide_eq_true_eq] at hmem
  refine testBit_union (List.mem_map_of_mem (Array.mem_toList_iff.mpr hrange)) ?_
  have hcount : n - range.1 < range.2 - range.1 + 1 := by omega
  have hbit := testBit_teeth Nat.one_pos hcount
  rw [Nat.one_mul] at hbit
  rw [Nat.testBit_two_pow_mul, hbit]
  simp [hmem.1]

/-! ## What the tables say -/

/-- What the tables are looked through for, once. -/
structure TableFacts : Prop where
  stride : (caseRuns.toList.all fun run => Nat.blt 0 run.stride) = true
  /-- No image is a capital. -/
  avoid : runBits CaseRun.image &&& runBits CaseRun.first = 0
  /-- Nor is it the one capital beside the runs. -/
  dot : (runBits CaseRun.image).testBit 0x130 = false
  /-- Of all images only that of the Kelvin sign is ASCII. -/
  kelvin : runBits CaseRun.image &&& (2 ^ 0x80 - 1) = 2 ^ 0x6B
  image : runBits CaseRun.image &&& rangeBits blankRanges = 0
  capital : runBits CaseRun.first &&& rangeBits blankRanges = 0
  cased : rangeBits casedRanges &&& rangeBits blankRanges = 0
  ignorable : rangeBits caseIgnorableRanges &&& rangeBits blankRanges = 0

set_option maxRecDepth 20000 in
theorem tableFacts : TableFacts where
  stride := by decide +kernel
  avoid := by decide +kernel
  dot := by decide +kernel
  kelvin := by decide +kernel
  image := by decide +kernel
  capital := by decide +kernel
  cased := by decide +kernel
  ignorable := by decide +kernel

theorem testBit_runBits {run : CaseRun} {n : Nat} (hrun : run ∈ caseRuns.toList)
    (hn : run.Covers n) (start : CaseRun → Nat) :
    (runBits start).testBit (start run + (n - run.first)) = true :=
  testBit_union (List.mem_map_of_mem hrun)
    (run.testBit_bitsFrom (Nat.blt_eq.mp (List.all_eq_true.mp tableFacts.stride run hrun)) hn _)

theorem testBit_capital {run : CaseRun} {n : Nat} (hrun : run ∈ caseRuns.toList)
    (hn : run.Covers n) : (runBits CaseRun.first).testBit n = true := by
  have hbit := testBit_runBits hrun hn CaseRun.first
  rwa [Nat.add_sub_of_le hn.1] at hbit

theorem testBit_image {run : CaseRun} {n : Nat} (hrun : run ∈ caseRuns.toList)
    (hn : run.Covers n) : (runBits CaseRun.image).testBit (run.imageAt n) = true :=
  testBit_runBits hrun hn CaseRun.image

theorem eq_kelvin_of_testBit {n : Nat} (h : (runBits CaseRun.image).testBit n = true)
    (hn : n < 0x80) : n = 0x6B := by
  have hbit := congrArg (Nat.testBit · n) tableFacts.kelvin
  simp only [Nat.testBit_and, h, Nat.testBit_two_pow_sub_one, hn, Nat.testBit_two_pow,
    decide_true, Bool.and_true] at hbit
  exact (of_decide_eq_true hbit.symm).symm

end Storyboard.Text
