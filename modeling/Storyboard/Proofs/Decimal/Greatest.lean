import Storyboard.Decimal.Shortest
import Storyboard.Proofs.Decimal.Rounding

/-!
# Decimals up to the greatest double

The shortest decimal of a double has at most seventeen digits and does not exceed the greatest double
(`shortest_le`).  Such a decimal can be computed in doubles, digits times power of ten, and both
roundings together do not lead to infinity (`exists_value?_mul_power`).
-/

namespace Storyboard.Decimal

open Float.Model (UnpackedFloat totalExponent)
open Float.Model.Format (binary64)
open Float.Model.UnpackedFloat

theorem isInf_eq_false {x : Float} {a : ℚ} (h : value? x = some a) : x.isInf = false := by
  unfold value? at h
  unfold Float.isInf Float.Model.isInf
  cases hx : x.toModel.unpack <;> rw [hx] at h <;> first | rfl | cases h

/-- The greatest double. -/
def greatest : ℕ := (2 ^ 53 - 1) * 2 ^ 971

theorem greatest_eq : (greatest : ℚ) = (2 ^ 53 - 1) * 2 ^ (971 : ℤ) := by
  have hmantissa : ((2 ^ 53 - 1 : ℕ) : ℚ) = 2 ^ 53 - 1 := by norm_num
  rw [greatest, Nat.cast_mul, hmantissa, Nat.cast_pow, Nat.cast_two]
  exact congrArg _ (zpow_natCast 2 971).symm

/-! ## Mantissa and exponent -/

theorem unpackExponent_toNat (b : BitVec 64) :
    (@unpackExponent binary64 b).toNat = b.toNat / 2 ^ 52 % 2 ^ 11 := by
  show (BitVec.extractLsb 62 52 b).toNat = _
  rw [BitVec.extractLsb_toNat, Nat.shiftRight_eq_div_pow]

/-- A finite double has less than the greatest exponent field. -/
theorem exponentField_lt {x : Float} (h : x.isFinite = true) :
    x.toBits.toNat / 2 ^ 52 % 2 ^ 11 < 2047 := by
  have hne : @unpackExponent binary64 x.toBits.toBitVec ≠ -1#11 := by
    intro heq
    have hunpack : x.toModel.unpack = if @unpackMantissa binary64 x.toBits.toBitVec = 0#52 then
        .infinity (Sign.ofBitVec (@unpackSign binary64 x.toBits.toBitVec)) else .notANumber := by
      show UnpackedFloat.unpack binary64 x.toBits.toBitVec = _
      unfold UnpackedFloat.unpack
      exact if_pos heq
    unfold Float.isFinite Float.Model.isFinite at h
    rw [hunpack] at h
    split at h <;> cases h
  have hlt := exponent_toNat_lt hne
  rwa [unpackExponent_toNat] at hlt

theorem Binary.ofFloat_bounds {x : Float} (h : x.isFinite = true) :
    (ofFloat x).mantissa < 2 ^ 53 ∧ (ofFloat x).exponent ≤ 971 := by
  have hlt := exponentField_lt h
  have hfraction : x.toBits.toNat % 2 ^ 52 < 2 ^ 52 := Nat.mod_lt _ (by decide)
  unfold ofFloat
  simp only [Nat.pow_eq]
  split <;> dsimp only <;> constructor <;> omega

/-! ## Grids -/

/-- A power of an integer exponent is a quotient of natural numbers. -/
theorem zpow_eq_div {b : ℕ} (hb : 0 < b) (e : ℤ) :
    (b : ℚ) ^ e = (Nat.pow b e.toNat : ℕ) / (Nat.pow b (-e).toNat : ℕ) := by
  have hne : (b : ℚ) ≠ 0 := Nat.cast_ne_zero.mpr hb.ne'
  rw [Nat.pow_eq, Nat.pow_eq, Nat.cast_pow, Nat.cast_pow, ← zpow_natCast, ← zpow_natCast,
    ← zpow_sub₀ hne]
  congr 1
  omega

namespace Interval

variable {i : Interval} {tie : Tie} {d : ℕ} {e : ℤ}

/-- What lies in an interval does not exceed its upper end. -/
theorem le_of_holds (h : i.holds d e = true) (hpos : 0 < i.denominator) :
    (d : ℚ) * 10 ^ e ≤ (i.numerator + i.above : ℕ) / i.denominator := by
  have hle : d * Nat.pow 10 e.toNat * i.denominator ≤
      (i.numerator + i.above) * Nat.pow 10 (-e).toNat := by
    unfold holds tenPower at h
    dsimp only at h
    split at h <;> simp only [Bool.and_eq_true, decide_eq_true_eq] at h
    · exact h.2
    · exact h.2.le
  have hten : (0 : ℚ) < (Nat.pow 10 (-e).toNat : ℕ) := Nat.cast_pos.mpr (Nat.pow_pos (by decide))
  rw [show (10 : ℚ) = (10 : ℕ) by norm_num, zpow_eq_div (by decide), ← mul_div_assoc,
    div_le_div_iff₀ hten (Nat.cast_pos.mpr hpos)]
  exact_mod_cast hle

/-- A hit on a grid is one of the two neighbours of the value, and lies in the interval. -/
theorem of_onGrid (h : i.onGrid tie e = some d) : i.holds d e = true ∧
    d ≤ i.numerator * (tenPower e).2 / ((tenPower e).1 * i.denominator) + 1 := by
  unfold onGrid at h
  generalize tenPower e = power at h ⊢
  dsimp only at h
  generalize hlower : i.numerator * power.2 / (power.1 * i.denominator) = lower at h ⊢
  split at h
  next hlow hhigh =>
    rw [Bool.and_eq_true] at hlow
    have heither : d = lower ∨ d = lower + 1 := by
      cases tie <;> split_ifs at h <;> cases h <;> simp
    rcases heither with rfl | rfl
    · exact ⟨hlow.1, Nat.le_succ _⟩
    · exact ⟨hhigh, le_rfl⟩
  next hlow _ =>
    rw [Bool.and_eq_true] at hlow
    cases h
    exact ⟨hlow.1, Nat.le_succ _⟩
  next hhigh =>
    cases h
    exact ⟨hhigh, le_rfl⟩
  next => cases h

/-- The search ends on a grid of a number of digits that it tries. -/
theorem exists_onGrid (i : Interval) (tie : Tie) (magnitude : ℤ) (fuel count : ℕ) :
    i.search tie magnitude fuel count = ⟨0, 0⟩ ∨
    ∃ c d, c < count + fuel ∧ i.onGrid tie (magnitude - c) = some d ∧
      i.search tie magnitude fuel count = stripZeros 20 d (magnitude - c) := by
  induction fuel generalizing count with
  | zero => exact Or.inl rfl
  | succ fuel ih =>
    rw [search]
    split
    next d hgrid => exact Or.inr ⟨count, d, by omega, hgrid, rfl⟩
    next =>
      rcases ih (count + 1) with hnone | ⟨c, d, hc, hgrid, hsearch⟩
      · exact Or.inl hnone
      · exact Or.inr ⟨c, d, by omega, hgrid, hsearch⟩

/-! ## Magnitudes -/

theorem lt_powerAbove {n m : ℕ} (fuel start : ℕ) (h : n < m * 10 ^ (start + fuel)) :
    n < m * 10 ^ powerAbove n m fuel start := by
  induction fuel generalizing start with
  | zero => exact h
  | succ fuel ih =>
    rw [powerAbove]
    split
    next hlt => exact hlt
    next => exact ih (start + 1) (by rwa [Nat.add_right_comm, Nat.add_assoc])

theorem powerBelow_lt {n m : ℕ} (fuel start : ℕ) (h : n * 10 ^ start < m) :
    n * 10 ^ powerBelow n m fuel start < m := by
  induction fuel generalizing start with
  | zero => exact h
  | succ fuel ih =>
    rw [powerBelow]
    split
    next hlt => exact ih (start + 1) hlt
    next => exact h

/-- A value has at most as many digits before its point as its magnitude says. -/
theorem lt_magnitude (hpos : 0 < i.denominator) (hlt : i.numerator < i.denominator * 10 ^ (1 + 310)) :
    (i.numerator : ℚ) / i.denominator < 10 ^ i.magnitude := by
  rw [div_lt_iff₀ (Nat.cast_pos.mpr hpos), mul_comm]
  unfold magnitude
  split
  next hsmall =>
    have hbelow := powerBelow_lt 330 0 (by simpa using hsmall)
    have hten : (0 : ℚ) < 10 ^ powerBelow i.numerator i.denominator 330 0 := by positivity
    rw [zpow_neg, zpow_natCast, ← div_eq_mul_inv, lt_div_iff₀ hten]
    exact_mod_cast hbelow
  next =>
    have habove := lt_powerAbove 310 1 hlt
    generalize powerAbove i.numerator i.denominator 310 1 = n at habove ⊢
    clear hlt
    rw [zpow_natCast]
    exact_mod_cast habove

/-- On a grid of that many digits a hit has no more of them, or is the next power of ten. -/
theorem digits_le {c : ℕ} (hpos : 0 < i.denominator) (hlt : i.numerator < i.denominator * 10 ^ (1 + 310))
    (h : i.onGrid tie (i.magnitude - c) = some d) : d ≤ 10 ^ c := by
  refine (of_onGrid h).2.trans ?_
  rw [Nat.add_one_le_iff]
  unfold tenPower
  set e := i.magnitude - c with he
  have hup : 0 < Nat.pow 10 e.toNat := Nat.pow_pos (by decide)
  rw [Nat.div_lt_iff_lt_mul (Nat.mul_pos hup hpos)]
  have hten : (10 : ℚ) ^ i.magnitude = 10 ^ c * 10 ^ e := by
    rw [← zpow_natCast, ← zpow_add₀ (by norm_num)]
    congr 1
    omega
  have hvalue := lt_magnitude hpos hlt
  rw [hten, show (10 : ℚ) ^ e = ((10 : ℕ) : ℚ) ^ e by norm_num, zpow_eq_div (by decide),
    ← mul_div_assoc, div_lt_div_iff₀ (Nat.cast_pos.mpr hpos)
      (Nat.cast_pos.mpr (Nat.pow_pos (by decide))), mul_assoc] at hvalue
  exact_mod_cast hvalue

end Interval

/-! ## The shortest decimal -/

/-- Trailing zeros are moved into the exponent, and the value stays. -/
theorem exists_stripZeros (fuel d : ℕ) (e : ℤ) : ∃ k : ℕ,
    d = (stripZeros fuel d e).digits * 10 ^ k ∧ (stripZeros fuel d e).exponent = e + k := by
  induction fuel generalizing d e with
  | zero => exact ⟨0, (mul_one d).symm, (add_zero e).symm⟩
  | succ fuel ih =>
    rw [stripZeros]
    split
    next hzero =>
      obtain ⟨k, hdigits, hexponent⟩ := ih (d / 10) (e + 1)
      refine ⟨k + 1, ?_, by rw [hexponent]; omega⟩
      rw [beq_iff_eq] at hzero
      rw [pow_succ, ← mul_assoc, ← hdigits]
      omega
    next => exact ⟨0, (mul_one d).symm, (add_zero e).symm⟩

theorem stripZeros_le (fuel d : ℕ) (e : ℤ) : (stripZeros fuel d e).digits ≤ d := by
  obtain ⟨k, hdigits, -⟩ := exists_stripZeros fuel d e
  conv_rhs => rw [hdigits]
  exact Nat.le_mul_of_pos_right _ (Nat.pow_pos (by decide))

theorem stripZeros_value (fuel d : ℕ) (e : ℤ) : ((stripZeros fuel d e).digits : ℚ) *
    10 ^ (stripZeros fuel d e).exponent = d * 10 ^ e := by
  obtain ⟨k, hdigits, hexponent⟩ := exists_stripZeros fuel d e
  conv_rhs => rw [hdigits]
  rw [hexponent, zpow_add₀ (by norm_num), zpow_natCast, Nat.cast_mul, Nat.cast_pow]
  push_cast
  ring

/-- The value of a double, and how far its interval reaches above. -/
theorem Binary.interval_above (b : Binary) : 0 < b.interval.denominator ∧
    ((b.interval.numerator + b.interval.above : ℕ) : ℚ) / b.interval.denominator =
      (b.mantissa + 1 / 2) * 2 ^ b.exponent := by
  have hdown : 0 < scaleDown b.exponent := Nat.pow_pos (by decide)
  refine ⟨Nat.mul_pos (by decide) hdown, ?_⟩
  rw [show (2 : ℚ) = (2 : ℕ) by norm_num, zpow_eq_div (by decide), ← scaleUp, ← scaleDown]
  show ((4 * b.mantissa * scaleUp b.exponent + 2 * scaleUp b.exponent : ℕ) : ℚ) /
    (4 * scaleDown b.exponent : ℕ) = _
  have hne : (scaleDown b.exponent : ℚ) ≠ 0 := Nat.cast_ne_zero.mpr hdown.ne'
  push_cast
  field_simp
  ring

/-- Halfway to the next double, a double below the greatest one does not exceed that. -/
theorem half_above_le {m : ℕ} {q : ℤ} (hm : m < 2 ^ 53) (hq : q ≤ 971)
    (hbelow : ¬ (m = 2 ^ 53 - 1 ∧ q = 971)) : ((m : ℚ) + 1 / 2) * 2 ^ q ≤ greatest := by
  rw [greatest_eq]
  rcases hq.lt_or_eq with hlt | rfl
  · have hpow : (2 : ℚ) ^ q ≤ 2 ^ (970 : ℤ) := zpow_le_zpow_right₀ one_le_two (by omega)
    have hmantissa : (m : ℚ) + 1 / 2 ≤ 2 ^ 53 := by
      have hcast : (m : ℚ) + 1 ≤ 2 ^ 53 := by exact_mod_cast hm
      linarith
    calc ((m : ℚ) + 1 / 2) * 2 ^ q ≤ 2 ^ 53 * 2 ^ (970 : ℤ) :=
          mul_le_mul hmantissa hpow (zpow_pos two_pos q).le (by positivity)
      _ ≤ (2 ^ 53 - 1) * 2 * 2 ^ (970 : ℤ) :=
          mul_le_mul_of_nonneg_right (by norm_num) (zpow_pos two_pos _).le
      _ = (2 ^ 53 - 1) * 2 ^ (971 : ℤ) := by
          rw [mul_assoc, show (971 : ℤ) = 970 + 1 by norm_num, zpow_add_one₀ two_ne_zero]
          ring
  · have hle : m + 2 ≤ 2 ^ 53 := by omega
    have hmantissa : (m : ℚ) + 1 / 2 ≤ 2 ^ 53 - 1 := by
      have hcast : (m : ℚ) + 2 ≤ 2 ^ 53 := by exact_mod_cast hle
      linarith
    exact mul_le_mul_of_nonneg_right hmantissa (zpow_pos two_pos _).le

/-- The decimal of the greatest double. -/
theorem search_greatest (tie : Tie) : let i := (⟨9007199254740991, 971⟩ : Binary).interval
    (i.search tie i.magnitude 17 1).digits = 17976931348623157 ∧
      (i.search tie i.magnitude 17 1).exponent = 292 := by
  cases tie <;> decide +kernel

theorem greatest_decimal_le : 17976931348623157 * 10 ^ 292 ≤ greatest := by decide +kernel

/-- What lies in an interval that ends in range has at most 311 digits before the point. -/
theorem Interval.numerator_lt {i : Interval} (hpos : 0 < i.denominator)
    (hend : ((i.numerator + i.above : ℕ) : ℚ) / i.denominator ≤ greatest) :
    i.numerator < i.denominator * 10 ^ (1 + 310) := by
  rw [div_le_iff₀ (Nat.cast_pos.mpr hpos)] at hend
  have hcast : i.numerator + i.above ≤ greatest * i.denominator := by exact_mod_cast hend
  have hten : greatest < 10 ^ (1 + 310) := by decide +kernel
  calc i.numerator ≤ greatest * i.denominator := by omega
    _ < 10 ^ (1 + 310) * i.denominator := Nat.mul_lt_mul_of_pos_right hten hpos
    _ = i.denominator * 10 ^ (1 + 310) := mul_comm _ _

/-- The shortest decimal of a double has at most seventeen digits, and does not exceed the greatest
double. -/
theorem shortest_le {x : Float} (h : x.isFinite = true) (tie : Tie) :
    (shortest tie x).digits ≤ 10 ^ 17 ∧
      ((shortest tie x).digits : ℚ) * 10 ^ (shortest tie x).exponent ≤ greatest := by
  obtain ⟨hmantissa, hexponent⟩ := Binary.ofFloat_bounds h
  unfold shortest
  generalize Binary.ofFloat x = b at hmantissa hexponent ⊢
  have hzero : ((0 : ℕ) : ℚ) * 10 ^ (0 : ℤ) ≤ greatest := by
    rw [Nat.cast_zero, zero_mul]
    exact Nat.cast_nonneg _
  dsimp only
  split
  next => exact ⟨Nat.zero_le _, hzero⟩
  -- the greatest double is searched by computation; below it half a unit upwards is still in range
  by_cases hlast : b.mantissa = 2 ^ 53 - 1 ∧ b.exponent = 971
  · have hb : b = ⟨9007199254740991, 971⟩ := by
      obtain ⟨m, q⟩ := b
      exact congrArg₂ Binary.mk hlast.1 hlast.2
    obtain ⟨hdigits, hpower⟩ := search_greatest tie
    have hle : ((17976931348623157 * 10 ^ 292 : ℕ) : ℚ) ≤ greatest :=
      Nat.cast_le.mpr greatest_decimal_le
    rw [Nat.cast_mul, Nat.cast_pow, ← zpow_natCast] at hle
    rw [hb, hdigits, hpower]
    exact ⟨by decide, hle⟩
  · obtain ⟨hpos, habove⟩ := b.interval_above
    have hend := half_above_le hmantissa hexponent hlast
    rw [← habove] at hend
    have hlt := Interval.numerator_lt hpos hend
    rcases b.interval.exists_onGrid tie b.interval.magnitude 17 1 with hnone | ⟨c, d, hc, hgrid, hsearch⟩
    · rw [hnone]
      exact ⟨Nat.zero_le _, hzero⟩
    · rw [hsearch, stripZeros_value]
      refine ⟨?_, (Interval.le_of_holds (Interval.of_onGrid hgrid).1 hpos).trans hend⟩
      calc (stripZeros 20 d _).digits ≤ d := stripZeros_le _ _ _
        _ ≤ 10 ^ c := Interval.digits_le hpos hlt hgrid
        _ ≤ 10 ^ 17 := Nat.pow_le_pow_right (by decide) (by omega)

/-! ## Digits times a power of ten -/

/-- The most digits that leave room for a power of ten below the greatest double. -/
def mostDigits (e : ℕ) : ℕ := min (10 ^ 17) (greatest / 10 ^ e)

/-- Rounded both, the most digits and the power of ten have a product that does not overflow. -/
def leavesRoom (e : ℕ) : Bool :=
  match (mostDigits e).toUInt64.toFloat.toModel.unpack,
    (Float.ofScientific 1 false e).toModel.unpack with
  | .finite .positive m f _, .finite .positive n g _ =>
    decide (2 ^ (-g).toNat ≤ n) &&
      decide (m * n * 2 ^ (f + g + 1100).toNat * 2 < (2 ^ 54 - 1) * 2 ^ (971 + 1100))
  | _, _ => false

/-- The small powers of ten are exact, and next to the greatest ones the roundings matter. -/
theorem leavesRoom_of_le {e : ℕ} (h : e ≤ 308) (hends : e ≤ 22 ∨ 291 ≤ e) :
    leavesRoom e = true := by
  have hall : ∀ e ∈ List.range 309, (e ≤ 22 ∨ 291 ≤ e) → leavesRoom e = true := by decide +kernel
  exact hall e (List.mem_range.mpr (by omega)) hends

theorem exists_of_leavesRoom {e : ℕ} (h : leavesRoom e = true) :
    ∃ a b, value? (mostDigits e).toUInt64.toFloat = some a ∧
      value? (Float.ofScientific 1 false e) = some b ∧ 1 ≤ b ∧ a * b < overflow := by
  unfold leavesRoom at h
  split at h
  next m f hm n g hn hx hy =>
    rw [Bool.and_eq_true, decide_eq_true_eq, decide_eq_true_eq] at h
    refine ⟨m * 2 ^ f, n * 2 ^ g, congrArg valueOf? hx, congrArg valueOf? hy, ?_, ?_⟩
    · have hn : (2 : ℚ) ^ (-g).toNat ≤ n := by exact_mod_cast h.1
      calc (1 : ℚ) ≤ 2 ^ (((-g).toNat : ℤ) + g) := one_le_zpow₀ one_le_two (by omega)
        _ = 2 ^ (-g).toNat * 2 ^ g := by rw [zpow_add₀ two_ne_zero, zpow_natCast]
        _ ≤ n * 2 ^ g := mul_le_mul_of_nonneg_right hn (zpow_pos two_pos g).le
    · have hlt := h.2
      have hfull : 2 ^ 54 - 1 = 18014398509481983 := rfl
      rw [hfull] at hlt
      generalize hk : (f + g + 1100).toNat = k at hlt
      generalize hj : 971 + 1100 = j at hlt
      have hscaled : (m * n : ℚ) * 2 ^ k < (2 ^ 53 - 1 / 2) * 2 ^ j := by
        have hcast : (m * n : ℚ) * 2 ^ k * 2 < 18014398509481983 * 2 ^ j := by exact_mod_cast hlt
        linarith
      -- both sides are scaled by a power of two that makes them integers
      calc (m * 2 ^ f * (n * 2 ^ g) : ℚ) = m * n * 2 ^ (f + g) := by
            rw [zpow_add₀ two_ne_zero]
            ring
        _ ≤ m * n * 2 ^ ((k : ℤ) + -1100) := by
            refine mul_le_mul_of_nonneg_left ?_ (by positivity)
            exact zpow_le_zpow_right₀ one_le_two (by omega)
        _ = m * n * 2 ^ k * 2 ^ (-1100 : ℤ) := by
            rw [zpow_add₀ two_ne_zero, zpow_natCast, ← mul_assoc]
        _ < (2 ^ 53 - 1 / 2) * 2 ^ j * 2 ^ (-1100 : ℤ) :=
            mul_lt_mul_of_pos_right hscaled (zpow_pos two_pos _)
        _ = overflow := by
            rw [overflow, mul_assoc, ← zpow_natCast 2 j, ← zpow_add₀ two_ne_zero, ← hj]
            rfl
  next => cases h

theorem ten_pow_lt : 10 ^ 290 < 2 ^ 1023 := by decide +kernel

/-- Between the two, a power of ten is rounded to a number of its own size. -/
theorem exists_power {e : ℕ} (h : 22 < e) (hle : e ≤ 290) :
    ∃ b, value? (Float.ofScientific 1 false e) = some b ∧ 1 ≤ b ∧ b ≤ 2 * 10 ^ e := by
  have hpos : 0 < 1 * 10 ^ e := Nat.mul_pos one_pos (Nat.pow_pos (by decide))
  have hlog : (1 * 10 ^ e).log2 ≤ 1022 := by
    have hpow : 10 ^ e ≤ 10 ^ 290 := Nat.pow_le_pow_right (by decide : 10 > 0) hle
    rw [← one_mul (10 ^ e)] at hpow
    exact Nat.lt_succ_iff.mp ((Nat.log2_lt hpos.ne').mpr (hpow.trans_lt ten_pow_lt))
  have hscientific : Float.ofScientific 1 false e =
      ⟨Float.Model.pack (UnpackedFloat.ofScientific binary64 1 e)⟩ := by
    rw [Float.ofScientific, dif_neg fun hsmall => h.not_ge hsmall.2]
    rfl
  have hrounds := rounds_ofScientific one_pos (by omega) hlog
  obtain ⟨b, hb, hone, hupper⟩ := hrounds.exists_value? hpos
  rw [← hscientific] at hb
  refine ⟨b, hb, hone, hupper.trans_eq ?_⟩
  rw [one_mul, Nat.cast_pow]
  rfl

theorem four_mul_le_greatest : 4 * 10 ^ (17 + 290) ≤ greatest := by decide +kernel

theorem greatest_lt : greatest < 10 ^ (308 + 1) := by decide +kernel

theorem greatest_lt_overflow : (greatest : ℚ) < overflow := by
  rw [greatest_eq, overflow]
  exact mul_lt_mul_of_pos_right (by norm_num) (zpow_pos two_pos _)

/-- What does not exceed the greatest double needs no greater power of ten. -/
theorem exponent_le {n e : ℕ} (hn : 0 < n) (hle : n * 10 ^ e ≤ greatest) : e ≤ 308 := by
  have hpow := ((Nat.le_mul_of_pos_left _ hn).trans hle).trans_lt greatest_lt
  exact Nat.lt_succ_iff.mp ((Nat.pow_lt_pow_iff_right (by decide)).mp hpow)

/-- Digits and a power of ten that do not exceed the greatest double have a product. -/
theorem exists_value?_mul_power {n e : ℕ} (hn : 0 < n) (hdigits : n ≤ 10 ^ 17)
    (hle : n * 10 ^ e ≤ greatest) :
    ∃ c, value? (n.toUInt64.toFloat * Float.ofScientific 1 false e) = some c := by
  have hword : ∀ {m : ℕ}, m ≤ 10 ^ 17 → m < UInt64.size := fun hm => hm.trans_lt (by decide)
  have hrounds := rounds_toFloat hn (hword hdigits)
  obtain ⟨a, ha, hone, hupper⟩ := hrounds.exists_value? hn
  -- near the ends of the range each power is checked; in between there is room for rounding both
  by_cases hends : e ≤ 22 ∨ 291 ≤ e
  · obtain ⟨a', b, ha', hb, hone', hlt⟩ :=
      exists_of_leavesRoom (leavesRoom_of_le (exponent_le hn hle) hends)
    have hmost : n ≤ mostDigits e :=
      le_min hdigits ((Nat.le_div_iff_mul_le (Nat.pow_pos (by decide))).mpr hle)
    have hmono : a ≤ a' := by
      rcases hmost.eq_or_lt with heq | hlt
      · rw [heq] at ha
        exact (Option.some.inj (ha.symm.trans ha')).le
      · exact hrounds.le (rounds_toFloat (hn.trans hlt) (hword (min_le_left _ _))) hn hlt ha ha'
    have hproduct : a * b ≤ a' * b := mul_le_mul_of_nonneg_right hmono (zero_le_one.trans hone')
    exact exists_value?_mul ha hb hone hone' (hproduct.trans_lt hlt)
  · obtain ⟨b, hb, hone', hpower⟩ := exists_power (by omega) (by omega : e ≤ 290)
    have hroom : 2 * n * (2 * 10 ^ e) ≤ greatest := by
      calc 2 * n * (2 * 10 ^ e) = 4 * (n * 10 ^ e) := by ring
        _ ≤ 4 * (10 ^ 17 * 10 ^ 290) := Nat.mul_le_mul_left 4
            (Nat.mul_le_mul hdigits (Nat.pow_le_pow_right (by decide) (by omega)))
        _ = 4 * 10 ^ (17 + 290) := by rw [pow_add]
        _ ≤ greatest := four_mul_le_greatest
    have hproduct : a * b ≤ greatest := by
      calc a * b ≤ 2 * n * (2 * 10 ^ e) :=
            mul_le_mul hupper hpower (zero_le_one.trans hone') (by positivity)
        _ ≤ greatest := by exact_mod_cast hroom
    exact exists_value?_mul ha hb hone hone' (hproduct.trans_lt greatest_lt_overflow)

end Storyboard.Decimal
