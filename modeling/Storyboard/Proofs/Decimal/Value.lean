import Storyboard.Proofs.Decimal.FloatOrder

/-!
# The numbers that doubles stand for

A finite double stands for a dyadic number, and has the mantissa and the exponent that its format asks
for (`IsCanonical`).  So the order of doubles is that of their numbers, and a sum is exact as soon as some
double stands for it (`value?_add`).
-/

namespace Storyboard.Decimal

open Float.Model (UnpackedFloat totalExponent)
open Float.Model.Format (binary64)
open Float.Model.UnpackedFloat

/-- The number that a double stands for; an infinity stands for none. -/
def valueOf? : UnpackedFloat → Option ℚ
  | .zero _ => some 0
  | .finite sign mantissa exponent _ => some (sign.apply mantissa * 2 ^ exponent)
  | _ => none

/-- The number that a double stands for. -/
def value? (x : Float) : Option ℚ := valueOf? x.toModel.unpack

/-! ## Canonical mantissas and exponents -/

/-- The mantissa fills its bits, unless the exponent is the least one. -/
structure IsCanonical (mantissa : ℕ) (exponent : ℤ) : Prop where
  pos : 0 < mantissa
  lt : mantissa < 2 ^ 53
  least : -1074 ≤ exponent
  most : exponent ≤ 971
  full : 2 ^ 52 ≤ mantissa ∨ exponent = -1074

variable {m n : ℕ} {e f : ℤ}

/-- A normal mantissa has a one before the bits that are stored. -/
theorem toNat_one_append (b : BitVec 52) : (1#1 ++ b).toNat = 2 ^ 52 + b.toNat := by
  rw [BitVec.toNat_append, ← Nat.shiftLeft_add_eq_or_of_lt b.isLt]
  rfl

/-- The exponent field of what is no infinity. -/
theorem exponent_toNat_lt {b : BitVec 11} (h : b ≠ -1#11) : b.toNat < 2047 := by
  have hlt := b.isLt
  have hne : b.toNat ≠ 2047 := fun heq => h (BitVec.eq_of_toNat_eq heq)
  omega

theorem exponent_toNat_pos {b : BitVec 11} (h : b ≠ 0#11) : 0 < b.toNat :=
  Nat.pos_of_ne_zero fun heq => h (BitVec.eq_of_toNat_eq heq)

theorem isCanonical_of_unpack {b : BitVec 64} {sign : Sign} {h : 0 < m}
    (hb : UnpackedFloat.unpack binary64 b = .finite sign m e h) : IsCanonical m e := by
  have hmantissa : (@unpackMantissa binary64 b).toNat < 2 ^ 52 :=
    (@unpackMantissa binary64 b).isLt
  unfold UnpackedFloat.unpack at hb
  dsimp only at hb
  split at hb
  next => split at hb <;> cases hb
  next hfinite =>
    split at hb
    next hsubnormal =>
      split at hb
      next => cases hb
      next =>
        cases hb
        rw [hsubnormal]
        exact ⟨h, by omega, by decide, by decide, Or.inr (by decide)⟩
    next hnormal =>
      cases hb
      -- a normal double has a leading one in front of the bits of its mantissa
      have hlt := exponent_toNat_lt hfinite
      have hpos := exponent_toNat_pos hnormal
      have hbias : (binary64.exponentBias : ℤ) + (52 : ℕ) = 1075 := by decide
      have happend := toNat_one_append (@unpackMantissa binary64 b)
      rw [hbias]
      refine ⟨h, ?_, ?_, ?_, Or.inl ?_⟩ <;> omega

theorem unpackSign_packComponents (sign : Sign) (exponent : BitVec 11) (mantissa : BitVec 52) :
    unpackSign (packComponents binary64 sign exponent mantissa) = sign.toBitVec := by
  have hbit : (packComponents binary64 sign exponent mantissa).getLsbD 63 =
      sign.toBitVec.getLsbD 0 := by
    show (sign.toBitVec ++ exponent ++ mantissa).getLsbD 63 = _
    rw [BitVec.getLsbD_append, BitVec.getLsbD_append]
    rfl
  apply BitVec.eq_of_getLsbD_eq
  intro i hi
  obtain rfl : i = 0 := by omega
  rw [← hbit]
  simp [unpackSign]

theorem ofBitVec_toBitVec (sign : Sign) : Sign.ofBitVec sign.toBitVec = sign := by
  cases sign <;> rfl

theorem finite_congr {sign : Sign} {hm : 0 < m} {hn : 0 < n} (hmantissa : m = n)
    (hexponent : e = f) : UnpackedFloat.finite sign m e hm = .finite sign n f hn := by
  subst hmantissa hexponent
  rfl

theorem unpack_normal (sign : Sign) {exponent : BitVec 11} {mantissa : BitVec 52}
    (hfinite : exponent ≠ -1#11) (hnormal : exponent ≠ 0#11)
    (hpos : 0 < (1#1 ++ mantissa).toNat) :
    UnpackedFloat.unpack binary64 (packComponents binary64 sign exponent mantissa) =
      .finite sign (1#1 ++ mantissa).toNat (exponent.toNat - 1075) hpos := by
  unfold UnpackedFloat.unpack
  simp only [unpackMantissa_packComponents, unpackExponent_packComponents,
    unpackSign_packComponents, ofBitVec_toBitVec]
  rw [if_neg hfinite, if_neg hnormal]
  rfl

theorem unpack_subnormal (sign : Sign) {mantissa : BitVec 52} (hpos : 0 < mantissa.toNat) :
    UnpackedFloat.unpack binary64 (packComponents binary64 sign 0#11 mantissa) =
      .finite sign mantissa.toNat (-1074) hpos := by
  have hne : mantissa ≠ 0#52 := by
    rintro rfl
    exact absurd hpos (by decide)
  unfold UnpackedFloat.unpack
  simp only [unpackMantissa_packComponents, unpackExponent_packComponents,
    unpackSign_packComponents, ofBitVec_toBitVec]
  rw [if_neg (by decide), if_pos trivial, dif_neg hne]
  rfl

theorem unpack_pack_zero (sign : Sign) :
    (Float.Model.pack (.zero sign)).unpack = .zero sign := by
  cases sign <;> rfl

/-- A canonical double is read back from its bits. -/
theorem unpack_pack_finite (h : IsCanonical m e) (sign : Sign) :
    (Float.Model.pack (.finite sign m e h.pos)).unpack = .finite sign m e h.pos := by
  show UnpackedFloat.unpack binary64 (UnpackedFloat.pack binary64 _) = _
  obtain ⟨hpos, hlt, hleast, hmost, hfull⟩ := h
  have hbias : e + (binary64.exponentBias : ℤ) + (52 : ℕ) = e + 1075 := by
    have hbias : (binary64.exponentBias : ℤ) + (52 : ℕ) = 1075 := by decide
    omega
  have hlog : m.log2 + 1 = binary64.mantissaBits ↔ 2 ^ 52 ≤ m := by
    have hbits : binary64.mantissaBits = 53 := rfl
    have hle : 52 ≤ m.log2 ↔ 2 ^ 52 ≤ m := Nat.le_log2 hpos.ne'
    have hlog := (Nat.log2_lt hpos.ne').mpr hlt
    omega
  unfold UnpackedFloat.pack
  dsimp only
  rw [hbias, if_neg (by omega)]
  -- a full mantissa is packed with its biased exponent, any other one with the exponent zero
  by_cases hnormal : 2 ^ 52 ≤ m
  · rw [if_pos (hlog.mpr hnormal)]
    have hexponent : (BitVec.ofNat 11 (e + 1075).toNat).toNat = (e + 1075).toNat := by
      rw [BitVec.toNat_ofNat, Nat.mod_eq_of_lt (by omega)]
    have hmantissa : (BitVec.ofNat 52 m).toNat = m - 2 ^ 52 := by
      rw [BitVec.toNat_ofNat]
      omega
    have happend := toNat_one_append (BitVec.ofNat 52 m)
    rw [unpack_normal sign ?_ ?_ (by omega)]
    · exact finite_congr (by omega) (by omega)
    · intro heq
      rw [heq] at hexponent
      have : (-1#11).toNat = 2047 := by decide
      omega
    · intro heq
      rw [heq] at hexponent
      have : (0#11).toNat = 0 := by decide
      omega
  · rw [if_neg (mt hlog.mp hnormal)]
    have hmantissa : (BitVec.ofNat 52 m).toNat = m := by
      rw [BitVec.toNat_ofNat, Nat.mod_eq_of_lt (by omega)]
    rw [unpack_subnormal sign (by omega)]
    exact finite_congr hmantissa (by omega)

/-! ## Order -/

theorem magnitude_pos (h : 0 < m) (e : ℤ) : (0 : ℚ) < m * 2 ^ e :=
  mul_pos (Nat.cast_pos.mpr h) (zpow_pos two_pos e)

/-- The exponent decides, and at one exponent the mantissa. -/
theorem magnitude_lt (h : IsCanonical m e) (h' : IsCanonical n f)
    (hlex : e < f ∨ e = f ∧ m < n) : (m : ℚ) * 2 ^ e < n * 2 ^ f := by
  rcases hlex with hlt | ⟨rfl, hlt⟩
  · -- the exponent is not the least one, so the mantissa is full
    have hfull : 2 ^ 52 ≤ n := h'.full.resolve_right (by have := h.least; omega)
    have hpow : (2 : ℚ) ^ (e + 1) ≤ 2 ^ f := zpow_le_zpow_right₀ one_le_two (by omega)
    have hm : (m : ℚ) < 2 ^ 53 := by exact_mod_cast h.lt
    have hn : (2 : ℚ) ^ 52 ≤ n := by exact_mod_cast hfull
    calc (m : ℚ) * 2 ^ e < 2 ^ 53 * 2 ^ e := mul_lt_mul_of_pos_right hm (zpow_pos two_pos e)
      _ = 2 ^ 52 * 2 ^ (e + 1) := by rw [zpow_add_one₀ two_ne_zero]; ring
      _ ≤ n * 2 ^ f := mul_le_mul hn hpow (zpow_pos two_pos _).le (Nat.cast_nonneg n)
  · exact mul_lt_mul_of_pos_right (Nat.cast_lt.mpr hlt) (zpow_pos two_pos e)

/-- What is finite is canonical. -/
def Canonical : UnpackedFloat → Prop
  | .finite _ mantissa exponent _ => IsCanonical mantissa exponent
  | _ => True

theorem canonical_unpack (x : Float) : Canonical x.toModel.unpack := by
  cases h : x.toModel.unpack with
  | finite => exact isCanonical_of_unpack h
  | _ => trivial

theorem compare_magnitude (h : IsCanonical m e) (h' : IsCanonical n f) :
    compare ((m : ℚ) * 2 ^ e) (n * 2 ^ f) = (compare e f).then (compare m n) := by
  rcases lt_trichotomy e f with hlt | rfl | hgt
  · rw [compare_lt_iff_lt.mpr hlt, compare_lt_iff_lt.mpr (magnitude_lt h h' (Or.inl hlt))]
    rfl
  · rw [compare_eq_iff_eq.mpr rfl, Ordering.eq_then]
    rcases lt_trichotomy m n with hlt | rfl | hgt
    · rw [compare_lt_iff_lt.mpr hlt, compare_lt_iff_lt.mpr (magnitude_lt h h' (Or.inr ⟨rfl, hlt⟩))]
    · rw [compare_eq_iff_eq.mpr rfl, compare_eq_iff_eq.mpr rfl]
    · rw [compare_gt_iff_gt.mpr hgt, compare_gt_iff_gt.mpr (magnitude_lt h' h (Or.inr ⟨rfl, hgt⟩))]
  · rw [compare_gt_iff_gt.mpr hgt, compare_gt_iff_gt.mpr (magnitude_lt h' h (Or.inl hgt))]
    rfl

/-- A finite double stands for its magnitude or for the opposite. -/
theorem eq_neg_or_eq {sign : Sign} {h : 0 < m} {a : ℚ}
    (ha : valueOf? (.finite sign m e h) = some a) :
    sign = .negative ∧ a = -(m * 2 ^ e) ∨ sign = .positive ∧ a = m * 2 ^ e := by
  cases ha
  cases sign with
  | negative =>
    left
    simp [Sign.apply]
  | positive =>
    right
    simp [Sign.apply]

/-- Doubles that stand for numbers are compared as the numbers are. -/
theorem compare_eq_compare_value {x y : UnpackedFloat} {a b : ℚ} (hx : Canonical x)
    (hy : Canonical y) (ha : valueOf? x = some a) (hb : valueOf? y = some b) :
    x.compare y = some (compare a b) := by
  -- signs decide, and only of numbers with one sign the magnitudes are compared
  cases x with
  | infinity => cases ha
  | notANumber => cases ha
  | zero =>
    cases ha
    cases y with
    | infinity => cases hb
    | notANumber => cases hb
    | zero =>
      cases hb
      rfl
    | finite sign n f hn =>
      have hpos := magnitude_pos hn f
      rcases eq_neg_or_eq hb with ⟨rfl, rfl⟩ | ⟨rfl, rfl⟩
      · rw [compare_gt_iff_gt.mpr (neg_lt_zero.mpr hpos)]
        rfl
      · rw [compare_lt_iff_lt.mpr hpos]
        rfl
  | finite sign m e hm =>
    have hpos := magnitude_pos hm e
    cases y with
    | infinity => cases hb
    | notANumber => cases hb
    | zero =>
      cases hb
      rcases eq_neg_or_eq ha with ⟨rfl, rfl⟩ | ⟨rfl, rfl⟩
      · rw [compare_lt_iff_lt.mpr (neg_lt_zero.mpr hpos)]
        rfl
      · rw [compare_gt_iff_gt.mpr hpos]
        rfl
    | finite sign' n f hn =>
      have hpos' := magnitude_pos hn f
      rcases eq_neg_or_eq ha with ⟨rfl, rfl⟩ | ⟨rfl, rfl⟩ <;>
        rcases eq_neg_or_eq hb with ⟨rfl, rfl⟩ | ⟨rfl, rfl⟩
      · rw [compare_neg, compare_magnitude hx hy]
        rfl
      · rw [compare_lt_iff_lt.mpr ((neg_lt_zero.mpr hpos).trans hpos')]
        rfl
      · rw [compare_gt_iff_gt.mpr ((neg_lt_zero.mpr hpos').trans hpos)]
        rfl
      · rw [compare_magnitude hx hy]
        rfl

variable {x y z : Float} {a b : ℚ}

theorem lt_iff_value_lt (ha : value? x = some a) (hb : value? y = some b) : x < y ↔ a < b := by
  rw [lt_iff_compare, compare_eq_compare_value (canonical_unpack x) (canonical_unpack y) ha hb,
    Option.some_inj, compare_lt_iff_lt]

theorem le_iff_value_le (ha : value? x = some a) (hb : value? y = some b) : x ≤ y ↔ a ≤ b := by
  rw [le_iff_compare, compare_eq_compare_value (canonical_unpack x) (canonical_unpack y) ha hb,
    Option.any_some, Ordering.isLE_iff_ne_gt]
  exact compare_le_iff_le

/-! ## Exact rounding -/

theorem log2_mul_two_pow (h : 0 < m) (k : ℕ) : (m * 2 ^ k).log2 = m.log2 + k := by
  induction k with
  | zero => rw [pow_zero, mul_one, Nat.add_zero]
  | succ k ih =>
    have hne : m * 2 ^ k ≠ 0 := (Nat.mul_pos h (Nat.two_pow_pos k)).ne'
    rw [pow_succ', mul_left_comm, Nat.log2_two_mul hne, ih, Nat.add_assoc]

theorem IsCanonical.targetExponent_eq (h : IsCanonical m e) :
    binary64.targetExponent (totalExponent m e) = e := by
  obtain ⟨hpos, hlt, hleast, -, hfull⟩ := h
  have hlog := (Nat.log2_lt hpos.ne').mpr hlt
  have hle : 52 ≤ m.log2 ↔ 2 ^ 52 ≤ m := Nat.le_log2 hpos.ne'
  have hmin : binary64.minExponent = -1074 := by decide
  have hbits : (binary64.mantissaBits : ℤ) = 53 := by decide
  unfold Float.Model.Format.targetExponent totalExponent
  rw [hmin, hbits]
  omega

theorem shiftRight_exact (m k : ℕ) :
    (⟨m * 2 ^ k, false, false⟩ : ExtendedMantissa) >>> k = ⟨m, false, false⟩ := by
  show k.repeat ExtendedMantissa.shiftRightOne _ = _
  induction k generalizing m with
  | zero =>
    rw [pow_zero, mul_one]
    rfl
  | succ k ih =>
    rw [pow_succ', ← mul_assoc, Nat.repeat, ih]
    show ExtendedMantissa.mk (m * 2 / 2) (m * 2 % 2 != 0) false = _
    rw [Nat.mul_div_cancel m two_pos, Nat.mul_mod_left]
    rfl

/-- Shifting out zeros loses nothing. -/
theorem shiftToTargetExponent_exact (h : IsCanonical m e) (k : ℕ) :
    shiftToTargetExponent binary64 (m * 2 ^ k) (e - k) .exact = (⟨m, false, false⟩, e) := by
  have htotal : totalExponent (m * 2 ^ k) (e - k) = totalExponent m e := by
    unfold totalExponent
    rw [log2_mul_two_pow h.pos]
    omega
  have hshift : (e - (e - k)).toNat = k := by omega
  unfold shiftToTargetExponent shiftToExponent
  dsimp only
  rw [htotal, h.targetExponent_eq, hshift, sub_add_cancel]
  exact congrArg (·, e) (shiftRight_exact m k)

theorem roundWithAccuracy_exact (h : IsCanonical m e) (sign : Sign) (k : ℕ) :
    roundWithAccuracy binary64 sign (m * 2 ^ k) (e - k) .exact = .finite sign m e h.pos := by
  have hagain := shiftToTargetExponent_exact h 0
  rw [pow_zero, mul_one, Nat.cast_zero, sub_zero] at hagain
  unfold roundWithAccuracy
  rw [shiftToTargetExponent_exact h k]
  have hmantissa : (shiftToTargetExponent binary64 m e .exact).1.mantissa = m := by rw [hagain]
  have hexponent : (shiftToTargetExponent binary64 m e .exact).2 = e := by rw [hagain]
  have hne : (shiftToTargetExponent binary64 m e .exact).1.mantissa ≠ 0 :=
    hmantissa.trans_ne h.pos.ne'
  exact (dif_neg hne).trans (finite_congr hmantissa hexponent)

/-- With the lesser exponent, a number has the larger mantissa. -/
theorem eq_mul_two_pow {n m : ℕ} {f e : ℤ} (heq : (n : ℚ) * 2 ^ f = m * 2 ^ e) (hle : e ≤ f) :
    m = n * 2 ^ (f - e).toNat := by
  have hf : f = (f - e).toNat + e := by omega
  rw [hf, zpow_add₀ two_ne_zero, zpow_natCast, ← mul_assoc] at heq
  exact_mod_cast (mul_right_cancel₀ (zpow_ne_zero e two_ne_zero) heq).symm

/-- Rounding gives what stands for the same number and is canonical. -/
theorem round_exact (h : IsCanonical m e) (sign : Sign) (hn : 0 < n)
    (heq : (n : ℚ) * 2 ^ f = m * 2 ^ e) :
    UnpackedFloat.round binary64 sign n f = .finite sign m e h.pos := by
  unfold UnpackedFloat.round decreaseExponent
  dsimp only
  rcases le_total e f with hle | hle
  · -- the canonical exponent is the lesser one, and the mantissa is shifted to it
    have hm := eq_mul_two_pow heq hle
    have htotal : totalExponent n f = totalExponent m e := by
      unfold totalExponent
      rw [hm, log2_mul_two_pow hn]
      omega
    rw [htotal, h.targetExponent_eq, Nat.shiftLeft_eq, ← hm]
    have hround := roundWithAccuracy_exact h sign 0
    rw [pow_zero, mul_one, Nat.cast_zero, sub_zero] at hround
    have he : f - ((f - e).toNat : ℤ) = e := by omega
    rw [he, hround]
  · -- the canonical exponent is the larger one, and rounding drops zeros only
    have hm := eq_mul_two_pow heq.symm hle
    have htotal : totalExponent n f = totalExponent m e := by
      unfold totalExponent
      rw [hm, log2_mul_two_pow h.pos]
      omega
    have hf : f - ((f - e).toNat : ℤ) = e - ((e - f).toNat : ℤ) := by omega
    have hzero : (f - e).toNat = 0 := by omega
    rw [htotal, h.targetExponent_eq, hf, hzero, Nat.shiftLeft_zero, hm]
    exact roundWithAccuracy_exact h sign _

/-! ## Exact sums -/

theorem abs_apply_mul (sign : Sign) (n : ℕ) (f : ℤ) :
    |((sign.apply n : ℤ) : ℚ) * 2 ^ f| = n * 2 ^ f := by
  have hnonneg : (0 : ℚ) ≤ n * 2 ^ f := mul_nonneg (Nat.cast_nonneg n) (zpow_pos two_pos f).le
  cases sign with
  | positive => exact abs_of_nonneg hnonneg
  | negative =>
    show |((-n : ℤ) : ℚ) * 2 ^ f| = _
    rw [Int.cast_neg, neg_mul, abs_neg]
    exact abs_of_nonneg hnonneg

/-- The sign does not matter for whether two numbers are the same. -/
theorem apply_mul_congr (sign : Sign) (h : (n : ℚ) * 2 ^ f = m * 2 ^ e) :
    ((sign.apply n : ℤ) : ℚ) * 2 ^ f = ((sign.apply m : ℤ) : ℚ) * 2 ^ e := by
  cases sign with
  | positive => exact h
  | negative =>
    show ((-n : ℤ) : ℚ) * 2 ^ f = ((-m : ℤ) : ℚ) * 2 ^ e
    rw [Int.cast_neg, Int.cast_neg, neg_mul, neg_mul, Int.cast_natCast, Int.cast_natCast, h]

/-- A double that does not stand for zero has a mantissa and an exponent. -/
theorem exists_isCanonical (hz : value? z = some a) (hne : a ≠ 0) :
    ∃ m e, IsCanonical m e ∧ |a| = m * 2 ^ e := by
  have hcanonical := canonical_unpack z
  unfold value? at hz
  cases hunpack : z.toModel.unpack <;> rw [hunpack] at hz hcanonical <;> cases hz
  case zero => exact absurd rfl hne
  case finite.refl sign m e _ => exact ⟨m, e, hcanonical, abs_apply_mul sign m e⟩

/-- A number that some double stands for is not changed by rounding. -/
theorem valueOf?_pack_round (sign : Sign) (hn : 0 < n)
    (ha : ((sign.apply n : ℤ) : ℚ) * 2 ^ f = a) (hz : value? z = some a) :
    valueOf? (Float.Model.pack (UnpackedFloat.round binary64 sign n f)).unpack = some a := by
  have habs : |a| = n * 2 ^ f := ha ▸ abs_apply_mul sign n f
  have hne : a ≠ 0 := abs_pos.mp (habs ▸ magnitude_pos hn f)
  obtain ⟨m, e, hcanonical, heq⟩ := exists_isCanonical hz hne
  have hsame := habs.symm.trans heq
  rw [round_exact hcanonical sign hn hsame, unpack_pack_finite hcanonical]
  exact congrArg some ((apply_mul_congr sign hsame).symm.trans ha)

theorem valueOf?_pack_normalize {k : ℤ} (ha : (k : ℚ) * 2 ^ f = a) (hz : value? z = some a) :
    valueOf? (Float.Model.pack (UnpackedFloat.normalize binary64 k f .positive)).unpack = some a := by
  unfold UnpackedFloat.normalize
  rcases lt_trichotomy k 0 with hneg | rfl | hpos
  · rw [compare_lt_iff_lt.mpr hneg]
    have hk : Sign.apply .negative ((-k).toNat : ℤ) = k := by
      show -((-k).toNat : ℤ) = k
      omega
    exact valueOf?_pack_round .negative (by omega) (hk.symm ▸ ha) hz
  · rw [Int.cast_zero, zero_mul] at ha
    rw [← ha]
    exact congrArg valueOf? (unpack_pack_zero .positive)
  · rw [compare_gt_iff_gt.mpr hpos]
    have hk : Sign.apply .positive (k.toNat : ℤ) = k := by
      show (k.toNat : ℤ) = k
      omega
    exact valueOf?_pack_round .positive (by omega) (hk.symm ▸ ha) hz

/-- The mantissa at a smaller exponent. -/
theorem apply_shiftLeft_mul (sign : Sign) (m : ℕ) (hle : f ≤ e) :
    ((sign.apply (m <<< (e - f).toNat : ℕ) : ℤ) : ℚ) * 2 ^ f =
      ((sign.apply m : ℤ) : ℚ) * 2 ^ e := by
  refine apply_mul_congr sign ?_
  have he : e = (e - f).toNat + f := by omega
  rw [Nat.shiftLeft_eq, Nat.cast_mul, Nat.cast_pow, Nat.cast_two, mul_assoc, ← zpow_natCast,
    ← zpow_add₀ two_ne_zero, ← he]

/-- A sum is exact when some double stands for it. -/
theorem value?_add (ha : value? x = some a) (hb : value? y = some b)
    (hz : value? z = some (a + b)) : value? (x + y) = some (a + b) := by
  have hx := canonical_unpack x
  have hy := canonical_unpack y
  unfold value? at ha hb
  show valueOf? (Float.Model.pack (UnpackedFloat.add binary64 x.toModel.unpack
    y.toModel.unpack)).unpack = some (a + b)
  generalize x.toModel.unpack = u at ha hx ⊢
  generalize y.toModel.unpack = v at hb hy ⊢
  cases u with
  | infinity => cases ha
  | notANumber => cases ha
  | zero sign =>
    cases ha
    cases v with
    | infinity => cases hb
    | notANumber => cases hb
    | zero sign' =>
      cases hb
      rw [zero_add]
      cases sign <;> cases sign' <;> rfl
    | finite sign' n f hn =>
      rw [zero_add, ← hb]
      exact congrArg valueOf? (unpack_pack_finite hy sign')
  | finite sign m e hm =>
    cases v with
    | infinity => cases hb
    | notANumber => cases hb
    | zero =>
      cases hb
      rw [add_zero, ← ha]
      exact congrArg valueOf? (unpack_pack_finite hx sign)
    | finite sign' n f hn =>
      -- both mantissas are shifted to the lesser exponent, where the sum is one of integers
      refine valueOf?_pack_normalize ?_ hz
      cases ha
      cases hb
      rw [Int.cast_add, add_mul]
      exact congrArg₂ (· + ·) (apply_shiftLeft_mul sign m (min_le_left e f))
        (apply_shiftLeft_mul sign' n (min_le_right e f))

/-! ## Natural numbers -/

theorem value?_zero : value? 0.0 = some 0 := rfl

theorem value?_one : value? 1.0 = some 1 := by
  have hunpack : (1.0 : Float).toModel.unpack = .finite .positive (2 ^ 52) (-52) (by decide) := rfl
  unfold value?
  rw [hunpack]
  show some ((((2 ^ 52 : ℕ) : ℤ) : ℚ) * 2 ^ (-52 : ℤ)) = some 1
  norm_num

theorem exists_value?_of_isCanonical (h : IsCanonical m e) : ∃ z, value? z = some (m * 2 ^ e : ℚ) :=
  ⟨.ofModel (.pack (.finite .positive m e h.pos)),
    congrArg valueOf? (unpack_pack_finite h .positive)⟩

/-- The natural numbers up to the width of a mantissa are doubles. -/
theorem exists_value?_natCast (h : n ≤ 2 ^ 53) : ∃ z, value? z = some (n : ℚ) := by
  rcases Nat.eq_zero_or_pos n with rfl | hpos
  · exact ⟨0.0, value?_zero⟩
  · rcases h.lt_or_eq with hlt | rfl
    · -- the mantissa is shifted until it is full
      have hlog : n.log2 < 53 := (Nat.log2_lt hpos.ne').mpr hlt
      have hshifted := log2_mul_two_pow hpos (52 - n.log2)
      have hm : 0 < n * 2 ^ (52 - n.log2) := Nat.mul_pos hpos (Nat.two_pow_pos _)
      have hfull : 2 ^ 52 ≤ n * 2 ^ (52 - n.log2) := (Nat.le_log2 hm.ne').mp (by omega)
      have hcanonical : IsCanonical (n * 2 ^ (52 - n.log2)) (-((52 - n.log2 : ℕ) : ℤ)) :=
        ⟨hm, (Nat.log2_lt hm.ne').mp (by omega), by omega, by omega, Or.inl hfull⟩
      obtain ⟨z, hz⟩ := exists_value?_of_isCanonical hcanonical
      refine ⟨z, hz.trans (congrArg some ?_)⟩
      rw [Nat.cast_mul, Nat.cast_pow, Nat.cast_two, zpow_neg, zpow_natCast,
        mul_inv_cancel_right₀ (pow_ne_zero _ two_ne_zero)]
    · obtain ⟨z, hz⟩ := exists_value?_of_isCanonical
        (⟨by decide, by decide, by decide, by decide, by decide⟩ : IsCanonical (2 ^ 52) 1)
      refine ⟨z, hz.trans (congrArg some ?_)⟩
      norm_num

end Storyboard.Decimal
