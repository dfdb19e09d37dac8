import Storyboard.Proofs.Decimal.Value

/-!
# Rounded results

An operation on doubles computes more bits of its result than a mantissa holds.  What is shifted out
is remembered by two bits (`Represents`), so the mantissa that is kept is nearest to the result
(`exists_rounded`), and a result that does not exceed one does not exceed it after rounding.  From this
quotients and differences of numbers between zero and one stay there, and natural numbers keep their
order when they become doubles.
-/

namespace Storyboard.Decimal

open Float.Model (UnpackedFloat totalExponent)
open Float.Model.Format (binary64)
open Float.Model.UnpackedFloat

variable {m n : ℕ} {e f : ℤ} {x y : ℚ}

/-! ## What is shifted out -/

/-- The numbers that a mantissa stands for, given by the bit behind it and by whether anything else
has been shifted out. -/
def Represents (em : ExtendedMantissa) (x : ℚ) : Prop :=
  match em.roundBit, em.stickyBit with
  | false, false => x = em.mantissa
  | false, true => em.mantissa < x ∧ x < em.mantissa + 1 / 2
  | true, false => x = em.mantissa + 1 / 2
  | true, true => em.mantissa + 1 / 2 < x ∧ x < em.mantissa + 1

theorem represents_exact (m : ℕ) : Represents (.ofMantissaAndAccuracy m .exact) m := rfl

/-- A fraction is represented by its quotient and the accuracy of the remainder. -/
theorem represents_fraction (m : ℕ) (hn : 0 < n) :
    Represents (.ofMantissaAndAccuracy (m / n) (accuracyOfFraction (m % n) n)) (m / n : ℚ) := by
  have hn' : (0 : ℚ) < n := Nat.cast_pos.mpr hn
  have hdiv : (m : ℚ) / n = (m / n : ℕ) + (m % n : ℕ) / n := by
    have h : (m : ℚ) = n * (m / n : ℕ) + (m % n : ℕ) := by exact_mod_cast (Nat.div_add_mod m n).symm
    rw [div_eq_iff hn'.ne', add_mul, div_mul_cancel₀ _ hn'.ne', mul_comm]
    exact h
  have hlt : ((m % n : ℕ) : ℚ) < n := by exact_mod_cast Nat.mod_lt m hn
  rw [hdiv, accuracyOfFraction]
  generalize m / n = q
  generalize m % n = r at hlt
  by_cases hr : r = 0
  · rw [if_pos hr, hr, Nat.cast_zero, zero_div, add_zero]
    exact represents_exact q
  · have hpos : (0 : ℚ) < (r : ℚ) / n := div_pos (Nat.cast_pos.mpr (Nat.pos_of_ne_zero hr)) hn'
    rw [if_neg hr]
    -- the accuracy says on which side of a half the remainder lies
    rcases lt_trichotomy (2 * r) n with h | h | h
    · have hhalf : (r : ℚ) / n < 1 / 2 := by
        rw [div_lt_div_iff₀ hn' two_pos, one_mul, mul_comm]
        exact_mod_cast h
      rw [compare_lt_iff_lt.mpr h]
      exact ⟨lt_add_of_pos_right _ hpos, add_lt_add_right hhalf _⟩
    · have hhalf : (r : ℚ) / n = 1 / 2 := by
        rw [div_eq_div_iff hn'.ne' two_ne_zero, one_mul, mul_comm]
        exact_mod_cast h
      rw [compare_eq_iff_eq.mpr h]
      exact congrArg _ hhalf
    · have hhalf : 1 / 2 < (r : ℚ) / n := by
        rw [div_lt_div_iff₀ two_pos hn', one_mul, mul_comm]
        exact_mod_cast h
      rw [compare_gt_iff_gt.mpr h]
      exact ⟨add_lt_add_right hhalf _, add_lt_add_right ((div_lt_one hn').mpr hlt) _⟩

theorem Represents.shiftRightOne {em : ExtendedMantissa} (h : Represents em x) :
    Represents em.shiftRightOne (x / 2) := by
  obtain ⟨m, round, sticky⟩ := em
  have hm : (m : ℚ) = 2 * (m / 2 : ℕ) + (m % 2 : ℕ) := by
    exact_mod_cast (Nat.div_add_mod m 2).symm
  have hodd : ((1 : ℕ) != 0) = true := rfl
  -- the last bit becomes the one behind the mantissa
  rcases Nat.mod_two_eq_zero_or_one m with hbit | hbit <;> rw [hbit] at hm <;> push_cast at hm <;>
    cases round <;> cases sticky <;>
    simp only [Represents, ExtendedMantissa.shiftRightOne, hbit, bne_self_eq_false, hodd,
      Bool.or_self, Bool.or_true, Bool.or_false] at h ⊢ <;>
    first
      | linarith
      | constructor <;> linarith

theorem Represents.shiftRight {em : ExtendedMantissa} (h : Represents em x) (k : ℕ) :
    Represents (em >>> k) (x / 2 ^ k) := by
  show Represents (k.repeat ExtendedMantissa.shiftRightOne em) _
  induction k with
  | zero => rwa [pow_zero, div_one]
  | succ k ih =>
    rw [pow_succ, ← div_div]
    exact ih.shiftRightOne

/-- Rounding goes to a nearest integer. -/
theorem Represents.abs_sub_le {em : ExtendedMantissa} (h : Represents em x) :
    |(em.roundedMantissa : ℚ) - x| ≤ 1 / 2 := by
  obtain ⟨m, round, sticky⟩ := em
  rw [abs_le]
  cases round <;> cases sticky <;> simp only [Represents] at h
  · show -(1 / 2) ≤ (m : ℚ) - x ∧ (m : ℚ) - x ≤ 1 / 2
    constructor <;> linarith
  · show -(1 / 2) ≤ (m : ℚ) - x ∧ (m : ℚ) - x ≤ 1 / 2
    constructor <;> linarith
  · show -(1 / 2) ≤ ((m + m % 2 : ℕ) : ℚ) - x ∧ ((m + m % 2 : ℕ) : ℚ) - x ≤ 1 / 2
    rcases Nat.mod_two_eq_zero_or_one m with hbit | hbit <;> rw [hbit] <;> push_cast <;>
      constructor <;> linarith
  · show -(1 / 2) ≤ ((m + 1 : ℕ) : ℚ) - x ∧ ((m + 1 : ℕ) : ℚ) - x ≤ 1 / 2
    push_cast
    constructor <;> linarith

/-- A number lies between its mantissa and the next one. -/
theorem Represents.bounds {em : ExtendedMantissa} (h : Represents em x) :
    em.mantissa ≤ x ∧ x ≤ em.mantissa + 1 := by
  obtain ⟨m, round, sticky⟩ := em
  cases round <;> cases sticky <;> simp only [Represents] at h <;> constructor <;> linarith

theorem mantissa_ofMantissaAndAccuracy (m : ℕ) (acc : Accuracy) :
    (ExtendedMantissa.ofMantissaAndAccuracy m acc).mantissa = m := by
  rcases acc with _ | (_ | _ | _) <;> rfl

theorem Represents.between {acc : Accuracy}
    (h : Represents (.ofMantissaAndAccuracy m acc) x) : (m : ℚ) ≤ x ∧ x ≤ m + 1 := by
  have hbounds := h.bounds
  rwa [mantissa_ofMantissaAndAccuracy] at hbounds

/-! ## Nearest integers -/

theorem le_of_nearest {k j : ℕ} (h : |(k : ℚ) - x| ≤ 1 / 2) (hx : x ≤ j) : k ≤ j := by
  have hk := (abs_le.mp h).2
  have hlt : (k : ℚ) < j + 1 := by linarith
  exact Nat.lt_succ_iff.mp (by exact_mod_cast hlt)

theorem ge_of_nearest {k j : ℕ} (h : |(k : ℚ) - x| ≤ 1 / 2) (hx : j ≤ x) : j ≤ k := by
  have hk := (abs_le.mp h).1
  have hlt : (j : ℚ) < k + 1 := by linarith
  exact Nat.lt_succ_iff.mp (by exact_mod_cast hlt)

/-! ## Rounding -/

theorem targetExponent_eq (t : ℤ) : binary64.targetExponent t = max (t - 53) (-1074) := by
  have hmin : binary64.minExponent = -1074 := by decide
  have hbits : (binary64.mantissaBits : ℤ) = 53 := by decide
  rw [Float.Model.Format.targetExponent, hmin, hbits]

theorem lt_two_zpow_totalExponent (m : ℕ) (e : ℤ) :
    ((m : ℚ) + 1) * 2 ^ e ≤ 2 ^ totalExponent m e := by
  have hlt : m + 1 ≤ 2 ^ (m.log2 + 1) := Nat.lt_log2_self
  rw [totalExponent, zpow_add₀ two_ne_zero]
  refine mul_le_mul_of_nonneg_right ?_ (zpow_pos two_pos e).le
  exact_mod_cast hlt

theorem two_zpow_totalExponent_le (h : 0 < m) (e : ℤ) :
    (2 : ℚ) ^ (totalExponent m e - 1) ≤ m * 2 ^ e := by
  have hle : 2 ^ m.log2 ≤ m := Nat.log2_self_le h.ne'
  have hexponent : totalExponent m e - 1 = m.log2 + e := by
    rw [totalExponent]
    omega
  rw [hexponent, zpow_add₀ two_ne_zero]
  refine mul_le_mul_of_nonneg_right ?_ (zpow_pos two_pos e).le
  exact_mod_cast hle

/-- A rounded mantissa that has one bit too many is shifted once more, and loses nothing. -/
theorem exists_carried {k : ℕ} (hk : k ≤ 2 ^ 53) (hleast : -1074 ≤ f) (hmost : f ≤ 971)
    (hlast : f = 971 → k < 2 ^ 53) (hfull : 2 ^ 52 ≤ k ∨ f = -1074) :
    ∃ k' f', shiftToTargetExponent binary64 k f .exact = (⟨k', false, false⟩, f') ∧
      (k' : ℚ) * 2 ^ f' = k * 2 ^ f ∧ (k' = 0 ∨ IsCanonical k' f') := by
  rcases Nat.eq_zero_or_pos k with rfl | hpos
  · obtain rfl := hfull.resolve_left (by decide)
    exact ⟨0, -1074, rfl, rfl, Or.inl rfl⟩
  · rcases hk.lt_or_eq with hlt | rfl
    · have hcanonical : IsCanonical k f := ⟨hpos, hlt, hleast, hmost, hfull⟩
      have hshift := shiftToTargetExponent_exact hcanonical 0
      rw [pow_zero, mul_one, Nat.cast_zero, sub_zero] at hshift
      exact ⟨k, f, hshift, rfl, Or.inr hcanonical⟩
    · have hbelow : f ≠ 971 := fun heq => (hlast heq).ne rfl
      have hcanonical : IsCanonical (2 ^ 52) (f + 1) :=
        ⟨by decide, by decide, by omega, by omega, Or.inl le_rfl⟩
      have hshift := shiftToTargetExponent_exact hcanonical 1
      rw [Nat.cast_one, add_sub_cancel_right] at hshift
      refine ⟨2 ^ 52, f + 1, hshift, ?_, Or.inr hcanonical⟩
      rw [zpow_add_one₀ two_ne_zero]
      push_cast
      ring

/-- A double that has been made from a rounded mantissa stands for what was rounded. -/
theorem valueOf?_of_carried {k k' : ℕ} {f' : ℤ} (hvalue : (k' : ℚ) * 2 ^ f' = k * 2 ^ f)
    (hcanonical : k' = 0 ∨ IsCanonical k' f') :
    valueOf? (Float.Model.pack (if h : k' = 0 then .zero .positive
      else .finite .positive k' f' (Nat.pos_of_ne_zero h))).unpack = some (k * 2 ^ f : ℚ) := by
  split
  next hzero =>
    rw [hzero, Nat.cast_zero, zero_mul] at hvalue
    rw [← hvalue]
    exact congrArg valueOf? (unpack_pack_zero .positive)
  next hne =>
    rw [unpack_pack_finite (hcanonical.resolve_left hne), ← hvalue]
    rfl

/-- Half a unit above the greatest double: what lies below is rounded to a double. -/
def overflow : ℚ := (2 ^ 53 - 1 / 2) * 2 ^ (971 : ℤ)

/-- A nearest mantissa has one bit too many at most. -/
theorem nearest_le {k : ℕ} (hx : x ≤ m + 1)
    (hf : binary64.targetExponent (totalExponent m e) = f)
    (hnearest : |(k : ℚ) - x * 2 ^ e / 2 ^ f| ≤ 1 / 2) : k ≤ 2 ^ 53 := by
  have hunit : (0 : ℚ) < 2 ^ f := zpow_pos two_pos f
  have hexponent : totalExponent m e ≤ (53 : ℕ) + f := by
    rw [targetExponent_eq] at hf
    omega
  refine le_of_nearest hnearest ?_
  rw [div_le_iff₀ hunit, Nat.cast_pow, Nat.cast_two, ← zpow_natCast, ← zpow_add₀ two_ne_zero]
  calc x * 2 ^ e ≤ (m + 1) * 2 ^ e := mul_le_mul_of_nonneg_right hx (zpow_pos two_pos e).le
    _ ≤ 2 ^ totalExponent m e := lt_two_zpow_totalExponent m e
    _ ≤ 2 ^ (((53 : ℕ) : ℤ) + f) := zpow_le_zpow_right₀ one_le_two hexponent

/-- A nearest mantissa has no bit too few, unless it has the least exponent. -/
theorem full_of_nearest {k : ℕ} (hx : m ≤ x)
    (hf : binary64.targetExponent (totalExponent m e) = f) (he : e ≤ f)
    (hnearest : |(k : ℚ) - x * 2 ^ e / 2 ^ f| ≤ 1 / 2) : 2 ^ 52 ≤ k ∨ f = -1074 := by
  by_cases hsubnormal : f = -1074
  · exact Or.inr hsubnormal
  left
  rw [targetExponent_eq] at hf
  -- the total exponent of nothing is so small that its target is the least one
  have hpos : 0 < m := by
    rcases Nat.eq_zero_or_pos m with rfl | hpos
    · rw [totalExponent, Nat.log2_zero] at hf
      omega
    · exact hpos
  have hexponent : ((52 : ℕ) : ℤ) + f = totalExponent m e - 1 := by omega
  refine ge_of_nearest hnearest ?_
  rw [le_div_iff₀ (zpow_pos two_pos f), Nat.cast_pow, Nat.cast_two, ← zpow_natCast,
    ← zpow_add₀ two_ne_zero, hexponent]
  exact (two_zpow_totalExponent_le hpos e).trans
    (mul_le_mul_of_nonneg_right hx (zpow_pos two_pos e).le)

/-- A mantissa is shifted to its exponent and rounded, and what has carried is shifted once more. -/
theorem roundWithAccuracy_of_carried {acc : Accuracy} {k k' : ℕ} {f' : ℤ}
    (hf : binary64.targetExponent (totalExponent m e) = f)
    (hk : (ExtendedMantissa.ofMantissaAndAccuracy m acc >>> (f - e).toNat).roundedMantissa = k)
    (hcarried : shiftToTargetExponent binary64 k f .exact = (⟨k', false, false⟩, f')) (he : e ≤ f) :
    roundWithAccuracy binary64 .positive m e acc = if h : k' = 0 then .zero .positive
      else .finite .positive k' f' (Nat.pos_of_ne_zero h) := by
  have hfirst : shiftToTargetExponent binary64 m e acc =
      (ExtendedMantissa.ofMantissaAndAccuracy m acc >>> (f - e).toNat, f) := by
    rw [shiftToTargetExponent, shiftToExponent, hf]
    exact congrArg _ (by omega)
  have hmantissa : (shiftToTargetExponent binary64 k f .exact).1.mantissa = k' := by rw [hcarried]
  have hexponent : (shiftToTargetExponent binary64 k f .exact).2 = f' := by rw [hcarried]
  unfold roundWithAccuracy
  rw [hfirst]
  dsimp only
  rw [hk]
  by_cases hzero : k' = 0
  · rw [dif_pos (hmantissa.trans hzero), dif_pos hzero]
  · rw [dif_neg (hmantissa.trans_ne hzero), dif_neg hzero, finite_congr hmantissa hexponent]

/-- The result of an operation is rounded to a double whose mantissa is nearest to it. -/
theorem exists_rounded {acc : Accuracy} (hx : Represents (.ofMantissaAndAccuracy m acc) x)
    (hf : binary64.targetExponent (totalExponent m e) = f) (he : e ≤ f) (hmost : f ≤ 971)
    (hlast : f = 971 → x * 2 ^ e < overflow) :
    ∃ k : ℕ, |(k : ℚ) - x * 2 ^ e / 2 ^ f| ≤ 1 / 2 ∧
      valueOf? (Float.Model.pack (roundWithAccuracy binary64 .positive m e acc)).unpack =
        some (k * 2 ^ f : ℚ) := by
  -- the result in units of the last place
  have hshifted : x / 2 ^ (f - e).toNat = x * 2 ^ e / 2 ^ f := by
    have hsplit : f = e + (f - e).toNat := by omega
    conv_rhs => rw [hsplit, zpow_add₀ two_ne_zero, zpow_natCast]
    rw [mul_comm x, mul_div_mul_left _ _ (zpow_ne_zero e two_ne_zero)]
  have hnearest := (hx.shiftRight (f - e).toNat).abs_sub_le
  rw [hshifted] at hnearest
  obtain ⟨k, hk⟩ : ∃ k, (ExtendedMantissa.ofMantissaAndAccuracy m acc >>>
    (f - e).toNat).roundedMantissa = k := ⟨_, rfl⟩
  rw [hk] at hnearest
  have hleast : -1074 ≤ f := by
    rw [← hf, targetExponent_eq]
    exact le_max_right _ _
  have hbelow : f = 971 → k < 2 ^ 53 := by
    rintro rfl
    have hroom : x * 2 ^ e / 2 ^ (971 : ℤ) < 2 ^ 53 - 1 / 2 :=
      (div_lt_iff₀ (zpow_pos two_pos 971)).mpr (hlast rfl)
    have hup := (abs_le.mp hnearest).2
    have hlt : (k : ℚ) < 2 ^ 53 := by linarith
    exact_mod_cast hlt
  obtain ⟨k', f', hcarried, hvalue, hcanonical⟩ :=
    exists_carried (nearest_le hx.between.2 hf hnearest) hleast hmost hbelow
      (full_of_nearest hx.between.1 hf he hnearest)
  refine ⟨k, hnearest, ?_⟩
  rw [roundWithAccuracy_of_carried hf hk hcarried he]
  exact valueOf?_of_carried hvalue hcanonical

/-! ## Numbers up to one -/

/-- What does not exceed one does not exceed it when it is rounded. -/
theorem exists_rounded_le_one {acc : Accuracy} (hx : Represents (.ofMantissaAndAccuracy m acc) x)
    (he : e ≤ binary64.targetExponent (totalExponent m e)) (hle : x * 2 ^ e ≤ 1) :
    ∃ v, valueOf? (Float.Model.pack (roundWithAccuracy binary64 .positive m e acc)).unpack =
      some v ∧ 0 ≤ v ∧ v ≤ 1 := by
  have htotal : totalExponent m e ≤ 1 := by
    rcases Nat.eq_zero_or_pos m with rfl | hpos
    · rw [targetExponent_eq, totalExponent, Nat.log2_zero] at he
      rw [totalExponent, Nat.log2_zero]
      omega
    · have hpow : (2 : ℚ) ^ (totalExponent m e - 1) ≤ 2 ^ (0 : ℤ) := by
        rw [zpow_zero]
        exact (two_zpow_totalExponent_le hpos e).trans
          ((mul_le_mul_of_nonneg_right hx.between.1 (zpow_pos two_pos e).le).trans hle)
      have := (zpow_le_zpow_iff_right₀ one_lt_two).mp hpow
      omega
  obtain ⟨f, hf⟩ : ∃ f, binary64.targetExponent (totalExponent m e) = f := ⟨_, rfl⟩
  have hf' : f ≤ -52 := by
    rw [targetExponent_eq] at hf
    omega
  obtain ⟨k, hnearest, hvalue⟩ := exists_rounded hx hf (hf ▸ he) (by omega) fun _ => by omega
  have hunit : (0 : ℚ) < 2 ^ f := zpow_pos two_pos f
  -- one is a whole number of units, so no mantissa below it is rounded past it
  have hone : ((2 ^ (-f).toNat : ℕ) : ℚ) * 2 ^ f = 1 := by
    rw [Nat.cast_pow, Nat.cast_two, ← zpow_natCast, ← zpow_add₀ two_ne_zero]
    have hsum : ((-f).toNat : ℤ) + f = 0 := by omega
    rw [hsum, zpow_zero]
  have hk : k ≤ 2 ^ (-f).toNat := by
    refine le_of_nearest hnearest ?_
    rw [div_le_iff₀ hunit, hone]
    exact hle
  refine ⟨_, hvalue, mul_nonneg (Nat.cast_nonneg k) hunit.le, ?_⟩
  rw [← hone]
  exact mul_le_mul_of_nonneg_right (Nat.cast_le.mpr hk) hunit.le

theorem log2_le_log2_div (hn : 0 < n) : m.log2 ≤ (m / n).log2 + n.log2 + 1 := by
  rcases Nat.eq_zero_or_pos m with rfl | hm
  · rw [Nat.log2_zero]
    exact Nat.zero_le _
  · have hquotient : m / n + 1 ≤ 2 ^ ((m / n).log2 + 1) := Nat.lt_log2_self
    have hdivisor : n ≤ 2 ^ (n.log2 + 1) := Nat.lt_log2_self.le
    have hlt : m < 2 ^ ((m / n).log2 + n.log2 + 2) := by
      calc m < n * (m / n + 1) := Nat.lt_mul_div_succ m hn
        _ = (m / n + 1) * n := mul_comm _ _
        _ ≤ 2 ^ ((m / n).log2 + 1) * 2 ^ (n.log2 + 1) := Nat.mul_le_mul hquotient hdivisor
        _ = 2 ^ ((m / n).log2 + n.log2 + 2) := by
          rw [← pow_add]
          congr 1
          omega
    exact Nat.lt_succ_iff.mp ((Nat.log2_lt hm.ne').mpr hlt)

/-- A quotient of mantissas is computed to enough bits, and represents the quotient. -/
theorem represents_divCore (hm : 0 < m) (hn : 0 < n) :
    ∃ q g acc x, divCore binary64 m e n f = (q, g, acc) ∧
      Represents (.ofMantissaAndAccuracy q acc) x ∧
      x * 2 ^ g = (m * 2 ^ e) / (n * 2 ^ f) ∧
      g ≤ binary64.targetExponent (totalExponent q g) := by
  set g := min (e - f) (binary64.targetExponent (totalExponent m e - totalExponent n f)) with hg
  set shift := (e - f - g).toNat with hshift
  have hexponent : (shift : ℤ) = e - f - g := by omega
  refine ⟨m <<< shift / n, g, _, _, rfl, represents_fraction (m <<< shift) hn, ?_, ?_⟩
  · have hn' : (n : ℚ) ≠ 0 := Nat.cast_ne_zero.mpr hn.ne'
    have hpow : (2 : ℚ) ^ e = 2 ^ shift * 2 ^ g * 2 ^ f := by
      rw [← zpow_natCast, ← zpow_add₀ two_ne_zero, ← zpow_add₀ two_ne_zero, hexponent]
      congr 1
      omega
    have hf' : (2 : ℚ) ^ f ≠ 0 := zpow_ne_zero f two_ne_zero
    rw [Nat.shiftLeft_eq, Nat.cast_mul, Nat.cast_pow, Nat.cast_two, hpow]
    field_simp
  · have hlog := log2_le_log2_div (m := m * 2 ^ shift) hn
    rw [log2_mul_two_pow hm] at hlog
    rw [targetExponent_eq, totalExponent, totalExponent] at hg
    rw [targetExponent_eq, totalExponent, Nat.shiftLeft_eq]
    omega

variable {u v : Float} {a b : ℚ}

/-- What stands for a positive number is finite and has that sign. -/
theorem exists_positive {z : UnpackedFloat} (ha : valueOf? z = some a) (hpos : 0 < a) :
    ∃ m e, ∃ h : 0 < m, z = .finite .positive m e h ∧ a = m * 2 ^ e := by
  cases z with
  | infinity => cases ha
  | notANumber => cases ha
  | zero =>
    cases ha
    exact absurd hpos (lt_irrefl 0)
  | finite sign m e hm =>
    rcases eq_neg_or_eq ha with ⟨-, rfl⟩ | ⟨rfl, rfl⟩
    · exact absurd hpos (neg_pos.not.mpr (magnitude_pos hm e).not_gt)
    · exact ⟨m, e, hm, rfl, rfl⟩

theorem exists_zero {z : UnpackedFloat} (h : valueOf? z = some 0) : ∃ sign, z = .zero sign := by
  cases z with
  | infinity => cases h
  | notANumber => cases h
  | zero sign => exact ⟨sign, rfl⟩
  | finite sign m e hm =>
    have hpos := magnitude_pos hm e
    rcases eq_neg_or_eq h with ⟨-, hzero⟩ | ⟨-, hzero⟩
    · exact absurd hzero (neg_lt_zero.mpr hpos).ne'
    · exact absurd hzero hpos.ne

/-- The quotient by a number that is no smaller lies between zero and one. -/
theorem exists_value?_div (ha : value? u = some a) (hb : value? v = some b) (hnonneg : 0 ≤ a)
    (hle : a ≤ b) (hpos : 0 < b) : ∃ q, value? (u / v) = some q ∧ 0 ≤ q ∧ q ≤ 1 := by
  unfold value? at ha hb
  show ∃ q, valueOf? (Float.Model.pack (UnpackedFloat.div binary64 u.toModel.unpack
    v.toModel.unpack)).unpack = some q ∧ 0 ≤ q ∧ q ≤ 1
  generalize u.toModel.unpack = x at ha ⊢
  obtain ⟨n, f, hn, hy, rfl⟩ := exists_positive hb hpos
  rw [hy]
  rcases hnonneg.eq_or_lt with rfl | hlt
  · obtain ⟨sign, rfl⟩ := exists_zero ha
    exact ⟨0, congrArg valueOf? (unpack_pack_zero _), le_rfl, zero_le_one⟩
  · obtain ⟨m, e, hm, rfl, rfl⟩ := exists_positive ha hlt
    obtain ⟨q, g, acc, x, hcore, hx, hvalue, hg⟩ := represents_divCore (e := e) (f := f) hm hn
    have hone : x * 2 ^ g ≤ 1 := by
      rw [hvalue]
      exact div_le_one_of_le₀ hle hpos.le
    have hround := exists_rounded_le_one hx hg hone
    have hdiv : UnpackedFloat.div binary64 (.finite .positive m e hm) (.finite .positive n f hn) =
        roundWithAccuracy binary64 .positive q g acc := by
      show roundWithAccuracy binary64 .positive (divCore binary64 m e n f).1
        (divCore binary64 m e n f).2.1 (divCore binary64 m e n f).2.2 = _
      rw [hcore]
    rwa [hdiv]

/-- Before a number is rounded, its mantissa gets enough bits. -/
theorem exists_round_eq (hm : 0 < m) (e : ℤ) :
    ∃ n g, UnpackedFloat.round binary64 .positive m e =
        roundWithAccuracy binary64 .positive n g .exact ∧
      (n : ℚ) * 2 ^ g = m * 2 ^ e ∧ totalExponent n g = totalExponent m e ∧
      g ≤ binary64.targetExponent (totalExponent m e) := by
  obtain ⟨f, hf⟩ : ∃ f, binary64.targetExponent (totalExponent m e) = f := ⟨_, rfl⟩
  refine ⟨m * 2 ^ (e - f).toNat, e - (e - f).toNat, ?_, ?_, ?_, by omega⟩
  · unfold UnpackedFloat.round decreaseExponent
    dsimp only
    rw [hf, Nat.shiftLeft_eq]
  · have hsplit : e = (e - f).toNat + (e - (e - f).toNat) := by omega
    conv_rhs => rw [hsplit, zpow_add₀ two_ne_zero, zpow_natCast]
    rw [Nat.cast_mul, Nat.cast_pow, Nat.cast_two, mul_assoc]
  · rw [totalExponent, totalExponent, log2_mul_two_pow hm]
    omega

theorem exists_round_le_one (hle : (m : ℚ) * 2 ^ e ≤ 1) (hm : 0 < m) :
    ∃ q, valueOf? (Float.Model.pack (UnpackedFloat.round binary64 .positive m e)).unpack = some q ∧
      0 ≤ q ∧ q ≤ 1 := by
  obtain ⟨n, g, hround, hvalue, htotal, hg⟩ := exists_round_eq hm e
  rw [hround]
  exact exists_rounded_le_one (represents_exact n) (htotal.symm ▸ hg) (hvalue.trans_le hle)

/-- What is left of one when a part of it is taken away is a part of one. -/
theorem exists_value?_one_sub (ha : value? u = some a) (hnonneg : 0 ≤ a) (hle : a ≤ 1) :
    ∃ q, value? (1.0 - u) = some q ∧ 0 ≤ q ∧ q ≤ 1 := by
  have hunpack : (1.0 : Float).toModel.unpack = .finite .positive (2 ^ 52) (-52) (by decide) := rfl
  unfold value? at ha
  show ∃ q, valueOf? (Float.Model.pack (UnpackedFloat.sub binary64 (1.0 : Float).toModel.unpack
    u.toModel.unpack)).unpack = some q ∧ 0 ≤ q ∧ q ≤ 1
  rw [hunpack]
  generalize u.toModel.unpack = x at ha ⊢
  rcases hnonneg.eq_or_lt with rfl | hlt
  · obtain ⟨sign, rfl⟩ := exists_zero ha
    exact ⟨1, value?_one, zero_le_one, le_rfl⟩
  · obtain ⟨m, e, hm, rfl, rfl⟩ := exists_positive ha hlt
    -- the difference is an integer in units of the lesser exponent
    set g : ℤ := min (-52) e with hg
    set d : ℤ := Sign.positive.apply ((2 ^ 52) <<< (-52 - g).toNat : ℕ) -
      Sign.positive.apply (m <<< (e - g).toNat : ℕ) with hd
    have hvalue : (d : ℚ) * 2 ^ g = 1 - m * 2 ^ e := by
      have hone : ((Sign.positive.apply (2 ^ 52 : ℕ) : ℤ) : ℚ) * 2 ^ (-52 : ℤ) = 1 := by
        show (((2 ^ 52 : ℕ) : ℤ) : ℚ) * 2 ^ (-52 : ℤ) = 1
        norm_num
      rw [hd, Int.cast_sub, sub_mul, apply_shiftLeft_mul .positive _ (min_le_left _ _), hone,
        apply_shiftLeft_mul .positive _ (min_le_right _ _)]
      rfl
    show ∃ q, valueOf? (Float.Model.pack (UnpackedFloat.normalize binary64 d g .positive)).unpack =
      some q ∧ 0 ≤ q ∧ q ≤ 1
    unfold UnpackedFloat.normalize
    rcases lt_trichotomy d 0 with hneg | hzero | hpos
    · have hlt : (d : ℚ) * 2 ^ g < 0 := mul_neg_of_neg_of_pos (Int.cast_lt_zero.mpr hneg)
        (zpow_pos two_pos g)
      rw [hvalue] at hlt
      exact absurd hle (by linarith)
    · rw [hzero, compare_eq_iff_eq.mpr rfl]
      exact ⟨0, congrArg valueOf? (unpack_pack_zero _), le_rfl, zero_le_one⟩
    · rw [compare_gt_iff_gt.mpr hpos]
      refine exists_round_le_one ?_ (by omega)
      have hcast : ((d.toNat : ℕ) : ℚ) = d := by
        exact_mod_cast Int.toNat_of_nonneg hpos.le
      rw [hcast, hvalue]
      linarith

/-! ## Natural numbers -/

theorem value?_mul_one (ha : value? u = some a) : value? (u * .ofBits 0x3ff0000000000000) = some a := by
  have hunpack : (Float.ofBits 0x3ff0000000000000).toModel.unpack =
      .finite .positive (2 ^ 52) (-52) (by decide) := rfl
  have hcanonical := canonical_unpack u
  unfold value? at ha
  show valueOf? (Float.Model.pack (UnpackedFloat.mul binary64 u.toModel.unpack
    (Float.ofBits 0x3ff0000000000000).toModel.unpack)).unpack = some a
  rw [hunpack]
  generalize u.toModel.unpack = x at ha hcanonical ⊢
  cases x with
  | infinity => cases ha
  | notANumber => cases ha
  | zero sign =>
    cases ha
    show valueOf? (Float.Model.pack (.zero (sign * .positive))).unpack = some 0
    rw [unpack_pack_zero]
    rfl
  | finite sign m e hm =>
    have hround := roundWithAccuracy_exact hcanonical (sign * .positive) 52
    have hsign : sign * .positive = sign := by cases sign <;> rfl
    show valueOf? (Float.Model.pack (roundWithAccuracy binary64 (sign * .positive) (m * 2 ^ 52)
      (e - (52 : ℕ)) .exact)).unpack = some a
    rw [hround, hsign, unpack_pack_finite hcanonical]
    exact ha

theorem ofScientific_eq (hn : n ≠ 0) {k : ℕ} (hk : k ≤ 2 ^ 11) :
    UnpackedFloat.ofScientific binary64 n k =
      roundWithAccuracy binary64 .positive (n <<< 53 * 10 ^ k) (-53 + 0) .exact := by
  have hwidth : ¬ (k : ℤ) > 2 ^ binary64.exponentBits := by
    have hbits : binary64.exponentBits = 11 := rfl
    rw [hbits]
    exact_mod_cast hk.not_gt
  have hsum : ¬ (k : ℤ) < -(2 ^ binary64.exponentBits + n.log2) := by
    have hwidth : (0 : ℤ) ≤ 2 ^ binary64.exponentBits := by decide
    omega
  unfold UnpackedFloat.ofScientific
  rw [dif_neg hn, if_neg hwidth, if_neg hsum]
  split
  next => rfl
  next h => exact absurd (Int.natCast_nonneg k) h

/-- The double stands for the natural number, rounded to the nearest mantissa. -/
def Rounds (n : ℕ) (x : Float) : Prop :=
  ∃ k : ℕ, |(k : ℚ) - n / 2 ^ ((n.log2 : ℤ) - 52)| ≤ 1 / 2 ∧
    value? x = some (k * 2 ^ ((n.log2 : ℤ) - 52) : ℚ)

/-- Digits and a power of ten become the double with the nearest mantissa. -/
theorem rounds_ofScientific {k : ℕ} (hn : 0 < n) (hk : k ≤ 2 ^ 11)
    (hlog : (n * 10 ^ k).log2 ≤ 1022) :
    Rounds (n * 10 ^ k) ⟨Float.Model.pack (UnpackedFloat.ofScientific binary64 n k)⟩ := by
  have hpos : 0 < n * 10 ^ k := Nat.mul_pos hn (Nat.pow_pos (by decide))
  have hshift : n <<< 53 * 10 ^ k = n * 10 ^ k * 2 ^ 53 := by
    rw [Nat.shiftLeft_eq, Nat.mul_right_comm]
  generalize hnumber : n * 10 ^ k = m at hpos hlog hshift ⊢
  have htarget : binary64.targetExponent (totalExponent (m * 2 ^ 53) (-53)) = m.log2 - 52 := by
    rw [targetExponent_eq, totalExponent, log2_mul_two_pow hpos]
    omega
  obtain ⟨j, hnearest, hvalue⟩ := exists_rounded (represents_exact (m * 2 ^ 53)) htarget
    (by omega) (by omega) fun _ => by omega
  have hpow : ((m * 2 ^ 53 : ℕ) : ℚ) * 2 ^ (-53 : ℤ) = m := by
    rw [Nat.cast_mul, Nat.cast_pow, Nat.cast_two, zpow_neg, ← zpow_natCast]
    exact mul_inv_cancel_right₀ (zpow_ne_zero _ two_ne_zero) _
  rw [hpow] at hnearest
  refine ⟨j, hnearest, ?_⟩
  rw [← hvalue, value?, ofScientific_eq hn.ne' hk, hshift]
  rfl

/-- Below 2 ^ 53 a natural number is its own mantissa, shifted to the full width. -/
theorem rounds_ofNat_of_lt (hn : 0 < n) (hlt : n < 2 ^ 53) : Rounds n (Float.ofNat n) := by
  have hlog : n.log2 < 53 := (Nat.log2_lt hn.ne').mpr hlt
  have hexact : ((n * 2 ^ (52 - n.log2) : ℕ) : ℚ) * 2 ^ ((n.log2 : ℤ) - 52) = n := by
    have hexponent : (n.log2 : ℤ) - 52 = -((52 - n.log2 : ℕ) : ℤ) := by omega
    rw [hexponent, Nat.cast_mul, Nat.cast_pow, Nat.cast_two, zpow_neg, zpow_natCast,
      mul_inv_cancel_right₀ (pow_ne_zero _ two_ne_zero)]
  refine ⟨n * 2 ^ (52 - n.log2), ?_, ?_⟩
  · rw [eq_div_of_mul_eq (zpow_ne_zero _ two_ne_zero) hexact, sub_self, abs_zero]
    norm_num
  · have hfloat : value? n.toUInt64.toFloat = some (n : ℚ) := by
      obtain ⟨z, hz⟩ := exists_value?_natCast hlt.le
      have hnat : n.toUInt64.toNat = n := Nat.mod_eq_of_lt (by omega)
      show valueOf? (Float.Model.pack (UnpackedFloat.normalize binary64 (n.toUInt64.toNat : ℕ) 0
        .positive)).unpack = _
      rw [hnat]
      exact valueOf?_pack_normalize (by rw [zpow_zero, mul_one, Int.cast_natCast]) hz
    have hsmall : Float.ofNat n = n.toUInt64.toFloat * .ofBits 0x3ff0000000000000 := by
      show Float.ofScientific n false 0 = _
      rw [Float.ofScientific, dif_pos ⟨hlt, Nat.zero_le _⟩]
      rfl
    rw [hsmall, hexact]
    exact value?_mul_one hfloat

/-- From 2 ^ 53 on a natural number is converted as a decimal without a fraction. -/
theorem rounds_ofNat_of_le (hle : 2 ^ 53 ≤ n) (hlog : n.log2 ≤ 1022) :
    Rounds n (Float.ofNat n) := by
  have hlarge : Float.ofNat n =
      ⟨Float.Model.pack (UnpackedFloat.ofScientific binary64 n (0 : ℕ))⟩ := by
    show Float.ofScientific n false 0 = _
    rw [Float.ofScientific, dif_neg fun h => absurd h.1 (Nat.not_lt.mpr hle)]
    rfl
  have hn : 0 < n := lt_of_lt_of_le (by decide) hle
  have hrounds := rounds_ofScientific (k := 0) hn (Nat.zero_le _) (by rwa [pow_zero, mul_one])
  rw [hlarge]
  rwa [pow_zero, mul_one] at hrounds

/-- A natural number becomes the double with the nearest mantissa. -/
theorem rounds_ofNat (hn : 0 < n) (hlog : n.log2 ≤ 1022) : Rounds n (Float.ofNat n) :=
  (Nat.lt_or_ge n (2 ^ 53)).elim (rounds_ofNat_of_lt hn) (rounds_ofNat_of_le · hlog)

/-- A word becomes the double with the nearest mantissa. -/
theorem rounds_toFloat (hn : 0 < n) (hlt : n < UInt64.size) : Rounds n n.toUInt64.toFloat := by
  have hnat : n.toUInt64.toNat = n := Nat.mod_eq_of_lt hlt
  have hlog : n.log2 < 64 := (Nat.log2_lt hn.ne').mpr hlt
  obtain ⟨m, g, hround, hvalue, htotal, hg⟩ := exists_round_eq hn 0
  have htarget : binary64.targetExponent (totalExponent m g) = n.log2 - 52 := by
    rw [htotal, targetExponent_eq, totalExponent]
    omega
  rw [← htotal, htarget] at hg
  obtain ⟨k, hnearest, hrounded⟩ := exists_rounded (represents_exact m) htarget hg (by omega)
    fun _ => by omega
  rw [hvalue, zpow_zero, mul_one] at hnearest
  refine ⟨k, hnearest, ?_⟩
  rw [← hrounded, ← hround]
  have hnormal : UnpackedFloat.normalize binary64 (n : ℕ) 0 .positive =
      UnpackedFloat.round binary64 .positive n 0 := by
    unfold UnpackedFloat.normalize
    rw [compare_gt_iff_gt.mpr (Int.natCast_pos.mpr hn)]
    rfl
  show valueOf? (Float.Model.pack (UnpackedFloat.normalize binary64 (n.toUInt64.toNat : ℕ) 0
    .positive)).unpack = _
  rw [hnat, hnormal]

/-- A rounded natural number lies between the powers of two around it. -/
theorem bounds_of_nearest {k : ℕ} (hn : 0 < n)
    (h : |(k : ℚ) - n / 2 ^ ((n.log2 : ℤ) - 52)| ≤ 1 / 2) :
    (2 : ℚ) ^ n.log2 ≤ k * 2 ^ ((n.log2 : ℤ) - 52) ∧
      (k : ℚ) * 2 ^ ((n.log2 : ℤ) - 52) ≤ 2 ^ (n.log2 + 1) := by
  have hunit : (0 : ℚ) < 2 ^ ((n.log2 : ℤ) - 52) := zpow_pos two_pos _
  have hpow : ∀ j : ℕ, ((2 ^ j : ℕ) : ℚ) * 2 ^ ((n.log2 : ℤ) - 52) = 2 ^ ((j : ℤ) + n.log2 - 52) := by
    intro j
    rw [Nat.cast_pow, Nat.cast_two, ← zpow_natCast, ← zpow_add₀ two_ne_zero]
    congr 1
    omega
  have hlower := hpow 52
  have hupper := hpow 53
  rw [show (((52 : ℕ) : ℤ) + n.log2 - 52) = (n.log2 : ℕ) by omega, zpow_natCast] at hlower
  rw [show (((53 : ℕ) : ℤ) + n.log2 - 52) = ((n.log2 + 1 : ℕ) : ℤ) by omega, zpow_natCast] at hupper
  rw [← hlower, ← hupper]
  -- both powers are whole numbers of units, and rounding keeps to the side of a whole number
  have hle : 2 ^ 52 ≤ k := by
    refine ge_of_nearest h ?_
    rw [le_div_iff₀ hunit, hlower]
    exact_mod_cast Nat.log2_self_le hn.ne'
  have hge : k ≤ 2 ^ 53 := by
    refine le_of_nearest h ?_
    rw [div_le_iff₀ hunit, hupper]
    exact_mod_cast Nat.lt_log2_self.le
  exact ⟨mul_le_mul_of_nonneg_right (Nat.cast_le.mpr hle) hunit.le,
    mul_le_mul_of_nonneg_right (Nat.cast_le.mpr hge) hunit.le⟩

/-- Rounded natural numbers keep their order. -/
theorem Rounds.le (hx : Rounds m u) (hy : Rounds n v) (hm : 0 < m) (hlt : m < n)
    (ha : value? u = some a) (hb : value? v = some b) : a ≤ b := by
  obtain ⟨j, hj, hu⟩ := hx
  obtain ⟨k, hk, hv⟩ := hy
  obtain rfl := Option.some.inj (hu.symm.trans ha)
  obtain rfl := Option.some.inj (hv.symm.trans hb)
  have hn : 0 < n := hm.trans hlt
  have hlogs : m.log2 ≤ n.log2 := by
    rw [Nat.le_log2 hn.ne']
    exact (Nat.log2_self_le hm.ne').trans hlt.le
  rcases hlogs.eq_or_lt with heq | hlogs
  · -- both are rounded in the same units
    have hunit : (0 : ℚ) < 2 ^ ((n.log2 : ℤ) - 52) := zpow_pos two_pos _
    rw [heq] at hj ⊢
    have hquotients : (m : ℚ) / 2 ^ ((n.log2 : ℤ) - 52) < n / 2 ^ ((n.log2 : ℤ) - 52) :=
      div_lt_div_of_pos_right (Nat.cast_lt.mpr hlt) hunit
    have hle : (j : ℚ) < k + 1 := by
      have := (abs_le.mp hj).2
      have := (abs_le.mp hk).1
      linarith
    have hjk : j ≤ k := Nat.lt_succ_iff.mp (by exact_mod_cast hle)
    exact mul_le_mul_of_nonneg_right (Nat.cast_le.mpr hjk) hunit.le
  · -- a power of two lies between them
    calc (j : ℚ) * 2 ^ ((m.log2 : ℤ) - 52) ≤ 2 ^ (m.log2 + 1) := (bounds_of_nearest hm hj).2
      _ ≤ 2 ^ n.log2 := pow_le_pow_right₀ one_le_two hlogs
      _ ≤ k * 2 ^ ((n.log2 : ℤ) - 52) := (bounds_of_nearest hn hk).1

theorem Rounds.exists_value? (h : Rounds n u) (hn : 0 < n) :
    ∃ a, value? u = some a ∧ 1 ≤ a ∧ a ≤ 2 * n := by
  obtain ⟨k, hnearest, hvalue⟩ := h
  obtain ⟨hlower, hupper⟩ := bounds_of_nearest hn hnearest
  refine ⟨_, hvalue, (one_le_pow₀ one_le_two).trans hlower, hupper.trans ?_⟩
  rw [pow_succ']
  exact mul_le_mul_of_nonneg_left (by exact_mod_cast Nat.log2_self_le hn.ne') zero_le_two

/-- Natural numbers keep their order when they become doubles. -/
theorem exists_value?_ofNat_le (hle : m ≤ n) (hn : 0 < n) (hlog : n.log2 ≤ 1022) :
    ∃ a b, value? (Float.ofNat m) = some a ∧ value? (Float.ofNat n) = some b ∧ 0 ≤ a ∧ a ≤ b ∧
      0 < b := by
  have hrounds := rounds_ofNat hn hlog
  obtain ⟨b, hb, hone, -⟩ := hrounds.exists_value? hn
  have hpos : 0 < b := one_pos.trans_le hone
  rcases Nat.eq_zero_or_pos m with rfl | hm
  · exact ⟨0, b, rfl, hb, le_rfl, hpos.le, hpos⟩
  rcases hle.eq_or_lt with rfl | hlt
  · exact ⟨b, b, hb, hb, hpos.le, le_rfl, hpos⟩
  have hlogs : m.log2 ≤ n.log2 := by
    rw [Nat.le_log2 hn.ne']
    exact (Nat.log2_self_le hm.ne').trans hle
  have hrounds' := rounds_ofNat hm (hlogs.trans hlog)
  obtain ⟨a, ha, hone', -⟩ := hrounds'.exists_value? hm
  exact ⟨a, b, ha, hb, zero_le_one.trans hone', hrounds'.le hrounds hm hlt ha hb, hpos⟩

/-! ## Products -/

/-- A double that stands for no fraction of one has a full mantissa. -/
theorem IsCanonical.full_of_one_le (h : IsCanonical m e) (hone : (1 : ℚ) ≤ m * 2 ^ e) :
    2 ^ 52 ≤ m := by
  refine h.full.resolve_right ?_
  rintro rfl
  have hlt : (m : ℚ) * 2 ^ (-1074 : ℤ) < 2 ^ 53 * 2 ^ (-1074 : ℤ) :=
    mul_lt_mul_of_pos_right (by exact_mod_cast h.lt) (zpow_pos two_pos _)
  have hsmall : (2 : ℚ) ^ 53 * 2 ^ (-1074 : ℤ) ≤ 1 := by
    rw [← zpow_natCast, ← zpow_add₀ two_ne_zero]
    exact zpow_le_one_of_nonpos₀ one_le_two (by norm_num)
  linarith

/-- A product that does not overflow is a number. -/
theorem exists_value?_mul (ha : value? u = some a) (hb : value? v = some b) (hone : 1 ≤ a)
    (hone' : 1 ≤ b) (hlt : a * b < overflow) : ∃ c, value? (u * v) = some c := by
  have hu := canonical_unpack u
  have hv := canonical_unpack v
  unfold value? at ha hb
  show ∃ c, valueOf? (Float.Model.pack (UnpackedFloat.mul binary64 u.toModel.unpack
    v.toModel.unpack)).unpack = some c
  obtain ⟨m, e, hm, hx, rfl⟩ := exists_positive ha (one_pos.trans_le hone)
  obtain ⟨n, f, hn, hy, rfl⟩ := exists_positive hb (one_pos.trans_le hone')
  rw [hx] at hu ⊢
  rw [hy] at hv ⊢
  have hfull := IsCanonical.full_of_one_le hu hone
  have hfull' := IsCanonical.full_of_one_le hv hone'
  have hvalue : ((m * n : ℕ) : ℚ) * 2 ^ (e + f) = m * 2 ^ e * (n * 2 ^ f) := by
    rw [zpow_add₀ two_ne_zero]
    push_cast
    ring
  rw [← hvalue] at hlt
  have hpos : 0 < m * n := Nat.mul_pos hm hn
  -- factors from one on have full mantissas, so that the product is never subnormal
  have hlog : 104 ≤ (m * n).log2 := by
    rw [Nat.le_log2 hpos.ne']
    calc 2 ^ 104 = 2 ^ 52 * 2 ^ 52 := by norm_num
      _ ≤ m * n := Nat.mul_le_mul hfull hfull'
  have htotal : totalExponent (m * n) (e + f) ≤ 1024 := by
    have hlow := two_zpow_totalExponent_le hpos (e + f)
    have hover : overflow < 2 ^ (1024 : ℤ) := by
      rw [overflow, show (1024 : ℤ) = 53 + 971 by norm_num, zpow_add₀ two_ne_zero]
      exact mul_lt_mul_of_pos_right (by norm_num) (zpow_pos two_pos _)
    have hpow := (zpow_lt_zpow_iff_right₀ one_lt_two).mp ((hlow.trans_lt hlt).trans hover)
    omega
  -- the product stays below the overflow, and one rounding brings it into the format
  obtain ⟨t, ht⟩ : ∃ t, binary64.targetExponent (totalExponent (m * n) (e + f)) = t := ⟨_, rfl⟩
  have hrange : e + f ≤ t ∧ t ≤ 971 := by
    rw [targetExponent_eq] at ht
    rw [totalExponent] at ht htotal
    omega
  obtain ⟨k, -, hrounded⟩ := exists_rounded (represents_exact (m * n)) ht hrange.1 hrange.2
    fun _ => hlt
  exact ⟨_, hrounded⟩

end Storyboard.Decimal
