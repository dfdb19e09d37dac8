import Mathlib

/-!
# The order of doubles

Doubles that are numbers stand in a linear order, up to the sign of zero: by their sign, their exponent
and their mantissa.  What is no number is not comparable with anything, itself included.
-/

namespace Storyboard.Decimal

open Float.Model (UnpackedFloat)

/-- Where a double stands; what is no number stands nowhere. -/
def placeOf? : UnpackedFloat → Option (ℤ ×ₗ ℤ ×ₗ ℤ)
  | .notANumber => none
  | .infinity .negative => some (toLex (-2, toLex (0, 0)))
  | .finite .negative mantissa exponent _ => some (toLex (-1, toLex (-exponent, -mantissa)))
  | .zero _ => some (toLex (0, toLex (0, 0)))
  | .finite .positive mantissa exponent _ => some (toLex (1, toLex (exponent, mantissa)))
  | .infinity .positive => some (toLex (2, toLex (0, 0)))

theorem compare_cast (m n : ℕ) : compare (m : ℤ) (n : ℤ) = compare m n := by
  rcases lt_trichotomy m n with h | rfl | h
  · rw [compare_lt_iff_lt.mpr h, compare_lt_iff_lt.mpr (Int.ofNat_lt.mpr h)]
  · rw [compare_eq_iff_eq.mpr rfl, compare_eq_iff_eq.mpr rfl]
  · rw [compare_gt_iff_gt.mpr h, compare_gt_iff_gt.mpr (Int.ofNat_lt.mpr h)]

theorem compare_neg {α : Type} [AddCommGroup α] [LinearOrder α] [IsOrderedAddMonoid α] (a b : α) :
    compare (-a) (-b) = (compare a b).swap := by
  rcases lt_trichotomy a b with h | rfl | h
  · rw [compare_lt_iff_lt.mpr h, compare_gt_iff_gt.mpr (neg_lt_neg h)]
    rfl
  · rw [compare_eq_iff_eq.mpr rfl, compare_eq_iff_eq.mpr rfl]
    rfl
  · rw [compare_gt_iff_gt.mpr h, compare_lt_iff_lt.mpr (neg_lt_neg h)]
    rfl

/-- Doubles are compared by where they stand. -/
theorem compare_eq (a b : UnpackedFloat) :
    a.compare b = (placeOf? a).bind fun x => (placeOf? b).map fun y => compare x y := by
  rcases a with (_ | _) | _ | _ | ⟨_ | _, m, e, hm⟩ <;>
    rcases b with (_ | _) | _ | _ | ⟨_ | _, m', e', hm'⟩ <;>
      try rfl
  -- two finite doubles of one sign are left, whose exponents and mantissas are compared
  case finite.positive.finite.positive =>
    show some ((compare e e').then (compare m m')) =
      some ((compare e e').then (compare (m : ℤ) (m' : ℤ)))
    rw [compare_cast]
  case finite.negative.finite.negative =>
    show some ((compare e e').then (compare m m')).swap =
      some ((compare (-e) (-e')).then (compare (-m : ℤ) (-m' : ℤ)))
    rw [compare_neg, compare_neg, compare_cast, Ordering.swap_then]

/-- Where a double stands among the others. -/
def place? (x : Float) : Option (ℤ ×ₗ ℤ ×ₗ ℤ) := placeOf? x.toModel.unpack

theorem compare_toModel (x y : Float) : x.toModel.unpack.compare y.toModel.unpack =
    (place? x).bind fun a => (place? y).map fun b => compare a b :=
  compare_eq _ _

theorem lt_iff_compare {x y : Float} :
    x < y ↔ x.toModel.unpack.compare y.toModel.unpack = some .lt := by
  show decide _ = true ↔ _
  rw [decide_eq_true_iff]
  exact beq_iff_eq

theorem le_iff_compare {x y : Float} :
    x ≤ y ↔ (x.toModel.unpack.compare y.toModel.unpack).any (·.isLE) = true := by
  show decide _ = true ↔ _
  rw [decide_eq_true_iff]
  exact Iff.rfl

theorem lt_iff {x y : Float} :
    x < y ↔ ∃ a b, place? x = some a ∧ place? y = some b ∧ a < b := by
  rw [lt_iff_compare, compare_toModel]
  cases place? x with
  | none => simp
  | some a =>
    cases place? y with
    | none => simp
    | some b =>
      have hlt : compare a b = .lt ↔ a < b := compare_lt_iff_lt
      simpa using hlt

theorem le_iff {x y : Float} :
    x ≤ y ↔ ∃ a b, place? x = some a ∧ place? y = some b ∧ a ≤ b := by
  rw [le_iff_compare, compare_toModel]
  cases place? x with
  | none => simp
  | some a =>
    cases place? y with
    | none => simp
    | some b =>
      have hle : (compare a b).isLE ↔ a ≤ b := by
        rw [Ordering.isLE_iff_ne_gt]
        exact compare_le_iff_le
      simpa using hle

variable {x y z : Float}

/-- What is compared with something is a number. -/
theorem le_self_of_le (h : x ≤ y) : y ≤ y := by
  obtain ⟨-, b, -, hb, -⟩ := le_iff.mp h
  exact le_iff.mpr ⟨b, b, hb, hb, le_rfl⟩

theorem lt_or_le (hx : x ≤ x) (hy : y ≤ y) : x < y ∨ y ≤ x := by
  obtain ⟨a, -, ha, -, -⟩ := le_iff.mp hx
  obtain ⟨b, -, hb, -, -⟩ := le_iff.mp hy
  rcases lt_or_ge a b with h | h
  · exact Or.inl (lt_iff.mpr ⟨a, b, ha, hb, h⟩)
  · exact Or.inr (le_iff.mpr ⟨b, a, hb, ha, h⟩)

theorem lt_of_le_of_lt (h : x ≤ y) (h' : y < z) : x < z := by
  obtain ⟨a, b, ha, hb, hle⟩ := le_iff.mp h
  obtain ⟨b', c, hb', hc, hlt⟩ := lt_iff.mp h'
  obtain rfl : b = b' := Option.some.inj (hb.symm.trans hb')
  exact lt_iff.mpr ⟨a, c, ha, hc, hle.trans_lt hlt⟩

theorem le_of_lt (h : x < y) : x ≤ y := by
  obtain ⟨a, b, ha, hb, hlt⟩ := lt_iff.mp h
  exact le_iff.mpr ⟨a, b, ha, hb, hlt.le⟩

end Storyboard.Decimal
