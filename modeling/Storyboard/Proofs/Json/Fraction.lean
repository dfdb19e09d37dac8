import Storyboard.Proofs.Decimal.Greatest
import Storyboard.Proofs.Json.Token

/-!
# Reading written fractions

A finite double is written as a numeral, in positional notation or with an exponent.  Whatever its
digits are, the text is read up to its end.
-/

namespace Storyboard.Json

open Decimal

/-! ## Numerals in range -/

section Range

variable {negative : Bool} {digits : List Char} {n e : Nat}

/-- Divisions by powers of ten lead to a double. -/
theorem isSome_scale {exponent : Int} (h : exponent < 0) (fuel : Nat) (x : Float) :
    (scale fuel x exponent).isSome = true := by
  have hneg : ¬ 0 ≤ exponent := by omega
  induction fuel generalizing x exponent with
  | zero => rfl
  | succ fuel ih =>
    simp only [scale, if_neg hneg]
    split_ifs with hsmall hzero
    · rfl
    · rfl
    · exact ih (by omega) _ (by omega)

theorem isSome_ofParts_neg {exponent : Int} (h : exponent < 0) (significand : Nat) :
    (ofParts negative significand exponent).isSome = true := by
  rw [ofParts, Option.isSome_map]
  exact isSome_scale h _ _

/-- So does a product that does not exceed the greatest double. -/
theorem isSome_ofParts (hn : 0 < n) (hdigits : n ≤ 10 ^ 17) (hle : n * 10 ^ e ≤ greatest) :
    (ofParts negative n e).isSome = true := by
  obtain ⟨c, hc⟩ := exists_value?_mul_power hn hdigits hle
  have he := exponent_le hn hle
  rw [ofParts, Option.isSome_map, scale, Int.natAbs_natCast, if_pos he]
  dsimp only
  rw [if_pos (Int.natCast_nonneg e), isInf_eq_false hc]
  rfl

theorem digit_le {c : Char} (h : c.isDigit = true) : c.toNat - '0'.toNat ≤ 9 :=
  Nat.sub_le_sub_right (Char.isDigit_iff_toNat.mp h).2 _

theorem digitsValue_lt (h : ∀ c ∈ digits, c.isDigit = true) (acc : Nat) :
    digitsValue acc digits < (acc + 1) * 10 ^ digits.length := by
  induction digits generalizing acc with
  | nil => simp [digitsValue]
  | cons d ds ih =>
    obtain ⟨hd, hds⟩ := List.forall_mem_cons.mp h
    have hdigit := digit_le hd
    rw [digitsValue, List.foldl_cons, ← digitsValue]
    calc digitsValue (10 * acc + (d.toNat - '0'.toNat)) ds
        < (10 * acc + (d.toNat - '0'.toNat) + 1) * 10 ^ ds.length := ih hds _
      _ ≤ (acc + 1) * 10 * 10 ^ ds.length := Nat.mul_le_mul_right _ (by omega)
      _ = (acc + 1) * 10 ^ (d :: ds).length := by rw [List.length_cons, pow_succ']; ring

theorem length_takeDigits_le (significand : Nat) (digits : List Char) :
    (takeDigits significand digits).2.length ≤ digits.length := by
  induction digits generalizing significand with
  | nil => exact le_rfl
  | cons d ds ih =>
    rw [takeDigits]
    split
    next => exact (ih _).trans (Nat.le_succ _)
    next => exact le_rfl

/-- With either sign the numeral denotes a number. -/
def Numeral.InRange (numeral : Numeral) : Prop :=
  ∀ negative, ({ numeral with negative }.value?).isSome = true

/-- A numeral that needs no exponent is in range. -/
theorem inRange_fraction {whole fraction : List Char} (hwhole : IsRun whole)
    (hlength : whole.length ≤ 16) (hfraction : IsRun fraction) :
    Numeral.InRange ⟨false, whole, some fraction, none⟩ := by
  intro negative
  have hsmall : digitsValue 0 whole < 10 ^ 16 := by
    calc digitsValue 0 whole < (0 + 1) * 10 ^ whole.length := digitsValue_lt hwhole.2 0
      _ = 10 ^ whole.length := by rw [zero_add, one_mul]
      _ ≤ 10 ^ 16 := Nat.pow_le_pow_right (by decide) hlength
  have hsize : 10 * 10 ^ 16 + 10 < UInt64.size := by decide
  have htaken := takeDigits_of_lt (show digitsValue 0 whole < UInt64.size by omega)
  obtain ⟨d, ds, rfl⟩ := List.exists_cons_of_ne_nil hfraction.1
  have hdigit := digit_le (hfraction.2 d List.mem_cons_self)
  have hfits : digitsValue 0 whole * 10 + (d.toNat - '0'.toNat) < UInt64.size := by omega
  have hlengths := length_takeDigits_le (digitsValue 0 whole * 10 + (d.toNat - '0'.toNat)) ds
  unfold Numeral.value?
  rw [htaken]
  dsimp only [Option.getD_some]
  rw [takeDigits, if_pos hfits, Option.isSome_map, withExponent]
  exact isSome_ofParts_neg (by rw [List.length_nil, List.length_cons]; omega) _

/-- The exponent of a numeral is read as the number that it writes. -/
theorem writtenExponent?_natDigits (k : Nat) :
    writtenExponent? (natDigits k) = if k < Nat.pow 2 31 then some k else none := by
  have hvalue : digitsValue 0 ((natDigits k).dropWhile (· == '0')) = k := by
    rcases Nat.eq_zero_or_pos k with rfl | hpos
    · rfl
    · obtain ⟨d, ds, hds, -⟩ := exists_natDigits k
      have hne : d ≠ '0' := head_natDigits hpos d (by rw [hds]; rfl)
      have hwhole := digitsValue_natDigits k
      rw [hds] at hwhole ⊢
      rwa [List.dropWhile_cons_of_neg (by simpa using hne)]
  unfold writtenExponent?
  rw [hvalue]

/-- Digits that are shifted by an exponent are in range if the power of ten is that is left. -/
theorem isSome_withExponent {numeral : Numeral} {exponent : Int} {shift : Nat}
    (hexponent : numeral.exponent = some (decide (exponent < 0), natDigits exponent.natAbs))
    (hn : 0 < n) (hle : n ≤ 10 ^ 17) (hshift : shift ≤ 17)
    (hrange : ∀ e : Nat, exponent - shift = e → n * 10 ^ e ≤ greatest) :
    (withExponent numeral n (-shift)).isSome = true := by
  unfold withExponent
  rw [hexponent]
  dsimp only
  rw [writtenExponent?_natDigits]
  by_cases hneg : exponent < 0
  · rw [decide_eq_true hneg]
    by_cases hsmall : exponent.natAbs < Nat.pow 2 31
    · rw [if_pos hsmall]
      dsimp only
      rw [if_pos rfl]
      exact isSome_ofParts_neg (by omega) n
    · rw [if_neg hsmall]
      simp
  · -- the exponent is that of a double, and fits
    have hshifted : -(shift : Int) + exponent.natAbs = exponent - shift := by omega
    rw [decide_eq_false hneg]
    by_cases hpositive : 0 ≤ exponent - shift
    · obtain ⟨e, he⟩ := Int.eq_ofNat_of_zero_le hpositive
      have hroom := hrange e he
      have hmost := exponent_le hn hroom
      have hbig : Nat.pow 2 31 = 2147483648 := rfl
      rw [if_pos (by omega)]
      dsimp only
      rw [if_neg Bool.false_ne_true, hshifted, he]
      exact isSome_ofParts hn hle hroom
    · have hbig : Nat.pow 2 31 = 2147483648 := rfl
      rw [if_pos (by omega)]
      dsimp only
      rw [if_neg Bool.false_ne_true, hshifted]
      exact isSome_ofParts_neg (by omega) n

/-- A numeral with an exponent is in range if its digits times its power of ten are. -/
theorem inRange_exponent {d : Char} {rest : List Char} {exponent : Int}
    (hdigits : natDigits n = d :: rest) (hn : 0 < n) (hle : n ≤ 10 ^ 17)
    (hrange : ∀ e : Nat, exponent - rest.length = e → n * 10 ^ e ≤ greatest)
    {fraction : Option (List Char)} (hfraction : fraction.getD [] = rest) :
    Numeral.InRange
      ⟨false, [d], fraction, some (decide (exponent < 0), natDigits exponent.natAbs)⟩ := by
  intro negative
  have hsize : 10 ^ 17 < UInt64.size := by decide
  have hvalue : digitsValue (digitsValue 0 [d]) rest = n := by
    have hwhole := digitsValue_natDigits n
    rwa [hdigits, digitsValue, List.foldl_cons, ← List.foldl_cons] at hwhole
  have hfirst := le_digitsValue (digitsValue 0 [d]) rest
  -- seventeen digits at most, so that reading them never overflows
  have hlength : rest.length ≤ 17 := by
    have hcount := Nat.toDigits_length 10 n 18 (by decide) (hle.trans_lt (by decide))
    rw [← natDigits, hdigits, List.length_cons] at hcount
    omega
  have htaken := takeDigits_of_lt (show digitsValue (digitsValue 0 [d]) rest < UInt64.size by omega)
  rw [hvalue] at htaken
  have hread : (withExponent ⟨negative, [d], fraction,
      some (decide (exponent < 0), natDigits exponent.natAbs)⟩ n (-rest.length)).isSome = true :=
    isSome_withExponent rfl hn hle hlength hrange
  have hshift : (([] : List Char).length : Int) - ((rest.length - ([] : List Char).length : Nat)) =
      -rest.length := by simp
  unfold Numeral.value?
  rw [takeDigits_of_lt (show digitsValue 0 [d] < UInt64.size by omega)]
  cases fraction <;> subst hfraction <;> dsimp only at htaken ⊢ <;>
    rwa [htaken, hshift, Option.isSome_map]

end Range

theorem IsRun.append_zeros {digits : List Char} (h : IsRun digits) (n : Nat) :
    IsRun (digits ++ List.replicate n '0') := by
  refine ⟨by simp [h.1], fun c hc => ?_⟩
  rcases List.mem_append.mp hc with hc | hc
  · exact h.2 c hc
  · rw [List.eq_of_mem_replicate hc]
    rfl

theorem isRun_zero : IsRun ['0'] := ⟨List.cons_ne_nil _ _, by simp⟩

/-- A whole part and a fraction are a numeral that needs no exponent. -/
theorem isProper_fraction {whole fraction : List Char} (hwhole : IsRun whole)
    (hleading : whole = ['0'] ∨ whole.head? ≠ some '0') (hfraction : IsRun fraction) :
    Numeral.IsProper ⟨false, whole, some fraction, none⟩ := by
  refine ⟨hwhole, hleading, ?_, fun _ _ h => absurd h.symm (Option.some_ne_none _)⟩
  rintro _ ⟨⟩
  exact hfraction

/-- Digits in positional notation are a numeral. -/
theorem exists_numeral_positional {digits : List Char} (hrun : IsRun digits)
    (hleading : digits.head? ≠ some '0') {point : Int} (hle : point ≤ 16) :
    ∃ numeral : Numeral, numeral.IsProper ∧ numeral.InRange ∧ numeral.negative = false ∧
      positional true digits point = numeral.chars := by
  unfold positional
  split
  next =>
    -- zeros stand between the point and the digits
    have hfraction : IsRun (List.replicate (-point).toNat '0' ++ digits) := by
      refine ⟨by simp [hrun.1], fun c hc => ?_⟩
      rcases List.mem_append.mp hc with hc | hc
      · rw [List.eq_of_mem_replicate hc]
        rfl
      · exact hrun.2 c hc
    exact ⟨⟨false, ['0'], some (List.replicate (-point).toNat '0' ++ digits), none⟩,
      isProper_fraction isRun_zero (Or.inl rfl) hfraction,
      inRange_fraction isRun_zero (by decide) hfraction, rfl, by simp [Numeral.chars]⟩
  next hpoint =>
    obtain ⟨d, ds, rfl⟩ := List.exists_cons_of_ne_nil hrun.1
    split
    next hlength =>
      -- zeros fill the digits up to the point
      have hwhole := hrun.append_zeros (point.toNat - (d :: ds).length)
      refine ⟨⟨false, d :: ds ++ List.replicate (point.toNat - (d :: ds).length) '0', some ['0'],
        none⟩, isProper_fraction hwhole (Or.inr hleading) isRun_zero,
        inRange_fraction hwhole ?_ isRun_zero, rfl, by simp [Numeral.chars]⟩
      rw [List.length_append, List.length_replicate]
      omega
    next hlength =>
      obtain ⟨p, hp⟩ : ∃ p, point.toNat = p + 1 := ⟨point.toNat - 1, by omega⟩
      rw [hp] at hlength ⊢
      -- the point falls within the digits
      have hwhole : IsRun ((d :: ds).take (p + 1)) :=
        ⟨List.cons_ne_nil _ _, fun c hc => hrun.2 c (List.mem_of_mem_take hc)⟩
      have hfraction : IsRun ((d :: ds).drop (p + 1)) := by
        refine ⟨fun hnil => ?_, fun c hc => hrun.2 c (List.mem_of_mem_drop hc)⟩
        rw [List.drop_eq_nil_iff] at hnil
        omega
      exact ⟨⟨false, (d :: ds).take (p + 1), some ((d :: ds).drop (p + 1)), none⟩,
        isProper_fraction hwhole (Or.inr hleading) hfraction,
        inRange_fraction hwhole ((List.length_take_le _ _).trans (by omega)) hfraction, rfl,
        by simp [Numeral.chars]⟩

/-- Digits in exponent notation are a numeral. -/
theorem exists_numeral_scientific {n : Nat} (hn : 0 < n) (hle : n ≤ 10 ^ 17) {exponent : Int}
    (hrange : ∀ e : Nat, exponent + 1 - (natDigits n).length = e → n * 10 ^ e ≤ greatest) :
    ∃ numeral : Numeral, numeral.IsProper ∧ numeral.InRange ∧ numeral.negative = false ∧
      scientific true (natDigits n) exponent = numeral.chars := by
  have hrun := isRun_natDigits n
  have hleading : (natDigits n).head? ≠ some '0' := fun hzero => head_natDigits hn '0' hzero rfl
  obtain ⟨d, ds, hdigits⟩ := List.exists_cons_of_ne_nil hrun.1
  rw [hdigits] at hrun hleading hrange ⊢
  have hexponent : ∀ negative digits, some (decide (exponent < 0), natDigits exponent.natAbs) =
      some (negative, digits) → IsRun digits := by
    rintro _ _ ⟨⟩
    exact isRun_natDigits _
  have hwhole : IsRun [d] := ⟨List.cons_ne_nil _ _, fun c hc => hrun.2 c (by simp_all)⟩
  have hsign : (if exponent < 0 then ['-'] else if true = true then ['+'] else []) =
      [if decide (exponent < 0) = true then '-' else '+'] := by
    by_cases h : exponent < 0 <;> simp [h]
  have hinrange {fraction : Option (List Char)} (hfraction : fraction.getD [] = ds) :
      Numeral.InRange
        ⟨false, [d], fraction, some (decide (exponent < 0), natDigits exponent.natAbs)⟩ := by
    refine inRange_exponent hdigits hn hle (fun e he => hrange e ?_) hfraction
    rw [List.length_cons]
    omega
  unfold scientific
  rw [hsign]
  -- a single digit has no point, and more digits are its fraction
  cases ds with
  | nil =>
    exact ⟨⟨false, [d], none, some (decide (exponent < 0), natDigits exponent.natAbs)⟩,
      ⟨hwhole, Or.inr hleading, fun _ h => absurd h.symm (Option.some_ne_none _), hexponent⟩,
      hinrange rfl, rfl, by simp [Numeral.chars]⟩
  | cons e es =>
    refine ⟨⟨false, [d], some (e :: es), some (decide (exponent < 0), natDigits exponent.natAbs)⟩,
      ⟨hwhole, Or.inr hleading, ?_, hexponent⟩, hinrange rfl, rfl, by simp [Numeral.chars]⟩
    rintro _ ⟨⟩
    exact ⟨List.cons_ne_nil e es, fun c hc => hrun.2 c (List.mem_cons_of_mem d hc)⟩

/-- The magnitude of a finite double is written as a numeral without a sign. -/
theorem exists_numeral_magnitude {x : Float} (h : x.isFinite = true) :
    ∃ numeral : Numeral, numeral.IsProper ∧ numeral.InRange ∧ numeral.negative = false ∧
      Style.data.magnitude x = numeral.chars := by
  obtain ⟨hdigits, hgreatest⟩ := shortest_le h Style.data.tie
  unfold Style.magnitude
  generalize shortest Style.data.tie x = short at hdigits hgreatest ⊢
  dsimp only
  split
  next =>
    exact ⟨⟨false, ['0'], some ['0'], none⟩,
      isProper_fraction isRun_zero (Or.inl rfl) isRun_zero,
      inRange_fraction isRun_zero (by decide) isRun_zero, rfl, rfl⟩
  next hne =>
    have hpos := Nat.pos_of_ne_zero hne
    split
    next hpoint =>
      exact exists_numeral_positional (isRun_natDigits _)
        (fun hzero => head_natDigits hpos '0' hzero rfl) hpoint.2
    next =>
      refine exists_numeral_scientific hpos hdigits fun e he => ?_
      have hexponent : short.exponent = e := by omega
      rw [hexponent, zpow_natCast] at hgreatest
      exact_mod_cast hgreatest

theorem not_special_of_isFinite {x : Float} (h : x.isFinite = true) :
    x.isNaN = false ∧ x.isInf = false := by
  unfold Float.isFinite Float.Model.isFinite at h
  unfold Float.isNaN Float.isInf Float.Model.isNaN Float.Model.isInf
  cases hx : x.toModel.unpack with
  | infinity _ => rw [hx] at h; nomatch h
  | notANumber => rw [hx] at h; nomatch h
  | zero _ => exact ⟨rfl, rfl⟩
  | finite _ _ _ _ => exact ⟨rfl, rfl⟩

/-- A finite double is written as a numeral that denotes a number. -/
theorem exists_numeral_floatChars {x : Float} (h : x.isFinite = true) :
    ∃ numeral : Numeral, numeral.IsProper ∧ numeral.value?.isSome = true ∧
      floatChars x = numeral.chars := by
  obtain ⟨hnan, hinf⟩ := not_special_of_isFinite h
  obtain ⟨numeral, hproper, hrange, hpositive, hchars⟩ := exists_numeral_magnitude h
  refine ⟨{ numeral with negative := isNegative x },
    ⟨hproper.whole, hproper.leading, hproper.fraction, hproper.exponent⟩, hrange _, ?_⟩
  rw [floatChars, if_pos h, Style.write, hnan, hinf]
  simp only [Bool.false_eq_true, if_false, String.toList_ofList, hchars, hpositive, Numeral.chars,
    List.nil_append, List.append_assoc]

/-- What a double is read as after it was written: a number, or null where it is not finite. -/
def floatTree (x : Float) : Tree :=
  match numeral? (floatChars x) with
  | some (numeral, _) => .number numeral
  | none => .null

/-- The double that is written is null or a numeral. -/
theorem floatChars_cases (x : Float) :
    (floatChars x = ['n', 'u', 'l', 'l'] ∧ floatTree x = .null) ∨
    ∃ numeral : Numeral, numeral.IsProper ∧ floatChars x = numeral.chars ∧
      floatTree x = .number numeral ∧ numeral.value?.isSome = true := by
  by_cases h : x.isFinite = true
  · obtain ⟨numeral, hproper, hvalue, hchars⟩ := exists_numeral_floatChars h
    have hread : numeral? (numeral.chars ++ []) = some (numeral, []) := numeral?_chars hproper nofun
    rw [List.append_nil] at hread
    exact Or.inr ⟨numeral, hproper, hchars, by rw [floatTree, hchars, hread], hvalue⟩
  · have hchars : floatChars x = ['n', 'u', 'l', 'l'] := if_neg h
    exact Or.inl ⟨hchars, by rw [floatTree, hchars]; rfl⟩

/-- What is read after a double was written denotes a value. -/
theorem isSome_floatTree (x : Float) (limit : Nat) :
    ((floatTree x).value? limit).isSome = true := by
  obtain ⟨-, htree⟩ | ⟨numeral, -, -, htree, hvalue⟩ := floatChars_cases x
  · rw [htree]
    rfl
  · rw [htree, Tree.value?, Option.isSome_map]
    exact hvalue

end Storyboard.Json
