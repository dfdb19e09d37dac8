import Mathlib
import Storyboard.Json.Reader
import Storyboard.Json.Writer
import Storyboard.Proofs.Literal.IntegerList

/-!
# Reading written tokens

A string between quotes is read as the pieces that its characters were escaped to, and these denote
the string.  A numeral is read up to the end of its digits, and that of a whole number denotes the
number as long as it fits 64 bits.
-/

namespace Storyboard

namespace Decimal

theorem digitsValue_natDigits (m : Nat) : digitsValue 0 (natDigits m) = m :=
  Nat.ofDigitChars_ten_toDigits

theorem le_digitsValue (acc : Nat) (digits : List Char) : acc ≤ digitsValue acc digits := by
  induction digits generalizing acc with
  | nil => exact Nat.le_refl acc
  | cons d ds ih =>
    have hnext := ih (10 * acc + (d.toNat - '0'.toNat))
    rw [digitsValue, List.foldl_cons, ← digitsValue]
    omega

theorem digitChar_ne_zero (d : Fin 10) (h : 0 < d.val) : Nat.digitChar d ≠ '0' := by
  revert d
  decide

/-- Only zero is written with a zero in front. -/
theorem head_natDigits {m : Nat} (hm : 0 < m) : ∀ c ∈ (natDigits m).head?, c ≠ '0' := by
  induction m using Nat.strongRecOn with
  | ind m ih =>
    unfold natDigits
    rw [Nat.toDigits_eq_if (by omega)]
    split
    next hsmall =>
      intro c hc
      obtain rfl := Option.some.inj hc
      exact digitChar_ne_zero ⟨m, hsmall⟩ hm
    next hlarge =>
      have htens := ih (m / 10) (by omega) (by omega)
      obtain ⟨d, ds, hds, -⟩ := exists_natDigits (m / 10)
      rw [hds] at htens
      rw [natDigits] at hds
      rw [hds]
      exact htens

end Decimal

namespace Json

/-! ## Strings -/

/-- The piece that a character is read as after it was escaped. -/
def pieceOf (c : Char) : Piece :=
  if c.toNat < 0x20 ∧ c ≠ '\n' ∧ c ≠ '\r' ∧ c ≠ '\t' ∧ c ≠ '\x08' ∧ c ≠ '\x0c' then .unit c.toNat
  else .char c

/-- The pieces of a string. -/
def piecesOf (s : String) : List Piece := s.toList.map pieceOf

/-- The digits of a control character are read as its code point. -/
theorem unit?_hexDigit (n : Fin 0x20) :
    unit? '0' '0' (hexDigit (n / 16)) (hexDigit n) = some n.val := by
  revert n
  decide

/-- A unit is written with hexadecimal digits. -/
theorem isSome_hexValue?_of_unit? {a b c d : Char} {n : Nat} (h : unit? a b c d = some n) :
    ∀ x ∈ [a, b, c, d], (hexValue? x).isSome = true := by
  obtain ⟨_, ha, h⟩ := Option.bind_eq_some_iff.mp h
  obtain ⟨_, hb, h⟩ := Option.bind_eq_some_iff.mp h
  obtain ⟨_, hc, h⟩ := Option.bind_eq_some_iff.mp h
  obtain ⟨_, hd, h⟩ := Option.bind_eq_some_iff.mp h
  simp [ha, hb, hc, hd]

/-- The text between the quotes of a string. -/
inductive IsBody : List Piece → List Char → Prop
  | nil : IsBody [] []
  | char {c : Char} {pieces : List Piece} {cs : List Char} (quote : c ≠ '"') (slash : c ≠ '\\')
      (printed : ¬ c.toNat < 0x20) (rest : IsBody pieces cs) :
      IsBody (.char c :: pieces) (c :: cs)
  | escape {e c : Char} {pieces : List Piece} {cs : List Char} (escape : escape? e = some c)
      (rest : IsBody pieces cs) : IsBody (.char c :: pieces) ('\\' :: e :: cs)
  | unit {a b c d : Char} {n : Nat} {pieces : List Piece} {cs : List Char}
      (unit : unit? a b c d = some n) (rest : IsBody pieces cs) :
      IsBody (.unit n :: pieces) ('\\' :: 'u' :: a :: b :: c :: d :: cs)

/-- What stands in a string is read before what follows. -/
theorem IsBody.stringBody_append {pieces : List Piece} {cs : List Char} (h : IsBody pieces cs)
    (rest : List Char) : stringBody (cs ++ rest) =
      (stringBody rest).map fun (others, after) => (pieces ++ others, after) := by
  induction h with
  | nil => simp
  | char quote slash printed body ih =>
    rw [List.cons_append, stringBody]
    · rw [if_neg printed, ih]
      cases stringBody rest <;> rfl
    · exact quote
    · rintro _ _ _ _ _ rfl
      exact absurd rfl slash
    · rintro _ _ rfl
      exact absurd rfl slash
  | escape escape body ih =>
    rw [List.cons_append, List.cons_append, stringBody]
    · rw [escape, ih]
      cases stringBody rest <;> rfl
    · rintro _ _ _ _ _ rfl
      cases escape
  | unit unit body ih =>
    simp only [List.cons_append]
    rw [stringBody, unit, ih]
    cases stringBody rest <;> rfl

/-- A body is read up to the closing quote. -/
theorem IsBody.reads {pieces : List Piece} {cs : List Char} (h : IsBody pieces cs)
    (rest : List Char) : stringBody (cs ++ '"' :: rest) = some (pieces, rest) := by
  rw [h.stringBody_append]
  exact congrArg some (Prod.ext (List.append_nil pieces) rfl)

theorem isBody_escapeChar (c : Char) {pieces : List Piece} {cs : List Char}
    (h : IsBody pieces cs) : IsBody (pieceOf c :: pieces) (escapeChar c ++ cs) := by
  -- seven characters have an escape of their own, the other controls one by number, the rest none
  by_cases hquote : c = '"'
  · subst hquote; exact .escape rfl h
  by_cases hslash : c = '\\'
  · subst hslash; exact .escape rfl h
  by_cases hline : c = '\n'
  · subst hline; exact .escape rfl h
  by_cases hreturn : c = '\r'
  · subst hreturn; exact .escape rfl h
  by_cases htab : c = '\t'
  · subst htab; exact .escape rfl h
  by_cases hback : c = '\x08'
  · subst hback; exact .escape rfl h
  by_cases hfeed : c = '\x0c'
  · subst hfeed; exact .escape rfl h
  by_cases hcontrol : c.toNat < 0x20
  · have hpiece : pieceOf c = .unit c.toNat := if_pos ⟨hcontrol, hline, hreturn, htab, hback, hfeed⟩
    have htext : escapeChar c =
        ['\\', 'u', '0', '0', hexDigit (c.toNat / 16), hexDigit c.toNat] := by
      simp [escapeChar, hquote, hslash, hline, hreturn, htab, hback, hfeed, hcontrol]
    rw [hpiece, htext]
    exact .unit (unit?_hexDigit ⟨c.toNat, hcontrol⟩) h
  · have hpiece : pieceOf c = .char c := if_neg fun hunit => hcontrol hunit.1
    have htext : escapeChar c = [c] := by
      simp [escapeChar, hquote, hslash, hline, hreturn, htab, hback, hfeed, hcontrol]
    rw [hpiece, htext]
    exact .char hquote hslash hcontrol h

/-- A string that is written is spelled by its pieces. -/
theorem isBody_escaped (cs : List Char) : IsBody (cs.map pieceOf) (cs.flatMap escapeChar) := by
  induction cs with
  | nil => exact .nil
  | cons c cs ih =>
    rw [List.map_cons, List.flatMap_cons]
    exact isBody_escapeChar c ih

/-- A unit that is no half of a pair stands for itself. -/
theorem join?_unit {n : Nat} (h : n < 0xD800) (rest : List Piece) :
    join? (.unit n :: rest) = (join? rest).map (Char.ofNat n :: ·) := by
  have hlone : loneUnit? n = some (Char.ofNat n) := if_neg (by omega)
  cases rest with
  | nil => simp [join?, hlone]
  | cons piece rest =>
    cases piece with
    | char c => cases h : join? rest <;> simp [join?, hlone, h]
    | unit low =>
      rw [join?, if_neg (by omega), hlone]
      cases join? (.unit low :: rest) <;> rfl

theorem join?_pieces (cs : List Char) : join? (cs.map pieceOf) = some cs := by
  induction cs with
  | nil => rfl
  | cons c cs ih =>
    rw [List.map_cons]
    by_cases hunit : c.toNat < 0x20 ∧ c ≠ '\n' ∧ c ≠ '\r' ∧ c ≠ '\t' ∧ c ≠ '\x08' ∧ c ≠ '\x0c'
    · rw [pieceOf, if_pos hunit, join?_unit (by omega), ih, Char.ofNat_toNat]
      rfl
    · rw [pieceOf, if_neg hunit, join?, ih]
      rfl

/-- A written string denotes the string. -/
theorem joinString?_piecesOf (s : String) : joinString? (piecesOf s) = some s := by
  rw [joinString?, piecesOf, join?_pieces, Option.map_some, String.ofList_toList]

/-! ## Numerals -/

/-- Digits, of which there is at least one. -/
def IsRun (digits : List Char) : Prop := digits ≠ [] ∧ ∀ c ∈ digits, c.isDigit = true

/-- The characters of a numeral; its exponent carries a sign. -/
def Numeral.chars (numeral : Numeral) : List Char :=
  (if numeral.negative then ['-'] else []) ++ numeral.whole ++
    numeral.fraction.elim [] (fun digits => '.' :: digits) ++
    numeral.exponent.elim [] fun (negative, digits) =>
      'e' :: (if negative then '-' else '+') :: digits

/-- Every part of the numeral that is there has digits, and no zero leads the whole part. -/
structure Numeral.IsProper (numeral : Numeral) : Prop where
  whole : IsRun numeral.whole
  leading : numeral.whole = ['0'] ∨ numeral.whole.head? ≠ some '0'
  fraction : ∀ digits, numeral.fraction = some digits → IsRun digits
  exponent : ∀ negative digits, numeral.exponent = some (negative, digits) → IsRun digits

section Reading

variable {digits rest : List Char} {numeral : Numeral}

/-- The text does not go on with a digit. -/
def EndsDigits (text : List Char) : Prop := ∀ c ∈ text.head?, c.isDigit = false

theorem endsDigits_of_endsNumber (h : Literal.EndsNumber rest) : EndsDigits rest := by
  intro c hc
  have hparts := h c hc
  simp only [Bool.or_eq_false_iff] at hparts
  exact hparts.1.1.1.1

/-- A run of digits is read up to its end. -/
theorem digits?_run (hrun : IsRun digits) (hrest : EndsDigits rest) :
    digits? (digits ++ rest) = some (digits, rest) := by
  have hstop : rest.takeWhile Char.isDigit = [] ∧ rest.dropWhile Char.isDigit = rest := by
    cases rest with
    | nil => exact ⟨rfl, rfl⟩
    | cons c cs =>
      have hc : c.isDigit = false := hrest c rfl
      simp [hc]
  unfold digits? Text.someRun?
  rw [List.takeWhile_append_of_pos hrun.2, List.dropWhile_append_of_pos hrun.2, hstop.1, hstop.2,
    List.append_nil]
  exact if_neg (by simp [hrun.1])

theorem wholePart?_run (hrun : IsRun digits) (hleading : digits = ['0'] ∨ digits.head? ≠ some '0')
    (hrest : EndsDigits rest) : wholePart? (digits ++ rest) = some (digits, rest) := by
  unfold wholePart?
  rw [digits?_run hrun hrest]
  dsimp only [Option.bind_eq_bind, Option.bind_some]
  split
  next =>
    rcases hleading with h | h
    · cases h
    · exact absurd rfl h
  next => rfl

theorem exponentPart?_end (hrest : Literal.EndsNumber rest) :
    exponentPart? rest = some (none, rest) := by
  cases rest with
  | nil => rfl
  | cons c cs =>
    have hc := hrest c rfl
    simp only [Bool.or_eq_false_iff] at hc
    have hexp : (c == 'e' || c == 'E') = false := by rw [hc.1.2, hc.2]; rfl
    exact if_neg (by rw [hexp]; exact Bool.false_ne_true)

/-- The exponent of a number, if it has one. -/
inductive IsExponent : Option (Bool × List Char) → List Char → Prop
  | none : IsExponent none []
  | plain {e : Char} {digits : List Char} (mark : e = 'e' ∨ e = 'E') (run : IsRun digits) :
      IsExponent (some (false, digits)) (e :: digits)
  | signed {e : Char} {digits : List Char} (negative : Bool) (mark : e = 'e' ∨ e = 'E')
      (run : IsRun digits) : IsExponent (some (negative, digits))
        (e :: (if negative then '-' else '+') :: digits)

/-- Where an exponent may stand, no digit and no point follows, and the exponent is read. -/
theorem IsExponent.reads {exponent : Option (Bool × List Char)} {cs : List Char}
    (h : IsExponent exponent cs) (hrest : Literal.EndsNumber rest) :
    EndsDigits (cs ++ rest) ∧ (cs ++ rest).head? ≠ some '.' ∧
      exponentPart? (cs ++ rest) = some (exponent, rest) := by
  have hmarks {e : Char} {tail : List Char} (mark : e = 'e' ∨ e = 'E') :
      EndsDigits (e :: tail) ∧ (e :: tail).head? ≠ some '.' := by
    refine ⟨fun c hc => ?_, fun hpoint => ?_⟩
    · obtain rfl := Option.some.inj hc
      rcases mark with rfl | rfl <;> rfl
    · rcases mark with rfl | rfl <;> cases hpoint
  cases h with
  | none =>
    refine ⟨endsDigits_of_endsNumber hrest, fun hpoint => ?_, exponentPart?_end hrest⟩
    exact absurd (hrest '.' hpoint) (by decide)
  | @plain e digits mark run =>
    have hdigits := digits?_run run (endsDigits_of_endsNumber hrest)
    obtain ⟨d, ds, rfl⟩ := List.exists_cons_of_ne_nil run.1
    -- a digit is no sign, so the exponent is read without one
    have hsign : d ≠ '-' ∧ d ≠ '+' := by
      have hdigit := run.2 d List.mem_cons_self
      constructor <;> rintro rfl <;> cases hdigit
    refine ⟨(hmarks mark).1, (hmarks mark).2, ?_⟩
    rw [List.cons_append] at hdigits
    rcases mark with rfl | rfl <;> simp [exponentPart?, hsign, hdigits]
  | @signed e digits negative mark run =>
    have hdigits := digits?_run run (endsDigits_of_endsNumber hrest)
    refine ⟨(hmarks mark).1, (hmarks mark).2, ?_⟩
    rcases mark with rfl | rfl <;> cases negative <;> simp [exponentPart?, hdigits]

theorem fractionPart?_chars {tail : List Char} (h : numeral.IsProper) (hdigits : EndsDigits tail)
    (hpoint : tail.head? ≠ some '.') :
    let text := numeral.fraction.elim [] (fun digits => '.' :: digits) ++ tail
    EndsDigits text ∧ fractionPart? text = some (numeral.fraction, tail) := by
  cases hfraction : numeral.fraction with
  | none =>
    refine ⟨hdigits, ?_⟩
    show fractionPart? tail = some (none, tail)
    unfold fractionPart?
    split
    next => exact absurd rfl hpoint
    next => rfl
  | some digits =>
    refine ⟨fun c hc => ?_, ?_⟩
    · obtain rfl := Option.some.inj hc
      rfl
    · show fractionPart? ('.' :: (digits ++ tail)) = some (some digits, tail)
      rw [fractionPart?, digits?_run (h.fraction digits hfraction) hdigits]
      rfl

/-- The text of a number. -/
inductive IsNumber : Numeral → List Char → Prop
  | mk {numeral : Numeral} {tail : List Char} (proper : numeral.IsProper)
      (exponent : IsExponent numeral.exponent tail) :
      IsNumber numeral ((if numeral.negative then ['-'] else []) ++ numeral.whole ++
        numeral.fraction.elim [] (fun digits => '.' :: digits) ++ tail)

/-- A number is read up to its end. -/
theorem IsNumber.reads {cs : List Char} (h : IsNumber numeral cs)
    (hrest : Literal.EndsNumber rest) : numeral? (cs ++ rest) = some (numeral, rest) := by
  cases h with
  | @mk tail proper exponent =>
  obtain ⟨hends, hpoint, hread⟩ := exponent.reads hrest
  obtain ⟨hends', hfraction⟩ := fractionPart?_chars proper hends hpoint
  have hwhole := wholePart?_run proper.whole proper.leading hends'
  obtain ⟨d, ds, hds⟩ := List.exists_cons_of_ne_nil proper.whole.1
  -- the first digit is not taken for the minus
  have hminus : d ≠ '-' := by
    rintro rfl
    exact absurd (proper.whole.2 '-' (by rw [hds]; exact List.mem_cons_self)) (by decide)
  unfold numeral?
  simp only [List.append_assoc]
  cases hnegative : numeral.negative with
  | true =>
    simp only [if_true, List.singleton_append, hwhole, hfraction, hread, Option.bind_eq_bind,
      Option.bind_some]
    rw [← hnegative]
    rfl
  | false =>
    rw [hds] at hwhole
    simp only [Bool.false_eq_true, if_false, List.nil_append, hds, List.cons_append] at hwhole ⊢
    split
    next heq => exact absurd (List.cons.inj heq).1 hminus
    next =>
      simp only [hwhole, hfraction, hread, Option.bind_eq_bind, Option.bind_some]
      rw [← hnegative, ← hds]
      rfl

/-- A number starts with a digit, or with a minus. -/
theorem IsNumber.head {cs : List Char} (h : IsNumber numeral cs) :
    ∃ c tail, cs = c :: tail ∧ Literal.startsInteger c = true := by
  cases h with
  | @mk tail proper exponent =>
  obtain ⟨hne, hdigit⟩ := proper.whole
  cases numeral.negative with
  | true => exact ⟨'-', _, rfl, rfl⟩
  | false =>
    obtain ⟨d, ds, hds⟩ := List.exists_cons_of_ne_nil hne
    refine ⟨d, ds ++ _ ++ _, by rw [hds]; rfl, ?_⟩
    rw [Literal.startsInteger, hdigit d (by rw [hds]; exact List.mem_cons_self), Bool.true_or]

/-- A number may be written as the characters of its numeral. -/
theorem Numeral.IsProper.isNumber (h : numeral.IsProper) : IsNumber numeral numeral.chars := by
  refine .mk h ?_
  cases hexponent : numeral.exponent with
  | none => exact .none
  | some exponent => exact .signed exponent.1 (Or.inl rfl) (h.exponent _ _ hexponent)

/-- A numeral is read up to the end of its characters. -/
theorem numeral?_chars (h : numeral.IsProper) (hrest : Literal.EndsNumber rest) :
    numeral? (numeral.chars ++ rest) = some (numeral, rest) :=
  h.isNumber.reads hrest

/-- A character that numerals are made of. -/
def isNumeralChar (c : Char) : Bool := c.isDigit || c == '-' || c == '+' || c == '.' || c == 'e'

theorem isNumeralChar_of_isRun (hrun : IsRun digits) : ∀ c ∈ digits, isNumeralChar c = true := by
  intro c hc
  rw [isNumeralChar, hrun.2 c hc]
  rfl

theorem Numeral.IsProper.isNumeralChar (h : numeral.IsProper) :
    ∀ c ∈ numeral.chars, isNumeralChar c = true := by
  intro c hc
  simp only [Numeral.chars, List.mem_append] at hc
  rcases hc with ((hc | hc) | hc) | hc
  · cases hnegative : numeral.negative <;> simp_all [Json.isNumeralChar]
  · exact isNumeralChar_of_isRun h.whole c hc
  · cases hfraction : numeral.fraction with
    | none => simp [hfraction] at hc
    | some digits =>
      rw [hfraction] at hc
      rcases List.mem_cons.mp hc with rfl | hc
      · rfl
      · exact isNumeralChar_of_isRun (h.fraction digits hfraction) c hc
  · cases hexponent : numeral.exponent with
    | none => simp [hexponent] at hc
    | some exponent =>
      obtain ⟨negative, digits⟩ := exponent
      rw [hexponent] at hc
      rcases List.mem_cons.mp hc with rfl | hc
      · rfl
      · rcases List.mem_cons.mp hc with rfl | hc
        · cases negative <;> rfl
        · exact isNumeralChar_of_isRun (h.exponent negative digits hexponent) c hc

end Reading

/-! ## Whole numbers -/

/-- The numeral that an integer is written as. -/
def numeralOf (n : Int) : Numeral := ⟨decide (n < 0), Decimal.natDigits n.natAbs, none, none⟩

theorem takeDigits_of_lt {acc : Nat} {digits : List Char}
    (h : Decimal.digitsValue acc digits < UInt64.size) :
    takeDigits acc digits = (Decimal.digitsValue acc digits, []) := by
  induction digits generalizing acc with
  | nil => rfl
  | cons d ds ih =>
    have hacc : acc * 10 + (d.toNat - '0'.toNat) = 10 * acc + (d.toNat - '0'.toNat) := by omega
    have hle := Decimal.le_digitsValue (10 * acc + (d.toNat - '0'.toNat)) ds
    rw [Decimal.digitsValue, List.foldl_cons, ← Decimal.digitsValue] at h ⊢
    rw [takeDigits, hacc, if_pos (by omega), ih h]

/-- The integer fits 64 bits, with or without a sign. -/
def fitsWord (n : Int) : Bool := decide (-2 ^ 63 ≤ n) && decide (n < 2 ^ 64)

/-- An integer that fits 64 bits is denoted by its numeral. -/
theorem value?_numeralOf {n : Int} (h : fitsWord n = true) :
    (numeralOf n).value? = some (.int n) := by
  rw [fitsWord, Bool.and_eq_true, decide_eq_true_eq, decide_eq_true_eq] at h
  have hsize : n.natAbs < UInt64.size := by
    rw [UInt64.size]
    omega
  have hdigits : takeDigits 0 (Decimal.natDigits n.natAbs) = (n.natAbs, []) := by
    rw [takeDigits_of_lt (by rwa [Decimal.digitsValue_natDigits]), Decimal.digitsValue_natDigits]
  unfold numeralOf Numeral.value?
  rw [hdigits]
  dsimp only
  by_cases hneg : n < 0
  · have hpos : n.natAbs ≠ 0 := by omega
    have hlow : n.natAbs ≤ Nat.pow 2 63 := by
      have : Nat.pow 2 63 = 9223372036854775808 := rfl
      omega
    have habs : (-(n.natAbs : Int)) = n := by omega
    rw [decide_eq_true hneg, if_neg (by decide), if_pos hlow, beq_false_of_ne hpos,
      if_neg (by decide), habs]
  · have habs : (n.natAbs : Int) = n := by omega
    rw [decide_eq_false hneg, if_pos (by decide), habs]

theorem isRun_natDigits (m : Nat) : IsRun (Decimal.natDigits m) :=
  ⟨Nat.toDigits_ne_nil, fun _ => Decimal.isDigit_of_mem_natDigits⟩

/-- An integer is written as a numeral. -/
theorem isProper_numeralOf (n : Int) : (numeralOf n).IsProper := by
  refine ⟨isRun_natDigits _, ?_, nofun, nofun⟩
  rcases Nat.eq_zero_or_pos n.natAbs with hzero | hpos
  · exact Or.inl (by rw [numeralOf, hzero]; rfl)
  · exact Or.inr fun hhead => Decimal.head_natDigits hpos '0' hhead rfl

theorem chars_numeralOf (n : Int) : (numeralOf n).chars = (Decimal.intText n).toList := by
  rw [Decimal.toList_intText, Numeral.chars, numeralOf]
  simp

end Json

end Storyboard
