import Storyboard.Proofs.Json.Grammar
import Storyboard.Reply.Object

/-!
# Mending the end of a text

Before a text is closed, blanks and commas are taken off its end.  A complete value loses nothing
by that; a string that is broken off loses characters of its own, but no part of an escape.
-/

namespace Storyboard

namespace Text

variable {p : Char → Bool}

theorem dropEndWhile_append_of_all (front : List Char) {back : List Char}
    (h : ∀ c ∈ back, p c = true) : dropEndWhile p (front ++ back) = dropEndWhile p front := by
  unfold dropEndWhile
  rw [List.reverse_append, List.dropWhile_append_of_pos fun c hc => h c (List.mem_reverse.mp hc)]

theorem dropEndWhile_concat_of_not (front : List Char) {c : Char} (h : p c = false) :
    dropEndWhile p (front ++ [c]) = front ++ [c] := by
  unfold dropEndWhile
  rw [List.reverse_append, List.reverse_singleton, List.singleton_append,
    List.dropWhile_cons_of_neg (by simp [h]), List.reverse_cons, List.reverse_reverse]

/-- Where something is left at the end, nothing is taken off before it. -/
theorem dropEndWhile_append_of_ne_nil (front : List Char) {back : List Char}
    (h : dropEndWhile p back ≠ []) :
    dropEndWhile p (front ++ back) = front ++ dropEndWhile p back := by
  unfold dropEndWhile at h ⊢
  have hback : (back.reverse.dropWhile p).isEmpty = false := by
    rw [List.isEmpty_eq_false_iff]
    exact fun hnil => h (by rw [hnil]; rfl)
  rw [List.reverse_append, List.dropWhile_append, hback, if_neg Bool.false_ne_true,
    List.reverse_append, List.reverse_reverse]

theorem dropEndWhile_append_of_nil (front : List Char) {back : List Char}
    (h : dropEndWhile p back = []) : dropEndWhile p (front ++ back) = dropEndWhile p front := by
  refine dropEndWhile_append_of_all front fun c hc => ?_
  exact List.dropWhile_eq_nil_iff.mp (List.reverse_eq_nil_iff.mp h) c (List.mem_reverse.mpr hc)

/-- A character that stays keeps what is in front of it. -/
theorem dropEndWhile_append_cons_of_not (front back : List Char) {c : Char} (h : p c = false) :
    dropEndWhile p (front ++ c :: back) = front ++ c :: dropEndWhile p back := by
  rw [List.append_cons front c back]
  by_cases hback : dropEndWhile p back = []
  · rw [dropEndWhile_append_of_nil _ hback, hback, dropEndWhile_concat_of_not front h]
  · rw [dropEndWhile_append_of_ne_nil _ hback, ← List.append_cons]

/-- What is taken off the end. -/
theorem exists_dropEndWhile (p : Char → Bool) (cs : List Char) :
    ∃ back, cs = dropEndWhile p cs ++ back ∧ ∀ c ∈ back, p c = true := by
  refine ⟨(cs.reverse.takeWhile p).reverse, ?_, fun c hc => ?_⟩
  · unfold dropEndWhile
    rw [← List.reverse_append, List.takeWhile_append_dropWhile, List.reverse_reverse]
  · exact List.mem_takeWhile_imp (List.mem_reverse.mp hc)

end Text

namespace Reply

/-- The text without the blanks, and then the commas, at its end. -/
def mend (text : List Char) : List Char := Text.dropEndWhile (· == ',') (Text.trimEnd text)

/-- The quote and the brackets that are lacking. -/
def Nesting.lacking (n : Nesting) : List Char := (if n.inString then ['"'] else []) ++ n.closers

theorem balance_eq (text : List Char) :
    balance text = mend text ++ (text.foldl Nesting.after {}).lacking := rfl

section Mend

variable {front back : List Char}

theorem mend_append (front : List Char) (h : mend back ≠ []) :
    mend (front ++ back) = front ++ mend back := by
  have htrim : Text.trimEnd back ≠ [] := fun hnil => h (by rw [mend, hnil]; rfl)
  unfold mend at h ⊢
  rw [Text.trimEnd, Text.dropEndWhile_append_of_ne_nil front htrim, ← Text.trimEnd,
    Text.dropEndWhile_append_of_ne_nil front h]

/-- A character that ends a value. -/
def isClosing (c : Char) : Bool := !Text.isBlank c && c != ','

theorem mend_concat (front : List Char) {c : Char} (h : isClosing c = true) :
    mend (front ++ [c]) = front ++ [c] := by
  rw [isClosing, Bool.and_eq_true, Bool.not_eq_true'] at h
  unfold mend
  rw [Text.trimEnd, Text.dropEndWhile_concat_of_not front h.1,
    Text.dropEndWhile_concat_of_not front (by simpa using h.2)]

/-- A comma at the end is taken off, and nothing in front of it. -/
theorem mend_comma (front : List Char) {c : Char} (h : c ≠ ',') :
    mend (front ++ [c] ++ [',']) = front ++ [c] := by
  unfold mend
  rw [Text.trimEnd, Text.dropEndWhile_concat_of_not _ (by decide),
    Text.dropEndWhile_append_of_all _ (by simp),
    Text.dropEndWhile_concat_of_not _ (by simpa using h)]

/-- What is taken off the end is blanks and commas. -/
theorem exists_mend (text : List Char) :
    ∃ back, text = mend text ++ back ∧ ∀ c ∈ back, isClosing c = false := by
  obtain ⟨blanks, hblanks, hblank⟩ := Text.exists_dropEndWhile Text.isBlank text
  obtain ⟨commas, hcommas, hcomma⟩ :=
    Text.exists_dropEndWhile (· == ',') (Text.dropEndWhile Text.isBlank text)
  refine ⟨commas ++ blanks, ?_, fun c hc => ?_⟩
  · rw [← List.append_assoc]
    unfold mend Text.trimEnd
    rw [← hcommas, ← hblanks]
  · rw [isClosing]
    rcases List.mem_append.mp hc with hc | hc
    · have heq := hcomma c hc
      rw [beq_iff_eq.mp heq]
      rfl
    · rw [hblank c hc]
      rfl

theorem mend_prefix (text : List Char) : mend text <+: text := by
  obtain ⟨back, htext, -⟩ := exists_mend text
  exact ⟨back, htext.symm⟩

end Mend

/-! ## The ends of values -/

theorem isClosing_of_hexValue? {c : Char} (h : (Json.hexValue? c).isSome = true) :
    isClosing c = true := by
  have hascii : ∀ n : Fin 128, (Json.hexValue? (Char.ofNat n)).isSome = true →
      isClosing (Char.ofNat n) = true := by decide
  have hsmall : c.toNat < 128 := by
    unfold Json.hexValue? at h
    split at h
    next hdigit => exact Nat.lt_of_le_of_lt (Char.isDigit_iff_toNat.mp hdigit).2 (by decide)
    split at h
    next hlower => exact Nat.lt_of_le_of_lt hlower.2 (by decide)
    split at h
    next hupper => exact Nat.lt_of_le_of_lt hupper.2 (by decide)
    cases h
  have hc := hascii ⟨c.toNat, hsmall⟩
  rw [Char.ofNat_toNat] at hc
  exact hc h

theorem isClosing_of_isDigit {c : Char} (h : c.isDigit = true) : isClosing c = true :=
  isClosing_of_hexValue? (by rw [Json.hexValue?, if_pos h]; rfl)

/-- The text ends in a character that ends a value. -/
def EndsClosing (text : List Char) : Prop := ∃ front c, text = front ++ [c] ∧ isClosing c = true

theorem EndsClosing.append (front : List Char) {text : List Char} (h : EndsClosing text) :
    EndsClosing (front ++ text) := by
  obtain ⟨init, c, rfl, hc⟩ := h
  exact ⟨front ++ init, c, (List.append_assoc ..).symm, hc⟩

theorem EndsClosing.mend {text : List Char} (h : EndsClosing text) : mend text = text := by
  obtain ⟨front, c, rfl, hc⟩ := h
  exact mend_concat front hc

theorem endsClosing_run {digits : List Char} (h : Json.IsRun digits) : EndsClosing digits := by
  refine ⟨digits.dropLast, digits.getLast h.1, (List.dropLast_append_getLast h.1).symm, ?_⟩
  exact isClosing_of_isDigit (h.2 _ (List.getLast_mem h.1))

theorem endsClosing_number {numeral : Json.Numeral} {text : List Char}
    (h : Json.IsNumber numeral text) : EndsClosing text := by
  cases h with
  | mk proper exponent =>
  cases hexponent : numeral.exponent with
  | some value =>
    rw [hexponent] at exponent
    refine .append _ ?_
    cases exponent with
    | plain _ run => exact (endsClosing_run run).append [_]
    | signed _ _ run => exact (endsClosing_run run).append [_, _]
  | none =>
    rw [hexponent] at exponent
    cases exponent
    rw [List.append_nil]
    cases hfraction : numeral.fraction with
    | some digits =>
      exact ((endsClosing_run (proper.fraction digits hfraction)).append ['.']).append _
    | none =>
      rw [Option.elim_none, List.append_nil]
      exact (endsClosing_run proper.whole).append _

/-- A value ends in a character that is neither blank nor a comma. -/
theorem endsClosing_text {tree : Json.Tree} {text : List Char} (h : Json.IsText tree text) :
    EndsClosing text := by
  cases h with
  | null => exact ⟨['n', 'u', 'l'], 'l', rfl, rfl⟩
  | true => exact ⟨['t', 'r', 'u'], 'e', rfl, rfl⟩
  | false => exact ⟨['f', 'a', 'l', 's'], 'e', rfl, rfl⟩
  | number text => exact endsClosing_number text
  | string body => exact ⟨_, '"', (List.cons_append ..).symm, rfl⟩
  | noItems blank | array texts blank => exact ⟨_, ']', (List.cons_append ..).symm, rfl⟩
  | noMembers blank | object texts blank => exact ⟨_, '\x7d', (List.cons_append ..).symm, rfl⟩

/-! ## Strings that are broken off -/

/-- No escape ends in a character that is taken off. -/
theorem isClosing_of_escape {e c : Char} (h : Json.escape? e = some c) : isClosing e = true := by
  unfold Json.escape? at h
  split at h
  next heq =>
    simp only [Bool.or_eq_true, beq_iff_eq] at heq
    obtain (rfl | rfl) | rfl := heq <;> rfl
  repeat' split at h
  all_goals first
    | cases h
      done
    | rename_i heq
      rw [beq_iff_eq.mp heq]
      rfl

theorem dropEndWhile_cons_of_nil {p : Char → Bool} {c : Char} {cs : List Char} (hc : p c = true)
    (hnil : Text.dropEndWhile p cs = []) : Text.dropEndWhile p (c :: cs) = [] := by
  have htext := Text.dropEndWhile_append_of_nil [c] hnil
  rw [Text.dropEndWhile, Text.dropEndWhile, List.reverse_singleton, List.dropWhile_cons_of_pos hc,
    ← Text.dropEndWhile] at htext
  rw [← List.singleton_append, htext]
  rfl

/-- A plain character is taken off when all behind it is. -/
theorem exists_body_dropEndWhile_char {p : Char → Bool} {c : Char} {kept : List Json.Piece}
    {chars cs : List Char} (quote : c ≠ '"') (slash : c ≠ '\\') (printed : ¬ c.toNat < 0x20)
    (hkept : Json.IsBody kept (Text.dropEndWhile p cs)) :
    ∃ (kept' : List Json.Piece) (chars' : List Char),
      .char c :: (kept ++ chars.map .char) = kept' ++ chars'.map .char ∧
        Json.IsBody kept' (Text.dropEndWhile p (c :: cs)) := by
  by_cases hc : p c = true
  · by_cases hnil : Text.dropEndWhile p cs = []
    · rw [hnil] at hkept
      cases hkept
      refine ⟨[], c :: chars, rfl, ?_⟩
      rw [dropEndWhile_cons_of_nil hc hnil]
      exact .nil
    · refine ⟨.char c :: kept, chars, rfl, ?_⟩
      have htext := Text.dropEndWhile_append_of_ne_nil [c] hnil
      rw [List.singleton_append] at htext
      rw [htext]
      exact .char quote slash printed hkept
  · refine ⟨.char c :: kept, chars, rfl, ?_⟩
    rw [← List.nil_append (c :: cs),
      Text.dropEndWhile_append_cons_of_not _ _ (Bool.eq_false_iff.mpr hc)]
    exact .char quote slash printed hkept

/-- Off the end of a string only characters are taken that stand for themselves. -/
theorem exists_body_dropEndWhile {p : Char → Bool} (hp : ∀ c, p c = true → isClosing c = false)
    {pieces : List Json.Piece} {text : List Char} (h : Json.IsBody pieces text) :
    ∃ (kept : List Json.Piece) (chars : List Char), pieces = kept ++ chars.map .char ∧
      Json.IsBody kept (Text.dropEndWhile p text) := by
  have hstays {c : Char} (hc : isClosing c = true) : p c = false := by
    rw [Bool.eq_false_iff]
    intro heq
    rw [hp c heq] at hc
    cases hc
  induction h with
  | nil => exact ⟨[], [], rfl, .nil⟩
  | @char c pieces cs quote slash printed _ ih =>
    obtain ⟨kept, chars, rfl, hkept⟩ := ih
    exact exists_body_dropEndWhile_char quote slash printed hkept
  | @escape e c pieces cs escape _ ih =>
    obtain ⟨kept, chars, rfl, hkept⟩ := ih
    refine ⟨.char c :: kept, chars, rfl, ?_⟩
    have htext := Text.dropEndWhile_append_cons_of_not ['\\'] cs
      (hstays (isClosing_of_escape escape))
    rw [List.singleton_append, List.singleton_append] at htext
    rw [htext]
    exact .escape escape hkept
  | @unit a b c d n pieces cs unit _ ih =>
    obtain ⟨kept, chars, rfl, hkept⟩ := ih
    -- the last digit of the escape stays, and so the whole escape does
    have hlast := isClosing_of_hexValue? (Json.isSome_hexValue?_of_unit? unit d (by simp))
    refine ⟨.unit n :: kept, chars, rfl, ?_⟩
    have htext := Text.dropEndWhile_append_cons_of_not ['\\', 'u', a, b, c] cs (hstays hlast)
    simp only [List.cons_append, List.nil_append] at htext
    rw [htext]
    exact .unit unit hkept

/-- A string that is broken off is mended within its body. -/
theorem exists_mend_string {pieces : List Json.Piece} {text : List Char}
    (h : Json.IsBody pieces text) :
    ∃ (kept : List Json.Piece) (chars : List Char) (body : List Char),
      pieces = kept ++ chars.map .char ∧ Json.IsBody kept body ∧
        mend ('"' :: text) = '"' :: body := by
  obtain ⟨rest, blanks, rfl, hrest⟩ := exists_body_dropEndWhile
    (fun c (hc : Text.isBlank c = true) => by rw [isClosing, hc]; rfl) h
  obtain ⟨kept, commas, rfl, hkept⟩ := exists_body_dropEndWhile
    (fun c (hc : (c == ',') = true) => by rw [beq_iff_eq.mp hc]; rfl) hrest
  refine ⟨kept, commas ++ blanks, _, by simp, hkept, ?_⟩
  unfold mend
  rw [Text.trimEnd, ← List.nil_append ('"' :: text),
    Text.dropEndWhile_append_cons_of_not _ _ (by decide),
    Text.dropEndWhile_append_cons_of_not _ _ (by decide)]
  rfl

end Reply

end Storyboard
