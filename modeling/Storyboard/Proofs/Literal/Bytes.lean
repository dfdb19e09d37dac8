import Storyboard.Proofs.Literal.Prefix

/-!
# Literals in bytes

A text is kept as bytes, and a reader may look at one byte at a time: every mark that it knows is a
character of one byte, and no byte of a longer character looks like one.  `Bytes.valueAt` is such a
reader.  It moves by bytes and cuts texts out between two places, which fails where a place falls
within a character.  It reads what `valueAt` reads of the characters (`Bytes.valueAt_utf8`), and so no
cut of it ever fails.
-/

namespace Storyboard.Literal

/-- The bytes of a text. -/
def utf8 (cs : List Char) : List UInt8 := cs.flatMap String.utf8EncodeChar

namespace Bytes

/-- The character that a byte stands for by itself. -/
def ascii (b : UInt8) : Char := Char.ofUInt8 b

/-- The text of bytes that were cut out; there is none when a cut falls within a character. -/
def decode? (bytes : List UInt8) : Option (List Char) :=
  bytes.toByteArray.utf8Decode?.map Array.toList

/-- Why a reader of bytes stops: a cut falls within a character, or the text is no literal. -/
inductive Trouble where
  | withinCharacter
  | failure (cause : Cause) (rest : List UInt8)

/-- The bytes without leading blanks, backslashes and comments. -/
def skipTrivia : Bool → List UInt8 → List UInt8
  | _, [] => []
  | true, b :: bs => if ascii b == '\n' then skipTrivia false bs else skipTrivia true bs
  | false, b :: bs =>
    if Text.isAsciiBlank (ascii b) || ascii b == '\\' then skipTrivia false bs
    else if ascii b == '#' then skipTrivia true bs
    else b :: bs

/-- The bytes without leading trivia. -/
def skip (bs : List UInt8) : List UInt8 := skipTrivia false bs

/-- The raw bytes of a string up to its closing quote, and what follows the quote; the first byte may
be `escaped`. -/
def quotedBody (quote : Char) : (escaped : Bool) → List UInt8 →
    Except Trouble (List UInt8 × List UInt8)
  | _, [] => .error (.failure .unterminated [])
  | true, b :: bs => (quotedBody quote false bs).map fun (raw, rest) => (b :: raw, rest)
  | false, b :: bs =>
    if ascii b == '\\' then (quotedBody quote true bs).map fun (raw, rest) => (b :: raw, rest)
    else if ascii b == quote then .ok ([], bs)
    else if ascii b == '\n' then .error (.failure .unterminated (b :: bs))
    else (quotedBody quote false bs).map fun (raw, rest) => (b :: raw, rest)

/-- What is made of the text of bytes that were cut out. -/
def withText {α : Type} (bytes : List UInt8) (make : List Char → Except Trouble α) :
    Except Trouble α :=
  match decode? bytes with
  | some chars => make chars
  | Option.none => .error .withinCharacter

/-- A string behind its opening quote. -/
def quoted (quote : Char) (bs : List UInt8) : Except Trouble (Literal × List UInt8) :=
  (quotedBody quote false bs).bind fun (raw, rest) =>
    withText raw fun chars => .ok (.text (String.ofList (unescape chars)), rest)

/-- The sign that the bytes start with, if there is one, and what follows it. -/
def takeSign : List UInt8 → List UInt8 × List UInt8
  | [] => ([], [])
  | b :: bs => if ascii b == '-' || ascii b == '+' then ([b], bs) else ([], b :: bs)

/-- A letter that an exponent starts with. -/
def isExponentMark (c : Char) : Bool := c == 'e' || c == 'E'

/-- The bytes of a number and what follows them; a sign belongs to it behind an exponent letter. -/
def numberRun : (exponent : Bool) → List UInt8 → List UInt8 × List UInt8
  | _, [] => ([], [])
  | exponent, b :: bs =>
    if (ascii b).isDigit || ascii b == '_' || ascii b == '.' || isExponentMark (ascii b) ||
        exponent && (ascii b == '-' || ascii b == '+') then
      let (run, rest) := numberRun (isExponentMark (ascii b)) bs
      (b :: run, rest)
    else ([], b :: bs)

/-- A number at the front of the bytes. -/
def number (bs : List UInt8) : Except Trouble (Literal × List UInt8) :=
  let (sign, body) := takeSign bs
  let (run, rest) := numberRun false body
  withText (sign ++ run) fun chars =>
    match numeral (run.any fun b => isFloatMark (ascii b)) (chars.filter (· != '_')) with
    | .ok value => .ok (value, rest)
    | .error cause => .error (.failure cause rest)

/-- A named value at the front of the bytes. -/
def keyword (bs : List UInt8) : Except Trouble (Literal × List UInt8) :=
  withText (bs.takeWhile fun b => isKeywordChar (ascii b)) fun chars =>
    match word? chars with
    | some value => .ok (value, bs.dropWhile fun b => isKeywordChar (ascii b))
    | Option.none => .error (.failure .identifier bs)

mutual

/-- A literal at the front of the bytes, after trivia. -/
def valueAt : Nat → List UInt8 → Except Trouble (Literal × List UInt8)
  | 0, bs => .error (.failure .endOfInput bs)
  | fuel + 1, bs =>
    match skip bs with
    | [] => .error (.failure .endOfInput [])
    | b :: rest =>
      let c := ascii b
      if c == '[' then
        (itemsAt fuel ']' false rest).map fun (items, _, rest) => (.list items, rest)
      else if c == '(' then
        (itemsAt fuel ')' false rest).map fun (items, comma, rest) => (parenthesized items comma, rest)
      else if c == '\x7b' then
        (entriesAt fuel rest).map fun (entries, rest) => (.dict entries, rest)
      else if c == '"' || c == '\'' then quoted c rest
      else if c.isDigit || c == '-' || c == '+' || c == '.' then number (b :: rest)
      else if c.isAlpha || c == '_' then keyword (b :: rest)
      else .error (.failure .unexpectedCharacter (b :: rest))

/-- Items up to the closing bracket, and whether the last of them is followed by a comma. -/
def itemsAt : Nat → Char → Bool → List UInt8 → Except Trouble (List Literal × Bool × List UInt8)
  | 0, _, _, bs => .error (.failure .endOfInput bs)
  | fuel + 1, close, comma, bs =>
    let here := skip bs
    if here.head?.map ascii == some close then .ok ([], comma, here.tail)
    else
      (valueAt fuel here).bind fun (item, rest) =>
        match skip rest with
        | [] => .error (.failure .noCommaOrClose [])
        | b :: rest =>
          if ascii b == ',' then
            (itemsAt fuel close true rest).map fun (items, comma, rest) => (item :: items, comma, rest)
          else if ascii b == close then .ok ([item], false, rest)
          else .error (.failure .noCommaOrClose (b :: rest))

/-- Entries up to the closing brace. -/
def entriesAt : Nat → List UInt8 → Except Trouble (List (Literal × Literal) × List UInt8)
  | 0, bs => .error (.failure .endOfInput bs)
  | fuel + 1, bs =>
    let here := skip bs
    if here.head?.map ascii == some '\x7d' then .ok ([], here.tail)
    else
      (valueAt fuel here).bind fun (key, rest) =>
        let here := skip rest
        if here.head?.map ascii == some ':' then
          (valueAt fuel here.tail).bind fun (value, rest) =>
            match skip rest with
            | [] => .error (.failure .noCommaOrBrace [])
            | b :: rest =>
              if ascii b == ',' then
                (entriesAt fuel rest).map fun (entries, rest) => ((key, value) :: entries, rest)
              else if ascii b == '\x7d' then .ok ([(key, value)], rest)
              else .error (.failure .noCommaOrBrace (b :: rest))
        else .error (.failure .noColon here)

end

/-- Reads a literal at the front of the bytes. -/
def readAt (bs : List UInt8) : Except Trouble (Literal × List UInt8) :=
  valueAt (2 * bs.length + 2) bs

/-! ## Bytes of characters -/

theorem utf8_cons (c : Char) (cs : List Char) :
    utf8 (c :: cs) = String.utf8EncodeChar c ++ utf8 cs := List.flatMap_cons

theorem utf8_append (xs ys : List Char) : utf8 (xs ++ ys) = utf8 xs ++ utf8 ys := List.flatMap_append

/-- The bytes of a text are decoded to the text. -/
theorem decode?_utf8 (cs : List Char) : decode? (utf8 cs) = some cs := by
  have hdecode : (utf8 cs).toByteArray.utf8Decode? = some cs.toArray := List.utf8Decode?_utf8Encode
  rw [decode?, hdecode]
  rfl

/-- Different texts have different bytes. -/
theorem utf8_injective : Function.Injective utf8 := fun xs ys h => by
  have hsame := decode?_utf8 xs
  rw [h, decode?_utf8 ys] at hsame
  exact (Option.some.inj hsame).symm

theorem toNat_ascii (b : UInt8) : (ascii b).toNat = b.toNat := rfl

/-- A character of one byte stands for itself, and no byte of another one is a character that the
reader knows. -/
theorem bytes_cases (c : Char) :
    (c.toNat < 128 ∧ ∃ b, String.utf8EncodeChar c = [b] ∧ ascii b = c) ∨
    (128 ≤ c.toNat ∧ ∃ b bs, String.utf8EncodeChar c = b :: bs ∧
      128 ≤ (ascii b).toNat ∧ ∀ x ∈ bs, 128 ≤ (ascii x).toNat) := by
  have hsize : ∀ n : Nat, n < 256 → (UInt8.ofNat n).toNat = n := fun n => Nat.mod_eq_of_lt
  unfold String.utf8EncodeChar
  dsimp only
  -- the encoding has one, two, three or four bytes; each case reads its bytes off
  split_ifs with hone htwo hthree
  · refine Or.inl ⟨Nat.lt_succ_of_le hone, _, rfl, Char.toNat_inj.mp ?_⟩
    rw [toNat_ascii, hsize _ (by omega)]
    rfl
  · refine Or.inr ⟨Nat.succ_le_of_lt (Nat.lt_of_not_le hone), _, _, rfl, ?_, ?_⟩
    · rw [toNat_ascii, hsize _ (by omega)]
      omega
    · simp only [List.forall_mem_cons, toNat_ascii]
      rw [hsize _ (by omega)]
      exact ⟨by omega, nofun⟩
  · refine Or.inr ⟨Nat.succ_le_of_lt (Nat.lt_of_not_le hone), _, _, rfl, ?_, ?_⟩
    · rw [toNat_ascii, hsize _ (by omega)]
      omega
    · simp only [List.forall_mem_cons, toNat_ascii]
      rw [hsize _ (by omega), hsize _ (by omega)]
      exact ⟨by omega, by omega, nofun⟩
  · refine Or.inr ⟨Nat.succ_le_of_lt (Nat.lt_of_not_le hone), _, _, rfl, ?_, ?_⟩
    · rw [toNat_ascii, hsize _ (by omega)]
      omega
    · simp only [List.forall_mem_cons, toNat_ascii]
      rw [hsize _ (by omega), hsize _ (by omega), hsize _ (by omega)]
      exact ⟨by omega, by omega, by omega, nofun⟩

section Long

variable {d : Char} (h : 128 ≤ d.toNat)
include h

theorem beq_long {k : Char} (hk : k.toNat < 128) : (d == k) = false := by
  rw [beq_eq_false_iff_ne]
  rintro rfl
  omega

theorem isDigit_long : d.isDigit = false := by
  rw [Bool.eq_false_iff]
  intro hdigit
  simp only [Char.isDigit, Bool.and_eq_true, decide_eq_true_eq, UInt32.le_iff_toNat_le] at hdigit
  exact absurd (h.trans hdigit.2) (by decide)

theorem isAlpha_long : d.isAlpha = false := by
  rw [Bool.eq_false_iff]
  intro halpha
  simp only [Char.isAlpha, Char.isUpper, Char.isLower, Bool.or_eq_true, decide_eq_true_eq,
    Bool.and_eq_true, UInt32.le_iff_toNat_le] at halpha
  rcases halpha with halpha | halpha
  all_goals exact absurd (h.trans halpha.2) (by decide)

theorem isKeywordChar_long : isKeywordChar d = false := by
  rw [isKeywordChar, Char.isAlphanum, isAlpha_long h, isDigit_long h, beq_long h (by decide)]
  rfl

theorem isAsciiBlank_long : Text.isAsciiBlank d = false := by
  simp only [Text.isAsciiBlank, beq_long h (k := ' ') (by decide), beq_long h (k := '\t') (by decide),
    beq_long h (k := '\n') (by decide), beq_long h (k := '\x0c') (by decide),
    beq_long h (k := '\r') (by decide), Bool.or_self]

end Long

theorem utf8_short {c : Char} {b : UInt8} (h : String.utf8EncodeChar c = [b]) (cs : List Char) :
    utf8 (c :: cs) = b :: utf8 cs := by
  rw [utf8_cons, h]
  rfl

/-! ## Scans -/

/-- A comment goes on over the bytes of long characters. -/
theorem skipTrivia_long {bs : List UInt8} (h : ∀ x ∈ bs, 128 ≤ (ascii x).toNat)
    (more : List UInt8) : skipTrivia true (bs ++ more) = skipTrivia true more := by
  induction bs with
  | nil => rfl
  | cons b bs ih =>
    rw [List.forall_mem_cons] at h
    rw [List.cons_append, skipTrivia, beq_long h.1 (by decide), if_neg Bool.false_ne_true, ih h.2]

theorem skipTrivia_utf8 (inComment : Bool) (cs : List Char) :
    skipTrivia inComment (utf8 cs) = utf8 (Literal.skipTrivia inComment cs) := by
  induction cs generalizing inComment with
  | nil => cases inComment <;> rfl
  | cons c cs ih =>
    obtain ⟨hc, b, hb, rfl⟩ | ⟨hc, b, bs, hb, hlong, hrest⟩ := bytes_cases c
    · rw [utf8_short hb]
      cases inComment with
      | true =>
        rw [skipTrivia, Literal.skipTrivia, ih, ih]
        split <;> rfl
      | false =>
        rw [skipTrivia, Literal.skipTrivia, ih, ih]
        split_ifs
        · rfl
        · rfl
        · rw [utf8_short hb]
    · cases inComment with
      | true =>
        -- all bytes of a long character lie within the comment
        rw [utf8_cons, hb, skipTrivia_long (List.forall_mem_cons.mpr ⟨hlong, hrest⟩), ih,
          Literal.skipTrivia, beq_long hc (by decide), if_neg Bool.false_ne_true]
      | false =>
        -- its first byte is no trivia, and skipping stops at it
        rw [Literal.skipTrivia, isAsciiBlank_long hc, beq_long hc (by decide),
          beq_long hc (by decide), if_neg (by decide), if_neg (by decide), utf8_cons, hb,
          List.cons_append, skipTrivia, isAsciiBlank_long hlong, beq_long hlong (by decide),
          beq_long hlong (by decide), if_neg (by decide), if_neg (by decide)]

theorem skip_utf8 (cs : List Char) : skip (utf8 cs) = utf8 (Literal.skip cs) :=
  skipTrivia_utf8 false cs

/-- The result of a reader of characters in bytes. -/
def encoded {α β : Type} (f : α → β) : Except Failure α → Except Trouble β
  | .ok found => .ok (f found)
  | .error failure => .error (.failure failure.cause (utf8 failure.rest))

theorem encoded_map {α β α' β' : Type} {f : α → β} {f' : α' → β'} {g : α → α'} {g' : β → β'}
    (h : ∀ a, g' (f a) = f' (g a)) (read : Except Failure α) :
    (encoded f read).map g' = encoded f' (read.map g) := by
  cases read with
  | ok found => exact congrArg Except.ok (h found)
  | error failure => rfl

theorem encoded_bind {α β α' β' : Type} {f : α → β} {f' : α' → β'} {g : α → Except Failure α'}
    {g' : β → Except Trouble β'} (h : ∀ a, g' (f a) = encoded f' (g a)) (read : Except Failure α) :
    (encoded f read).bind g' = encoded f' (read.bind g) := by
  cases read with
  | ok found => exact h found
  | error failure => rfl

/-- A string goes on over the bytes of long characters. -/
theorem quotedBody_long {quote : Char} (hquote : quote.toNat < 128) {bs : List UInt8}
    (h : ∀ x ∈ bs, 128 ≤ (ascii x).toNat) (more : List UInt8) :
    quotedBody quote false (bs ++ more) =
      (quotedBody quote false more).map fun (raw, rest) => (bs ++ raw, rest) := by
  induction bs with
  | nil => rw [List.nil_append]; cases quotedBody quote false more <;> rfl
  | cons b bs ih =>
    rw [List.forall_mem_cons] at h
    rw [List.cons_append, quotedBody, beq_long h.1 (by decide), if_neg Bool.false_ne_true,
      beq_long h.1 hquote, if_neg Bool.false_ne_true, beq_long h.1 (by decide),
      if_neg Bool.false_ne_true, ih h.2]
    cases quotedBody quote false more <;> rfl

/-- One character more of a string, whether it has one byte or several. -/
theorem quotedBody_plain {quote c : Char} (hquote : quote.toNat < 128) (escaped : Bool)
    (h : escaped = false → c ≠ '\\' ∧ c ≠ quote ∧ c ≠ '\n') (more : List UInt8) :
    quotedBody quote escaped (String.utf8EncodeChar c ++ more) =
      (quotedBody quote false more).map fun (raw, rest) => (String.utf8EncodeChar c ++ raw, rest) := by
  obtain ⟨-, b, hb, rfl⟩ | ⟨-, b, bs, hb, hlong, hrest⟩ := bytes_cases c
  · rw [hb, List.singleton_append]
    cases escaped with
    | true => rw [quotedBody]; rfl
    | false =>
      obtain ⟨hslash, hend, hline⟩ := h rfl
      rw [quotedBody, if_neg (by simpa using hslash), if_neg (by simpa using hend),
        if_neg (by simpa using hline)]
      rfl
  · rw [hb]
    cases escaped with
    | true =>
      rw [List.cons_append, quotedBody, quotedBody_long hquote hrest]
      cases quotedBody quote false more <;> rfl
    | false => exact quotedBody_long hquote (List.forall_mem_cons.mpr ⟨hlong, hrest⟩) more

theorem utf8_slash (cs : List Char) : utf8 ('\\' :: cs) = 92 :: utf8 cs := utf8_short rfl cs

theorem quotedBody_slash (quote : Char) (bs : List UInt8) :
    quotedBody quote false (92 :: bs) =
      (quotedBody quote true bs).map fun (raw, rest) => (92 :: raw, rest) := by
  rw [quotedBody]
  exact if_pos (by decide)

/-- The bytes of a text after the mark that it starts with. -/
theorem exists_short {c k : Char} (hk : k.toNat < 128) (h : (c == k) = true) (cs : List Char) :
    ∃ b, utf8 (c :: cs) = b :: utf8 cs ∧ ascii b = k := by
  obtain rfl := eq_of_beq h
  obtain ⟨-, b, hb, hascii⟩ | ⟨hlong, -⟩ := bytes_cases c
  · exact ⟨b, utf8_short hb cs, hascii⟩
  · omega

theorem quotedBody_utf8 {quote : Char} (hquote : quote.toNat < 128) (cs : List Char) :
    quotedBody quote false (utf8 cs) =
      encoded (fun (raw, rest) => (utf8 raw, utf8 rest)) (Literal.quotedBody quote cs) := by
  fun_induction Literal.quotedBody quote cs with
  | case1 => rfl
  | case2 c cs ih =>
    -- the backslash takes the first byte of `c` with it; its other bytes are plain ones
    rw [utf8_slash, quotedBody_slash, utf8_cons, quotedBody_plain hquote true (fun h => Bool.noConfusion h), ih]
    cases Literal.quotedBody quote cs with
    | error failure => rfl
    | ok found =>
      show Except.ok (92 :: (String.utf8EncodeChar c ++ utf8 found.1), utf8 found.2) = _
      rw [← utf8_cons, ← utf8_slash]
      rfl
  | case3 c cs hguard hslash =>
    obtain rfl := eq_of_beq hslash
    obtain rfl : cs = [] := List.eq_nil_iff_forall_not_mem.mpr fun d hmem => by
      obtain ⟨d, cs, rfl⟩ := List.exists_cons_of_ne_nil (List.ne_nil_of_mem hmem)
      exact hguard d cs rfl rfl
    rw [utf8_slash, quotedBody_slash]
    rfl
  | case4 c cs hguard hslash hend =>
    obtain ⟨b, hb, hascii⟩ := exists_short hquote hend cs
    rw [eq_of_beq hend] at hslash
    rw [hb, quotedBody, hascii, if_neg hslash, if_pos (beq_self_eq_true _)]
    rfl
  | case5 c cs hguard hslash hend hline =>
    obtain ⟨b, hb, hascii⟩ := exists_short (by decide) hline cs
    rw [eq_of_beq hline] at hslash hend
    rw [hb, quotedBody, hascii, if_neg hslash, if_neg hend, if_pos (beq_self_eq_true _), ← hb]
    rfl
  | case6 c cs hguard hslash hend hline ih =>
    have hplain : c ≠ '\\' ∧ c ≠ quote ∧ c ≠ '\n' :=
      ⟨by simpa using hslash, by simpa using hend, by simpa using hline⟩
    rw [utf8_cons, quotedBody_plain hquote false fun _ => hplain, ih]
    cases Literal.quotedBody quote cs with
    | error failure => rfl
    | ok found => simp only [encoded, Except.map, utf8_cons]

theorem withText_utf8 {α : Type} (cs : List Char) (make : List Char → Except Trouble α) :
    withText (utf8 cs) make = make cs := by
  rw [withText, decode?_utf8]

/-- A string is cut out between characters. -/
theorem quoted_utf8 {quote : Char} (hquote : quote.toNat < 128) (cs : List Char) :
    quoted quote (utf8 cs) = encoded (fun (value, rest) => (value, utf8 rest))
      ((Literal.quotedBody quote cs).map fun (raw, rest) =>
        (.text (String.ofList (unescape raw)), rest)) := by
  rw [quoted, quotedBody_utf8 hquote]
  cases Literal.quotedBody quote cs with
  | error failure => rfl
  | ok found =>
    show withText (utf8 found.1) _ = _
    rw [withText_utf8]
    rfl

/-- A number ends where no part of it follows. -/
theorem numberRun_stop (exponent : Bool) {b : UInt8} (bs : List UInt8)
    (h : ((ascii b).isDigit || ascii b == '_' || ascii b == '.' || isExponentMark (ascii b) ||
      exponent && (ascii b == '-' || ascii b == '+')) = false) :
    numberRun exponent (b :: bs) = ([], b :: bs) := by
  rw [numberRun, h, if_neg Bool.false_ne_true]

/-- That an exponent letter stands before does not matter unless a sign follows. -/
theorem numberRun_noSign (exponent : Bool) {bs : List UInt8}
    (h : ∀ b ∈ bs.head?, (exponent && (ascii b == '-' || ascii b == '+')) = false) :
    numberRun exponent bs = numberRun false bs := by
  cases bs with
  | nil => rw [numberRun, numberRun]
  | cons b bs => rw [numberRun, numberRun, h b rfl, Bool.false_and]

theorem isNumberPart_eq (c : Char) :
    (c.isDigit || c == '_' || c == '.' || isExponentMark c || false && (c == '-' || c == '+')) =
      (c.isDigit || c == '_' || c == '.' || c == 'e' || c == 'E') := by
  rw [isExponentMark, Bool.false_and, Bool.or_false, Bool.or_assoc _ (c == 'e')]

/-- A part of a number is a character of one byte. -/
theorem exists_short_numberPart {c : Char}
    (h : (c.isDigit || c == '_' || c == '.' || c == 'e' || c == 'E') = true) :
    ∃ b, (∀ cs, utf8 (c :: cs) = b :: utf8 cs) ∧ ascii b = c := by
  obtain ⟨-, b, hb, hascii⟩ | ⟨hlong, -⟩ := bytes_cases c
  · exact ⟨b, utf8_short hb, hascii⟩
  · rw [isDigit_long hlong, beq_long hlong (by decide), beq_long hlong (by decide),
      beq_long hlong (by decide), beq_long hlong (by decide)] at h
    cases h

theorem numberRun_utf8_stop {c : Char} (cs : List Char)
    (h : (c.isDigit || c == '_' || c == '.' || c == 'e' || c == 'E') = false) :
    numberRun false (utf8 (c :: cs)) = ([], utf8 (c :: cs)) := by
  obtain ⟨-, b, hb, rfl⟩ | ⟨-, b, bs, hb, hlong, -⟩ := bytes_cases c
  · rw [utf8_short hb]
    exact numberRun_stop false _ ((isNumberPart_eq _).trans h)
  · rw [utf8_cons, hb, List.cons_append]
    refine numberRun_stop false _ ?_
    rw [isNumberPart_eq, isDigit_long hlong, beq_long hlong (by decide), beq_long hlong (by decide),
      beq_long hlong (by decide), beq_long hlong (by decide)]
    rfl

/-- Behind an exponent letter the number goes on as it would elsewhere, unless a sign follows. -/
theorem numberRun_utf8_cons {c : Char} {cs : List Char}
    (h : (c.isDigit || c == '_' || c == '.' || c == 'e' || c == 'E') = true)
    (hsign : ∀ sign ∈ cs.head?, ((c == 'e' || c == 'E') && (sign == '-' || sign == '+')) = false) :
    ∃ b, (∀ cs, utf8 (c :: cs) = b :: utf8 cs) ∧ numberRun false (utf8 (c :: cs)) =
      (b :: (numberRun false (utf8 cs)).1, (numberRun false (utf8 cs)).2) := by
  obtain ⟨b, hb, rfl⟩ := exists_short_numberPart h
  refine ⟨b, hb, ?_⟩
  rw [hb, numberRun, isNumberPart_eq, if_pos h, numberRun_noSign (isExponentMark (ascii b))]
  intro first hfirst
  cases cs with
  | nil => cases hfirst
  | cons sign cs =>
    have hsign := hsign sign rfl
    obtain ⟨-, s, hs, rfl⟩ | ⟨-, s, bs, hs, hlong, -⟩ := bytes_cases sign
    · rw [utf8_short hs] at hfirst
      obtain rfl := Option.some.inj hfirst
      exact hsign
    · rw [utf8_cons, hs] at hfirst
      obtain rfl := Option.some.inj hfirst
      rw [beq_long hlong (by decide), beq_long hlong (by decide), Bool.or_self, Bool.and_false]

/-- A sign is a character of one byte, and no exponent letter. -/
theorem exists_short_sign {c : Char} (h : (c == '-' || c == '+') = true) :
    ∃ b, (∀ cs, utf8 (c :: cs) = b :: utf8 cs) ∧ ascii b = c ∧ isExponentMark c = false := by
  rcases Bool.or_eq_true_iff.mp h with hminus | hplus
  · obtain rfl := eq_of_beq hminus
    exact ⟨45, fun _ => rfl, rfl, rfl⟩
  · obtain rfl := eq_of_beq hplus
    exact ⟨43, fun _ => rfl, rfl, rfl⟩

/-- An exponent letter and the sign behind it are two bytes, taken in two turns: the letter lets the
sign pass, and the sign is no letter itself. -/
theorem numberRun_utf8_exponent {e sign : Char} (hmark : isExponentMark e = true)
    (hsign : (sign == '-' || sign == '+') = true) (cs : List Char) :
    ∃ b s, (∀ cs, utf8 (e :: sign :: cs) = b :: s :: utf8 cs) ∧
      numberRun false (utf8 (e :: sign :: cs)) =
        (b :: s :: (numberRun false (utf8 cs)).1, (numberRun false (utf8 cs)).2) := by
  have hpart : (e.isDigit || e == '_' || e == '.' || e == 'e' || e == 'E') = true := by
    rw [Bool.or_assoc]
    exact Bool.or_eq_true_iff.mpr (Or.inr hmark)
  obtain ⟨b, hb, rfl⟩ := exists_short_numberPart hpart
  obtain ⟨s, hs, rfl, hnoMark⟩ := exists_short_sign hsign
  refine ⟨b, s, fun cs => by rw [hb, hs], ?_⟩
  rw [hb, hs, numberRun, hmark, numberRun, hsign, hnoMark]
  simp

theorem numberRun_utf8 {cs run rest : List Char} (h : Literal.numberRun cs = (run, rest)) :
    numberRun false (utf8 cs) = (utf8 run, utf8 rest) := by
  fun_induction Literal.numberRun cs generalizing run rest with
  | case1 =>
    obtain ⟨rfl, rfl⟩ := Prod.mk.inj h
    rfl
  | case2 e sign cs hexp run' rest' hrun ih =>
    obtain ⟨rfl, rfl⟩ := Prod.mk.inj h
    obtain ⟨hmark, hsign⟩ := Bool.and_eq_true_iff.mp hexp
    obtain ⟨b, s, hbytes, hread⟩ := numberRun_utf8_exponent hmark hsign cs
    rw [hread, ih hrun, hbytes]
  | case3 e sign cs hexp hpart run' rest' hrun ih =>
    obtain ⟨rfl, rfl⟩ := Prod.mk.inj h
    obtain ⟨b, hb, hcons⟩ := @numberRun_utf8_cons e (sign :: cs) hpart (by
      rintro _ ⟨⟩
      exact Bool.eq_false_iff.mpr hexp)
    rw [hcons, ih hrun, hb]
  | case4 e sign cs hexp hpart =>
    obtain ⟨rfl, rfl⟩ := Prod.mk.inj h
    exact numberRun_utf8_stop _ (Bool.eq_false_iff.mpr hpart)
  | case5 c cs hsingle hpart =>
    obtain ⟨rfl, rfl⟩ := Prod.mk.inj h
    cases cs with
    | nil =>
      obtain ⟨b, hb, hcons⟩ := @numberRun_utf8_cons c [] hpart fun sign hsign => by cases hsign
      rw [hcons, hb]
      rfl
    | cons sign cs => exact (hsingle sign cs rfl).elim
  | case6 c cs hsingle hpart =>
    obtain ⟨rfl, rfl⟩ := Prod.mk.inj h
    exact numberRun_utf8_stop _ (Bool.eq_false_iff.mpr hpart)

theorem takeSign_utf8 {cs sign body : List Char} (h : Literal.takeSign cs = (sign, body)) :
    takeSign (utf8 cs) = (utf8 sign, utf8 body) := by
  unfold Literal.takeSign at h
  split at h
  next rest =>
    obtain ⟨rfl, rfl⟩ := Prod.mk.inj h
    rfl
  next rest =>
    obtain ⟨rfl, rfl⟩ := Prod.mk.inj h
    rfl
  next hminus hplus =>
    obtain ⟨rfl, rfl⟩ := Prod.mk.inj h
    cases cs with
    | nil => rfl
    | cons c cs =>
      obtain ⟨-, b, hb, rfl⟩ | ⟨-, b, bs, hb, hlong, -⟩ := bytes_cases c
      · have hsign : (ascii b == '-' || ascii b == '+') = false := by
          simp only [Bool.or_eq_false_iff, beq_eq_false_iff_ne]
          exact ⟨fun he => hminus cs (he ▸ rfl), fun he => hplus cs (he ▸ rfl)⟩
        rw [utf8_short hb, takeSign, hsign]
        rfl
      · rw [utf8_cons, hb, List.cons_append, takeSign, beq_long hlong (by decide),
          beq_long hlong (by decide)]
        rfl

/-- A test that holds of characters of one byte only holds of as many of their bytes. -/
theorem any_utf8 {p : Char → Bool} (hp : ∀ c : Char, 128 ≤ c.toNat → p c = false) (cs : List Char) :
    ((utf8 cs).any fun b => p (ascii b)) = cs.any p := by
  induction cs with
  | nil => rfl
  | cons c cs ih =>
    rw [utf8_cons, List.any_append, List.any_cons, ih]
    congr 1
    obtain ⟨-, b, hb, rfl⟩ | ⟨hc, b, bs, hb, hlong, hrest⟩ := bytes_cases c
    · rw [hb, List.any_cons, List.any_nil, Bool.or_false]
    · rw [hb, hp c hc, List.any_eq_false]
      intro x hx
      have hx : 128 ≤ (ascii x).toNat := by
        rcases List.mem_cons.mp hx with rfl | hx
        · exact hlong
        · exact hrest x hx
      rw [hp _ hx]
      exact Bool.false_ne_true

theorem isFloatMark_long (c : Char) (h : 128 ≤ c.toNat) : isFloatMark c = false := by
  rw [isFloatMark, beq_long h (by decide), beq_long h (by decide), beq_long h (by decide)]
  rfl

/-- A number is cut out between characters. -/
theorem number_utf8 (cs : List Char) : number (utf8 cs) =
    encoded (fun (value, rest) => (value, utf8 rest)) (Literal.number cs) := by
  rcases hsign : Literal.takeSign cs with ⟨sign, body⟩
  rcases hrun : Literal.numberRun body with ⟨run, rest⟩
  have hsame : (sign ++ run).filter (· != '_') = sign ++ run.filter (· != '_') := by
    rw [List.filter_append]
    congr 1
    unfold Literal.takeSign at hsign
    split at hsign
    all_goals
      obtain ⟨rfl, -⟩ := Prod.mk.inj hsign
      rfl
  rw [number_eq hsign hrun, number, takeSign_utf8 hsign]
  dsimp only
  rw [numberRun_utf8 hrun]
  dsimp only
  rw [← utf8_append, withText_utf8, hsame, any_utf8 isFloatMark_long]
  cases numeral (run.any isFloatMark) (sign ++ run.filter (· != '_')) <;> rfl

/-- A run of characters of one byte ends where the run of their bytes does. -/
theorem span_utf8 {p : Char → Bool} (hp : ∀ c : Char, 128 ≤ c.toNat → p c = false)
    (cs : List Char) :
    ((utf8 cs).takeWhile fun b => p (ascii b)) = utf8 (cs.takeWhile p) ∧
      ((utf8 cs).dropWhile fun b => p (ascii b)) = utf8 (cs.dropWhile p) := by
  induction cs with
  | nil => exact ⟨rfl, rfl⟩
  | cons c cs ih =>
    obtain ⟨-, b, hb, rfl⟩ | ⟨hc, b, bs, hb, hlong, -⟩ := bytes_cases c
    · rw [utf8_short hb, List.takeWhile_cons, List.takeWhile_cons, List.dropWhile_cons,
        List.dropWhile_cons, ih.1, ih.2]
      split
      next => exact ⟨(utf8_short hb _).symm, rfl⟩
      next => exact ⟨rfl, (utf8_short hb cs).symm⟩
    · rw [List.takeWhile_cons_of_neg (by rw [hp c hc]; exact Bool.false_ne_true),
        List.dropWhile_cons_of_neg (by rw [hp c hc]; exact Bool.false_ne_true), utf8_cons, hb,
        List.cons_append, List.takeWhile_cons_of_neg (by rw [hp _ hlong]; exact Bool.false_ne_true),
        List.dropWhile_cons_of_neg (by rw [hp _ hlong]; exact Bool.false_ne_true)]
      exact ⟨rfl, rfl⟩

/-- A word is cut out between characters. -/
theorem keyword_utf8 (cs : List Char) : keyword (utf8 cs) =
    encoded (fun (value, rest) => (value, utf8 rest)) (Literal.keyword cs) := by
  obtain ⟨htake, hdrop⟩ := span_utf8 (fun c hc => isKeywordChar_long hc) cs
  rw [keyword_eq, keyword, htake, withText_utf8, hdrop]
  cases word? (cs.takeWhile isKeywordChar) <;> rfl

/-! ## Values, items and entries -/

/-- What the reader asks of the first byte, it is told of the first character. -/
theorem head_utf8 {k : Char} (hk : k.toNat < 128) (cs : List Char) :
    ((utf8 cs).head?.map ascii == some k) = (cs.head? == some k) := by
  cases cs with
  | nil => rfl
  | cons c cs =>
    obtain ⟨-, b, hb, rfl⟩ | ⟨hc, b, bs, hb, hlong, -⟩ := bytes_cases c
    · rw [utf8_short hb]
      rfl
    · rw [utf8_cons, hb]
      show (some (ascii b) == some k) = (some c == some k)
      rw [Option.some_beq_some, Option.some_beq_some, beq_long hlong hk, beq_long hc hk]

theorem tail_utf8 {k : Char} (hk : k.toNat < 128) {cs : List Char}
    (h : (cs.head? == some k) = true) : (utf8 cs).tail = utf8 cs.tail := by
  obtain ⟨cs, rfl⟩ := List.head?_eq_some_iff.mp (eq_of_beq h)
  obtain ⟨b, hb, -⟩ := exists_short hk (beq_self_eq_true k) cs
  rw [hb]
  rfl

variable {fuel : Nat}

/-- What is read of bytes from the first one behind the trivia on. -/
def valueFrom (fuel : Nat) (b : UInt8) (rest : List UInt8) : Except Trouble (Literal × List UInt8) :=
  let c := ascii b
  if c == '[' then
    (itemsAt fuel ']' false rest).map fun (items, _, rest) => (.list items, rest)
  else if c == '(' then
    (itemsAt fuel ')' false rest).map fun (items, comma, rest) => (parenthesized items comma, rest)
  else if c == '\x7b' then
    (entriesAt fuel rest).map fun (entries, rest) => (.dict entries, rest)
  else if c == '"' || c == '\'' then quoted c rest
  else if c.isDigit || c == '-' || c == '+' || c == '.' then number (b :: rest)
  else if c.isAlpha || c == '_' then keyword (b :: rest)
  else .error (.failure .unexpectedCharacter (b :: rest))

/-- No value starts with a long character. -/
theorem valueFrom_long (fuel : Nat) {b : UInt8} (h : 128 ≤ (ascii b).toNat) (rest : List UInt8) :
    valueFrom fuel b rest = .error (.failure .unexpectedCharacter (b :: rest)) := by
  unfold valueFrom
  simp only [beq_long h (k := '[') (by decide), beq_long h (k := '(') (by decide),
    beq_long h (k := '\x7b') (by decide), beq_long h (k := '"') (by decide),
    beq_long h (k := '\'') (by decide), beq_long h (k := '-') (by decide),
    beq_long h (k := '+') (by decide), beq_long h (k := '.') (by decide),
    beq_long h (k := '_') (by decide), isDigit_long h, isAlpha_long h, Bool.or_self,
    Bool.false_eq_true, if_false]

theorem valueFrom_char_long (fuel : Nat) {c : Char} (h : 128 ≤ c.toNat) (rest : List Char) :
    Literal.valueFrom fuel c rest = .error ⟨.unexpectedCharacter, c :: rest⟩ := by
  unfold Literal.valueFrom
  simp only [beq_long h (k := '[') (by decide), beq_long h (k := '(') (by decide),
    beq_long h (k := '\x7b') (by decide), beq_long h (k := '"') (by decide),
    beq_long h (k := '\'') (by decide), beq_long h (k := '-') (by decide),
    beq_long h (k := '+') (by decide), beq_long h (k := '.') (by decide),
    beq_long h (k := '_') (by decide), isDigit_long h, isAlpha_long h, Bool.or_self,
    Bool.false_eq_true, if_false]

/-- A result with what follows it in bytes. -/
def withRest {α : Type} (found : α × List Char) : α × List UInt8 := (found.1, utf8 found.2)

/-- Values are read alike in bytes and in characters. -/
def ValuesAgree (fuel : Nat) : Prop :=
  ∀ cs, valueAt fuel (utf8 cs) = encoded withRest (Literal.valueAt fuel cs)

@[inherit_doc ValuesAgree]
def ItemsAgree (fuel : Nat) : Prop :=
  ∀ close comma cs, close.toNat < 128 → itemsAt fuel close comma (utf8 cs) =
    encoded (fun (items, last, rest) => (items, last, utf8 rest)) (Literal.itemsAt fuel close comma cs)

@[inherit_doc ValuesAgree]
def EntriesAgree (fuel : Nat) : Prop :=
  ∀ cs, entriesAt fuel (utf8 cs) = encoded withRest (Literal.entriesAt fuel cs)

theorem valuesAgree_succ (hitems : ItemsAgree fuel) (hentries : EntriesAgree fuel) :
    ValuesAgree (fuel + 1) := by
  intro cs
  rw [valueAt, skip_utf8]
  cases hskip : Literal.skip cs with
  | nil =>
    rw [Literal.valueAt, hskip]
    rfl
  | cons c rest =>
    rw [valueAt_of_skip fuel hskip]
    -- a value starts with a character of one byte, and anything else is refused at its first byte
    obtain ⟨-, b, hb, rfl⟩ | ⟨hc, b, bs, hb, hlong, -⟩ := bytes_cases c
    · rw [utf8_short hb]
      show valueFrom fuel b (utf8 rest) = _
      unfold valueFrom Literal.valueFrom
      dsimp only
      split_ifs with hlist htuple hdict htext hnumber hword
      · rw [hitems _ _ _ (by decide)]
        refine encoded_map (fun found => ?_) _
        rfl
      · rw [hitems _ _ _ (by decide)]
        refine encoded_map (fun found => ?_) _
        rfl
      · rw [hentries]
        refine encoded_map (fun found => ?_) _
        rfl
      · refine quoted_utf8 ?_ rest
        rcases Bool.or_eq_true_iff.mp htext with h | h
        all_goals
          rw [eq_of_beq h]
          decide
      · rw [← utf8_short hb]
        exact number_utf8 _
      · rw [← utf8_short hb]
        exact keyword_utf8 _
      · rw [← utf8_short hb]
        rfl
    · rw [utf8_cons, hb, valueFrom_char_long fuel hc]
      show valueFrom fuel b (bs ++ utf8 rest) = _
      rw [valueFrom_long fuel hlong, encoded, utf8_cons, hb, List.cons_append]

/-- Behind an item or an entry the reader knows two marks, the comma and the one that closes; bytes show
which of them stands there. -/
theorem mark_utf8 {α β : Type} {f : α → β} {k : Char} (hk : k.toNat < 128) (cause : Cause)
    {more : List Char → Except Failure α} {more' : List UInt8 → Except Trouble β}
    (hmore : ∀ rest, more' (utf8 rest) = encoded f (more rest))
    {last : List Char → α} {last' : List UInt8 → β} (hlast : ∀ rest, last' (utf8 rest) = f (last rest))
    (cs : List Char) :
    (match utf8 cs with
      | [] => .error (.failure cause [])
      | b :: bs =>
        if ascii b == ',' then more' bs
        else if ascii b == k then .ok (last' bs)
        else .error (.failure cause (b :: bs))) =
    encoded f (match cs with
      | [] => .error ⟨cause, []⟩
      | c :: rest =>
        if c == ',' then more rest
        else if c == k then .ok (last rest)
        else .error ⟨cause, c :: rest⟩) := by
  cases cs with
  | nil => rfl
  | cons c rest =>
    obtain ⟨-, b, hb, rfl⟩ | ⟨hc, b, bs, hb, hlong, -⟩ := bytes_cases c
    · rw [utf8_short hb]
      dsimp only
      split_ifs
      · exact hmore rest
      · exact congrArg Except.ok (hlast rest)
      · rw [← utf8_short hb]
        rfl
    · -- neither a long character nor its first byte is one of the marks
      rw [utf8_cons, hb]
      dsimp only [List.cons_append]
      rw [beq_long hlong (by decide), beq_long hlong hk, beq_long hc (by decide), beq_long hc hk]
      simp only [Bool.false_eq_true, if_false, encoded, utf8_cons, hb, List.cons_append]

theorem itemsAgree_succ (hvalues : ValuesAgree fuel) (hitems : ItemsAgree fuel) :
    ItemsAgree (fuel + 1) := by
  intro close comma cs hclose
  rw [itemsAt]
  dsimp only
  rw [skip_utf8, head_utf8 hclose]
  cases hclosed : (Literal.skip cs).head? == some close with
  | true =>
    obtain ⟨more, hstart⟩ := List.head?_eq_some_iff.mp (eq_of_beq hclosed)
    rw [itemsAt_closed comma hstart, if_pos rfl, tail_utf8 hclose hclosed, hstart]
    rfl
  | false =>
    rw [itemsAt_open comma hclosed, if_neg Bool.false_ne_true, hvalues]
    refine encoded_bind (fun found => ?_) _
    obtain ⟨item, rest⟩ := found
    dsimp only [withRest, afterItem]
    rw [skip_utf8]
    refine mark_utf8 hclose .noCommaOrClose (fun rest => ?_) (fun rest => ?_) _
    · rw [hitems _ _ _ hclose]
      exact encoded_map (fun found => by rfl) _
    · rfl

theorem entriesAgree_succ (hvalues : ValuesAgree fuel) (hentries : EntriesAgree fuel) :
    EntriesAgree (fuel + 1) := by
  intro cs
  rw [entriesAt]
  dsimp only
  rw [skip_utf8, head_utf8 (by decide)]
  cases hclosed : (Literal.skip cs).head? == some '\x7d' with
  | true =>
    obtain ⟨more, hstart⟩ := List.head?_eq_some_iff.mp (eq_of_beq hclosed)
    rw [entriesAt_closed hstart, if_pos rfl, tail_utf8 (by decide) hclosed, hstart]
    rfl
  | false =>
    rw [entriesAt_open hclosed, if_neg Bool.false_ne_true, hvalues]
    refine encoded_bind (fun found => ?_) _
    obtain ⟨key, rest⟩ := found
    simp only [withRest, afterKey, skip_utf8, head_utf8 (k := ':') (by decide)]
    cases hcolon : (Literal.skip rest).head? == some ':' with
    | false =>
      -- without a colon both stop in front of what stands there
      rw [if_neg Bool.false_ne_true]
      split
      next more hmore =>
        rw [hmore] at hcolon
        cases hcolon
      next => rfl
    | true =>
      obtain ⟨more, hmore⟩ := List.head?_eq_some_iff.mp (eq_of_beq hcolon)
      rw [if_pos rfl, tail_utf8 (by decide) hcolon, hmore, List.tail_cons, hvalues]
      refine encoded_bind (fun found => ?_) _
      obtain ⟨value, rest⟩ := found
      dsimp only [withRest]
      rw [skip_utf8, afterEntry_eq]
      refine mark_utf8 (k := '\x7d') (by decide) .noCommaOrBrace (fun rest => ?_) (fun rest => ?_) _
      · rw [hentries]
        exact encoded_map (fun found => by rfl) _
      · rfl

/-- Whatever fuel there is, bytes and characters are read alike. -/
theorem agree (fuel : Nat) : ValuesAgree fuel ∧ ItemsAgree fuel ∧ EntriesAgree fuel := by
  induction fuel with
  | zero =>
    refine ⟨fun cs => ?_, fun close comma cs _ => ?_, fun cs => ?_⟩
    · rw [valueAt, Literal.valueAt]
      rfl
    · rw [itemsAt, Literal.itemsAt]
      rfl
    · rw [entriesAt, Literal.entriesAt]
      rfl
  | succ fuel ih =>
    obtain ⟨hvalues, hitems, hentries⟩ := ih
    exact ⟨valuesAgree_succ hitems hentries, itemsAgree_succ hvalues hitems,
      entriesAgree_succ hvalues hentries⟩

/-- A literal is read of the bytes of a text as it is read of its characters. -/
theorem valueAt_utf8 (fuel : Nat) (cs : List Char) :
    valueAt fuel (utf8 cs) = encoded withRest (Literal.valueAt fuel cs) :=
  (agree fuel).1 cs

theorem length_le_utf8 (cs : List Char) : cs.length ≤ (utf8 cs).length := by
  induction cs with
  | nil => exact Nat.le_refl 0
  | cons c cs ih =>
    have hpos := c.utf8Size_pos
    rw [utf8_cons, List.length_append, String.length_utf8EncodeChar, List.length_cons]
    omega

theorem length_utf8 (cs : List Char) : (utf8 cs).length = byteLength cs := by
  induction cs with
  | nil => rfl
  | cons c cs ih =>
    rw [utf8_cons, List.length_append, String.length_utf8EncodeChar, byteLength_cons, ih]

/-- No cut falls within a character. -/
theorem readAt_ne_withinCharacter (cs : List Char) :
    readAt (utf8 cs) ≠ .error .withinCharacter := by
  rw [readAt, valueAt_utf8]
  cases Literal.valueAt (2 * (utf8 cs).length + 2) cs <;> nofun

/-- The bytes of a text are read exactly where its characters are, up to the same place. -/
theorem readAt_utf8_eq_ok_iff {cs : List Char} {value : Literal} {bytes : List UInt8} :
    readAt (utf8 cs) = .ok (value, bytes) ↔
      ∃ rest, bytes = utf8 rest ∧ Literal.readAt cs = .ok (value, rest) := by
  rw [readAt, valueAt_utf8]
  constructor
  · intro h
    cases hread : Literal.valueAt (2 * (utf8 cs).length + 2) cs with
    | error failure =>
      rw [hread] at h
      cases h
    | ok found =>
      rw [hread] at h
      obtain ⟨rfl, rfl⟩ := Prod.mk.inj (Except.ok.inj h)
      exact ⟨found.2, rfl, readAt_of_valueAt hread⟩
  · rintro ⟨rest, rfl, hread⟩
    obtain ⟨used, -, rfl, hreads⟩ := exists_used_of_readAt hread
    have hlength := length_le_utf8 (used ++ rest)
    rw [hreads rest (.refl rest) _ (by rw [List.length_append] at hlength; omega)]
    rfl

end Bytes

/-! ## The front of a text -/

/-- A literal at the front of a text takes whole characters of it.  It is a literal on its own, and is
found with as many bytes wherever what follows starts with a character that ends literals.  A text is a
literal when nothing but trivia follows the one at its front.  Reading byte by byte finds the same, and
never cuts within a character. -/
theorem parsePrefix_isLocal (text : List Char) :
    (∀ value n, parsePrefix text = .ok (value, n) → n ≤ (utf8 text).length ∧
      ∃ used rest, text = used ++ rest ∧ (utf8 used).length = n ∧ parse used = .ok value ∧
        ∀ tail, (∀ c ∈ tail.head?, isBoundary c = true) →
          parsePrefix (used ++ tail) = .ok (value, n)) ∧
    (∀ value, parse text = .ok value ↔ ∃ used rest, text = used ++ rest ∧
      parsePrefix text = .ok (value, (utf8 used).length) ∧ IsTrivia rest) ∧
    (∀ value rest, Bytes.readAt (utf8 text) = .ok (value, utf8 rest) ↔
      readAt text = .ok (value, rest)) ∧
    Bytes.readAt (utf8 text) ≠ .error .withinCharacter := by
  refine ⟨fun value n h => ?_, fun value => ?_, fun value rest => ?_,
    Bytes.readAt_ne_withinCharacter text⟩
  · obtain ⟨used, rest, rfl, rfl, halone, hlonger⟩ := exists_used_of_parsePrefix h
    refine ⟨?_, used, rest, rfl, Bytes.length_utf8 used, halone, hlonger⟩
    rw [Bytes.length_utf8, byteLength_append]
    exact Nat.le_add_right _ _
  · simp only [Bytes.length_utf8]
    exact parse_eq_ok_iff_parsePrefix
  · rw [Bytes.readAt_utf8_eq_ok_iff]
    constructor
    · rintro ⟨rest', hsame, hread⟩
      rwa [Bytes.utf8_injective hsame]
    · exact fun hread => ⟨rest, rfl, hread⟩

/-- A list before a comment takes six bytes, and as many before a comma and any text behind it. -/
theorem parsePrefix_isLocal_list :
    parsePrefix ['[', '1', ',', ' ', '2', ']', ' ', '#', ' ', 'é'] =
        .ok (.list [.int 1, .int 2], 6) ∧
      parsePrefix ['[', '1', ',', ' ', '2', ']', ',', 'é'] = .ok (.list [.int 1, .int 2], 6) := by
  have hread : parsePrefix ['[', '1', ',', ' ', '2', ']', ' ', '#', ' ', 'é'] =
      .ok (.list [.int 1, .int 2], 6) := by cbv
  obtain ⟨-, used, rest, htext, hbytes, -, hlonger⟩ := (parsePrefix_isLocal _).1 _ _ hread
  obtain ⟨rfl, -⟩ : used = ['[', '1', ',', ' ', '2', ']'] ∧ rest = [' ', '#', ' ', 'é'] :=
    eq_of_append_eq htext.symm (by rw [← Bytes.length_utf8, hbytes]; rfl)
  exact ⟨hread, hlonger [',', 'é'] (by rintro _ ⟨⟩; rfl)⟩

end Storyboard.Literal
