import Storyboard.Source.Quotes
import Storyboard.Proofs.Literal.Nested
import Storyboard.Proofs.Text.Name

/-!
# Arguments that are split off whole

An argument list is split at the commas that stand outside its brackets and quotes.  A piece is
sealed when it closes the brackets and quotes that it opens, closes no other bracket, and has no
comma outside them: nothing of it is seen from outside, and the scan goes on behind it as it stood
before it.  Sealed pieces with commas between them are split into these pieces (`splitArgs_join`).
A literal as it is written inside another one is sealed, because each container hides what is
written between its brackets and each text what is written between its quotes
(`splitArgs_nested`).
-/

namespace Storyboard.Source

/-! ## Sealed pieces -/

/-- The rest of a piece, of which `depth` brackets and a quote are open, is sealed. -/
def isSealedFrom : (depth : Nat) → (quote : Option Char) → List Char → Bool
  | depth, quote, [] => depth == 0 && quote.isNone
  | depth, some q, c :: cs => isSealedFrom depth (quoteAfter (some q) c) cs
  | depth, none, c :: cs =>
    if isQuote c then isSealedFrom depth (some c) cs
    else if isOpening c then isSealedFrom (depth + 1) none cs
    else if isClosing c then depth != 0 && isSealedFrom (depth - 1) none cs
    else if c == ',' && depth == 0 then false
    else isSealedFrom depth none cs

/-- The piece closes all brackets and quotes that it opens and no others, and has no comma outside
them. -/
def isSealed (piece : List Char) : Bool := isSealedFrom 0 none piece

/-- The rest of a sealed piece goes to the argument whose beginning has been read. -/
theorem splitArgsFrom_append {depth : Nat} {quote : Option Char} {piece : List Char}
    (h : isSealedFrom depth quote piece = true) (taken rest : List Char) :
    splitArgsFrom depth quote taken (piece ++ rest) =
      splitArgsFrom 0 none (piece.reverse ++ taken) rest := by
  fun_induction isSealedFrom depth quote piece generalizing taken with
  | case1 depth quote =>
    rw [Bool.and_eq_true, beq_iff_eq, Option.isNone_iff_eq_none] at h
    obtain ⟨rfl, rfl⟩ := h
    rfl
  | case2 depth q c cs ih => rw [List.cons_append, splitArgsFrom, ih h]; simp
  | case3 depth c cs hquote ih => rw [List.cons_append, splitArgsFrom, if_pos hquote, ih h]; simp
  | case4 depth c cs hquote hopen ih =>
    rw [List.cons_append, splitArgsFrom, if_neg hquote, if_pos hopen, ih h]
    simp
  | case5 depth c cs hquote hopen hclose ih =>
    rw [Bool.and_eq_true] at h
    rw [List.cons_append, splitArgsFrom, if_neg hquote, if_neg hopen, if_pos hclose, ih h.2]
    simp
  | case6 => cases h
  | case7 depth c cs hquote hopen hclose hcomma ih =>
    rw [List.cons_append, splitArgsFrom, if_neg hquote, if_neg hopen, if_neg hclose,
      if_neg hcomma, ih h]
    simp

/-! ## What a scan passes over -/

/-- With `depth` brackets open, a scan goes on behind the text as it stood before it. -/
def PassesAt (depth : Nat) (text : List Char) : Prop :=
  ∀ rest, isSealedFrom depth none (text ++ rest) = isSealedFrom depth none rest

theorem isSealed_of_passes {text : List Char} (h : PassesAt 0 text) : isSealed text = true := by
  have hend := h []
  rw [List.append_nil] at hend
  exact hend

theorem PassesAt.append {depth : Nat} {text more : List Char} (h : PassesAt depth text)
    (hmore : PassesAt depth more) : PassesAt depth (text ++ more) := by
  intro rest
  rw [List.append_assoc, h, hmore]

/-- The character is no quote, no bracket and no comma. -/
def isPlain (c : Char) : Bool := !isQuote c && !isOpening c && !isClosing c && c != ','

/-- Characters of a kind that holds no quote, bracket or comma are plain. -/
theorem isPlain_of_kind {kind : Char → Bool} {c : Char} (h : kind c = true)
    (hkind : ['"', '\'', '(', '[', '\x7b', ')', ']', '\x7d', ','].any kind = false) :
    isPlain c = true := by
  have hother := Literal.beq_of_starts h _ hkind
  simp only [List.forall_mem_cons, beq_eq_false_iff_ne] at hother
  simp [isPlain, isQuote, isOpening, isClosing, hother]

theorem passesAt_of_plain {word : List Char} (h : word.all isPlain = true) (depth : Nat) :
    PassesAt depth word := by
  intro rest
  induction word with
  | nil => rfl
  | cons c word ih =>
    rw [List.all_cons, Bool.and_eq_true] at h
    obtain ⟨hc, hword⟩ := h
    simp only [isPlain, Bool.and_eq_true, Bool.not_eq_true', bne_iff_ne] at hc
    obtain ⟨⟨⟨hquote, hopen⟩, hclose⟩, hcomma⟩ := hc
    rw [List.cons_append, isSealedFrom, hquote, hopen, hclose, ← ih hword]
    simp [hcomma]

theorem passesAt_of_blank {blanks : List Char} (h : ∀ c ∈ blanks, Text.isBlank c = true)
    (depth : Nat) : PassesAt depth blanks :=
  passesAt_of_plain (List.all_eq_true.mpr fun c hc => isPlain_of_kind (h c hc) (by decide)) depth

/-- A quoted text is passed over up to the next quote of its kind. -/
theorem passesAt_quoted {q : Char} (hq : isQuote q = true) {body : List Char} (h : q ∉ body)
    (depth : Nat) : PassesAt depth (q :: (body ++ [q])) := by
  intro rest
  rw [List.cons_append, List.append_assoc, isSealedFrom, if_pos hq]
  induction body with
  | nil => simp [isSealedFrom, quoteAfter]
  | cons c body ih =>
    obtain ⟨hc, hbody⟩ := not_or.mp (mt List.mem_cons.mpr h)
    rw [← ih hbody]
    simp [isSealedFrom, quoteAfter, Ne.symm hc]

/-- What stands between brackets is passed over, if it is so with the bracket open. -/
theorem PassesAt.bracketed {depth : Nat} {inner : List Char} (h : PassesAt (depth + 1) inner)
    {left right : Char} (hleft : isOpening left = true) (hright : isClosing right = true) :
    PassesAt depth (left :: (inner ++ [right])) := by
  intro rest
  have hquotes := Literal.beq_of_starts hleft ['"', '\''] (by decide)
  have hothers := Literal.beq_of_starts hright ['"', '\'', '(', '[', '\x7b'] (by decide)
  simp only [List.forall_mem_cons] at hquotes hothers
  have hclose : isSealedFrom (depth + 1) none (right :: rest) = isSealedFrom depth none rest := by
    simp [isSealedFrom, isQuote, isOpening, hothers, hright]
  rw [List.cons_append, isSealedFrom, isQuote, hquotes.1, hquotes.2.1, hleft, List.append_assoc]
  simp only [Bool.or_self, Bool.false_eq_true, if_false, if_true]
  rw [h, List.singleton_append, hclose]

/-- Inside a bracket, a comma does not split. -/
theorem passesAt_comma (depth : Nat) : PassesAt (depth + 1) [','] := by
  intro rest
  simp [isSealedFrom, isQuote, isOpening, isClosing]

theorem passesAt_separator (depth : Nat) : PassesAt (depth + 1) [',', ' '] :=
  (passesAt_comma depth).append (passesAt_of_plain rfl (depth + 1))

/-! ## Splitting -/

/-- A sealed piece before a comma is the first argument. -/
theorem splitArgs_append_comma {piece : List Char} (h : isSealed piece = true)
    (rest : List Char) :
    splitArgs (piece ++ ',' :: rest) = Text.trim piece :: splitArgs rest := by
  unfold splitArgs
  rw [splitArgsFrom_append h, List.append_nil, splitArgsFrom]
  simp [isQuote, isOpening, isClosing]

/-- A sealed piece is a single argument, if it is not blank. -/
theorem splitArgs_of_isSealed {piece : List Char} (h : isSealed piece = true) :
    splitArgs piece = if (Text.trim piece).isEmpty then [] else [Text.trim piece] := by
  have hend := splitArgsFrom_append h [] []
  rw [List.append_nil, List.append_nil, splitArgsFrom, List.reverse_reverse] at hend
  exact hend

/-- The blanks before a text are trimmed off. -/
theorem trim_blanks_append {blanks cs : List Char} (hblanks : ∀ c ∈ blanks, Text.isBlank c = true)
    (hcs : Text.IsTrimmed cs) : Text.trim (blanks ++ cs) = cs := by
  have hstart : Text.trimStart (blanks ++ cs) = Text.trimStart cs :=
    List.dropWhile_append_of_pos hblanks
  unfold Text.trim
  rw [hstart]
  exact Text.trim_of_isTrimmed hcs

/-- A piece that is split off as it is. -/
structure IsArgument (piece : List Char) : Prop where
  nonempty : piece ≠ []
  trimmed : Text.IsTrimmed piece
  sealed : isSealed piece = true

/-- Arguments with commas between them are split into these arguments. -/
theorem splitArgs_join {pieces : List (List Char)} (h : ∀ piece ∈ pieces, IsArgument piece)
    {blanks : List Char} (hblanks : ∀ c ∈ blanks, Text.isBlank c = true) :
    splitArgs ((',' :: blanks).intercalate pieces) = pieces := by
  -- behind a comma, an argument comes with the blanks before it
  have hlead : ∀ lead : List Char, (∀ c ∈ lead, Text.isBlank c = true) → pieces ≠ [] →
      splitArgs (lead ++ (',' :: blanks).intercalate pieces) = pieces := by
    induction pieces with
    | nil => exact fun _ _ hne => absurd rfl hne
    | cons piece rest ih =>
      intro lead hlead _
      obtain ⟨hpiece, hrest⟩ := List.forall_mem_cons.mp h
      have hsealed : isSealed (lead ++ piece) = true := by
        rw [isSealed, passesAt_of_blank hlead]
        exact hpiece.sealed
      have htrim := trim_blanks_append hlead hpiece.trimmed
      cases rest with
      | nil =>
        rw [List.intercalate_singleton, splitArgs_of_isSealed hsealed, htrim,
          if_neg (by simpa using hpiece.nonempty)]
      | cons next rest =>
        have hjoin : lead ++ (',' :: blanks).intercalate (piece :: next :: rest) =
            (lead ++ piece) ++ ',' :: (blanks ++ (',' :: blanks).intercalate (next :: rest)) := by
          simp [List.intercalate_cons_cons]
        rw [hjoin, splitArgs_append_comma hsealed, htrim,
          ih hrest blanks hblanks (List.cons_ne_nil _ _)]
  cases pieces with
  | nil => rfl
  | cons piece rest => exact hlead [] nofun (List.cons_ne_nil _ _)

/-! ## Literals inside others -/

open Literal (chars itemsChars joinedChars joinedEntries)

theorem passesAt_text {s : String} (hs : Literal.isPlainText s = true) (depth : Nat) :
    PassesAt depth (chars true (.text s)) := by
  have hquote : '\'' ∉ s.toList := by
    intro hmem
    have := List.all_eq_true.mp hs _ hmem
    simp at this
  exact passesAt_quoted rfl hquote depth

theorem passesAt_int (n : Int64) (depth : Nat) : PassesAt depth (chars true (.int n)) := by
  refine passesAt_of_plain (List.all_eq_true.mpr fun c hc => ?_) depth
  rw [chars, Decimal.toList_intText, List.mem_append] at hc
  have hkind : Literal.startsInteger c = true := by
    rcases hc with hsign | hdigit
    · split at hsign
      · rw [List.mem_singleton.mp hsign]
        rfl
      · exact absurd hsign List.not_mem_nil
    · rw [Literal.startsInteger, Decimal.isDigit_of_mem_natDigits hdigit, Bool.true_or]
  exact isPlain_of_kind hkind (by decide)

mutual

/-- A literal inside another one is passed over. -/
theorem passesAt_chars : ∀ value : Literal, value.isFloatFree = true →
    value.hasPlainTexts = true → ∀ depth, PassesAt depth (chars true value)
  | .none, _, _, depth => by
    rw [chars]
    exact passesAt_of_plain rfl depth
  | .bool true, _, _, depth => by
    rw [chars]
    exact passesAt_of_plain rfl depth
  | .bool false, _, _, depth => by
    rw [chars]
    exact passesAt_of_plain rfl depth
  | .int n, _, _, depth => passesAt_int n depth
  | .text _, _, hplain, depth => passesAt_text hplain depth
  | .list items, hfree, hplain, depth => by
    rw [Literal.chars_list]
    exact (passesAt_joinedChars items hfree hplain depth).bracketed rfl rfl
  | .tuple items, hfree, hplain, depth => by
    have hitems := passesAt_joinedChars items hfree hplain depth
    by_cases hsingle : items.length = 1
    · -- the comma behind a single item stands between the brackets too
      obtain ⟨item, rfl⟩ := List.length_eq_one_iff.mp hsingle
      have hchars : chars true (.tuple [item]) = '(' :: (joinedChars [item] ++ [','] ++ [')']) := by
        simp [chars, joinedChars, itemsChars]
      rw [hchars]
      exact (hitems.append (passesAt_comma depth)).bracketed rfl rfl
    · rw [Literal.chars_tuple hsingle]
      exact hitems.bracketed rfl rfl
  | .dict entries, hfree, hplain, depth => by
    rw [Literal.chars_dict]
    exact (passesAt_joinedEntries entries hfree hplain depth).bracketed rfl rfl

/-- The items of a container are passed over inside its brackets. -/
theorem passesAt_joinedChars : ∀ items : List Literal, Literal.areFloatFree items = true →
    Literal.havePlainTexts items = true → ∀ depth, PassesAt (depth + 1) (joinedChars items)
  | [], _, _, _ => fun _ => rfl
  | item :: items, hfree, hplain, depth => by
    rw [Literal.areFloatFree, Bool.and_eq_true] at hfree
    rw [Literal.havePlainTexts, Bool.and_eq_true] at hplain
    have hitem := passesAt_chars item hfree.1 hplain.1 (depth + 1)
    match items with
    | [] =>
      rw [joinedChars, itemsChars, List.append_nil]
      exact hitem
    | next :: items =>
      have hrest := passesAt_joinedChars (next :: items) hfree.2 hplain.2 depth
      rw [joinedChars, Literal.itemsChars_cons]
      exact hitem.append ((passesAt_separator depth).append hrest)

/-- The entries of a dictionary are passed over inside its braces. -/
theorem passesAt_joinedEntries : ∀ entries : List (Literal × Literal),
    Literal.entriesAreFloatFree entries = true → Literal.entriesHavePlainTexts entries = true →
    ∀ depth, PassesAt (depth + 1) (joinedEntries entries)
  | [], _, _, _ => fun _ => rfl
  | (key, value) :: entries, hfree, hplain, depth => by
    rw [Literal.entriesAreFloatFree, Bool.and_eq_true, Bool.and_eq_true] at hfree
    rw [Literal.entriesHavePlainTexts, Bool.and_eq_true, Bool.and_eq_true] at hplain
    have hkey := passesAt_chars key hfree.1.1 hplain.1.1 (depth + 1)
    have hvalue := passesAt_chars value hfree.1.2 hplain.1.2 (depth + 1)
    have hcolon : PassesAt (depth + 1) [':', ' '] := passesAt_of_plain rfl _
    rw [joinedEntries]
    refine hkey.append (hcolon.append (hvalue.append ?_))
    match entries with
    | [] => exact fun _ => rfl
    | next :: entries =>
      have hrest := passesAt_joinedEntries (next :: entries) hfree.2 hplain.2 depth
      rw [Literal.entriesChars_cons]
      exact (passesAt_separator depth).append hrest

end

/-- A literal inside another one starts with no blank. -/
theorem isBlank_of_startsNested {c : Char} (h : Literal.startsNested c = true) :
    Text.isBlank c = false := by
  simp only [Literal.startsNested, Literal.startsInteger, Bool.or_eq_true, beq_iff_eq,
    List.contains_iff_mem, List.mem_cons, List.not_mem_nil, or_false] at h
  rcases h with (hdigit | rfl) | rfl | rfl | rfl | rfl | rfl | rfl | rfl
  · exact Text.isBlank_of_isDigit hdigit
  all_goals rfl

/-- Nor does it end in one. -/
theorem exists_last_chars {value : Literal} (h : value.isFloatFree = true) :
    ∃ front c, chars true value = front ++ [c] ∧ Text.isBlank c = false := by
  match value with
  | .none => exact ⟨['N', 'o', 'n'], 'e', rfl, rfl⟩
  | .bool true => exact ⟨['T', 'r', 'u'], 'e', rfl, rfl⟩
  | .bool false => exact ⟨['F', 'a', 'l', 's'], 'e', rfl, rfl⟩
  | .int n =>
    have hne : Decimal.natDigits n.toInt.natAbs ≠ [] := Nat.toDigits_ne_nil
    have hdigit := Decimal.isDigit_of_mem_natDigits (List.getLast_mem hne)
    refine ⟨(if n.toInt < 0 then ['-'] else []) ++ (Decimal.natDigits n.toInt.natAbs).dropLast,
      (Decimal.natDigits n.toInt.natAbs).getLast hne, ?_, Text.isBlank_of_isDigit hdigit⟩
    rw [chars, Decimal.toList_intText, List.append_assoc, List.dropLast_append_getLast hne]
  | .text s => exact ⟨'\'' :: s.toList, '\'', by rw [chars, if_pos rfl]; rfl, rfl⟩
  | .list items => exact ⟨'[' :: joinedChars items, ']', Literal.chars_list items, rfl⟩
  | .tuple items =>
    by_cases hsingle : items.length = 1
    · obtain ⟨item, rfl⟩ := List.length_eq_one_iff.mp hsingle
      exact ⟨'(' :: (chars true item ++ [',']), ')', by simp [chars], rfl⟩
    · exact ⟨'(' :: joinedChars items, ')', Literal.chars_tuple hsingle, rfl⟩
  | .dict entries => exact ⟨'\x7b' :: joinedEntries entries, '\x7d', Literal.chars_dict entries, rfl⟩

/-- A literal inside another one is split off as it is. -/
theorem isArgument_chars {value : Literal} (hfree : value.isFloatFree = true)
    (hplain : value.hasPlainTexts = true) : IsArgument (chars true value) := by
  obtain ⟨c, cs, hcs, hc⟩ := Literal.exists_head_chars hfree
  obtain ⟨front, last, hlast, hblank⟩ := exists_last_chars hfree
  refine ⟨by rw [hcs]; exact List.cons_ne_nil c cs, ⟨?_, ?_⟩,
    isSealed_of_passes (passesAt_chars value hfree hplain 0)⟩
  · rw [hcs]
    rintro _ ⟨⟩
    exact isBlank_of_startsNested hc
  · rw [hlast, List.getLast?_concat]
    rintro _ ⟨⟩
    exact hblank

/-- Literals without doubles and with plain texts, written as they are inside others and joined by
a comma and a blank, are split into the texts of these literals. -/
theorem splitArgs_nested (values : List Literal)
    (hfree : ∀ value ∈ values, value.isFloatFree = true)
    (hplain : ∀ value ∈ values, value.hasPlainTexts = true) :
    splitArgs (", ".toList.intercalate (values.map fun value => value.nested.toList)) =
      values.map fun value => value.nested.toList := by
  have hblanks : ∀ c ∈ [' '], Text.isBlank c = true := List.forall_mem_singleton.mpr rfl
  refine splitArgs_join (fun piece hpiece => ?_) hblanks
  obtain ⟨value, hvalue, rfl⟩ := List.mem_map.mp hpiece
  rw [Literal.nested, String.toList_ofList]
  exact isArgument_chars (hfree value hvalue) (hplain value hvalue)

/-- Brackets, commas, hashes and double quotes in texts, a negative key and empty containers. -/
theorem splitArgs_nested_brackets : ∃ values : List Literal,
    (∀ value ∈ values, value.isFloatFree = true) ∧ (∀ value ∈ values, value.hasPlainTexts = true) ∧
    (values.map Literal.nested = ["'a, (#'", "\x7b-7: ('\"', [], ()), 'k]': (None,)\x7d"]) ∧
    splitArgs (", ".toList.intercalate (values.map fun value => value.nested.toList)) =
      values.map fun value => value.nested.toList := by
  refine ⟨[.text "a, (#", .dict [(.int (-7), .tuple [.text "\"", .list [], .tuple []]),
    (.text "k]", .tuple [.none])]], by decide, by decide, by decide +kernel, ?_⟩
  exact splitArgs_nested _ (by decide) (by decide)

end Storyboard.Source
