import Storyboard.Literal.Reader
import Storyboard.Proofs.Source.Arguments
import Storyboard.Proofs.Source.Site

/-!
# String literals as arguments

Three scanners meet a string literal: the reader of literals and the one of comments take a
backslash as a guard of the next character, the one of brackets and arguments does not.  A comment
is never found in a call that is given a string literal (`stripComment_pushOf`), and the call itself
is found with this one argument exactly when the literal is sealed for a scan that knows of no
guards.  It is so if its own quote does not stand in it.
-/

namespace Storyboard.Source

/-! ## Strings -/

/-- A text that starts with a quote and is read as a text, with nothing left over. -/
structure IsStringLiteral (text : List Char) : Prop where
  quoted : text.head?.any isQuote = true
  read : ∃ value, Literal.readAt text = .ok (.text value, [])

/-- The characters between two quotes: the quote itself and a backslash stand behind a backslash
only. -/
inductive IsGuarded (quote : Char) : List Char → Prop
  | nil : IsGuarded quote []
  | guarded (c : Char) {body : List Char} (h : IsGuarded quote body) :
    IsGuarded quote ('\\' :: c :: body)
  | plain {c : Char} {body : List Char} (hguard : c ≠ '\\') (hquote : c ≠ quote)
    (h : IsGuarded quote body) : IsGuarded quote (c :: body)

theorem isGuarded_of_quotedBody {quote : Char} {cs body rest : List Char}
    (h : Literal.quotedBody quote cs = .ok (body, rest)) :
    IsGuarded quote body ∧ cs = body ++ quote :: rest := by
  fun_induction Literal.quotedBody quote cs generalizing body rest with
  | case1 => cases h
  | case2 c cs ih =>
    obtain ⟨⟨body, rest⟩, hread, h⟩ := Literal.exists_of_map_eq_ok h
    obtain ⟨rfl, rfl⟩ := Prod.mk.inj h
    obtain ⟨hbody, rfl⟩ := ih hread
    exact ⟨.guarded c hbody, rfl⟩
  | case3 => cases h
  | case4 c cs hguard hescape hend =>
    obtain ⟨rfl, rfl⟩ := Prod.mk.inj (Except.ok.inj h)
    rw [eq_of_beq hend]
    exact ⟨.nil, rfl⟩
  | case5 => cases h
  | case6 c cs hguard hescape hend hline ih =>
    obtain ⟨⟨body, rest⟩, hread, h⟩ := Literal.exists_of_map_eq_ok h
    obtain ⟨rfl, rfl⟩ := Prod.mk.inj h
    obtain ⟨hbody, rfl⟩ := ih hread
    exact ⟨.plain (by simpa using hescape) (by simpa using hend) hbody, rfl⟩

/-- A string literal is a guarded body between two quotes. -/
theorem IsStringLiteral.exists_body {text : List Char} (h : IsStringLiteral text) :
    ∃ quote body, isQuote quote = true ∧ IsGuarded quote body ∧
      text = quote :: (body ++ [quote]) := by
  obtain ⟨hquoted, value, hread⟩ := h
  cases text with
  | nil => exact absurd hquoted Bool.false_ne_true
  | cons quote cs =>
    have hquote : isQuote quote = true := hquoted
    have hskip : Literal.skip (quote :: cs) = quote :: cs :=
      Literal.skip_of_starts hquote (by decide) cs
    -- a quote opens no bracket, so what is read is a string
    have hother := Literal.beq_of_starts hquote ['[', '(', '\x7b'] (by decide)
    simp only [List.forall_mem_cons] at hother
    rw [Literal.readAt, Literal.valueAt, hskip] at hread
    simp only [hother, Bool.false_eq_true, if_false] at hread
    rw [← isQuote, if_pos hquote] at hread
    cases hbody : Literal.quotedBody quote cs with
    | error e =>
      rw [hbody] at hread
      cases hread
    | ok read =>
      obtain ⟨body, rest⟩ := read
      rw [hbody] at hread
      obtain ⟨-, rfl⟩ := Prod.mk.inj (Except.ok.inj hread)
      obtain ⟨hguarded, rfl⟩ := isGuarded_of_quotedBody hbody
      exact ⟨quote, body, hquote, hguarded, rfl⟩

/-- No comment starts inside a string. -/
theorem stripCommentFrom_guarded {quote : Char} {body : List Char} (h : IsGuarded quote body)
    (hquote : quote ≠ '\\') (rest : List Char) :
    stripCommentFrom (some quote) false (body ++ quote :: rest) =
      body ++ quote :: stripCommentFrom none false rest := by
  induction h with
  | nil => simp [stripCommentFrom, quoteAfter, hquote]
  | guarded c h ih => simp [stripCommentFrom, ih]
  | plain hguard hother h ih => simp [stripCommentFrom, quoteAfter, hguard, hother, ih]

/-! ## The call -/

/-- The call of `push` on `s` with one argument. -/
def pushOf (arg : List Char) : List Char := ['s', '.', 'p', 'u', 's', 'h', '('] ++ (arg ++ [')'])

theorem stripComment_pushOf {arg : List Char} (h : IsStringLiteral arg) :
    stripComment (pushOf arg) = pushOf arg := by
  obtain ⟨quote, body, hquote, hbody, rfl⟩ := h.exists_body
  have hother := Literal.beq_of_starts hquote ['\\', '#'] (by decide)
  simp only [List.forall_mem_cons] at hother
  have hfront : ∀ rest, stripComment (['s', '.', 'p', 'u', 's', 'h', '('] ++ rest) =
      ['s', '.', 'p', 'u', 's', 'h', '('] ++ stripCommentFrom none false rest :=
    fun rest => stripCommentFrom_append {} rfl rest
  have hopen : stripCommentFrom none false (quote :: (body ++ [quote]) ++ [')']) =
      quote :: stripCommentFrom (some quote) false (body ++ quote :: [')']) := by
    simp [stripCommentFrom, quoteAfter, hquote, hother]
  have hclose : stripCommentFrom none false [')'] = [')'] := rfl
  rw [pushOf, hfront, hopen, stripCommentFrom_guarded hbody (ne_of_beq_false hother.1), hclose]
  simp

theorem enclosed?_cons (depth : Nat) (c : Char) (cs : List Char) :
    enclosed? depth none (c :: cs) =
      if isQuote c then (enclosed? depth (some c) cs).map (c :: ·)
      else if isOpening c then (enclosed? (depth + 1) none cs).map (c :: ·)
      else if isClosing c then
        if depth = 0 then if c == ')' then some [] else none
        else (enclosed? (depth - 1) none cs).map (c :: ·)
      else (enclosed? depth none cs).map (c :: ·) := by
  cases depth <;> simp [enclosed?]

theorem enclosed?_append {depth : Nat} {quote : Option Char} {piece : List Char}
    (h : isSealedFrom depth quote piece = true) (rest : List Char) :
    enclosed? depth quote (piece ++ rest) = (enclosed? 0 none rest).map (piece ++ ·) := by
  fun_induction isSealedFrom depth quote piece with
  | case1 depth quote =>
    rw [Bool.and_eq_true, beq_iff_eq, Option.isNone_iff_eq_none] at h
    obtain ⟨rfl, rfl⟩ := h
    simp
  | case2 depth q c cs ih => rw [List.cons_append, enclosed?, ih h, Option.map_map]; rfl
  | case3 depth c cs hquote ih =>
    rw [List.cons_append, enclosed?_cons, if_pos hquote, ih h, Option.map_map]
    rfl
  | case4 depth c cs hquote hopen ih =>
    rw [List.cons_append, enclosed?_cons, if_neg hquote, if_pos hopen, ih h, Option.map_map]
    rfl
  | case5 depth c cs hquote hopen hclose ih =>
    -- the closing bracket belongs to one inside the piece
    rw [Bool.and_eq_true, bne_iff_ne] at h
    rw [List.cons_append, enclosed?_cons, if_neg hquote, if_neg hopen, if_pos hclose, if_neg h.1,
      ih h.2, Option.map_map]
    rfl
  | case6 => cases h
  | case7 depth c cs hquote hopen hclose hcomma ih =>
    rw [List.cons_append, enclosed?_cons, if_neg hquote, if_neg hopen, if_neg hclose, ih h,
      Option.map_map]
    rfl

/-- One more character is enclosed with what is enclosed behind it. -/
theorem exists_of_map_cons {c : Char} {cs enclosed : List Char} {found : Option (List Char)}
    (hrest : ∀ more, found = some more → ∃ rest, cs = more ++ ')' :: rest)
    (h : found.map (c :: ·) = some enclosed) : ∃ rest, c :: cs = enclosed ++ ')' :: rest := by
  obtain ⟨more, hmore, rfl⟩ := Option.map_eq_some_iff.mp h
  obtain ⟨rest, rfl⟩ := hrest more hmore
  exact ⟨rest, rfl⟩

/-- What is enclosed stands before the parenthesis that closes it. -/
theorem exists_of_enclosed? {depth : Nat} {quote : Option Char} {inside enclosed : List Char}
    (h : enclosed? depth quote inside = some enclosed) :
    ∃ rest, inside = enclosed ++ ')' :: rest := by
  fun_induction enclosed? depth quote inside generalizing enclosed with
  | case1 => cases h
  | case2 depth q c cs ih => exact exists_of_map_cons (fun _ => ih) h
  | case3 depth c cs hquote ih => exact exists_of_map_cons (fun _ => ih) h
  | case4 depth c cs hquote hopen ih => exact exists_of_map_cons (fun _ => ih) h
  | case5 c cs hquote hopen hclose hparen =>
    obtain rfl := Option.some.inj h
    exact ⟨cs, by rw [eq_of_beq hparen, List.nil_append]⟩
  | case6 => cases h
  | case7 c cs hquote hopen hclose depth ih => exact exists_of_map_cons (fun _ => ih) h
  | case8 depth c cs hquote hopen hclose ih => exact exists_of_map_cons (fun _ => ih) h

theorem length_trim_le (cs : List Char) : (Text.trim cs).length ≤ cs.length := by
  have hstart := (List.dropWhile_sublist Text.isBlank (l := cs)).length_le
  have hend := (List.dropWhile_sublist Text.isBlank (l := (Text.trimStart cs).reverse)).length_le
  rw [List.length_reverse] at hend
  unfold Text.trim Text.trimEnd Text.dropEndWhile
  rw [List.length_reverse]
  exact hend.trans hstart

/-- Reading a character makes what is read longer and what is left shorter. -/
theorem length_read {c : Char} {taken cs : List Char} :
    (c :: taken).length + cs.length = taken.length + (c :: cs).length := by
  rw [List.length_cons, List.length_cons]
  omega

/-- An argument is no longer than what has been read of it and what is left. -/
theorem length_le_of_mem_splitArgsFrom {depth : Nat} {quote : Option Char}
    {taken cs arg : List Char} (h : arg ∈ splitArgsFrom depth quote taken cs) :
    arg.length ≤ taken.length + cs.length := by
  have hpiece : ∀ piece : List Char, (Text.trim piece.reverse).length ≤ piece.length :=
    fun piece => (length_trim_le _).trans List.length_reverse.le
  fun_induction splitArgsFrom depth quote taken cs with
  | case1 => cases h
  | case2 depth quote taken last hlast =>
    rw [List.mem_singleton.mp h]
    exact hpiece taken
  | case3 depth q taken c cs ih => exact (ih h).trans_eq length_read
  | case4 depth taken c cs hquote ih => exact (ih h).trans_eq length_read
  | case5 depth taken c cs hquote hopen ih => exact (ih h).trans_eq length_read
  | case6 depth taken c cs hquote hopen hclose ih => exact (ih h).trans_eq length_read
  | case7 depth taken c cs hquote hopen hclose hcomma ih =>
    rcases List.mem_cons.mp h with rfl | h
    · exact (hpiece taken).trans (Nat.le_add_right _ _)
    · have hrest := ih h
      rw [List.length_nil] at hrest
      rw [List.length_cons]
      omega
  | case8 depth taken c cs hquote hopen hclose hcomma ih => exact (ih h).trans_eq length_read

/-- A piece that is enclosed as a whole and is split into nothing else is sealed. -/
theorem isSealedFrom_of_enclosed? {depth : Nat} {quote : Option Char} {piece taken arg : List Char}
    (henclosed : enclosed? depth quote (piece ++ [')']) = some piece)
    (hsplit : splitArgsFrom depth quote taken piece = [arg])
    (hlength : taken.length + piece.length ≤ arg.length) :
    isSealedFrom depth quote piece = true := by
  have hbehind : ∀ {c : Char} {cs : List Char} {found : Option (List Char)},
      found.map (c :: ·) = some (c :: cs) → found = some cs := by
    intro c cs found h
    obtain ⟨more, rfl, hmore⟩ := Option.map_eq_some_iff.mp h
    rw [(List.cons.inj hmore).2]
  fun_induction isSealedFrom depth quote piece generalizing taken with
  | case1 depth quote =>
    cases quote with
    | some q => simp [enclosed?] at henclosed
    | none => cases depth <;> simp [enclosed?, isQuote, isOpening, isClosing] at henclosed ⊢
  | case2 depth q c cs ih =>
    rw [List.cons_append, enclosed?] at henclosed
    rw [splitArgsFrom] at hsplit
    exact ih (hbehind henclosed) hsplit (length_read.trans_le hlength)
  | case3 depth c cs hquote ih =>
    rw [List.cons_append, enclosed?_cons, if_pos hquote] at henclosed
    rw [splitArgsFrom, if_pos hquote] at hsplit
    exact ih (hbehind henclosed) hsplit (length_read.trans_le hlength)
  | case4 depth c cs hquote hopen ih =>
    rw [List.cons_append, enclosed?_cons, if_neg hquote, if_pos hopen] at henclosed
    rw [splitArgsFrom, if_neg hquote, if_pos hopen] at hsplit
    exact ih (hbehind henclosed) hsplit (length_read.trans_le hlength)
  | case5 depth c cs hquote hopen hclose ih =>
    rw [List.cons_append, enclosed?_cons, if_neg hquote, if_neg hopen, if_pos hclose] at henclosed
    rw [splitArgsFrom, if_neg hquote, if_neg hopen, if_pos hclose] at hsplit
    by_cases hdepth : depth = 0
    · -- nothing more would be enclosed
      rw [if_pos hdepth] at henclosed
      split at henclosed <;> cases henclosed
    · rw [if_neg hdepth] at henclosed
      rw [ih (hbehind henclosed) hsplit (length_read.trans_le hlength), Bool.and_true, bne_iff_ne]
      exact hdepth
  | case6 depth c cs hquote hopen hclose hcomma =>
    -- the piece would be split here
    rw [splitArgsFrom, if_neg hquote, if_neg hopen, if_neg hclose, if_pos hcomma] at hsplit
    have hshort := length_trim_le taken.reverse
    rw [(List.cons.inj hsplit).1, List.length_reverse] at hshort
    rw [List.length_cons] at hlength
    omega
  | case7 depth c cs hquote hopen hclose hcomma ih =>
    rw [List.cons_append, enclosed?_cons, if_neg hquote, if_neg hopen, if_neg hclose] at henclosed
    rw [splitArgsFrom, if_neg hquote, if_neg hopen, if_neg hclose, if_neg hcomma] at hsplit
    exact ih (hbehind henclosed) hsplit (length_read.trans_le hlength)

theorem IsStringLiteral.isArgument {arg : List Char} (h : IsStringLiteral arg)
    (hsealed : isSealed arg = true) : IsArgument arg := by
  obtain ⟨quote, body, hquote, -, rfl⟩ := h.exists_body
  have hblank : Text.isBlank quote = false := by
    simp only [isQuote, Bool.or_eq_true, beq_iff_eq] at hquote
    rcases hquote with rfl | rfl <;> rfl
  refine ⟨List.cons_ne_nil _ _, ⟨?_, ?_⟩, hsealed⟩
  · rintro _ ⟨⟩
    exact hblank
  · rw [← List.cons_append, List.getLast?_concat]
    rintro _ ⟨⟩
    exact hblank

/-- A call of `push` with one argument. -/
theorem call?_pushOf {arg : List Char} (h : IsArgument arg) :
    Opening.call? ⟨some ['s'], ['p', 'u', 's', 'h'], arg ++ [')']⟩ =
      some ⟨some ['s'], "push", [arg]⟩ := by
  have henclosed : enclosed? 0 none (arg ++ [')']) = some arg := by
    rw [enclosed?_append h.sealed]
    simp [enclosed?, isQuote, isOpening, isClosing]
  have hsplit : splitArgs arg = [arg] := by
    have hone : ∀ piece ∈ [arg], IsArgument piece := List.forall_mem_singleton.mpr h
    have hjoin := splitArgs_join hone (List.forall_mem_nil _)
    rwa [List.intercalate_singleton] at hjoin
  rw [Opening.call?, henclosed, Option.map_some, hsplit]

/-- A call that opens at the front of a text is found. -/
theorem mem_calls_of_opening? {c : Char} {cs : List Char} {o : Opening} {call : Call}
    (ho : opening? (c :: cs) = some o) (hcall : o.call? = some call) : call ∈ calls (c :: cs) := by
  rw [calls, callsAfter, ho]
  exact List.mem_append_left _ (Option.mem_toList.mpr hcall)

/-- The call of `push` is found with its one argument exactly when that is sealed. -/
theorem exists_push_iff {arg : List Char} (h : IsStringLiteral arg) :
    (∃ call ∈ calls (pushOf arg), call.receiver = some ['s'] ∧ call.name = "push" ∧
      call.args = [arg]) ↔ isSealed arg = true := by
  constructor
  · rintro ⟨call, hcall, -, -, hargs⟩
    rw [calls, ← map_call_sitesAfter] at hcall
    obtain ⟨site, hsite, rfl⟩ := List.mem_map.mp hcall
    obtain ⟨inside, enclosed, hnames, henclosed, hsplit⟩ := (finds_sitesAfter_iff _ _ _ _).mp
      ⟨site, hsite, rfl, String.ofList_toList.symm, rfl⟩
    rw [hargs] at hsplit
    -- what is enclosed is no shorter than the argument, so it is enclosed by the outer call
    have hlong : arg.length ≤ enclosed.length := by
      have hmem : arg ∈ splitArgs enclosed := hsplit ▸ List.mem_singleton_self arg
      simpa using length_le_of_mem_splitArgsFrom hmem
    obtain ⟨rest, hinside⟩ := exists_of_enclosed? henclosed
    obtain ⟨blanks, -, hshape⟩ := hnames.shape
    have hopen : pushOf arg = ['s', '.', 'p', 'u', 's', 'h'] ++ '(' :: (arg ++ [')']) := rfl
    rcases cut_cases (hshape.symm.trans hopen) (by decide) with ⟨-, houter⟩ | ⟨more, -, hinner⟩
    · rw [houter] at hinside
      have hlength := congrArg List.length hinside
      simp only [List.length_append, List.length_cons, List.length_nil] at hlength
      obtain rfl := List.append_inj_left hinside (by omega)
      rw [houter] at henclosed
      exact isSealedFrom_of_enclosed? henclosed hsplit.symm (by simp)
    · have hlength := congrArg List.length hinner
      rw [hinside] at hlength
      simp only [List.length_append, List.length_cons, List.length_nil] at hlength
      omega
  · intro hsealed
    have hopen : opening? (pushOf arg) =
        some ⟨some ['s'], ['p', 'u', 's', 'h'], arg ++ [')']⟩ := rfl
    have hcall := call?_pushOf (h.isArgument hsealed)
    refine ⟨⟨some ['s'], "push", [arg]⟩, ?_, rfl, rfl, rfl⟩
    exact mem_calls_of_opening? hopen hcall

/-- In a call of `push` with a string literal no comment is found.  The call is found with that one
argument exactly when the literal is sealed, and sealed literals with commas between them are split
into these literals; a literal that does not have its own quote inside is sealed. -/
theorem push_stringLiterals (literals : List (List Char)) (blanks : List Char)
    (h : ∀ arg ∈ literals, IsStringLiteral arg) (hblanks : ∀ c ∈ blanks, Text.isBlank c = true) :
    (∀ arg ∈ literals, stripComment (pushOf arg) = pushOf arg) ∧
    (∀ arg ∈ literals, (∃ call ∈ calls (pushOf arg), call.receiver = some ['s'] ∧
      call.name = "push" ∧ call.args = [arg]) ↔ isSealed arg = true) ∧
    ((∀ arg ∈ literals, isSealed arg = true) →
      splitArgs ((',' :: blanks).intercalate literals) = literals) ∧
    (∀ quote body, quote :: (body ++ [quote]) ∈ literals → quote ∉ body →
      isSealed (quote :: (body ++ [quote])) = true) := by
  refine ⟨fun arg harg => stripComment_pushOf (h arg harg), fun arg harg =>
    exists_push_iff (h arg harg), fun hsealed => ?_, fun quote body hmem hbody => ?_⟩
  · exact splitArgs_join (fun arg harg => (h arg harg).isArgument (hsealed arg harg)) hblanks
  · exact isSealed_of_passes (passesAt_quoted (h _ hmem).quoted hbody 0)

/-- Brackets, commas and hashes, and quotes that are guarded in pairs. -/
theorem push_stringLiterals_pairs : ∃ literals : List (List Char),
    literals.map String.ofList = ["'a, (#'", "\"b\\\"c\\\"d\""] ∧
    (∀ arg ∈ literals, IsStringLiteral arg) ∧ (∀ arg ∈ literals, isSealed arg = true) ∧
    splitArgs ([',', ' '].intercalate literals) = literals := by
  have hliterals : ∀ arg ∈ [['\'', 'a', ',', ' ', '(', '#', '\''],
      ['"', 'b', '\\', '"', 'c', '\\', '"', 'd', '"']], IsStringLiteral arg :=
    List.forall_mem_cons.mpr ⟨⟨rfl, "a, (#", rfl⟩,
      List.forall_mem_singleton.mpr ⟨rfl, "b\"c\"d", rfl⟩⟩
  have hsealed : ∀ arg ∈ [['\'', 'a', ',', ' ', '(', '#', '\''],
      ['"', 'b', '\\', '"', 'c', '\\', '"', 'd', '"']], isSealed arg = true := by decide
  exact ⟨_, by decide, hliterals, hsealed,
    (push_stringLiterals _ [' '] hliterals (List.forall_mem_singleton.mpr rfl)).2.2.1 hsealed⟩

/-- A single guarded quote: no call is found, and a list that starts with such a text is not split. -/
theorem push_guardedQuote : ∃ arg : List Char, String.ofList arg = "\"a\\\"b\"" ∧
    IsStringLiteral arg ∧ (calls (pushOf arg)).length = 0 ∧
    (splitArgs ([',', ' '].intercalate [arg, arg])).length = 1 := by
  exact ⟨['"', 'a', '\\', '"', 'b', '"'], by decide, ⟨rfl, "a\"b", rfl⟩, by decide, by decide⟩

end Storyboard.Source
