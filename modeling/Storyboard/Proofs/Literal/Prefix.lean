import Storyboard.Proofs.Literal.IntegerList
import Storyboard.Proofs.Literal.Nested

/-!
# How much of a text a literal takes

A literal at the front of a text is read from the characters that it takes and from no others.  The
reader looks one character ahead of a number or a word, so what may follow there is limited: it goes
on as it did, or with no part of a number or a word (`Resumes`).  Brackets and quotes close
themselves, and nothing is asked of what follows them.  From one such statement for each function of
the reader (`exists_used_of_valueAt` and its companions) it follows that the rest of the text can be
exchanged, and that any fuel does that is at least as long as what was taken.
-/

namespace Storyboard.Literal

/-- Reads a literal at the front of a text, and how many bytes it takes. -/
def parsePrefix (text : List Char) : Except Failure (Literal × Nat) :=
  (readAt text).map fun (value, rest) => (value, byteLength text - byteLength rest)

theorem exists_of_bind_eq_ok {ε α β : Type _} {read : Except ε α} {f : α → Except ε β} {result : β}
    (h : read.bind f = .ok result) : ∃ found, read = .ok found ∧ f found = .ok result := by
  cases read with
  | error e => cases h
  | ok found => exact ⟨found, rfl, h⟩

/-! ## Trivia -/

/-- ASCII blanks, backslashes and comments, each up to the end of its line or of the text. -/
inductive IsTrivia : List Char → Prop
  | nil : IsTrivia []
  | blank {c : Char} {cs : List Char} (hc : (Text.isAsciiBlank c || c == '\\') = true)
    (h : IsTrivia cs) : IsTrivia (c :: cs)
  | comment {body cs : List Char} (hbody : '\n' ∉ body) (h : IsTrivia cs) :
    IsTrivia ('#' :: (body ++ '\n' :: cs))
  | lastComment {body : List Char} (hbody : '\n' ∉ body) : IsTrivia ('#' :: body)

theorem skipTrivia_body {body : List Char} (hbody : '\n' ∉ body) (cs : List Char) :
    skipTrivia true (body ++ cs) = skipTrivia true cs := by
  induction body with
  | nil => rfl
  | cons c body ih =>
    have hc := List.ne_of_not_mem_cons hbody
    rw [List.cons_append, skipTrivia, if_neg (by simpa using hc.symm)]
    exact ih (List.not_mem_of_not_mem_cons hbody)

/-- A character more in the comment that a text starts with. -/
theorem IsTrivia.lengthen {c : Char} {cs : List Char} (hc : c ≠ '\n') (h : IsTrivia ('#' :: cs)) :
    IsTrivia ('#' :: c :: cs) := by
  cases h with
  | blank hblank => exact absurd hblank (by decide)
  | comment hbody h =>
    rw [← List.cons_append]
    exact .comment (List.not_mem_cons_of_ne_of_not_mem hc.symm hbody) h
  | lastComment hbody => exact .lastComment (List.not_mem_cons_of_ne_of_not_mem hc.symm hbody)

/-- What is skipped to the end of the text is trivia, in a comment with the mark of it before. -/
theorem isTrivia_of_skipTrivia {inComment : Bool} {cs : List Char}
    (h : skipTrivia inComment cs = []) : IsTrivia (if inComment then '#' :: cs else cs) := by
  fun_induction skipTrivia inComment cs with
  | case1 inComment =>
    cases inComment with
    | true => exact .lastComment List.not_mem_nil
    | false => exact .nil
  | case2 c cs hline ih =>
    rw [eq_of_beq hline]
    exact .comment List.not_mem_nil (ih h)
  | case3 c cs hline ih => exact (ih h).lengthen (by simpa using hline)
  | case4 c cs hblank ih => exact .blank hblank (ih h)
  | case5 c cs hblank hmark ih =>
    rw [eq_of_beq hmark]
    exact ih h
  | case6 c cs => exact absurd h (List.cons_ne_nil c cs)

/-- Just trivia is skipped as a whole. -/
theorem skip_eq_nil_iff {cs : List Char} : skip cs = [] ↔ IsTrivia cs := by
  refine ⟨fun h => isTrivia_of_skipTrivia h, fun h => ?_⟩
  induction h with
  | nil => rfl
  | blank hc h ih =>
    rw [skip, skipTrivia, if_pos hc]
    exact ih
  | comment hbody h ih =>
    show skipTrivia true _ = []
    rw [skipTrivia_body hbody]
    exact ih
  | @lastComment body hbody =>
    show skipTrivia true body = []
    rw [← List.append_nil body, skipTrivia_body hbody]
    rfl

/-- What is skipped before a character does not depend on what follows it. -/
theorem exists_lead {inComment : Bool} {cs rest : List Char} {c : Char}
    (h : skipTrivia inComment cs = c :: rest) :
    ∃ lead, cs = lead ++ c :: rest ∧
      ∀ more, skipTrivia inComment (lead ++ c :: more) = c :: more := by
  fun_induction skipTrivia inComment cs with
  | case1 => cases h
  | case2 d cs hline ih =>
    obtain ⟨lead, rfl, hlead⟩ := ih h
    refine ⟨d :: lead, rfl, fun more => ?_⟩
    rw [List.cons_append, skipTrivia, if_pos hline, hlead]
  | case3 d cs hline ih =>
    obtain ⟨lead, rfl, hlead⟩ := ih h
    refine ⟨d :: lead, rfl, fun more => ?_⟩
    rw [List.cons_append, skipTrivia, if_neg hline, hlead]
  | case4 d cs hblank ih =>
    obtain ⟨lead, rfl, hlead⟩ := ih h
    refine ⟨d :: lead, rfl, fun more => ?_⟩
    rw [List.cons_append, skipTrivia, if_pos hblank, hlead]
  | case5 d cs hblank hmark ih =>
    obtain ⟨lead, rfl, hlead⟩ := ih h
    refine ⟨d :: lead, rfl, fun more => ?_⟩
    rw [List.cons_append, skipTrivia, if_neg hblank, if_pos hmark, hlead]
  | case6 d cs hblank hmark =>
    obtain ⟨rfl, rfl⟩ := List.cons.inj h
    refine ⟨[], rfl, fun more => ?_⟩
    rw [List.nil_append, skipTrivia, if_neg hblank, if_neg hmark]

/-! ## What may follow -/

/-- The text goes on with no part of a number or a word. -/
def EndsToken (text : List Char) : Prop :=
  ∀ c ∈ text.head?, (isKeywordChar c || c == '.' || c == '+' || c == '-') = false

/-- A text may follow where another one did: it starts with the same character, or with one that no
number and no word goes on with. -/
def Resumes (rest tail : List Char) : Prop := tail.head? = rest.head? ∨ EndsToken tail

theorem Resumes.refl (rest : List Char) : Resumes rest rest := Or.inl rfl

/-- Behind the same characters every text may follow in the place of every other. -/
theorem Resumes.of_front {front : List Char} (hne : front ≠ []) (rest tail : List Char) :
    Resumes (front ++ rest) (front ++ tail) := by
  refine Or.inl ?_
  rw [List.head?_append_of_ne_nil _ hne, List.head?_append_of_ne_nil _ hne]

theorem EndsToken.endsNumber {text : List Char} (h : EndsToken text) : EndsNumber text :=
  EndsWord.endsNumber fun c hc => by
    have hends := h c hc
    simp only [Bool.or_eq_false_iff] at hends ⊢
    exact hends.1.1

/-- What every text that goes on with no token has of its first character, a text that follows in
the place of another one with that property has as well. -/
theorem Resumes.head {rest tail : List Char} (h : Resumes rest tail) {p : Char → Prop}
    (hrest : ∀ c ∈ rest.head?, p c)
    (hends : ∀ c, (isKeywordChar c || c == '.' || c == '+' || c == '-') = false → p c) :
    ∀ c ∈ tail.head?, p c := by
  intro c hc
  rcases h with hsame | htoken
  · rw [hsame] at hc
    exact hrest c hc
  · exact hends c (htoken c hc)

theorem Resumes.endsNumber {rest tail : List Char} (h : Resumes rest tail)
    (hrest : EndsNumber rest) : EndsNumber tail := by
  rcases h with hsame | htoken
  · unfold EndsNumber
    rw [hsame]
    exact hrest
  · exact htoken.endsNumber

/-! ## Numbers -/

/-- A character of a number is taken with the run behind it, unless it is an exponent letter before
a sign. -/
theorem numberRun_cons {e : Char} {cs run rest : List Char}
    (he : (e.isDigit || e == '_' || e == '.' || e == 'e' || e == 'E') = true)
    (hsign : ∀ sign ∈ cs.head?, ((e == 'e' || e == 'E') && (sign == '-' || sign == '+')) = false)
    (h : numberRun cs = (run, rest)) : numberRun (e :: cs) = (e :: run, rest) := by
  cases cs with
  | nil =>
    obtain ⟨rfl, rfl⟩ := Prod.mk.inj h
    rw [numberRun, if_pos he]
    intro sign tail h
    cases h
  | cons sign cs =>
    rw [numberRun, hsign sign rfl, if_neg Bool.false_ne_true, if_pos he, h]

/-- The run of a number ends where it did, whatever follows in the place of the rest. -/
theorem numberRun_resumes {cs run rest : List Char} (h : numberRun cs = (run, rest)) :
    cs = run ++ rest ∧ ∀ tail, Resumes rest tail → numberRun (run ++ tail) = (run, tail) := by
  fun_induction numberRun cs generalizing run rest with
  | case1 =>
    obtain ⟨rfl, rfl⟩ := Prod.mk.inj h
    exact ⟨rfl, fun tail htail => numberRun_end (htail.endsNumber nofun)⟩
  | case2 e sign cs hexp run' rest' hrun ih =>
    obtain ⟨rfl, rfl⟩ := Prod.mk.inj h
    obtain ⟨rfl, hlocal⟩ := ih hrun
    refine ⟨rfl, fun tail htail => ?_⟩
    rw [List.cons_append, List.cons_append, numberRun, if_pos hexp, hlocal tail htail]
  | case3 e sign cs hexp hpart run' rest' hrun ih =>
    obtain ⟨rfl, rfl⟩ := Prod.mk.inj h
    obtain ⟨hcs, hlocal⟩ := ih hrun
    refine ⟨by rw [hcs]; rfl, fun tail htail => ?_⟩
    -- the character behind is the one that it was, unless the run ends here
    refine numberRun_cons hpart (fun next hnext => ?_) (hlocal tail htail)
    cases run' with
    | nil =>
      obtain rfl : sign :: cs = rest' := hcs
      refine htail.head (p := fun next =>
        ((e == 'e' || e == 'E') && (next == '-' || next == '+')) = false) ?_ ?_ next hnext
      · rintro _ ⟨⟩
        exact Bool.eq_false_iff.mpr hexp
      · intro c hc
        simp only [Bool.or_eq_false_iff] at hc
        rw [hc.1.2, hc.2, Bool.or_self, Bool.and_false]
    | cons first run' =>
      obtain ⟨rfl, -⟩ := List.cons.inj hcs
      obtain rfl := Option.some.inj hnext
      exact Bool.eq_false_iff.mpr hexp
  | case4 e sign cs hexp hpart =>
    obtain ⟨rfl, rfl⟩ := Prod.mk.inj h
    exact ⟨rfl, fun tail htail =>
      numberRun_end (htail.endsNumber (endsNumber_cons _ (Bool.eq_false_iff.mpr hpart)))⟩
  | case5 c cs hsingle hpart =>
    obtain ⟨rfl, rfl⟩ := Prod.mk.inj h
    cases cs with
    | nil =>
      refine ⟨rfl, fun tail htail => ?_⟩
      refine numberRun_cons hpart (htail.head nofun fun sign hsign => ?_)
        (numberRun_end (htail.endsNumber nofun))
      simp only [Bool.or_eq_false_iff] at hsign
      rw [hsign.1.2, hsign.2, Bool.or_self, Bool.and_false]
    | cons sign cs => exact (hsingle sign cs rfl).elim
  | case6 c cs hsingle hpart =>
    obtain ⟨rfl, rfl⟩ := Prod.mk.inj h
    exact ⟨rfl, fun tail htail =>
      numberRun_end (htail.endsNumber (endsNumber_cons _ (Bool.eq_false_iff.mpr hpart)))⟩

/-- The sign that a text starts with, if there is one, and what follows it. -/
def takeSign : List Char → List Char × List Char
  | '-' :: rest => (['-'], rest)
  | '+' :: rest => (['+'], rest)
  | cs => ([], cs)

/-- A point or an exponent letter, which makes a double of a number. -/
def isFloatMark (c : Char) : Bool := c == '.' || c == 'e' || c == 'E'

/-- The number that is written by digits without underscores. -/
def numeral (isFloat : Bool) (digits : List Char) : Except Cause Literal :=
  if isFloat then
    match Decimal.float? digits with
    | some x => .ok (.float x)
    | Option.none => .error .badFloat
  else
    match Decimal.int64? digits with
    | some n => .ok (.int n)
    | Option.none => .error .badInteger

/-- A number is its sign and its run, and reading goes on behind the run. -/
theorem number_eq {cs sign body run rest : List Char} (hsign : takeSign cs = (sign, body))
    (hrun : numberRun body = (run, rest)) :
    number cs = match numeral (run.any isFloatMark) (sign ++ run.filter (· != '_')) with
      | .ok value => .ok (value, rest)
      | .error cause => .error ⟨cause, rest⟩ := by
  unfold number
  -- the sign that is split off here is the one of `takeSign`
  split
  next sign' body' hsplit =>
  have hsame : takeSign cs = (sign', body') := by
    split at hsplit
    next => exact hsplit
    next => exact hsplit
    next hminus hplus =>
      unfold takeSign
      split
      next rest => exact absurd rfl (hminus rest)
      next rest => exact absurd rfl (hplus rest)
      next => exact hsplit
  obtain ⟨rfl, rfl⟩ := Prod.mk.inj (hsign.symm.trans hsame)
  rw [hrun, numeral]
  dsimp only
  by_cases hfloat : (run.any fun c => c == '.' || c == 'e' || c == 'E') = true
  · rw [if_pos hfloat, if_pos (show run.any isFloatMark = true from hfloat)]
    split <;> simp_all
  · rw [if_neg hfloat, if_neg (show ¬ run.any isFloatMark = true from hfloat)]
    split <;> simp_all

theorem takeSign_none {cs : List Char} (h : ∀ c ∈ cs.head?, c ≠ '-' ∧ c ≠ '+') :
    takeSign cs = ([], cs) := by
  unfold takeSign
  split
  · exact absurd rfl (h '-' rfl).1
  · exact absurd rfl (h '+' rfl).2
  · rfl

theorem takeSign_resumes {cs sign body : List Char} (h : takeSign cs = (sign, body)) :
    cs = sign ++ body ∧ ∀ tail, Resumes body tail → takeSign (sign ++ tail) = (sign, tail) := by
  unfold takeSign at h
  split at h
  next rest =>
    obtain ⟨rfl, rfl⟩ := Prod.mk.inj h
    exact ⟨rfl, fun _ _ => rfl⟩
  next rest =>
    obtain ⟨rfl, rfl⟩ := Prod.mk.inj h
    exact ⟨rfl, fun _ _ => rfl⟩
  next hminus hplus =>
    obtain ⟨rfl, rfl⟩ := Prod.mk.inj h
    refine ⟨rfl, fun tail htail => takeSign_none ?_⟩
    -- the first character is the one that it was, or no sign
    refine htail.head (p := fun c => c ≠ '-' ∧ c ≠ '+') (fun c hc => ?_) fun c hc => ?_
    · obtain ⟨rest, rfl⟩ := List.head?_eq_some_iff.mp hc
      exact ⟨fun he => hminus rest (he ▸ rfl), fun he => hplus rest (he ▸ rfl)⟩
    · simp only [Bool.or_eq_false_iff] at hc
      exact ⟨ne_of_beq_false hc.2, ne_of_beq_false hc.1.2⟩

/-- There is no number without a run. -/
theorem run_ne_nil {cs sign body run : List Char} {value : Literal}
    (hsign : takeSign cs = (sign, body))
    (h : numeral (run.any isFloatMark) (sign ++ run.filter (· != '_')) = .ok value) : run ≠ [] := by
  rintro rfl
  unfold takeSign at hsign
  split at hsign
  all_goals
    obtain ⟨rfl, -⟩ := Prod.mk.inj hsign
    cases h

theorem number_resumes {cs rest : List Char} {value : Literal}
    (h : number cs = .ok (value, rest)) :
    ∃ used, used ≠ [] ∧ cs = used ++ rest ∧
      ∀ tail, Resumes rest tail → number (used ++ tail) = .ok (value, tail) := by
  rcases hsign : takeSign cs with ⟨sign, body⟩
  rcases hrun : numberRun body with ⟨run, rest'⟩
  rw [number_eq hsign hrun] at h
  split at h
  next found hnumeral =>
    obtain ⟨rfl, rfl⟩ := Prod.mk.inj (Except.ok.inj h)
    obtain ⟨rfl, hsame⟩ := takeSign_resumes hsign
    obtain ⟨rfl, hlocal⟩ := numberRun_resumes hrun
    have hne := run_ne_nil hsign hnumeral
    refine ⟨sign ++ run, by simp [hne], by rw [List.append_assoc], fun tail htail => ?_⟩
    rw [List.append_assoc, number_eq (hsame _ (.of_front hne rest' tail)) (hlocal tail htail),
      hnumeral]
  next => cases h

/-! ## Words -/

/-- The value that a word names. -/
def word? : List Char → Option Literal
  | ['T', 'r', 'u', 'e'] => some (.bool true)
  | ['F', 'a', 'l', 's', 'e'] => some (.bool false)
  | ['N', 'o', 'n', 'e'] => some .none
  | _ => Option.none

theorem keyword_eq (cs : List Char) :
    keyword cs = match word? (cs.takeWhile isKeywordChar) with
      | some value => .ok (value, cs.dropWhile isKeywordChar)
      | Option.none => .error ⟨.identifier, cs⟩ := by
  unfold keyword
  dsimp only
  generalize cs.takeWhile isKeywordChar = word
  unfold word?
  split <;> simp_all

theorem keyword_resumes {cs rest : List Char} {value : Literal}
    (h : keyword cs = .ok (value, rest)) :
    ∃ used, used ≠ [] ∧ cs = used ++ rest ∧
      ∀ tail, Resumes rest tail → keyword (used ++ tail) = .ok (value, tail) := by
  rw [keyword_eq] at h
  split at h
  next found hword =>
    obtain ⟨rfl, rfl⟩ := Prod.mk.inj (Except.ok.inj h)
    have hne : cs.takeWhile isKeywordChar ≠ [] := by
      intro hnil
      rw [hnil] at hword
      cases hword
    refine ⟨_, hne, List.takeWhile_append_dropWhile.symm, fun tail htail => ?_⟩
    -- the word ended before the rest, and a boundary would end it too
    have hends : ∀ c ∈ tail.head?, isKeywordChar c = false := by
      refine htail.head (fun c hc => ?_) fun c hc => ?_
      · have hdrop := List.head?_dropWhile_not isKeywordChar cs
        rw [hc] at hdrop
        exact hdrop
      · simp only [Bool.or_eq_false_iff] at hc
        exact hc.1.1.1
    have hall : ∀ c ∈ cs.takeWhile isKeywordChar, isKeywordChar c = true := fun c hc =>
      List.mem_takeWhile_imp hc
    have htake : tail.takeWhile isKeywordChar = [] ∧ tail.dropWhile isKeywordChar = tail := by
      cases tail with
      | nil => exact ⟨rfl, rfl⟩
      | cons c tail => simp [hends c rfl]
    rw [keyword_eq, List.takeWhile_append_of_pos hall, List.dropWhile_append_of_pos hall, htake.1,
      htake.2, List.append_nil, hword]
  next => cases h

/-! ## Values, items and entries -/

/-- What is read of a text from its first character behind the trivia on. -/
def valueFrom (fuel : Nat) (c : Char) (rest : List Char) :
    Except Failure (Literal × List Char) :=
  if c == '[' then
    (itemsAt fuel ']' false rest).map fun (items, _, rest) => (.list items, rest)
  else if c == '(' then
    (itemsAt fuel ')' false rest).map fun (items, comma, rest) => (parenthesized items comma, rest)
  else if c == '\x7b' then
    (entriesAt fuel rest).map fun (entries, rest) => (.dict entries, rest)
  else if c == '"' || c == '\'' then
    (quotedBody c rest).map fun (raw, rest) => (.text (String.ofList (unescape raw)), rest)
  else if c.isDigit || c == '-' || c == '+' || c == '.' then number (c :: rest)
  else if c.isAlpha || c == '_' then keyword (c :: rest)
  else .error ⟨.unexpectedCharacter, c :: rest⟩

theorem valueAt_of_skip (fuel : Nat) {cs rest : List Char} {c : Char} (h : skip cs = c :: rest) :
    valueAt (fuel + 1) cs = valueFrom fuel c rest := by
  rw [valueAt, h]
  rfl

/-- The characters are read as the value before every text that goes on as `rest` does or with no
token. -/
def Reads (used : List Char) (value : Literal) (rest : List Char) : Prop :=
  ∀ tail, Resumes rest tail → ∀ fuel, used.length ≤ fuel →
    valueAt fuel (used ++ tail) = .ok (value, tail)

/-- The characters are read as the items up to their closing bracket, before every text. -/
def ReadsItems (close : Char) (comma : Bool) (used : List Char) (items : List Literal)
    (last : Bool) : Prop :=
  ∀ tail fuel, used.length ≤ fuel → itemsAt fuel close comma (used ++ tail) = .ok (items, last, tail)

/-- The characters are read as the entries up to the closing brace, before every text. -/
def ReadsEntries (used : List Char) (entries : List (Literal × Literal)) : Prop :=
  ∀ tail fuel, used.length ≤ fuel → entriesAt fuel (used ++ tail) = .ok (entries, tail)

/-- What is read as a value with this fuel is read from the characters that it takes. -/
def ValuesAreLocal (fuel : Nat) : Prop :=
  ∀ ⦃cs value rest⦄, valueAt fuel cs = .ok (value, rest) →
    ∃ used, used ≠ [] ∧ cs = used ++ rest ∧ Reads used value rest

@[inherit_doc ValuesAreLocal]
def ItemsAreLocal (fuel : Nat) : Prop :=
  ∀ ⦃close comma cs items last rest⦄, itemsAt fuel close comma cs = .ok (items, last, rest) →
    ∃ used, cs = used ++ rest ∧ ReadsItems close comma used items last

@[inherit_doc ValuesAreLocal]
def EntriesAreLocal (fuel : Nat) : Prop :=
  ∀ ⦃cs entries rest⦄, entriesAt fuel cs = .ok (entries, rest) →
    ∃ used, cs = used ++ rest ∧ ReadsEntries used entries

variable {fuel : Nat}

/-- A number or a word starts with the character that told it apart. -/
theorem exists_used_behind_first {read : List Char → Except Failure (Literal × List Char)} {c : Char}
    {cs rest : List Char} {value : Literal}
    (h : ∃ used, used ≠ [] ∧ c :: cs = used ++ rest ∧
      ∀ tail, Resumes rest tail → read (used ++ tail) = .ok (value, tail)) :
    ∃ used, cs = used ++ rest ∧
      ∀ tail, Resumes rest tail → read (c :: (used ++ tail)) = .ok (value, tail) := by
  obtain ⟨used, hne, hcs, hlocal⟩ := h
  obtain ⟨first, used, rfl⟩ := List.exists_cons_of_ne_nil hne
  obtain ⟨rfl, rfl⟩ := List.cons.inj hcs
  exact ⟨used, rfl, hlocal⟩

/-- What is made of items is read again with them. -/
theorem exists_used_of_items (hitems : ItemsAreLocal fuel) {close : Char}
    (build : List Literal → Bool → Literal) {cs rest : List Char} {value : Literal}
    (h : ((itemsAt fuel close false cs).map fun (items, comma, rest) => (build items comma, rest)) =
      .ok (value, rest)) :
    ∃ used, cs = used ++ rest ∧ ∀ tail fuel, used.length ≤ fuel →
      ((itemsAt fuel close false (used ++ tail)).map fun (items, comma, rest) =>
        (build items comma, rest)) = .ok (value, tail) := by
  obtain ⟨⟨items, comma, _⟩, hread, h⟩ := exists_of_map_eq_ok h
  obtain ⟨rfl, rfl⟩ := Prod.mk.inj h
  obtain ⟨used, rfl, hlocal⟩ := hitems hread
  refine ⟨used, rfl, fun tail fuel hfuel => ?_⟩
  rw [hlocal tail fuel hfuel]
  rfl

theorem exists_used_of_valueFrom (hitems : ItemsAreLocal fuel) (hentries : EntriesAreLocal fuel)
    {c : Char} {cs rest : List Char} {value : Literal} (h : valueFrom fuel c cs = .ok (value, rest)) :
    ∃ used, cs = used ++ rest ∧ ∀ tail, Resumes rest tail → ∀ fuel, used.length ≤ fuel →
      valueFrom fuel c (used ++ tail) = .ok (value, tail) := by
  -- each case is closed by a mark of its own or, for numbers and words, ends at a boundary
  unfold valueFrom at h
  split at h
  next hc =>
    obtain ⟨used, rfl, hlocal⟩ := exists_used_of_items hitems (fun items _ => .list items) h
    refine ⟨used, rfl, fun tail _ fuel hfuel => ?_⟩
    rw [valueFrom, if_pos hc]
    exact hlocal tail fuel hfuel
  next hlist =>
  split at h
  next hc =>
    obtain ⟨used, rfl, hlocal⟩ := exists_used_of_items hitems parenthesized h
    refine ⟨used, rfl, fun tail _ fuel hfuel => ?_⟩
    rw [valueFrom, if_neg hlist, if_pos hc]
    exact hlocal tail fuel hfuel
  next htuple =>
  split at h
  next hc =>
    obtain ⟨⟨entries, _⟩, hread, h⟩ := exists_of_map_eq_ok h
    obtain ⟨rfl, rfl⟩ := Prod.mk.inj h
    obtain ⟨used, rfl, hlocal⟩ := hentries hread
    refine ⟨used, rfl, fun tail _ fuel hfuel => ?_⟩
    rw [valueFrom, if_neg hlist, if_neg htuple, if_pos hc, hlocal tail fuel hfuel]
    rfl
  next hdict =>
  split at h
  next hc =>
    obtain ⟨⟨raw, _⟩, hread, h⟩ := exists_of_map_eq_ok h
    obtain ⟨rfl, rfl⟩ := Prod.mk.inj h
    obtain ⟨rfl, hlocal⟩ := quotedBody_resumes hread
    refine ⟨raw ++ [c], by simp, fun tail _ fuel _ => ?_⟩
    rw [valueFrom, if_neg hlist, if_neg htuple, if_neg hdict, if_pos hc, List.append_assoc,
      List.singleton_append, hlocal tail]
    rfl
  next htext =>
  split at h
  next hc =>
    obtain ⟨used, rfl, hlocal⟩ := exists_used_behind_first (number_resumes h)
    refine ⟨used, rfl, fun tail htail fuel _ => ?_⟩
    rw [valueFrom, if_neg hlist, if_neg htuple, if_neg hdict, if_neg htext, if_pos hc]
    exact hlocal tail htail
  next hnumber =>
  split at h
  next hc =>
    obtain ⟨used, rfl, hlocal⟩ := exists_used_behind_first (keyword_resumes h)
    refine ⟨used, rfl, fun tail htail fuel _ => ?_⟩
    rw [valueFrom, if_neg hlist, if_neg htuple, if_neg hdict, if_neg htext, if_neg hnumber,
      if_pos hc]
    exact hlocal tail htail
  next => cases h

theorem valuesAreLocal_succ (hitems : ItemsAreLocal fuel) (hentries : EntriesAreLocal fuel) :
    ValuesAreLocal (fuel + 1) := by
  intro cs value rest h
  cases hstart : skip cs with
  | nil =>
    rw [valueAt, hstart] at h
    cases h
  | cons c more =>
    rw [valueAt_of_skip fuel hstart] at h
    obtain ⟨lead, rfl, hlead⟩ := exists_lead hstart
    obtain ⟨used, rfl, hlocal⟩ := exists_used_of_valueFrom hitems hentries h
    refine ⟨lead ++ c :: used, by simp, by simp, fun tail htail fuel hfuel => ?_⟩
    rw [List.length_append, List.length_cons] at hfuel
    obtain ⟨fuel, rfl⟩ : ∃ n, fuel = n + 1 := ⟨fuel - 1, by omega⟩
    rw [List.append_assoc, List.cons_append, valueAt_of_skip fuel (hlead (used ++ tail))]
    exact hlocal tail htail fuel (by omega)

/-- What is read behind an item. -/
def afterItem (fuel : Nat) (close : Char) (item : Literal) (cs : List Char) :
    Except Failure (List Literal × Bool × List Char) :=
  match skip cs with
  | [] => .error ⟨.noCommaOrClose, []⟩
  | c :: rest =>
    if c == ',' then
      (itemsAt fuel close true rest).map fun (items, comma, rest) => (item :: items, comma, rest)
    else if c == close then .ok ([item], false, rest)
    else .error ⟨.noCommaOrClose, c :: rest⟩

theorem itemsAt_closed {close : Char} {cs rest : List Char} (comma : Bool)
    (h : skip cs = close :: rest) : itemsAt (fuel + 1) close comma cs = .ok ([], comma, rest) := by
  rw [itemsAt, h]
  dsimp only
  rw [List.head?_cons, if_pos (beq_self_eq_true _), List.tail_cons]

theorem itemsAt_open {close : Char} {cs : List Char} (comma : Bool)
    (h : ((skip cs).head? == some close) = false) :
    itemsAt (fuel + 1) close comma cs =
      (valueAt fuel (skip cs)).bind fun (item, rest) => afterItem fuel close item rest := by
  rw [itemsAt]
  dsimp only
  rw [h, if_neg Bool.false_ne_true]
  cases valueAt fuel (skip cs) <;> rfl

/-- What is read behind an item ends in a mark of its own, so whatever follows may be exchanged. -/
theorem exists_used_of_afterItem (hitems : ItemsAreLocal fuel) {close : Char} {item : Literal}
    {cs rest : List Char} {items : List Literal} {last : Bool}
    (h : afterItem fuel close item cs = .ok (items, last, rest)) :
    ∃ used, used ≠ [] ∧ cs = used ++ rest ∧ ∀ tail fuel, used.length ≤ fuel →
      afterItem fuel close item (used ++ tail) = .ok (items, last, tail) := by
  unfold afterItem at h
  split at h
  · cases h
  next mark more hmark =>
  obtain ⟨lead, rfl, hlead⟩ := exists_lead hmark
  have hskip : ∀ more, skip (lead ++ mark :: more) = mark :: more := hlead
  -- the mark is a comma, and more items follow, or it is the one that closes
  split at h
  next hcomma =>
    obtain ⟨⟨others, _, _⟩, hrest, h⟩ := exists_of_map_eq_ok h
    cases h
    obtain ⟨used, rfl, hlocal⟩ := hitems hrest
    refine ⟨lead ++ mark :: used, by simp, by simp, fun tail fuel hfuel => ?_⟩
    rw [List.length_append, List.length_cons] at hfuel
    rw [List.append_assoc, List.cons_append, afterItem, hskip]
    dsimp only
    rw [if_pos hcomma, hlocal tail fuel (by omega)]
    rfl
  next hcomma =>
  split at h
  next hclose =>
    cases h
    refine ⟨lead ++ [mark], by simp, by simp, fun tail fuel _ => ?_⟩
    rw [List.append_assoc, List.singleton_append, afterItem, hskip]
    dsimp only
    rw [if_neg hcomma, if_pos hclose]
  next => cases h

/-- A bracket behind blanks and comments is found again, before every text. -/
theorem exists_used_of_closed {cs : List Char} {close : Char}
    (h : ((skip cs).head? == some close) = true) :
    ∃ used rest, skip cs = close :: rest ∧ used ≠ [] ∧ cs = used ++ rest ∧
      ∀ tail, skip (used ++ tail) = close :: tail := by
  obtain ⟨rest, hstart⟩ := List.head?_eq_some_iff.mp (eq_of_beq h)
  obtain ⟨lead, rfl, hlead⟩ := exists_lead hstart
  refine ⟨lead ++ [close], rest, hstart, by simp, by simp, fun tail => ?_⟩
  rw [List.append_assoc]
  exact hlead tail

/-- A value behind blanks and comments is found again, and read as it was when a mark behind it stays
where it is. -/
theorem exists_used_of_value (hvalues : ValuesAreLocal fuel) {cs mark rest : List Char}
    {value : Literal} (hmark : mark ≠ [])
    (h : valueAt fuel (skip cs) = .ok (value, mark ++ rest)) :
    ∃ used, used ≠ [] ∧ cs = used ++ (mark ++ rest) ∧ ∀ tail,
      (skip (used ++ (mark ++ tail))).head? = (skip cs).head? ∧
        ∀ fuel, used.length ≤ fuel →
          valueAt fuel (skip (used ++ (mark ++ tail))) = .ok (value, mark ++ tail) := by
  obtain ⟨front, hne, hstart, hreads⟩ := hvalues h
  obtain ⟨first, front, rfl⟩ := List.exists_cons_of_ne_nil hne
  obtain ⟨lead, rfl, hlead⟩ := exists_lead hstart
  refine ⟨lead ++ first :: front, by simp, by simp, fun tail => ?_⟩
  have hskip : skip (lead ++ first :: front ++ (mark ++ tail)) =
      first :: front ++ (mark ++ tail) := by
    rw [List.append_assoc]
    exact hlead _
  refine ⟨by rw [hskip, hstart]; rfl, fun fuel hfuel => ?_⟩
  rw [List.length_append] at hfuel
  rw [hskip]
  exact hreads _ (.of_front hmark rest tail) fuel (by omega)

theorem itemsAreLocal_succ (hvalues : ValuesAreLocal fuel) (hitems : ItemsAreLocal fuel) :
    ItemsAreLocal (fuel + 1) := by
  intro close comma cs items last rest h
  cases hclosed : (skip cs).head? == some close with
  | true =>
    obtain ⟨used, _, hstart, hne, rfl, hskip⟩ := exists_used_of_closed hclosed
    rw [itemsAt_closed comma hstart] at h
    cases h
    refine ⟨used, rfl, fun tail fuel hfuel => ?_⟩
    have hlong := List.length_pos_of_ne_nil hne
    obtain ⟨fuel, rfl⟩ : ∃ n, fuel = n + 1 := ⟨fuel - 1, by omega⟩
    exact itemsAt_closed comma (hskip tail)
  | false =>
    rw [itemsAt_open comma hclosed] at h
    obtain ⟨⟨item, _⟩, hitem, hafter⟩ := exists_of_bind_eq_ok h
    obtain ⟨behind, hbehind, rfl, hlocal⟩ := exists_used_of_afterItem hitems hafter
    obtain ⟨used, hne, rfl, hagain⟩ := exists_used_of_value hvalues hbehind hitem
    refine ⟨used ++ behind, by rw [List.append_assoc], fun tail fuel hfuel => ?_⟩
    have hlong := List.length_pos_of_ne_nil hne
    have hmark := List.length_pos_of_ne_nil hbehind
    rw [List.length_append] at hfuel
    obtain ⟨fuel, rfl⟩ : ∃ n, fuel = n + 1 := ⟨fuel - 1, by omega⟩
    -- the item is read again, as the mark behind it is the same
    obtain ⟨hhead, hreads⟩ := hagain tail
    rw [List.append_assoc, itemsAt_open comma (by rw [hhead]; exact hclosed),
      hreads fuel (by omega)]
    exact hlocal tail fuel (by omega)

/-- What is read behind the value of an entry. -/
def afterEntry (fuel : Nat) (entry : Literal × Literal) (cs : List Char) :
    Except Failure (List (Literal × Literal) × List Char) :=
  match skip cs with
  | ',' :: rest => (entriesAt fuel rest).map fun (entries, rest) => (entry :: entries, rest)
  | '\x7d' :: rest => .ok ([entry], rest)
  | rest => .error ⟨.noCommaOrBrace, rest⟩

theorem afterEntry_eq (fuel : Nat) (entry : Literal × Literal) (cs : List Char) :
    afterEntry fuel entry cs = match skip cs with
      | [] => .error ⟨.noCommaOrBrace, []⟩
      | c :: rest =>
        if c == ',' then
          (entriesAt fuel rest).map fun (entries, rest) => (entry :: entries, rest)
        else if c == '\x7d' then .ok ([entry], rest)
        else .error ⟨.noCommaOrBrace, c :: rest⟩ := by
  unfold afterEntry
  generalize skip cs = here
  split
  next => rfl
  next => rfl
  next hcomma hbrace =>
    cases here with
    | nil => rfl
    | cons c rest =>
      dsimp only
      rw [if_neg fun h => hcomma rest (by rw [eq_of_beq h]),
        if_neg fun h => hbrace rest (by rw [eq_of_beq h])]

/-- What is read behind the key of an entry. -/
def afterKey (fuel : Nat) (key : Literal) (cs : List Char) :
    Except Failure (List (Literal × Literal) × List Char) :=
  match skip cs with
  | ':' :: rest => (valueAt fuel rest).bind fun (value, rest) => afterEntry fuel (key, value) rest
  | rest => .error ⟨.noColon, rest⟩

theorem entriesAt_closed {cs rest : List Char} (h : skip cs = '\x7d' :: rest) :
    entriesAt (fuel + 1) cs = .ok ([], rest) := by
  rw [entriesAt, h]
  rfl

theorem entriesAt_open {cs : List Char} (h : ((skip cs).head? == some '\x7d') = false) :
    entriesAt (fuel + 1) cs =
      (valueAt fuel (skip cs)).bind fun (key, rest) => afterKey fuel key rest := by
  rw [entriesAt]
  split
  next rest hclosed =>
    rw [hclosed] at h
    cases h
  next =>
    cases valueAt fuel (skip cs) with
    | error e => rfl
    | ok found =>
      obtain ⟨key, rest⟩ := found
      dsimp only [Except.bind]
      split
      next more hmore =>
        rw [afterKey, hmore]
        show _ = (valueAt fuel more).bind fun (value, rest) => afterEntry fuel (key, value) rest
        cases valueAt fuel more <;> rfl
      next hmark =>
        rw [afterKey]
        split
        next more hmore => exact absurd hmore (hmark more)
        next => rfl

/-- What is read behind the value of an entry ends in a mark of its own. -/
theorem exists_used_of_afterEntry (hentries : EntriesAreLocal fuel) {entry : Literal × Literal}
    {cs rest : List Char} {entries : List (Literal × Literal)}
    (h : afterEntry fuel entry cs = .ok (entries, rest)) :
    ∃ used, used ≠ [] ∧ cs = used ++ rest ∧ ∀ tail fuel, used.length ≤ fuel →
      afterEntry fuel entry (used ++ tail) = .ok (entries, tail) := by
  unfold afterEntry at h
  -- the mark is a comma, and more entries follow, or it is the closing brace
  split at h
  next more hmark =>
    obtain ⟨lead, rfl, hlead⟩ := exists_lead hmark
    have hskip : ∀ more, skip (lead ++ ',' :: more) = ',' :: more := hlead
    obtain ⟨⟨others, _⟩, hrest, h⟩ := exists_of_map_eq_ok h
    cases h
    obtain ⟨used, rfl, hlocal⟩ := hentries hrest
    refine ⟨lead ++ ',' :: used, by simp, by simp, fun tail fuel hfuel => ?_⟩
    rw [List.length_append, List.length_cons] at hfuel
    rw [List.append_assoc, List.cons_append, afterEntry, hskip]
    show (entriesAt fuel (used ++ tail)).map _ = _
    rw [hlocal tail fuel (by omega)]
    rfl
  next more hmark =>
    cases h
    obtain ⟨lead, rfl, hlead⟩ := exists_lead hmark
    have hskip : ∀ more, skip (lead ++ '\x7d' :: more) = '\x7d' :: more := hlead
    refine ⟨lead ++ ['\x7d'], by simp, by simp, fun tail fuel _ => ?_⟩
    rw [List.append_assoc, List.singleton_append, afterEntry, hskip]
    rfl
  next => cases h

/-- What is read behind the key of an entry ends in a mark of its own, too. -/
theorem exists_used_of_afterKey (hvalues : ValuesAreLocal fuel) (hentries : EntriesAreLocal fuel)
    {key : Literal} {cs rest : List Char} {entries : List (Literal × Literal)}
    (h : afterKey fuel key cs = .ok (entries, rest)) :
    ∃ used, used ≠ [] ∧ cs = used ++ rest ∧ ∀ tail fuel, used.length ≤ fuel →
      afterKey fuel key (used ++ tail) = .ok (entries, tail) := by
  unfold afterKey at h
  split at h
  next more hmark =>
    obtain ⟨lead, rfl, hlead⟩ := exists_lead hmark
    have hskip : ∀ more, skip (lead ++ ':' :: more) = ':' :: more := hlead
    obtain ⟨⟨value, _⟩, hvalue, hafter⟩ := exists_of_bind_eq_ok h
    obtain ⟨front, -, rfl, hreads⟩ := hvalues hvalue
    obtain ⟨behind, hbehind, rfl, hlocal⟩ := exists_used_of_afterEntry hentries hafter
    refine ⟨lead ++ ':' :: (front ++ behind), by simp, by simp, fun tail fuel hfuel => ?_⟩
    simp only [List.length_append, List.length_cons] at hfuel
    simp only [List.append_assoc, List.cons_append]
    rw [afterKey, hskip]
    show (valueAt fuel (front ++ (behind ++ tail))).bind _ = _
    rw [hreads _ (.of_front hbehind rest tail) fuel (by omega)]
    exact hlocal tail fuel (by omega)
  next => cases h

theorem entriesAreLocal_succ (hvalues : ValuesAreLocal fuel) (hentries : EntriesAreLocal fuel) :
    EntriesAreLocal (fuel + 1) := by
  intro cs entries rest h
  cases hclosed : (skip cs).head? == some '\x7d' with
  | true =>
    obtain ⟨used, _, hstart, hne, rfl, hskip⟩ := exists_used_of_closed hclosed
    rw [entriesAt_closed hstart] at h
    cases h
    refine ⟨used, rfl, fun tail fuel hfuel => ?_⟩
    have hlong := List.length_pos_of_ne_nil hne
    obtain ⟨fuel, rfl⟩ : ∃ n, fuel = n + 1 := ⟨fuel - 1, by omega⟩
    exact entriesAt_closed (hskip tail)
  | false =>
    rw [entriesAt_open hclosed] at h
    obtain ⟨⟨key, _⟩, hkey, hafter⟩ := exists_of_bind_eq_ok h
    obtain ⟨behind, hbehind, rfl, hlocal⟩ := exists_used_of_afterKey hvalues hentries hafter
    obtain ⟨used, hne, rfl, hagain⟩ := exists_used_of_value hvalues hbehind hkey
    refine ⟨used ++ behind, by rw [List.append_assoc], fun tail fuel hfuel => ?_⟩
    have hlong := List.length_pos_of_ne_nil hne
    have hmark := List.length_pos_of_ne_nil hbehind
    rw [List.length_append] at hfuel
    obtain ⟨fuel, rfl⟩ : ∃ n, fuel = n + 1 := ⟨fuel - 1, by omega⟩
    -- the key is read again, as the mark behind it is the same
    obtain ⟨hhead, hreads⟩ := hagain tail
    rw [List.append_assoc, entriesAt_open (by rw [hhead]; exact hclosed), hreads fuel (by omega)]
    exact hlocal tail fuel (by omega)

/-- Whatever fuel a value is read with, it is read from the characters that it takes. -/
theorem areLocal (fuel : Nat) :
    ValuesAreLocal fuel ∧ ItemsAreLocal fuel ∧ EntriesAreLocal fuel := by
  induction fuel with
  | zero =>
    refine ⟨fun cs value rest h => ?_, fun close comma cs items last rest h => ?_,
      fun cs entries rest h => ?_⟩
    · rw [valueAt] at h
      cases h
    · rw [itemsAt] at h
      cases h
    · rw [entriesAt] at h
      cases h
  | succ fuel ih =>
    obtain ⟨hvalues, hitems, hentries⟩ := ih
    exact ⟨valuesAreLocal_succ hitems hentries, itemsAreLocal_succ hvalues hitems,
      entriesAreLocal_succ hvalues hentries⟩

/-! ## The front of a text -/

theorem exists_used_of_readAt {cs rest : List Char} {value : Literal}
    (h : readAt cs = .ok (value, rest)) :
    ∃ used, used ≠ [] ∧ cs = used ++ rest ∧ Reads used value rest :=
  (areLocal _).1 h

theorem Reads.readAt {used rest tail : List Char} {value : Literal} (h : Reads used value rest)
    (htail : Resumes rest tail) : readAt (used ++ tail) = .ok (value, tail) :=
  h tail htail _ (by rw [List.length_append]; omega)

/-- What is read with any fuel, is read. -/
theorem readAt_of_valueAt {cs : List Char} {found : Literal × List Char}
    (h : valueAt fuel cs = .ok found) : readAt cs = .ok found := by
  obtain ⟨value, rest⟩ := found
  obtain ⟨used, -, rfl, hreads⟩ := (areLocal fuel).1 h
  exact hreads.readAt (.refl rest)

theorem byteLength_append (xs ys : List Char) :
    byteLength (xs ++ ys) = byteLength xs + byteLength ys := by
  simp only [byteLength, ← List.sum_eq_foldl, List.map_append, List.sum_append]

theorem byteLength_cons (c : Char) (cs : List Char) :
    byteLength (c :: cs) = c.utf8Size + byteLength cs := by
  simp only [byteLength, ← List.sum_eq_foldl, List.map_cons, List.sum_cons]

theorem eq_nil_of_byteLength_eq_zero {cs : List Char} (h : byteLength cs = 0) : cs = [] := by
  cases cs with
  | nil => rfl
  | cons c cs =>
    rw [byteLength_cons] at h
    have hc := c.utf8Size_pos
    omega

/-- A text is parted in one way at a number of bytes. -/
theorem eq_of_append_eq {xs ys xs' ys' : List Char} (h : xs ++ ys = xs' ++ ys')
    (hbytes : byteLength xs = byteLength xs') : xs = xs' ∧ ys = ys' := by
  rcases List.append_eq_append_iff.mp h with ⟨between, rfl, rfl⟩ | ⟨between, rfl, rfl⟩
  all_goals
    rw [byteLength_append] at hbytes
    obtain rfl : between = [] := eq_nil_of_byteLength_eq_zero (by omega)
    simp

/-- A literal is found with the characters that it takes, as many bytes as are reported. -/
theorem parsePrefix_eq_ok_iff {text : List Char} {value : Literal} {n : Nat} :
    parsePrefix text = .ok (value, n) ↔
      ∃ used rest, text = used ++ rest ∧ byteLength used = n ∧
        readAt text = .ok (value, rest) := by
  constructor
  · intro h
    obtain ⟨⟨value, rest⟩, hread, h⟩ := exists_of_map_eq_ok h
    obtain ⟨used, -, rfl, -⟩ := exists_used_of_readAt hread
    obtain ⟨rfl, rfl⟩ := Prod.mk.inj h
    exact ⟨used, rest, rfl, by rw [byteLength_append, Nat.add_sub_cancel_right], hread⟩
  · rintro ⟨used, rest, rfl, rfl, hread⟩
    rw [parsePrefix, hread, byteLength_append]
    show Except.ok (value, byteLength used + byteLength rest - byteLength rest) = _
    rw [Nat.add_sub_cancel_right]

theorem parse_eq_ok_iff {text : List Char} {value : Literal} :
    parse text = .ok value ↔ ∃ rest, readAt text = .ok (value, rest) ∧ IsTrivia rest := by
  constructor
  · intro h
    unfold parse at h
    split at h
    · cases h
    next found rest hread =>
    dsimp only at h
    split at h
    next hskip =>
      cases h
      exact ⟨rest, hread, skip_eq_nil_iff.mp (List.isEmpty_iff.mp hskip)⟩
    · cases h
  · rintro ⟨rest, hread, htrivia⟩
    rw [parse, hread]
    dsimp only
    rw [skip_eq_nil_iff.mpr htrivia, if_pos List.isEmpty_nil]

/-- A character that stands behind literals: an ASCII blank, a comma, a closing bracket or the mark
of a comment. -/
def isBoundary (c : Char) : Bool :=
  Text.isAsciiBlank c || c == ',' || c == ')' || c == ']' || c == '\x7d' || c == '#'

theorem endsToken_of_isBoundary {tail : List Char} (h : ∀ c ∈ tail.head?, isBoundary c = true) :
    EndsToken tail := by
  intro c hc
  have hboundary := h c hc
  simp only [isBoundary, Text.isAsciiBlank, Bool.or_eq_true, beq_iff_eq, or_assoc] at hboundary
  rcases hboundary with rfl | rfl | rfl | rfl | rfl | rfl | rfl | rfl | rfl | rfl <;> rfl

/-- A literal at the front of a text is a literal on its own, and is found with as many bytes
wherever a character stands behind it that ends literals. -/
theorem exists_used_of_parsePrefix {text : List Char} {value : Literal} {n : Nat}
    (h : parsePrefix text = .ok (value, n)) :
    ∃ used rest, text = used ++ rest ∧ byteLength used = n ∧ parse used = .ok value ∧
      ∀ tail, (∀ c ∈ tail.head?, isBoundary c = true) →
        parsePrefix (used ++ tail) = .ok (value, n) := by
  obtain ⟨used, rest, rfl, rfl, hread⟩ := Iff.mp parsePrefix_eq_ok_iff h
  obtain ⟨used', -, hsame, hreads⟩ := exists_used_of_readAt hread
  obtain rfl : used = used' := List.append_cancel_right hsame
  refine ⟨used, rest, rfl, rfl, ?_, fun tail htail => ?_⟩
  · refine Iff.mpr parse_eq_ok_iff ⟨[], ?_, .nil⟩
    have halone := @Reads.readAt _ _ [] _ hreads (Or.inr nofun)
    rwa [List.append_nil] at halone
  · exact Iff.mpr parsePrefix_eq_ok_iff
      ⟨used, tail, rfl, rfl, hreads.readAt (Or.inr (endsToken_of_isBoundary htail))⟩

/-- A text is a literal when one is found at the front of it and trivia makes up the rest. -/
theorem parse_eq_ok_iff_parsePrefix {text : List Char} {value : Literal} :
    parse text = .ok value ↔ ∃ used rest, text = used ++ rest ∧
      parsePrefix text = .ok (value, byteLength used) ∧ IsTrivia rest := by
  rw [parse_eq_ok_iff]
  constructor
  · rintro ⟨rest, hread, htrivia⟩
    obtain ⟨used, -, rfl, -⟩ := exists_used_of_readAt hread
    exact ⟨used, rest, rfl, Iff.mpr parsePrefix_eq_ok_iff ⟨used, rest, rfl, rfl, hread⟩, htrivia⟩
  · rintro ⟨used, rest, rfl, h, htrivia⟩
    obtain ⟨used', rest', hsame, hbytes, hread⟩ := Iff.mp parsePrefix_eq_ok_iff h
    obtain ⟨rfl, rfl⟩ := eq_of_append_eq hsame hbytes.symm
    exact ⟨rest, hread, htrivia⟩

end Storyboard.Literal
