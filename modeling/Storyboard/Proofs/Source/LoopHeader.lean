import Storyboard.Proofs.Literal.Scalar
import Storyboard.Proofs.Source.StringArgument
import Storyboard.Source.Bindings

/-!
# Headers of loops over listed scalars

A header `for v in [..]:` is read up to its first colon.  Where no text of the list holds a colon,
that is the one behind the list, and the loop runs over the items (`loopHeader?_listed`,
`iterableValues?_listed`).  Otherwise the list is cut off inside a text.  Each item before the cut is
read, and then a string that is never closed: what is left is no literal, and the loop runs over
nothing that is known (`iterableValues?_cutOff`).
-/

namespace Storyboard

namespace Literal

/-! ## Lists that are cut off -/

/-- Items with a comma and a blank behind each of them. -/
def leadingChars (items : List Literal) : List Char :=
  items.flatMap fun item => chars true item ++ [',', ' ']

theorem leadingChars_cons (item : Literal) (items : List Literal) :
    leadingChars (item :: items) = chars true item ++ ',' :: ' ' :: leadingChars items := by
  rw [leadingChars, List.flatMap_cons, List.append_assoc]
  rfl

/-- A string without its closing quote is not read. -/
theorem exists_quotedBody_error {quote : Char} {cs : List Char} (h : quote ∉ cs) :
    ∃ e, quotedBody quote cs = .error e := by
  cases hread : quotedBody quote cs with
  | error e => exact ⟨e, rfl⟩
  | ok read =>
    obtain ⟨body, rest⟩ := read
    obtain ⟨-, rfl⟩ := Source.isGuarded_of_quotedBody hread
    exact absurd (List.mem_append_right _ List.mem_cons_self) h

theorem exists_valueAt_error {cut : List Char} (h : '\'' ∉ cut) (fuel : Nat) :
    ∃ e, valueAt fuel ('\'' :: cut) = .error e := by
  cases fuel with
  | zero => exact ⟨_, rfl⟩
  | succ fuel =>
    obtain ⟨e, he⟩ := exists_quotedBody_error h
    refine ⟨e, ?_⟩
    show (quotedBody '\'' cut).map _ = _
    rw [he]
    rfl

theorem itemsAt_error {fuel : Nat} {comma : Bool} {cs : List Char} {e : Failure}
    (hopen : ((skip cs).head? == some ']') = false) (h : valueAt fuel (skip cs) = .error e) :
    itemsAt (fuel + 1) ']' comma cs = .error e := by
  rw [itemsAt]
  dsimp only
  rw [hopen, if_neg Bool.false_ne_true]
  generalize valueAt fuel (skip cs) = read at h ⊢
  subst h
  rfl

/-- There is no trivia before items and a string. -/
theorem skip_leadingChars {items : List Literal} (h : ∀ item ∈ items, item.isScalar = true)
    (cut : List Char) :
    skip (leadingChars items ++ '\'' :: cut) = leadingChars items ++ '\'' :: cut := by
  cases items with
  | nil => rfl
  | cons item items =>
    have hfree := isFloatFree_of_isScalar (List.forall_mem_cons.mp h).1
    rw [leadingChars_cons, List.append_assoc]
    exact skip_chars hfree _

/-- Items are read up to a string that is never closed. -/
theorem exists_itemsAt_error {items : List Literal} {cut : List Char}
    (hscalar : ∀ item ∈ items, item.isScalar = true)
    (hplain : ∀ item ∈ items, item.hasPlainTexts = true) (hcut : '\'' ∉ cut) (fuel : Nat)
    (comma : Bool) {cs : List Char} (hcs : skip cs = leadingChars items ++ '\'' :: cut) :
    ∃ e, itemsAt fuel ']' comma cs = .error e := by
  induction items generalizing fuel comma cs with
  | nil =>
    cases fuel with
    | zero => exact ⟨_, rfl⟩
    | succ fuel =>
      obtain ⟨e, he⟩ := exists_valueAt_error hcut fuel
      rw [leadingChars, List.flatMap_nil, List.nil_append] at hcs
      exact ⟨e, itemsAt_error (by rw [hcs]; rfl) (by rw [hcs]; exact he)⟩
  | cons item items ih =>
    obtain ⟨hitem, hitems⟩ := List.forall_mem_cons.mp hscalar
    obtain ⟨hitemPlain, hitemsPlain⟩ := List.forall_mem_cons.mp hplain
    have hfree := isFloatFree_of_isScalar hitem
    have hhead : skip cs = chars true item ++ ',' :: ' ' :: (leadingChars items ++ '\'' :: cut) := by
      rw [hcs, leadingChars_cons, List.append_assoc]
      rfl
    -- with fuel for one more step only, already the value of the item is not read
    match fuel with
    | 0 => exact ⟨_, rfl⟩
    | 1 =>
      refine ⟨_, itemsAt_error ?_ rfl⟩
      rw [hhead]
      exact head?_chars_ne hfree rfl _
    | fuel + 2 =>
      have hskip : skip (' ' :: (leadingChars items ++ '\'' :: cut)) =
          leadingChars items ++ '\'' :: cut := skip_leadingChars hitems cut
      obtain ⟨e, he⟩ := ih hitems hitemsPlain (fuel + 1) true hskip
      refine ⟨e, (itemsAt_of_readsBack (readsBack_of_isScalar hitem hitemPlain fuel) hfree
        (Or.inl rfl) comma hhead (endsWord_cons _ rfl)).trans ?_⟩
      show (itemsAt (fuel + 1) ']' true (' ' :: (leadingChars items ++ '\'' :: cut))).map _ = _
      rw [he]
      rfl

/-- A list of scalars that is cut off inside a text is no literal. -/
theorem parse?_cutOff {items : List Literal} {cut : List Char}
    (hscalar : ∀ item ∈ items, item.isScalar = true)
    (hplain : ∀ item ∈ items, item.hasPlainTexts = true) (hcut : '\'' ∉ cut) :
    parse? ('[' :: (leadingChars items ++ '\'' :: cut)) = Option.none := by
  obtain ⟨e, he⟩ := exists_itemsAt_error hscalar hplain hcut
    (2 * (leadingChars items ++ '\'' :: cut).length + 3) false (skip_leadingChars hscalar cut)
  have hread : readAt ('[' :: (leadingChars items ++ '\'' :: cut)) =
      (itemsAt (2 * (leadingChars items ++ '\'' :: cut).length + 3) ']' false
        (leadingChars items ++ '\'' :: cut)).map fun read => (.list read.1, read.2.2) := rfl
  rw [parse?, parse, hread, he]
  rfl

/-- The first text that holds the character cuts the items off there. -/
theorem exists_cut_joinedChars {c : Char} (hbare : isBare c = false)
    (hmarks : c ∉ ['\'', ',', ' ']) {values : List Literal}
    (hscalar : ∀ value ∈ values, value.isScalar = true)
    (hplain : ∀ value ∈ values, value.hasPlainTexts = true) {s : String}
    (hs : .text s ∈ values) (hc : c ∈ s.toList) :
    ∃ items cut rest, items <+: values ∧ '\'' ∉ cut ∧ c ∉ leadingChars items ∧ c ∉ cut ∧
      joinedChars values = leadingChars items ++ '\'' :: cut ++ c :: rest := by
  simp only [List.mem_cons, List.not_mem_nil, or_false, not_or] at hmarks
  obtain ⟨hquote, hcomma, hblank⟩ := hmarks
  induction values with
  | nil => exact absurd hs List.not_mem_nil
  | cons value values ih =>
    obtain ⟨hvalue, hvalues⟩ := List.forall_mem_cons.mp hscalar
    obtain ⟨hvaluePlain, hvaluesPlain⟩ := List.forall_mem_cons.mp hplain
    by_cases hhere : ∃ t, value = .text t ∧ c ∈ t.toList
    · obtain ⟨t, rfl, ht⟩ := hhere
      -- this is the text; it is cut where the character first stands
      obtain ⟨cut, behind, hcut, hfirst⟩ := List.eq_append_cons_of_mem ht
      have hclosed : '\'' ∉ t.toList := by
        intro hmem
        have hplainChar := List.all_eq_true.mp hvaluePlain _ hmem
        exact absurd hplainChar (by decide)
      rw [hcut, List.mem_append, not_or] at hclosed
      refine ⟨[], cut, behind ++ ['\''] ++ itemsChars values, List.nil_prefix, hclosed.1,
        List.not_mem_nil, hfirst, ?_⟩
      rw [joinedChars, chars, if_pos rfl, hcut]
      simp [leadingChars]
    · have hother : c ∉ chars true value := not_mem_chars hbare hquote hvalue fun t ht hmem =>
        hhere ⟨t, ht, hmem⟩
      have hrest : .text s ∈ values := by
        rcases List.mem_cons.mp hs with rfl | hs
        · exact absurd ⟨s, rfl, hc⟩ hhere
        · exact hs
      obtain ⟨items, cut, rest, hfront, hclosed, hitems, hfirst, hjoined⟩ :=
        ih hvalues hvaluesPlain hrest
      refine ⟨value :: items, cut, rest, List.cons_prefix_cons.mpr ⟨rfl, hfront⟩, hclosed, ?_,
        hfirst, ?_⟩
      · rw [leadingChars_cons, List.mem_append, List.mem_cons, List.mem_cons, not_or, not_or, not_or]
        exact ⟨hother, hcomma, hblank, hitems⟩
      · obtain ⟨next, values, rfl⟩ := List.exists_cons_of_ne_nil (List.ne_nil_of_mem hrest)
        rw [joinedChars, itemsChars_cons, hjoined, leadingChars_cons]
        simp

/-- Scalars with plain texts are read back from their list. -/
theorem parse?_list {values : List Literal} (hscalar : ∀ value ∈ values, value.isScalar = true)
    (hplain : ∀ value ∈ values, value.hasPlainTexts = true) :
    parse? (chars true (.list values)) = some (.list values) := by
  have hread := parse_nested (.list values) (areFloatFree_of_isScalar hscalar)
    (havePlainTexts_of_forall hplain)
  rw [nested, String.toList_ofList] at hread
  rw [parse?, hread]
  rfl

end Literal

namespace Source

open Literal (chars leadingChars)

/-! ## Reading the header -/

theorem trimEnd_append_cons {a b : List Char} {c : Char} (h : Text.isBlank c = false) :
    Text.trimEnd (a ++ c :: b) = a ++ c :: Text.trimEnd b := by
  unfold Text.trimEnd Text.dropEndWhile
  rw [List.reverse_append, List.reverse_cons, List.append_assoc, List.singleton_append,
    List.dropWhile_append]
  split
  next hnil =>
    rw [List.isEmpty_iff.mp hnil, List.dropWhile_cons_of_neg (by simp [h])]
    simp
  next => simp

theorem trimEnd_eq_nil {cs : List Char} (h : ∀ c ∈ cs, Text.isBlank c = true) :
    Text.trimEnd cs = [] := by
  have hback : ∀ c ∈ cs.reverse, Text.isBlank c = true := by simpa using h
  rw [Text.trimEnd, Text.dropEndWhile, List.dropWhile_eq_nil_iff.mpr hback, List.reverse_nil]

/-- The first colon is not reached by passing over blanks when something else stands before it. -/
theorem blanksThen?_eq_none_of_content {cs : List Char} (h : ':' ∉ cs)
    (hcontent : ∃ c ∈ cs, Text.isBlank c = false) (rest : List Char) :
    Text.blanksThen? ':' (cs ++ ':' :: rest) = none := by
  rw [Option.eq_none_iff_forall_ne_some]
  intro behind hbehind
  obtain ⟨blanks, hblanks, hcs⟩ := (Text.blanksThen?_eq_some_iff rfl).mp hbehind
  have hcolon : ':' ∉ blanks := Text.not_mem_run rfl hblanks
  obtain ⟨c, hc, hcontent⟩ := hcontent
  rcases cut_cases hcs hcolon with ⟨rfl, -⟩ | ⟨more, rfl, -⟩
  · rw [hblanks c hc] at hcontent
    exact absurd hcontent Bool.noConfusion
  · exact h (List.mem_append_right _ List.mem_cons_self)

/-- What stands before the first colon, without the blanks at its end. -/
theorem upToColon?_append {front : List Char} (h : ':' ∉ front)
    (hcontent : ∃ c ∈ front, Text.isBlank c = false) (rest : List Char) :
    upToColon? (front ++ ':' :: rest) = some (Text.trimEnd front) := by
  induction front with
  | nil =>
    obtain ⟨c, hc, -⟩ := hcontent
    exact absurd hc List.not_mem_nil
  | cons c cs ih =>
    rw [List.mem_cons, not_or] at h
    rw [List.cons_append, upToColon?]
    -- the search goes on while a character that is no blank is to come
    by_cases hlater : ∃ d ∈ cs, Text.isBlank d = false
    · rw [blanksThen?_eq_none_of_content h.2 hlater, Option.isSome_none, if_neg Bool.false_ne_true, ih h.2 hlater, Option.map_some]
      obtain ⟨d, hd, hd'⟩ := hlater
      obtain ⟨a, b, rfl⟩ := List.append_of_mem hd
      have hwhole : Text.trimEnd (c :: (a ++ d :: b)) = c :: (a ++ d :: Text.trimEnd b) :=
        trimEnd_append_cons (a := c :: a) hd'
      rw [trimEnd_append_cons hd', hwhole]
    · have hblanks : ∀ d ∈ cs, Text.isBlank d = true := by
        intro d hd
        rw [← Bool.not_eq_false]
        exact fun hcontent => hlater ⟨d, hd, hcontent⟩
      have hc : Text.isBlank c = false := by
        obtain ⟨d, hd, hcontent⟩ := hcontent
        rcases List.mem_cons.mp hd with rfl | hd
        · exact hcontent
        · exact absurd ⟨d, hd, hcontent⟩ hlater
      have hnear : Text.blanksThen? ':' (cs ++ ':' :: rest) = some rest :=
        (Text.blanksThen?_eq_some_iff rfl).mpr ⟨cs, hblanks, rfl⟩
      have htrim := trimEnd_append_cons (a := []) (b := cs) hc
      rw [hnear, Option.isSome_some, if_pos rfl, ← List.nil_append (c :: cs), htrim,
        trimEnd_eq_nil hblanks]
      rfl

/-- A loop over a list by a variable of one letter. -/
def listedHeader (values : List Literal) : List Char :=
  ['f', 'o', 'r', ' ', 'v', ' ', 'i', 'n', ' '] ++ chars true (.list values) ++ [':']

variable {values : List Literal}

theorem loopHeader?_of_upToColon? {cs iterable : List Char}
    (h : upToColon? ('[' :: cs) = some iterable) :
    loopHeader? (['f', 'o', 'r', ' ', 'v', ' ', 'i', 'n', ' '] ++ '[' :: cs) =
      some (['v'], iterable) := by
  have hheader : loopHeader? (['f', 'o', 'r', ' ', 'v', ' ', 'i', 'n', ' '] ++ '[' :: cs) =
      ((upToColon? ('[' :: cs)).orElse fun _ => none).bind fun iterable =>
        some (['v'], iterable) := rfl
  rw [hheader, h]
  rfl

/-- Where no text of the list holds a colon, the loop runs over the whole list. -/
theorem loopHeader?_listed (hscalar : ∀ value ∈ values, value.isScalar = true)
    (hcolon : ∀ s, .text s ∈ values → ':' ∉ s.toList) :
    loopHeader? (listedHeader values) = some (['v'], chars true (.list values)) := by
  have hnone : ':' ∉ chars true (.list values) :=
    Literal.not_mem_chars_list rfl (by decide) hscalar hcolon
  have hend : Text.trimEnd (chars true (.list values)) = chars true (.list values) := by
    rw [Literal.chars_list, ← List.cons_append]
    exact trimEnd_append_cons rfl
  have hlist := upToColon?_append hnone ⟨'[', by rw [Literal.chars_list]; exact List.mem_cons_self, rfl⟩ []
  rw [hend, Literal.chars_list] at hlist
  rw [listedHeader, List.append_assoc, Literal.chars_list]
  exact loopHeader?_of_upToColon? hlist

/-- The loop over a list of scalars runs over its first values. -/
theorem iterableValues?_listed (hscalar : ∀ value ∈ values, value.isScalar = true)
    (hplain : ∀ value ∈ values, value.hasPlainTexts = true)
    (constants : List (List Char × Literal)) :
    iterableValues? constants (chars true (.list values)) = some (values.take maxLoopValues) := by
  have hknown : known? constants (chars true (.list values)) = some (.list values) := by
    rw [known?, Literal.parse?_list hscalar hplain]
    rfl
  have htrim : Text.trim (chars true (.list values)) = chars true (.list values) := by
    apply Text.trim_of_isTrimmed
    have harg : IsArgument (chars true (.list values)) :=
      isArgument_chars (Literal.areFloatFree_of_isScalar hscalar)
        (Literal.havePlainTexts_of_forall hplain)
    exact harg.trimmed
  have hrange : rangeArguments? (chars true (.list values)) = none := by
    rw [Literal.chars_list]
    rfl
  unfold iterableValues?
  dsimp only
  rw [htrim, hrange]
  dsimp only
  rw [hknown]
  rfl

theorem mem_of_mem_trimEnd {c : Char} {cs : List Char} (h : c ∈ Text.trimEnd cs) : c ∈ cs := by
  rw [Text.trimEnd, Text.dropEndWhile, List.mem_reverse] at h
  exact List.mem_reverse.mp ((List.dropWhile_sublist _).mem h)

/-- Where a text of the list holds a colon, the loop runs over nothing that is known. -/
theorem exists_loopHeader?_cutOff (hscalar : ∀ value ∈ values, value.isScalar = true)
    (hplain : ∀ value ∈ values, value.hasPlainTexts = true) {s : String}
    (hs : .text s ∈ values) (hcolon : ':' ∈ s.toList) :
    ∃ iterable, loopHeader? (listedHeader values) = some (['v'], iterable) ∧
      iterableValues? [] iterable = none := by
  obtain ⟨items, cut, rest, hfront, hclosed, hitems, hfirst, hjoined⟩ :=
    Literal.exists_cut_joinedChars rfl (by decide) hscalar hplain hs hcolon
  have hlist : chars true (.list values) ++ [':'] =
      ('[' :: leadingChars items) ++ '\'' :: cut ++ ':' :: (rest ++ [']', ':']) := by
    rw [Literal.chars_list, hjoined]
    simp
  have hnone : ':' ∉ ('[' :: leadingChars items) ++ '\'' :: cut := by
    simp [hitems, hfirst]
  have hiterable := upToColon?_append hnone ⟨'\'', by simp, rfl⟩ (rest ++ [']', ':'])
  rw [trimEnd_append_cons rfl] at hiterable
  refine ⟨('[' :: leadingChars items) ++ '\'' :: Text.trimEnd cut, ?_, ?_⟩
  · rw [listedHeader, List.append_assoc, hlist]
    exact loopHeader?_of_upToColon? hiterable
  · have htrim : Text.trim (('[' :: leadingChars items) ++ '\'' :: Text.trimEnd cut) =
        ('[' :: leadingChars items) ++ '\'' :: Text.trimEnd (Text.trimEnd cut) := by
      show Text.trimEnd (('[' :: leadingChars items) ++ '\'' :: Text.trimEnd cut) = _
      exact trimEnd_append_cons rfl
    -- what is taken for the list ends within a string
    have hopen : '\'' ∉ Text.trimEnd (Text.trimEnd cut) := fun hmem =>
      hclosed (mem_of_mem_trimEnd (mem_of_mem_trimEnd hmem))
    have hparse := Literal.parse?_cutOff (fun item hitem => hscalar item (hfront.mem hitem))
      (fun item hitem => hplain item (hfront.mem hitem)) hopen
    have hrange : rangeArguments? (('[' :: leadingChars items) ++
        '\'' :: Text.trimEnd (Text.trimEnd cut)) = none := rfl
    unfold iterableValues?
    dsimp only
    rw [htrim, hrange]
    dsimp only
    rw [known?, List.cons_append, hparse]
    rfl

end Source

end Storyboard
