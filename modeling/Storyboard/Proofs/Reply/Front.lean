import Storyboard.Proofs.Reply.CleanCut

/-!
# The front of an object

The front of a text is closed by the brackets that it lacks (`closeUp`).  Of an object that is cut
anywhere, nothing can be read but an object that ends where the closed front does (`rest_of_front`):
the brackets behind it are left over for what is open around it.  So out of an array of objects the
items before the cut are read as they are, and one more (`valueAt_array_front`), and out of a key
that is cut no member is read (`membersAt_key_front`).
-/

namespace Storyboard.Reply

open Json Nesting

/-! ## Closing brackets -/

/-- Closes an array or an object. -/
def IsBracket (c : Char) : Prop := c = '\x7d' ∨ c = ']'

/-- What the scanner says of any text: only brackets are lacking, and only a string has escapes. -/
structure Nesting.Sound (n : Nesting) : Prop where
  closers : ∀ c ∈ n.closers, IsBracket c
  escaped : n.escaped = true → n.inString = true

theorem Nesting.Sound.after {n : Nesting} (h : n.Sound) (c : Char) : (n.after c).Sound := by
  have hcons {close : Char} (hclose : IsBracket close) :
      ∀ c ∈ close :: n.closers, IsBracket c := List.forall_mem_cons.mpr ⟨hclose, h.closers⟩
  unfold Nesting.after
  split_ifs with hstring
  · exact ⟨h.closers, fun hfalse => by cases hfalse⟩
  · exact ⟨h.closers, fun _ => hstring⟩
  · exact ⟨h.closers, fun hescaped => absurd hescaped ‹_›⟩
  · exact h
  · exact ⟨h.closers, fun _ => rfl⟩
  · exact ⟨hcons (Or.inl rfl), h.escaped⟩
  · exact ⟨hcons (Or.inr rfl), h.escaped⟩
  · exact ⟨fun c hc => h.closers c (List.mem_of_mem_tail hc), h.escaped⟩
  · exact h

theorem Nesting.Sound.foldl {n : Nesting} (h : n.Sound) (text : List Char) :
    (text.foldl Nesting.after n).Sound := by
  induction text generalizing n with
  | nil => exact h
  | cons c cs ih => exact ih (h.after c)

theorem sound_outside {outer : List Char} (h : ∀ c ∈ outer, IsBracket c) : (outside outer).Sound :=
  ⟨h, fun hfalse => by cases hfalse⟩

/-- Outside of strings a bracket closes the innermost open one. -/
theorem after_bracket {c : Char} (h : IsBracket c) (rest : List Char) :
    (outside (c :: rest)).after c = outside rest := by
  obtain rfl | rfl := h <;> rfl

/-- Inside of a string a bracket closes nothing. -/
theorem foldl_inside {brackets : List Char} (h : ∀ c ∈ brackets, IsBracket c)
    (closers : List Char) : brackets.foldl Nesting.after (inside closers) = inside closers := by
  induction brackets with
  | nil => rfl
  | cons c cs ih =>
    obtain ⟨hc, hcs⟩ := List.forall_mem_cons.mp h
    have hafter : (inside closers).after c = inside closers := by
      refine after_inside ?_ ?_ closers <;> rintro rfl <;> obtain hc | hc := hc <;> cases hc
    rw [List.foldl_cons, hafter]
    exact ih hcs

/-- The brackets that are lacking close one after the other. -/
theorem foldl_closers {closers front : List Char} (h : ∀ c ∈ closers, IsBracket c)
    (hfront : front <+: closers) :
    front.foldl Nesting.after (outside closers) = outside (closers.drop front.length) := by
  induction front generalizing closers with
  | nil => rfl
  | cons c cs ih =>
    obtain ⟨rest, rfl⟩ := hfront
    rw [List.cons_append] at h ⊢
    obtain ⟨hc, hrest⟩ := List.forall_mem_cons.mp h
    rw [List.foldl_cons, after_bracket hc, ih hrest (List.prefix_append _ _)]
    rfl

/-! ## Texts that are closed -/

/-- The text with the quote and the brackets that it lacks, `outer` being open before it. -/
def closeUp (outer text : List Char) : List Char :=
  text ++ (text.foldl Nesting.after (outside outer)).lacking

section CloseUp

variable {outer text lead front : List Char}

theorem closeUp_nil (outer : List Char) : closeUp outer [] = outer := rfl

/-- What stands complete in front stays in front. -/
theorem closeUp_append (h : Keeps lead) :
    closeUp outer (lead ++ text) = lead ++ closeUp outer text := by
  rw [closeUp, List.foldl_append, (h outer).whole, List.append_assoc]
  rfl

/-- What stands complete lacks only what is open around it. -/
theorem closeUp_eq_append (h : Keeps lead) : closeUp outer lead = lead ++ outer := by
  have hclosed : closeUp outer (lead ++ []) = lead ++ closeUp outer [] := closeUp_append h
  rwa [List.append_nil, closeUp_nil] at hclosed

theorem closeUp_cons {c : Char} {outer' : List Char}
    (h : (outside outer).after c = outside outer') :
    closeUp outer (c :: text) = c :: closeUp outer' text := by
  rw [closeUp, List.foldl_cons, h]
  rfl

/-- A blank or a comma ends an escape at most. -/
theorem Nesting.Sound.after_of_not_closing {n : Nesting} (h : n.Sound) {c : Char}
    (hc : isClosing c = false) : n.after c = { n with escaped := false } := by
  have hplain : ∀ d, isClosing d = true → (c == d) = false := by
    intro d hd
    rw [beq_eq_false_iff_ne]
    rintro rfl
    rw [hc] at hd
    cases hd
  obtain ⟨closers, inString, escaped⟩ := n
  have hescaped := h.escaped
  cases inString <;> cases escaped <;>
    simp_all [Nesting.after, hplain '"' rfl, hplain '\\' rfl, hplain '\x7b' rfl,
      hplain '[' rfl, hplain '\x7d' rfl, hplain ']' rfl]

/-- A text of blanks and commas lacks nothing of its own. -/
theorem Nesting.Sound.lacking_foldl {n : Nesting} (h : n.Sound) {back : List Char}
    (hback : ∀ c ∈ back, isClosing c = false) : (back.foldl Nesting.after n).lacking = n.lacking := by
  induction back generalizing n with
  | nil => rfl
  | cons c cs ih =>
    obtain ⟨hc, hcs⟩ := List.forall_mem_cons.mp hback
    rw [List.foldl_cons, ih (h.after c) hcs, h.after_of_not_closing hc]
    rfl

/-- What is taken off the end of a text lacks nothing, so it is balanced by closing what is left. -/
theorem balance_eq_closeUp (text : List Char) : balance text = closeUp [] (mend text) := by
  obtain ⟨back, htext, hback⟩ := exists_mend text
  have hsound := (sound_outside (List.forall_mem_nil _)).foldl (mend text)
  have hlacking := hsound.lacking_foldl hback
  rw [← List.foldl_append, ← htext] at hlacking
  exact congrArg _ hlacking

/-! ## The front of an object -/

/-- The nesting with further brackets open around it. -/
def Nesting.within (n : Nesting) (outer : List Char) : Nesting :=
  { n with closers := n.closers ++ outer }

theorem Nesting.after_within {n : Nesting} {c : Char} (outer : List Char)
    (h : n.closers ≠ [] ∨ c = '\x7b') : (n.within outer).after c = (n.after c).within outer := by
  obtain ⟨closers, inString, escaped⟩ := n
  have htail : (c == '\x7d' || c == ']') = true →
      (closers ++ outer).tail = closers.tail ++ outer := by
    intro hc
    refine List.tail_append_of_ne_nil (h.resolve_right ?_)
    rintro rfl
    cases hc
  unfold Nesting.within Nesting.after
  dsimp only
  split_ifs with _ _ _ _ _ _ _ hc <;> first | rfl | rw [htail hc]

/-- Before its end, an object closes no bracket that is open around it. -/
theorem foldl_within (h : Closes text) (hstart : text.head? = some '\x7b') (hfront : front <+: text)
    (outer : List Char) : front.foldl Nesting.after (outside outer) =
      (front.foldl Nesting.after {}).within outer := by
  induction front using List.reverseRecOn with
  | nil => rfl
  | append_singleton front c ih =>
    have hprefix : front <+: text := (List.prefix_append front [c]).trans hfront
    rw [List.foldl_append, List.foldl_append, ih hprefix]
    refine Nesting.after_within outer ?_
    rcases List.eq_nil_or_concat' front with rfl | ⟨init, d, rfl⟩
    · obtain ⟨rest, rfl⟩ := hfront
      exact Or.inr (Option.some.inj hstart)
    · refine Or.inl (h.within _ hprefix (by simp) ?_)
      rintro rfl
      have hlength := hfront.length_le
      simp at hlength

/-- The front of an object is closed within what is open around it. -/
theorem closeUp_front (h : Closes text) (hstart : text.head? = some '\x7b')
    (hfront : front <+: text) (outer : List Char) :
    closeUp outer front = closeUp [] front ++ outer := by
  rw [closeUp, closeUp, foldl_within h hstart hfront, List.append_assoc]
  show front ++ lacking _ = front ++ (lacking _ ++ outer)
  rw [lacking, lacking, List.append_assoc]
  rfl

/-- What is lacking leads out of all brackets, and not before its end. -/
theorem Nesting.Sound.foldl_lacking {n : Nesting} (h : n.Sound) (hescaped : n.escaped = false)
    {front : List Char} (hfront : front <+: n.lacking) :
    (front = n.lacking → front.foldl Nesting.after n = {}) ∧
      (front ≠ n.lacking → n.closers ≠ [] → (front.foldl Nesting.after n).closers ≠ []) := by
  obtain ⟨closers, inString, escaped⟩ := n
  dsimp only at hescaped
  subst hescaped
  have hbrackets : ∀ {front}, front <+: closers →
      (front = closers → front.foldl Nesting.after (outside closers) = {}) ∧
        (front ≠ closers → (front.foldl Nesting.after (outside closers)).closers ≠ []) := by
    intro front hfront
    rw [foldl_closers h.closers hfront]
    refine ⟨fun heq => by rw [heq, List.drop_length], fun hne hnil => hne ?_⟩
    exact hfront.eq_of_length_le (List.drop_eq_nil_iff.mp hnil)
  cases inString with
  | false => exact ⟨(hbrackets hfront).1, fun hne _ => (hbrackets hfront).2 hne⟩
  | true =>
    rcases List.prefix_cons_iff.mp hfront with rfl | ⟨rest, rfl, hrest⟩
    · exact ⟨fun heq => absurd heq.symm (List.cons_ne_nil _ _), fun _ hopen => hopen⟩
    · refine ⟨fun heq => (hbrackets hrest).1 (List.cons.inj heq).2, fun hne _ => ?_⟩
      exact (hbrackets hrest).2 fun heq => hne (congrArg ('"' :: ·) heq)

theorem ne_of_prefix_of_ne {a b text : List Char} (ha : a <+: b) (hb : b <+: text)
    (hne : b ≠ text) : a ≠ text := by
  rintro rfl
  exact hne (hb.eq_of_length_le ha.length_le)

/-- The front of an object is closed to what closes, unless an escape is cut off. -/
theorem closes_closeUp (h : Closes text) (hfront : front <+: text) (hne : front ≠ [])
    (hproper : front ≠ text) (hescaped : (front.foldl Nesting.after {}).escaped = false) :
    Closes (closeUp [] front) := by
  have hsound := (sound_outside (List.forall_mem_nil _)).foldl front
  constructor
  · rw [closeUp, List.foldl_append]
    exact (hsound.foldl_lacking hescaped List.prefix_rfl).1 rfl
  · intro part hpart hpartne hpartproper
    obtain hin | ⟨rest, rfl, hrest⟩ := prefix_append_cases hpart
    · exact h.within part (hin.trans hfront) hpartne (ne_of_prefix_of_ne hin hfront hproper)
    · rw [List.foldl_append]
      refine (hsound.foldl_lacking hescaped hrest).2 ?_ (h.within front hfront hne hproper)
      rintro rfl
      exact hpartproper rfl

/-- Where an escape is cut off, the string goes on to the end, and nothing closes. -/
theorem not_closes_of_escaped (h : Closes text) (hfront : front <+: text)
    (hproper : front ≠ text) (hescaped : (front.foldl Nesting.after {}).escaped = true)
    {brackets part : List Char} (hbrackets : ∀ c ∈ brackets, IsBracket c)
    (hpart : part <+: front ++ '"' :: brackets) (hpartne : part ≠ []) : ¬ Closes part := by
  intro hcloses
  have hstop := hcloses.whole
  obtain hin | ⟨others, rfl, hothers⟩ := prefix_append_cons_cases hpart
  · have hwithin := h.within part (hin.trans hfront) hpartne (ne_of_prefix_of_ne hin hfront hproper)
    rw [hstop] at hwithin
    exact hwithin rfl
  · have hstring := ((sound_outside (List.forall_mem_nil _)).foldl front).escaped hescaped
    rw [List.foldl_append] at hstop
    generalize front.foldl Nesting.after {} = n at hstop hescaped hstring
    obtain ⟨closers, inString, escaped⟩ := n
    dsimp only at hescaped hstring
    subst hescaped hstring
    have hinside : others.foldl Nesting.after (inside closers) = {} := hstop
    rw [foldl_inside fun c hc => hbrackets c (hothers.subset hc)] at hinside
    cases congrArg Nesting.inString hinside

/-- The text of an object starts with its brace. -/
theorem head?_of_isText {trees : List (List Piece × Tree)} (h : IsText (.object trees) text) :
    text.head? = some '\x7b' := by
  cases h with
  | noMembers blank => rfl
  | object texts blank => rfl

/-- What is read from a brace is an object, from the brace on. -/
theorem exists_closes_of_valueAt {fuel : Nat} {tree : Tree} {rest : List Char}
    (hstart : text.head? = some '\x7b') (h : valueAt fuel text = some (tree, rest)) :
    ∃ part, text = part ++ rest ∧ Closes part ∧ part ≠ [] := by
  obtain ⟨gap, part, hgap, hpart, rfl⟩ := valueAt_sound fuel h
  cases gap with
  | cons c cs =>
    obtain rfl : c = '\x7b' := Option.some.inj hstart
    exact absurd (hgap '\x7b' List.mem_cons_self) (by decide)
  | nil =>
    obtain ⟨c, cs, rfl⟩ := List.exists_cons_of_ne_nil hpart.ne_nil
    obtain rfl : c = '\x7b' := Option.some.inj hstart
    obtain ⟨members, rfl⟩ := exists_object_of_isText hpart
    exact ⟨_, rfl, closes_object hpart, List.cons_ne_nil _ _⟩

theorem endsValue_brackets (h : ∀ c ∈ outer, IsBracket c) : EndsValue outer := by
  intro c hc
  obtain rfl | rfl := h c (List.mem_of_mem_head? hc) <;> rfl

/-- Nothing can be read out of the brackets behind the front of an object. -/
theorem rest_of_front {trees : List (List Piece × Tree)} (h : IsText (.object trees) text)
    (hfront : front <+: text) (hne : front ≠ []) (houter : ∀ c ∈ outer, IsBracket c) {fuel : Nat}
    {tree : Tree} {rest : List Char}
    (hread : valueAt fuel (closeUp outer front) = some (tree, rest)) : rest = outer := by
  by_cases hproper : front = text
  · subst hproper
    rw [closeUp_eq_append (keeps_text h)] at hread
    exact (h.eq_of_valueAt isGap_nil (endsValue_brackets houter) hread).2
  · have hcloses := closes_object h
    have hstart := head?_of_isText h
    have hhead : (closeUp outer front).head? = some '\x7b' := by
      obtain ⟨c, cs, rfl⟩ := List.exists_cons_of_ne_nil hne
      obtain ⟨rest, rfl⟩ := hfront
      exact hstart
    obtain ⟨part, hparts, hpart, hpartne⟩ := exists_closes_of_valueAt hhead hread
    -- after a backslash at the cut, the quote that closes the string is taken for an escaped one
    cases hescaped : (front.foldl Nesting.after {}).escaped with
    | false =>
      have hclosed := closes_closeUp hcloses hfront hne hproper hescaped
      rw [closeUp_front hcloses hstart hfront] at hparts
      have heq : part = closeUp [] front := by
        refine hpart.eq_of_prefix hclosed hpartne ?_ (List.prefix_append part rest) ?_
        · exact List.append_ne_nil_of_left_ne_nil hne _
        · exact ⟨outer, hparts⟩
      rw [heq] at hparts
      exact (List.append_cancel_left hparts).symm
    | true =>
      have hsound := (sound_outside (List.forall_mem_nil _)).foldl front
      have hbrackets : ∀ c ∈ (front.foldl Nesting.after {}).closers ++ outer, IsBracket c :=
        List.forall_mem_append.mpr ⟨hsound.closers, houter⟩
      have htext : closeUp outer front =
          front ++ '"' :: ((front.foldl Nesting.after {}).closers ++ outer) := by
        rw [closeUp, foldl_within hcloses hstart hfront]
        show front ++ ((if (front.foldl Nesting.after {}).inString then ['"'] else []) ++ _) = _
        rw [if_pos (hsound.escaped hescaped)]
        rfl
      rw [htext] at hparts
      exact absurd hpart (not_closes_of_escaped hcloses hfront hproper hescaped hbrackets
        ⟨rest, hparts.symm⟩ hpartne)

/-! ## The front of an array of objects -/

/-- Out of an item that is cut, one item is read. -/
theorem itemsAt_front {trees : List (List Piece × Tree)} (h : IsText (.object trees) text)
    (hfront : front <+: text) (hne : front ≠ []) (houter : ∀ c ∈ outer, IsBracket c) {fuel : Nat}
    {items : List Tree} {stop : List Char}
    (hread : itemsAt fuel (closeUp (']' :: outer) front) = some (items, stop)) :
    stop = outer ∧ ∃ item, items = [item] := by
  obtain ⟨less, item, after, rfl, hitem, hafter⟩ := itemsAt_cases hread
  have hbrackets : ∀ c ∈ ']' :: outer, IsBracket c := List.forall_mem_cons.mpr ⟨Or.inr rfl, houter⟩
  obtain rfl := rest_of_front h hfront hne hbrackets hitem
  rw [skip_cons rfl] at hafter
  obtain ⟨hstop, rfl⟩ | ⟨_, _, hnext, -, -⟩ := hafter
  · exact ⟨(List.cons.inj hstop).2.symm, item, rfl⟩
  · cases hnext

/-- The value is an object. -/
def IsObject (value : Json) : Prop := ∃ members, value = .obj members

theorem IsObject.isText {value : Json} (h : IsObject value) :
    ∃ trees, treeOf value = .object trees ∧ IsText (.object trees) (compactChars value) := by
  obtain ⟨members, rfl⟩ := h
  exact ⟨_, rfl, (writes_compact (.obj members)).isText⟩

/-- The trees are those of the first values, but for the last one, and no more than the values. -/
def FitsFront (trees : List Tree) (values : List Json) : Prop :=
  trees.dropLast <+: treesOf values ∧ trees.length ≤ values.length

theorem length_treesOf (values : List Json) : (treesOf values).length = values.length := by
  induction values with
  | nil => rfl
  | cons value rest ih => rw [treesOf, List.length_cons, List.length_cons, ih]

theorem fitsFront_treesOf (values : List Json) : FitsFront (treesOf values) values :=
  ⟨List.dropLast_prefix _, (length_treesOf values).le⟩

theorem FitsFront.cons {trees : List Tree} {values : List Json} (h : FitsFront trees values)
    (value : Json) : FitsFront (treeOf value :: trees) (value :: values) := by
  obtain ⟨hfirst, hlength⟩ := h
  refine ⟨?_, Nat.succ_le_succ hlength⟩
  rw [treesOf]
  cases trees with
  | nil => exact List.nil_prefix
  | cons tree trees => exact (List.prefix_cons_inj _).mpr hfirst

/-- Out of an array that is cut in its first item, one item is read. -/
theorem itemsAt_closeUp_first {value : Json} (hvalue : IsObject value) (rest : List Json)
    {front : List Char} (hfront : front <+: compactChars value) (hne : front ≠ [])
    (houter : ∀ c ∈ outer, IsBracket c) {fuel : Nat} {items : List Tree} {stop : List Char}
    (hread : itemsAt fuel (closeUp (']' :: outer) front) = some (items, stop)) :
    stop = outer ∧ FitsFront items (value :: rest) := by
  obtain ⟨trees, -, htext⟩ := hvalue.isText
  obtain ⟨hstop, item, rfl⟩ := itemsAt_front htext hfront hne houter hread
  exact ⟨hstop, List.nil_prefix, by simp⟩

/-- Out of an array that is cut, the items before the cut are read as they are, and one more. -/
theorem itemsAt_closeUp {values : List Json} (hvalues : ∀ value ∈ values, IsObject value)
    {front : List Char} (hfront : front <+: compactItems values) (hne : front ≠ [])
    (houter : ∀ c ∈ outer, IsBracket c) {fuel : Nat} {items : List Tree} {stop : List Char}
    (hread : itemsAt fuel (closeUp (']' :: outer) front) = some (items, stop)) :
    stop = outer ∧ FitsFront items values := by
  induction values generalizing front fuel items with
  | nil => exact absurd (List.prefix_nil.mp hfront) hne
  | cons value rest ih =>
    obtain ⟨hvalue, hrest⟩ := List.forall_mem_cons.mp hvalues
    obtain ⟨trees, htree, htext⟩ := hvalue.isText
    cases rest with
    | nil =>
      rw [compactItems] at hfront
      exact itemsAt_closeUp_first hvalue [] hfront hne houter hread
    | cons next rest =>
      have hitems : compactItems (value :: next :: rest) =
          compactChars value ++ ',' :: compactItems (next :: rest) := by
        rw [compactItems]
        exact List.cons_ne_nil _ _
      rw [hitems] at hfront
      -- the cut falls into the first item, or behind its comma
      obtain hin | ⟨others, rfl, hothers⟩ := prefix_append_cons_cases hfront
      · exact itemsAt_closeUp_first hvalue _ hin hne houter hread
      · rw [closeUp_append (keeps_text htext), closeUp_cons (after_of_isNeutral rfl _)] at hread
        obtain ⟨less, item, after, rfl, hitem, hafter⟩ := itemsAt_cases hread
        have hends : EndsValue (',' :: closeUp (']' :: outer) others) := endsValue_comma isGap_nil _
        obtain ⟨rfl, rfl⟩ := htext.eq_of_valueAt isGap_nil hends hitem
        rw [skip_cons rfl] at hafter
        obtain ⟨hclose, -⟩ | ⟨cs, trees', hnext, htrees, rfl⟩ := hafter
        · cases hclose
        · obtain ⟨-, rfl⟩ := List.cons.inj hnext
          by_cases hnil : others = []
          · rw [hnil, closeUp_nil, itemsAt_bracket] at htrees
            cases htrees
          · obtain ⟨hstop, hfits⟩ := ih hrest hothers hnil htrees
            exact ⟨hstop, htree ▸ hfits.cons value⟩

theorem head?_compactItems {values : List Json} (hvalues : ∀ value ∈ values, IsObject value)
    (hne : compactItems values ≠ []) : (compactItems values).head? = some '\x7b' := by
  cases values with
  | nil => exact absurd rfl hne
  | cons value rest =>
    obtain ⟨⟨members, rfl⟩, -⟩ := List.forall_mem_cons.mp hvalues
    cases rest with
    | nil => rfl
    | cons next rest => rfl

/-- Out of the front of an array, the items before the cut are read as they are, and one more. -/
theorem valueAt_array_front {values : List Json} (hvalues : ∀ value ∈ values, IsObject value)
    {front : List Char} (hfront : front <+: '[' :: compactItems values) (hne : front ≠ [])
    (houter : ∀ c ∈ outer, IsBracket c) {fuel : Nat} {tree : Tree} {rest : List Char}
    (hread : valueAt fuel (closeUp outer front) = some (tree, rest)) :
    rest = outer ∧ ∃ items, tree = .array items ∧ FitsFront items values := by
  obtain ⟨cs, rfl, hitems⟩ := (List.prefix_cons_iff.mp hfront).resolve_left hne
  have hopen : (outside outer).after '[' = outside (']' :: outer) := rfl
  rw [closeUp_cons hopen] at hread
  by_cases hnil : cs = []
  · subst hnil
    rw [closeUp_nil] at hread
    obtain ⟨hclose, rfl⟩ | ⟨less, items, -, hread, -⟩ := valueAt_array_cases hread
    · rw [skip_cons rfl] at hclose
      exact ⟨(List.cons.inj hclose).2.symm, [], rfl, List.nil_prefix, Nat.zero_le _⟩
    · rw [itemsAt_bracket] at hread
      cases hread
  · obtain ⟨hclose, rfl⟩ | ⟨less, items, -, hread', rfl⟩ := valueAt_array_cases hread
    · -- an item was begun, so the array is not empty
      obtain ⟨c, more, rfl⟩ := List.exists_cons_of_ne_nil hnil
      have hhead := head?_compactItems hvalues (hitems.ne_nil hnil)
      obtain ⟨tail, htail⟩ := hitems
      rw [← htail] at hhead
      obtain rfl : c = '\x7b' := Option.some.inj hhead
      have hskip := skip_cons (c := '\x7b') rfl (more ++
        (('\x7b' :: more).foldl Nesting.after (outside (']' :: outer))).lacking)
      rw [closeUp, List.cons_append, hskip] at hclose
      cases hclose
    · obtain ⟨hstop, hfits⟩ := itemsAt_closeUp hvalues hitems hnil houter hread'
      exact ⟨hstop, items, rfl, hfits⟩

/-! ## The front of a key -/

theorem valueAt_brace (fuel : Nat) (cs : List Char) : valueAt fuel ('\x7d' :: cs) = none := by
  cases fuel with
  | zero => rw [valueAt]
  | succ fuel =>
    rw [valueAt, skip_cons rfl]
    rfl

/-- A name without anything that is escaped. -/
def IsPlain (name : List Char) : Prop := ∀ c ∈ name, c ≠ '"' ∧ c ≠ '\\' ∧ ¬ c.toNat < 0x20

theorem IsPlain.isBody {name : List Char} (h : IsPlain name) : IsBody (name.map .char) name := by
  induction name with
  | nil => exact .nil
  | cons c cs ih =>
    obtain ⟨⟨hquote, hslash, hprinted⟩, hcs⟩ := List.forall_mem_cons.mp h
    exact .char hquote hslash hprinted (ih hcs)

/-- A key without a colon is none. -/
theorem membersAt_quoted {key : List Piece} {body : List Char} (h : IsBody key body) (fuel : Nat)
    (rest : List Char) : membersAt fuel ('"' :: (body ++ '"' :: '\x7d' :: rest)) = none := by
  rw [Option.eq_none_iff_forall_ne_some]
  rintro ⟨members, stop⟩ hread
  obtain ⟨less, body', key', colon, text, value, after, -, hquote, hbody, hcolon, -⟩ :=
    membersAt_cases hread
  rw [skip_cons rfl] at hquote
  obtain ⟨-, rfl⟩ := List.cons.inj hquote
  rw [h.reads] at hbody
  obtain ⟨-, rfl⟩ := Prod.mk.inj (Option.some.inj hbody)
  rw [skip_cons rfl] at hcolon
  cases hcolon

/-- A key without a value is no member. -/
theorem membersAt_colon {key : List Piece} {lead : List Char} (h : IsKey key lead) (fuel : Nat)
    (rest : List Char) : membersAt fuel (lead ++ '\x7d' :: rest) = none := by
  rw [Option.eq_none_iff_forall_ne_some]
  rintro ⟨members, stop⟩ hread
  obtain ⟨less, value, after, -, hvalue, -⟩ := h.membersAt_cases hread
  rw [valueAt_brace] at hvalue
  cases hvalue

/-- The text of a plain name with its colon. -/
def keyText (name : List Char) : List Char := '"' :: (name ++ ['"', ':'])

theorem IsPlain.isKey {name : List Char} (h : IsPlain name) :
    IsKey (name.map .char) (keyText name) :=
  .mk isGap_nil h.isBody isGap_nil isGap_nil

/-- Out of a key that is cut, no member is read. -/
theorem membersAt_key_front {name : List Char} (h : IsPlain name) {front : List Char}
    (hfront : front <+: keyText name) (fuel : Nat) :
    membersAt fuel (closeUp ('\x7d' :: outer) front) = none := by
  have hwithin : ∀ {part}, part <+: name →
      membersAt fuel (closeUp ('\x7d' :: outer) ('"' :: part)) = none := by
    intro part hpart
    have hbody : IsBody (part.map .char) part :=
      IsPlain.isBody fun c hc => h c (hpart.subset hc)
    have hstate : ('"' :: part).foldl Nesting.after (outside ('\x7d' :: outer)) =
        inside ('\x7d' :: outer) := (leads_body hbody _).whole
    rw [closeUp, hstate]
    exact membersAt_quoted hbody fuel outer
  rcases List.prefix_cons_iff.mp hfront with rfl | ⟨rest, rfl, hrest⟩
  · exact membersAt_brace fuel outer
  · obtain hin | ⟨colon, rfl, hcolon⟩ := prefix_append_cons_cases hrest
    · exact hwithin hin
    · obtain rfl | ⟨last, rfl, hlast⟩ := List.prefix_cons_iff.mp hcolon
      · have hkeeps : Keeps ('"' :: (name ++ ['"'])) := keeps_quoted h.isBody .nil
        rw [closeUp_eq_append hkeeps]
        simpa using membersAt_quoted h.isBody fuel outer
      · obtain rfl := List.prefix_nil.mp hlast
        show membersAt fuel (closeUp ('\x7d' :: outer) (keyText name)) = none
        rw [closeUp_eq_append (keeps_key h.isKey)]
        exact membersAt_colon h.isKey fuel outer

end CloseUp

end Storyboard.Reply
