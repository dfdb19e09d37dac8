import Storyboard.Proofs.Json.Limits
import Storyboard.Proofs.Json.Token

/-!
# The grammar as a relation

`IsText tree cs` says that the text `cs` is spelled like the tree, whoever wrote it: with any blanks
between the tokens, any escapes in its strings, any way to write an exponent.  A reader takes such a
text up to its end, and takes no other.
-/

namespace Storyboard.Json

/-! ## Spellings -/

/-- Nothing but blanks. -/
def IsGap (cs : List Char) : Prop := ∀ c ∈ cs, isSpace c = true

theorem isGap_nil : IsGap [] := nofun

theorem isGap_blank : IsGap [' '] := by
  simp [IsGap, isSpace]

/-- A key with its colon, and the blanks around them. -/
inductive IsKey : List Piece → List Char → Prop
  | mk {key : List Piece} {lead body between after : List Char} (blank : IsGap lead)
      (text : IsBody key body) (blankBetween : IsGap between) (blankAfter : IsGap after) :
      IsKey key (lead ++ '"' :: (body ++ '"' :: (between ++ ':' :: after)))

mutual

/-- The text of a value. -/
inductive IsText : Tree → List Char → Prop
  | null : IsText .null ['n', 'u', 'l', 'l']
  | true : IsText (.bool true) ['t', 'r', 'u', 'e']
  | false : IsText (.bool false) ['f', 'a', 'l', 's', 'e']
  | number {numeral : Numeral} {cs : List Char} (text : IsNumber numeral cs) :
      IsText (.number numeral) cs
  | string {pieces : List Piece} {cs : List Char} (body : IsBody pieces cs) :
      IsText (.string pieces) ('"' :: (cs ++ ['"']))
  | noItems {gap : List Char} (blank : IsGap gap) : IsText (.array []) ('[' :: (gap ++ [']']))
  | array {items : List Tree} {cs gap : List Char} (texts : IsItems items cs) (blank : IsGap gap) :
      IsText (.array items) ('[' :: (cs ++ gap ++ [']']))
  | noMembers {gap : List Char} (blank : IsGap gap) :
      IsText (.object []) ('\x7b' :: (gap ++ ['\x7d']))
  | object {members : List (List Piece × Tree)} {cs gap : List Char}
      (texts : IsMembers members cs) (blank : IsGap gap) :
      IsText (.object members) ('\x7b' :: (cs ++ gap ++ ['\x7d']))

/-- The texts of items, of which there is at least one, with commas between them. -/
inductive IsItems : List Tree → List Char → Prop
  | last {item : Tree} {lead cs : List Char} (blank : IsGap lead) (text : IsText item cs) :
      IsItems [item] (lead ++ cs)
  | cons {item : Tree} {items : List Tree} {lead cs gap more : List Char} (blank : IsGap lead)
      (text : IsText item cs) (blankAfter : IsGap gap) (others : IsItems items more) :
      IsItems (item :: items) (lead ++ cs ++ gap ++ ',' :: more)

/-- The texts of members, of which there is at least one, with commas between them. -/
inductive IsMembers : List (List Piece × Tree) → List Char → Prop
  | last {key : List Piece} {value : Tree} {lead cs : List Char} (name : IsKey key lead)
      (text : IsText value cs) : IsMembers [(key, value)] (lead ++ cs)
  | cons {key : List Piece} {value : Tree} {members : List (List Piece × Tree)}
      {lead cs gap more : List Char} (name : IsKey key lead) (text : IsText value cs)
      (blankAfter : IsGap gap) (others : IsMembers members more) :
      IsMembers ((key, value) :: members) (lead ++ cs ++ gap ++ ',' :: more)

end

/-! ## One step of a reader -/

theorem skip_gap {gap : List Char} (h : IsGap gap) (cs : List Char) : skip (gap ++ cs) = skip cs :=
  List.dropWhile_append_of_pos h

theorem skip_cons {c : Char} (h : isSpace c = false) (cs : List Char) : skip (c :: cs) = c :: cs :=
  List.dropWhile_cons_of_neg (by simp [h])

/-- Blanks before a value are passed over. -/
theorem valueAt_gap (fuel : Nat) {gap : List Char} (h : IsGap gap) (cs : List Char) :
    valueAt fuel (gap ++ cs) = valueAt fuel cs := by
  cases fuel with
  | zero => rw [valueAt, valueAt]
  | succ fuel => rw [valueAt, valueAt, skip_gap h]

theorem valueAt_skip (fuel : Nat) (cs : List Char) : valueAt fuel (skip cs) = valueAt fuel cs := by
  have hgap : IsGap (cs.takeWhile isSpace) := fun c => List.mem_takeWhile_imp
  rw [← valueAt_gap fuel hgap, skip, List.takeWhile_append_dropWhile]

theorem itemsAt_skip (fuel : Nat) (cs : List Char) : itemsAt fuel (skip cs) = itemsAt fuel cs := by
  cases fuel with
  | zero => rw [itemsAt, itemsAt]
  | succ fuel => rw [itemsAt, itemsAt, valueAt_skip]

theorem membersAt_skip (fuel : Nat) (cs : List Char) :
    membersAt fuel (skip cs) = membersAt fuel cs := by
  have hskip : skip (skip cs) = skip cs := List.dropWhile_idempotent _ _
  cases fuel with
  | zero => rw [membersAt, membersAt]
  | succ fuel => rw [membersAt, membersAt, hskip]

/-- What may follow a value: a separator, a closing bracket, a blank, or the end. -/
def EndsValue (cs : List Char) : Prop :=
  ∀ c ∈ cs.head?, (c == ',' || c == ']' || c == '\x7d' || isSpace c) = true

theorem EndsValue.endsNumber {cs : List Char} (h : EndsValue cs) : Literal.EndsNumber cs := by
  intro c hc
  have hcases := h c hc
  simp only [isSpace, Bool.or_eq_true, beq_iff_eq] at hcases
  rcases hcases with ((rfl | rfl) | rfl) | ((rfl | rfl) | rfl) | rfl <;> rfl

theorem valueAt_quote (fuel : Nat) (cs : List Char) : valueAt (fuel + 1) ('"' :: cs) =
    (stringBody cs).map fun (pieces, rest) => (.string pieces, rest) := by
  rw [valueAt, skip_cons rfl]
  rfl

/-- A number is read up to its end. -/
theorem valueAt_number (fuel : Nat) {numeral : Numeral} {cs rest : List Char}
    (h : IsNumber numeral cs) (hrest : EndsValue rest) :
    valueAt (fuel + 1) (cs ++ rest) = some (.number numeral, rest) := by
  have hread := h.reads hrest.endsNumber
  obtain ⟨c, tail, rfl, hc⟩ := h.head
  rw [List.cons_append] at hread ⊢
  have hspace : isSpace c = false := by
    have hblank := Literal.beq_of_starts hc [' ', '\t', '\n', '\r'] rfl
    simp only [List.forall_mem_cons] at hblank
    simp only [isSpace, hblank, Bool.or_self]
  have hopen := Literal.beq_of_starts hc ['"', '[', '\x7b'] rfl
  simp only [List.forall_mem_cons] at hopen
  have hstart : (c == '-' || c.isDigit) = true := by
    rw [Bool.or_comm]
    exact hc
  rw [valueAt, skip_cons hspace]
  dsimp only
  rw [hopen.1, hopen.2.1, hopen.2.2.1, hstart, hread]
  rfl

/-- A closing bracket starts no value. -/
theorem itemsAt_bracket (fuel : Nat) (cs : List Char) : itemsAt fuel (']' :: cs) = none := by
  cases fuel with
  | zero => rw [itemsAt]
  | succ fuel =>
    cases fuel with
    | zero => rw [itemsAt, valueAt]
    | succ fuel =>
      rw [itemsAt, valueAt, skip_cons rfl]
      rfl

/-- A closing brace starts no member. -/
theorem membersAt_brace (fuel : Nat) (cs : List Char) : membersAt fuel ('\x7d' :: cs) = none := by
  cases fuel with
  | zero => rw [membersAt]
  | succ fuel =>
    rw [membersAt, skip_cons rfl]
    rfl

/-- An array whose items are read is read. -/
theorem valueAt_array {fuel : Nat} {cs rest : List Char} {items : List Tree}
    (h : itemsAt fuel cs = some (items, rest)) :
    valueAt (fuel + 1) ('[' :: cs) = some (.array items, rest) := by
  rw [← itemsAt_skip] at h
  rw [valueAt, skip_cons rfl]
  dsimp only
  rw [if_neg (by decide), if_pos (by decide)]
  split
  next after hafter =>
    rw [hafter, itemsAt_bracket] at h
    cases h
  next => rw [h]; rfl

/-- An object whose members are read is read. -/
theorem valueAt_object {fuel : Nat} {cs rest : List Char} {members : List (List Piece × Tree)}
    (h : membersAt fuel cs = some (members, rest)) :
    valueAt (fuel + 1) ('\x7b' :: cs) = some (.object members, rest) := by
  rw [← membersAt_skip] at h
  rw [valueAt, skip_cons rfl]
  dsimp only
  rw [if_neg (by decide), if_neg (by decide), if_pos (by decide)]
  split
  next after hafter =>
    rw [hafter, membersAt_brace] at h
    cases h
  next => rw [h]; rfl

theorem itemsAt_last {fuel : Nat} {cs after rest : List Char} {item : Tree}
    (hitem : valueAt fuel cs = some (item, after)) (hafter : skip after = ']' :: rest) :
    itemsAt (fuel + 1) cs = some ([item], rest) := by
  simp only [itemsAt, hitem, hafter]

theorem itemsAt_more {fuel : Nat} {cs after next rest : List Char} {item : Tree}
    {others : List Tree} (hitem : valueAt fuel cs = some (item, after))
    (hafter : skip after = ',' :: next) (hnext : itemsAt fuel next = some (others, rest)) :
    itemsAt (fuel + 1) cs = some (item :: others, rest) := by
  simp only [itemsAt, hitem, hafter, hnext, Option.map_some]

theorem membersAt_last {fuel : Nat} {cs body colon text after rest : List Char}
    {key : List Piece} {value : Tree} (hkey : skip cs = '"' :: body)
    (hbody : stringBody body = some (key, colon)) (hcolon : skip colon = ':' :: text)
    (hvalue : valueAt fuel text = some (value, after)) (hafter : skip after = '\x7d' :: rest) :
    membersAt (fuel + 1) cs = some ([(key, value)], rest) := by
  simp only [membersAt, hkey, hbody, hcolon, hvalue, hafter]

theorem membersAt_more {fuel : Nat} {cs body colon text after next rest : List Char}
    {key : List Piece} {value : Tree} {others : List (List Piece × Tree)}
    (hkey : skip cs = '"' :: body) (hbody : stringBody body = some (key, colon))
    (hcolon : skip colon = ':' :: text) (hvalue : valueAt fuel text = some (value, after))
    (hafter : skip after = ',' :: next) (hnext : membersAt fuel next = some (others, rest)) :
    membersAt (fuel + 1) cs = some ((key, value) :: others, rest) := by
  simp only [membersAt, hkey, hbody, hcolon, hvalue, hafter, hnext, Option.map_some]

theorem endsValue_close {gap : List Char} (h : IsGap gap) (rest : List Char) {close : Char}
    (hclose : close = ']' ∨ close = '\x7d') : EndsValue (gap ++ close :: rest) := by
  intro c hc
  cases gap with
  | nil =>
    obtain rfl := Option.some.inj hc
    rcases hclose with rfl | rfl <;> rfl
  | cons d gap =>
    obtain rfl := Option.some.inj hc
    rw [h d List.mem_cons_self, Bool.or_true]

theorem endsValue_comma {gap : List Char} (h : IsGap gap) (rest : List Char) :
    EndsValue (gap ++ ',' :: rest) := by
  intro c hc
  cases gap with
  | nil =>
    obtain rfl := Option.some.inj hc
    rfl
  | cons d gap =>
    obtain rfl := Option.some.inj hc
    rw [h d List.mem_cons_self, Bool.or_true]

theorem skip_close {gap : List Char} (h : IsGap gap) {close : Char} (hclose : isSpace close = false)
    (rest : List Char) : skip (gap ++ close :: rest) = close :: rest := by
  rw [skip_gap h, skip_cons hclose]

theorem IsText.ne_nil {tree : Tree} {cs : List Char} (h : IsText tree cs) : cs ≠ [] := by
  cases h with
  | number text =>
    obtain ⟨c, tail, rfl, -⟩ := text.head
    exact List.cons_ne_nil c tail
  | _ => exact List.cons_ne_nil _ _

/-- A key is read up to the value. -/
theorem IsKey.reads {key : List Piece} {cs : List Char} (h : IsKey key cs) (rest : List Char) :
    ∃ body colon after, skip (cs ++ rest) = '"' :: body ∧ stringBody body = some (key, colon) ∧
      skip colon = ':' :: (after ++ rest) ∧ IsGap after := by
  cases h with
  | @mk lead body between after blank text blankBetween blankAfter =>
  refine ⟨body ++ '"' :: (between ++ ':' :: (after ++ rest)), between ++ ':' :: (after ++ rest),
    after, ?_, text.reads _, skip_close blankBetween rfl _, blankAfter⟩
  simp only [List.append_assoc, List.cons_append]
  exact skip_close blank rfl _

/-! ## What is spelled so is read -/

mutual

/-- The text of a value is read up to its end. -/
theorem IsText.reads : ∀ {tree : Tree} {cs : List Char}, IsText tree cs →
    ∀ (fuel : Nat) (rest : List Char), 2 * cs.length ≤ fuel → EndsValue rest →
      valueAt fuel (cs ++ rest) = some (tree, rest)
  | _, _, .null, fuel + 1, rest, _, _ => by
    rw [List.cons_append, valueAt, skip_cons rfl]
    rfl
  | _, _, .true, fuel + 1, rest, _, _ => by
    rw [List.cons_append, valueAt, skip_cons rfl]
    rfl
  | _, _, .false, fuel + 1, rest, _, _ => by
    rw [List.cons_append, valueAt, skip_cons rfl]
    rfl
  | _, _, .number text, 0, rest, hfuel, _ => by
    obtain ⟨c, tail, rfl, -⟩ := text.head
    exact absurd hfuel (Nat.not_succ_le_zero _)
  | _, _, .number text, fuel + 1, rest, _, hrest => valueAt_number fuel text hrest
  | _, _, .string body, fuel + 1, rest, _, _ => by
    rw [List.cons_append, List.append_assoc, valueAt_quote, List.cons_append, List.nil_append,
      body.reads]
    rfl
  | _, _, .noItems blank, fuel + 1, rest, _, _ => by
    rw [List.cons_append, valueAt, skip_cons rfl]
    dsimp only
    rw [if_neg (by decide), if_pos (by decide), List.append_assoc, List.singleton_append,
      skip_close blank rfl]
    rfl
  | _, _, .noMembers blank, fuel + 1, rest, _, _ => by
    rw [List.cons_append, valueAt, skip_cons rfl]
    dsimp only
    rw [if_neg (by decide), if_neg (by decide), if_pos (by decide), List.append_assoc,
      List.singleton_append, skip_close blank rfl]
    rfl
  | _, _, .array texts blank, fuel + 1, rest, hfuel, _ => by
    have hitems := texts.reads fuel _ rest (by simp at hfuel; omega) blank
    have hread := valueAt_array hitems
    simpa using hread
  | _, _, .object texts blank, fuel + 1, rest, hfuel, _ => by
    have hmembers := texts.reads fuel _ rest (by simp at hfuel; omega) blank
    have hread := valueAt_object hmembers
    simpa using hread

/-- The texts of items are read up to the closing bracket. -/
theorem IsItems.reads : ∀ {items : List Tree} {cs : List Char}, IsItems items cs →
    ∀ (fuel : Nat) (gap rest : List Char), 2 * cs.length + 1 ≤ fuel → IsGap gap →
      itemsAt fuel (cs ++ gap ++ ']' :: rest) = some (items, rest)
  | _, _, .last blank text, fuel + 1, gap, rest, hfuel, hgap => by
    have hitem := text.reads fuel (gap ++ ']' :: rest) (by simp at hfuel; omega)
      (endsValue_close hgap rest (Or.inl rfl))
    rw [← valueAt_gap fuel blank] at hitem
    have hread := itemsAt_last hitem (skip_close hgap rfl rest)
    simpa using hread
  | _, _, @IsItems.cons _ _ _ _ after more blank text blankAfter others, fuel + 1, gap, rest,
      hfuel, hgap => by
    have hitem := text.reads fuel (after ++ ',' :: (more ++ gap ++ ']' :: rest))
      (by simp at hfuel; omega) (endsValue_comma blankAfter _)
    rw [← valueAt_gap fuel blank] at hitem
    have hothers := others.reads fuel gap rest (by simp at hfuel; omega) hgap
    have hread := itemsAt_more hitem (skip_close blankAfter rfl _) hothers
    simpa using hread

/-- The texts of members are read up to the closing brace. -/
theorem IsMembers.reads : ∀ {members : List (List Piece × Tree)} {cs : List Char},
    IsMembers members cs →
    ∀ (fuel : Nat) (gap rest : List Char), 2 * cs.length + 1 ≤ fuel → IsGap gap →
      membersAt fuel (cs ++ gap ++ '\x7d' :: rest) = some (members, rest)
  | _, _, @IsMembers.last _ _ lead cs name text, fuel + 1, gap, rest, hfuel, hgap => by
    obtain ⟨body, colon, between, hkey, hbody, hcolon, hbetween⟩ :=
      name.reads (cs ++ (gap ++ '\x7d' :: rest))
    have hvalue := text.reads fuel (gap ++ '\x7d' :: rest) (by simp at hfuel; omega)
      (endsValue_close hgap rest (Or.inr rfl))
    rw [← valueAt_gap fuel hbetween] at hvalue
    have hread := membersAt_last hkey hbody hcolon hvalue (skip_close hgap rfl rest)
    simpa using hread
  | _, _, @IsMembers.cons _ _ _ lead cs after more name text blankAfter others, fuel + 1, gap, rest,
      hfuel, hgap => by
    obtain ⟨body, colon, between, hkey, hbody, hcolon, hbetween⟩ :=
      name.reads (cs ++ (after ++ ',' :: (more ++ gap ++ '\x7d' :: rest)))
    have hvalue := text.reads fuel (after ++ ',' :: (more ++ gap ++ '\x7d' :: rest))
      (by simp at hfuel; omega) (endsValue_comma blankAfter _)
    rw [← valueAt_gap fuel hbetween] at hvalue
    have hothers := others.reads fuel gap rest (by simp at hfuel; omega) hgap
    have hread := membersAt_more hkey hbody hcolon hvalue (skip_close blankAfter rfl _) hothers
    simpa using hread

end

/-! ## What is read is spelled so -/

section Sound

variable {cs rest : List Char}

theorem exists_gap_of_skip {text : List Char} (h : skip cs = text) :
    ∃ gap, IsGap gap ∧ cs = gap ++ text := by
  refine ⟨cs.takeWhile isSpace, fun c => List.mem_takeWhile_imp, ?_⟩
  rw [← h, skip, List.takeWhile_append_dropWhile]

/-- What is read up to a closing quote is the text of a string. -/
theorem stringBody_sound {pieces : List Piece} (h : stringBody cs = some (pieces, rest)) :
    ∃ body, IsBody pieces body ∧ cs = body ++ '"' :: rest := by
  fun_induction stringBody cs generalizing pieces rest with
  | case1 => cases h
  | case2 tail =>
    cases h
    exact ⟨[], .nil, rfl⟩
  | case3 a b c d tail ih =>
    obtain ⟨n, hunit, h⟩ := Option.bind_eq_some_iff.mp h
    obtain ⟨⟨others, after⟩, hbody, h⟩ := Option.bind_eq_some_iff.mp h
    cases h
    obtain ⟨body, hothers, rfl⟩ := ih hbody
    exact ⟨_, .unit hunit hothers, rfl⟩
  | case4 e tail _ ih =>
    obtain ⟨c, hescape, h⟩ := Option.bind_eq_some_iff.mp h
    obtain ⟨⟨others, after⟩, hbody, h⟩ := Option.bind_eq_some_iff.mp h
    cases h
    obtain ⟨body, hothers, rfl⟩ := ih hbody
    exact ⟨_, .escape hescape hothers, rfl⟩
  | case5 => cases h
  | case6 c tail hquote hunit hescape hprinted ih =>
    obtain ⟨⟨others, after⟩, hbody, h⟩ := Option.bind_eq_some_iff.mp h
    cases h
    obtain ⟨body, hothers, rfl⟩ := ih hbody
    refine ⟨_, .char hquote ?_ hprinted hothers, rfl⟩
    rintro rfl
    -- a backslash is followed by something, were it only the closing quote
    obtain ⟨e, more, hmore⟩ : ∃ e more, body ++ '"' :: rest = e :: more :=
      List.exists_cons_of_ne_nil (by simp)
    exact hescape e more rfl hmore

theorem digits?_sound {digits : List Char} (h : digits? cs = some (digits, rest)) :
    IsRun digits ∧ cs = digits ++ rest := by
  obtain ⟨hne, hpair⟩ := (Option.ite_none_left_eq_some ..).mp h
  obtain ⟨rfl, rfl⟩ := Prod.mk.inj (Option.some.inj hpair)
  refine ⟨⟨fun hnil => hne (by rw [hnil]; rfl), fun c => List.mem_takeWhile_imp⟩, ?_⟩
  exact List.takeWhile_append_dropWhile.symm

theorem wholePart?_sound {digits : List Char} (h : wholePart? cs = some (digits, rest)) :
    IsRun digits ∧ (digits = ['0'] ∨ digits.head? ≠ some '0') ∧ cs = digits ++ rest := by
  obtain ⟨⟨run, after⟩, hrun, hwhole⟩ := Option.bind_eq_some_iff.mp h
  dsimp only at hwhole
  obtain ⟨hdigits, hcs⟩ := digits?_sound hrun
  split at hwhole
  next => cases hwhole
  next hleading =>
    cases hwhole
    refine ⟨hdigits, ?_, hcs⟩
    cases digits with
    | nil => exact Or.inr nofun
    | cons d ds =>
      by_cases hd : d = '0'
      · cases ds with
        | nil => exact Or.inl (by rw [hd])
        | cons e es => exact absurd (by rw [hd]) (hleading e es)
      · exact Or.inr fun hhead => hd (Option.some.inj hhead)

theorem fractionPart?_sound {fraction : Option (List Char)}
    (h : fractionPart? cs = some (fraction, rest)) :
    (∀ digits, fraction = some digits → IsRun digits) ∧
      cs = fraction.elim [] (fun digits => '.' :: digits) ++ rest := by
  unfold fractionPart? at h
  split at h
  next tail =>
    obtain ⟨⟨digits, after⟩, hdigits, hpair⟩ := Option.map_eq_some_iff.mp h
    cases hpair
    obtain ⟨hrun, rfl⟩ := digits?_sound hdigits
    refine ⟨fun _ heq => Option.some.inj heq ▸ hrun, rfl⟩
  next =>
    cases h
    exact ⟨nofun, rfl⟩

theorem exponentPart?_sound {exponent : Option (Bool × List Char)}
    (h : exponentPart? cs = some (exponent, rest)) :
    ∃ text, IsExponent exponent text ∧ cs = text ++ rest := by
  unfold exponentPart? at h
  split at h
  next =>
    cases h
    exact ⟨[], .none, rfl⟩
  next e tail =>
    split at h
    next hmark =>
      have hmark : e = 'e' ∨ e = 'E' := by simpa using hmark
      dsimp only at h
      obtain ⟨⟨digits, after⟩, hdigits, hpair⟩ := Option.map_eq_some_iff.mp h
      cases hpair
      split at hdigits
      next =>
        obtain ⟨hrun, rfl⟩ := digits?_sound hdigits
        exact ⟨_, .signed true hmark hrun, rfl⟩
      next =>
        obtain ⟨hrun, rfl⟩ := digits?_sound hdigits
        exact ⟨_, .signed false hmark hrun, rfl⟩
      next =>
        obtain ⟨hrun, rfl⟩ := digits?_sound hdigits
        exact ⟨_, .plain hmark hrun, rfl⟩
    next =>
      cases h
      exact ⟨[], .none, rfl⟩

/-- What is read as a number is the text of the number. -/
theorem numeral?_sound {numeral : Numeral} (h : numeral? cs = some (numeral, rest)) :
    ∃ text, IsNumber numeral text ∧ cs = text ++ rest := by
  unfold numeral? at h
  obtain ⟨⟨whole, afterWhole⟩, hwhole, h⟩ := Option.bind_eq_some_iff.mp h
  obtain ⟨⟨fraction, afterFraction⟩, hfraction, h⟩ := Option.bind_eq_some_iff.mp h
  obtain ⟨⟨exponent, after⟩, hexponent, h⟩ := Option.bind_eq_some_iff.mp h
  cases h
  obtain ⟨hrun, hleading, hwholeText⟩ := wholePart?_sound hwhole
  obtain ⟨hfractionRun, rfl⟩ := fractionPart?_sound hfraction
  obtain ⟨text, hexponentText, rfl⟩ := exponentPart?_sound hexponent
  have hexponentRun : ∀ negative digits, exponent = some (negative, digits) → IsRun digits := by
    rintro negative digits rfl
    cases hexponentText with
    | plain _ run => exact run
    | signed _ _ run => exact run
  split at hwholeText
  next tail =>
    subst hwholeText
    exact ⟨_, .mk ⟨hrun, hleading, hfractionRun, hexponentRun⟩ hexponentText,
      by simp [List.append_assoc]⟩
  next hminus =>
    subst hwholeText
    exact ⟨_, .mk ⟨hrun, hleading, hfractionRun, hexponentRun⟩ hexponentText,
      by simp [List.append_assoc]⟩

theorem word?_sound {tree : Tree} (h : word? cs = some (tree, rest)) :
    ∃ text, IsText tree text ∧ cs = text ++ rest := by
  unfold word? at h
  split at h
  next => cases h; exact ⟨_, .true, rfl⟩
  next => cases h; exact ⟨_, .false, rfl⟩
  next => cases h; exact ⟨_, .null, rfl⟩
  next => cases h

/-- How an array may be read. -/
theorem valueAt_array_cases {fuel : Nat} {tree : Tree}
    (h : valueAt fuel ('[' :: cs) = some (tree, rest)) :
    (skip cs = ']' :: rest ∧ tree = .array []) ∨
      ∃ less items, fuel = less + 1 ∧ itemsAt less cs = some (items, rest) ∧
        tree = .array items := by
  cases fuel with
  | zero => rw [valueAt] at h; cases h
  | succ less =>
    rw [valueAt, skip_cons rfl] at h
    dsimp only at h
    rw [if_neg (by decide), if_pos (by decide)] at h
    split at h
    next after hafter =>
      cases h
      exact Or.inl ⟨hafter, rfl⟩
    next =>
      obtain ⟨⟨items, after⟩, hitems, hpair⟩ := Option.map_eq_some_iff.mp h
      cases hpair
      exact Or.inr ⟨less, items, rfl, by rwa [itemsAt_skip] at hitems, rfl⟩

/-- How an object may be read. -/
theorem valueAt_object_cases {fuel : Nat} {tree : Tree}
    (h : valueAt fuel ('\x7b' :: cs) = some (tree, rest)) :
    (skip cs = '\x7d' :: rest ∧ tree = .object []) ∨
      ∃ less members, fuel = less + 1 ∧ membersAt less cs = some (members, rest) ∧
        tree = .object members := by
  cases fuel with
  | zero => rw [valueAt] at h; cases h
  | succ less =>
    rw [valueAt, skip_cons rfl] at h
    dsimp only at h
    rw [if_neg (by decide), if_neg (by decide), if_pos (by decide)] at h
    split at h
    next after hafter =>
      cases h
      exact Or.inl ⟨hafter, rfl⟩
    next =>
      obtain ⟨⟨members, after⟩, hmembers, hpair⟩ := Option.map_eq_some_iff.mp h
      cases hpair
      exact Or.inr ⟨less, members, rfl, by rwa [membersAt_skip] at hmembers, rfl⟩

/-- An item is read, and then the bracket or more items. -/
theorem itemsAt_cases {fuel : Nat} {items : List Tree}
    (h : itemsAt fuel cs = some (items, rest)) :
    ∃ less item after, fuel = less + 1 ∧ valueAt less cs = some (item, after) ∧
      ((skip after = ']' :: rest ∧ items = [item]) ∨
        ∃ next others, skip after = ',' :: next ∧ itemsAt less next = some (others, rest) ∧
          items = item :: others) := by
  cases fuel with
  | zero => rw [itemsAt] at h; cases h
  | succ less =>
    rw [itemsAt] at h
    split at h
    next => cases h
    next item after hitem =>
      refine ⟨less, item, after, rfl, hitem, ?_⟩
      split at h
      next last hlast =>
        cases h
        exact Or.inl ⟨hlast, rfl⟩
      next next hnext =>
        obtain ⟨⟨others, last⟩, hothers, hpair⟩ := Option.map_eq_some_iff.mp h
        cases hpair
        exact Or.inr ⟨next, others, hnext, hothers, rfl⟩
      next => cases h

/-- A member is read, and then the brace or more members. -/
theorem membersAt_cases {fuel : Nat} {members : List (List Piece × Tree)}
    (h : membersAt fuel cs = some (members, rest)) :
    ∃ less body key colon text value after, fuel = less + 1 ∧ skip cs = '"' :: body ∧
      stringBody body = some (key, colon) ∧ skip colon = ':' :: text ∧
      valueAt less text = some (value, after) ∧
      ((skip after = '\x7d' :: rest ∧ members = [(key, value)]) ∨
        ∃ next others, skip after = ',' :: next ∧ membersAt less next = some (others, rest) ∧
          members = (key, value) :: others) := by
  cases fuel with
  | zero => rw [membersAt] at h; cases h
  | succ less =>
    rw [membersAt] at h
    split at h
    next body hbody =>
      split at h
      next => cases h
      next key colon hkey =>
        split at h
        next text htext =>
          split at h
          next => cases h
          next value after hvalue =>
            refine ⟨less, body, key, colon, text, value, after, rfl, hbody, hkey, htext, hvalue, ?_⟩
            split at h
            next last hlast =>
              cases h
              exact Or.inl ⟨hlast, rfl⟩
            next next hnext =>
              obtain ⟨⟨others, last⟩, hothers, hpair⟩ := Option.map_eq_some_iff.mp h
              cases hpair
              exact Or.inr ⟨next, others, hnext, hothers, rfl⟩
            next => cases h
        next => cases h
    next => cases h

/-- What the first character of a value makes of it, and of what stands behind that character. -/
inductive FirstStep (fuel : Nat) : Char → List Char → Tree → List Char → Prop
  | string {tail rest : List Char} {pieces : List Piece}
      (read : stringBody tail = some (pieces, rest)) : FirstStep fuel '"' tail (.string pieces) rest
  | noItems {tail rest : List Char} (close : skip tail = ']' :: rest) :
      FirstStep fuel '[' tail (.array []) rest
  | array {tail rest : List Char} {items : List Tree}
      (read : itemsAt fuel tail = some (items, rest)) : FirstStep fuel '[' tail (.array items) rest
  | noMembers {tail rest : List Char} (close : skip tail = '\x7d' :: rest) :
      FirstStep fuel '\x7b' tail (.object []) rest
  | object {tail rest : List Char} {members : List (List Piece × Tree)}
      (read : membersAt fuel tail = some (members, rest)) :
      FirstStep fuel '\x7b' tail (.object members) rest
  | number {c : Char} {tail rest : List Char} {numeral : Numeral}
      (read : numeral? (c :: tail) = some (numeral, rest)) :
      FirstStep fuel c tail (.number numeral) rest
  | word {c : Char} {tail rest : List Char} {tree : Tree}
      (read : word? (c :: tail) = some (tree, rest)) : FirstStep fuel c tail tree rest

/-- A value is read behind blanks, and its first character says how. -/
theorem valueAt_cases {fuel : Nat} {tree : Tree} (h : valueAt fuel cs = some (tree, rest)) :
    ∃ less c tail, fuel = less + 1 ∧ skip cs = c :: tail ∧ FirstStep less c tail tree rest := by
  cases fuel with
  | zero => rw [valueAt] at h; cases h
  | succ less =>
    have hwhole := h
    rw [valueAt] at h
    split at h
    next => cases h
    next c tail hskip =>
      refine ⟨less, c, tail, rfl, hskip, ?_⟩
      split at h
      next hc =>
        obtain rfl := beq_iff_eq.mp hc
        obtain ⟨⟨pieces, after⟩, hbody, hpair⟩ := Option.map_eq_some_iff.mp h
        cases hpair
        exact .string hbody
      split at h
      next hc =>
        obtain rfl := beq_iff_eq.mp hc
        rw [← valueAt_skip, hskip] at hwhole
        obtain ⟨hclose, rfl⟩ | ⟨_, items, hless, hitems, rfl⟩ := valueAt_array_cases hwhole
        · exact .noItems hclose
        · obtain rfl := Nat.succ.inj hless
          exact .array hitems
      split at h
      next hc =>
        obtain rfl := beq_iff_eq.mp hc
        rw [← valueAt_skip, hskip] at hwhole
        obtain ⟨hclose, rfl⟩ | ⟨_, members, hless, hmembers, rfl⟩ := valueAt_object_cases hwhole
        · exact .noMembers hclose
        · obtain rfl := Nat.succ.inj hless
          exact .object hmembers
      split at h
      next =>
        obtain ⟨⟨numeral, after⟩, hnumeral, hpair⟩ := Option.map_eq_some_iff.mp h
        cases hpair
        exact .number hnumeral
      next => exact .word h

mutual

/-- What is read as a value is the text of the value, behind blanks. -/
theorem valueAt_sound : ∀ (fuel : Nat) {cs rest : List Char} {tree : Tree},
    valueAt fuel cs = some (tree, rest) →
      ∃ gap text, IsGap gap ∧ IsText tree text ∧ cs = gap ++ (text ++ rest)
  | 0, _, _, _, h => nomatch h
  | fuel + 1, cs, rest, tree, h => by
    obtain ⟨less, c, tail, hless, hskip, hstep⟩ := valueAt_cases h
    obtain rfl := Nat.succ.inj hless
    obtain ⟨gap, hgap, rfl⟩ := exists_gap_of_skip hskip
    cases hstep with
    | string hbody =>
      obtain ⟨body, htext, rfl⟩ := stringBody_sound hbody
      exact ⟨gap, _, hgap, .string htext, by simp⟩
    | noItems hclose =>
      obtain ⟨inner, hinner, rfl⟩ := exists_gap_of_skip hclose
      exact ⟨gap, _, hgap, .noItems hinner, by simp⟩
    | array hitems =>
      obtain ⟨text, last, htext, hlast, rfl⟩ := itemsAt_sound _ hitems
      exact ⟨gap, _, hgap, .array htext hlast, by simp⟩
    | noMembers hclose =>
      obtain ⟨inner, hinner, rfl⟩ := exists_gap_of_skip hclose
      exact ⟨gap, _, hgap, .noMembers hinner, by simp⟩
    | object hmembers =>
      obtain ⟨text, last, htext, hlast, rfl⟩ := membersAt_sound _ hmembers
      exact ⟨gap, _, hgap, .object htext hlast, by simp⟩
    | number hnumeral =>
      obtain ⟨text, htext, heq⟩ := numeral?_sound hnumeral
      exact ⟨gap, text, hgap, .number htext, by rw [heq]⟩
    | word hword =>
      obtain ⟨text, htext, heq⟩ := word?_sound hword
      exact ⟨gap, text, hgap, htext, by rw [heq]⟩

/-- What is read as items is the text of the items, up to the bracket. -/
theorem itemsAt_sound : ∀ (fuel : Nat) {cs rest : List Char} {items : List Tree},
    itemsAt fuel cs = some (items, rest) →
      ∃ text gap, IsItems items text ∧ IsGap gap ∧ cs = text ++ gap ++ ']' :: rest
  | 0, _, _, _, h => nomatch h
  | fuel + 1, cs, rest, items, h => by
    obtain ⟨less, item, after, hless, hitem, hafter⟩ := itemsAt_cases h
    obtain rfl := Nat.succ.inj hless
    obtain ⟨lead, text, hlead, htext, rfl⟩ := valueAt_sound _ hitem
    obtain ⟨hclose, rfl⟩ | ⟨next, others, hnext, hothers, rfl⟩ := hafter
    · obtain ⟨gap, hgap, rfl⟩ := exists_gap_of_skip hclose
      exact ⟨_, gap, .last hlead htext, hgap, by simp⟩
    · obtain ⟨between, hbetween, rfl⟩ := exists_gap_of_skip hnext
      obtain ⟨more, gap, hmore, hgap, rfl⟩ := itemsAt_sound _ hothers
      exact ⟨_, gap, .cons hlead htext hbetween hmore, hgap, by simp⟩

/-- What is read as members is the text of the members, up to the brace. -/
theorem membersAt_sound : ∀ (fuel : Nat) {cs rest : List Char} {members : List (List Piece × Tree)},
    membersAt fuel cs = some (members, rest) →
      ∃ text gap, IsMembers members text ∧ IsGap gap ∧ cs = text ++ gap ++ '\x7d' :: rest
  | 0, _, _, _, h => nomatch h
  | fuel + 1, cs, rest, members, h => by
    obtain ⟨less, body, key, colon, tail, value, after, hless, hquote, hbody, hcolon, hvalue,
      hafter⟩ := membersAt_cases h
    obtain rfl := Nat.succ.inj hless
    obtain ⟨lead, hlead, rfl⟩ := exists_gap_of_skip hquote
    obtain ⟨name, hname, rfl⟩ := stringBody_sound hbody
    obtain ⟨between, hbetween, rfl⟩ := exists_gap_of_skip hcolon
    obtain ⟨behind, text, hbehind, htext, rfl⟩ := valueAt_sound _ hvalue
    have hkey := IsKey.mk hlead hname hbetween hbehind
    obtain ⟨hclose, rfl⟩ | ⟨next, others, hnext, hothers, rfl⟩ := hafter
    · obtain ⟨gap, hgap, rfl⟩ := exists_gap_of_skip hclose
      exact ⟨_, gap, .last hkey htext, hgap, by simp⟩
    · obtain ⟨gap, hgap, rfl⟩ := exists_gap_of_skip hnext
      obtain ⟨more, last, hmore, hlast, rfl⟩ := membersAt_sound _ hothers
      exact ⟨_, last, .cons hkey htext hgap hmore, hlast, by simp⟩

end

end Sound

/-! ## Whole texts -/

/-- Two reads of one text agree, whatever fuel they were given. -/
theorem valueAt_unique {fuel fuel' : Nat} {cs : List Char} {result result' : Tree × List Char}
    (h : valueAt fuel cs = some result) (h' : valueAt fuel' cs = some result') :
    result = result' := by
  have hmore := valueAt_le (Nat.le_max_left fuel fuel') h
  rw [valueAt_le (Nat.le_max_right fuel fuel') h'] at hmore
  exact (Option.some.inj hmore).symm

/-- The text of a value is read as its tree, also between blanks. -/
theorem IsText.read? {tree : Tree} {lead cs : List Char} (h : IsText tree cs) (hlead : IsGap lead) :
    Tree.read? (String.ofList (lead ++ cs)) = some tree := by
  have hread := h.reads (2 * (lead ++ cs).length + 2) [] (by simp; omega) nofun
  rw [List.append_nil, ← valueAt_gap _ hlead] at hread
  unfold Tree.read?
  rw [String.toList_ofList]
  dsimp only
  rw [hread]
  rfl

end Storyboard.Json
