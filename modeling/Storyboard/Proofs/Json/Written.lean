import Storyboard.Proofs.Json.Fraction
import Storyboard.Proofs.Json.Grammar

/-!
# Reading written values

`Writes` is what the two ways of writing a value have in common: the tokens of the value, with blanks
between them.  Whatever is written so is a text of the grammar, so that it is read, and nesting alone
decides whether it denotes the value again.
-/

namespace Storyboard.Json

/-! ## Values without fractions -/

mutual

/-- The value holds no fraction, and its integers fit 64 bits. -/
def isExact : Json → Bool
  | .float _ => false
  | .int n => fitsWord n
  | .arr items => areExact items
  | .obj members => membersAreExact members
  | _ => true

@[inherit_doc isExact]
def areExact : List Json → Bool
  | [] => true
  | item :: rest => isExact item && areExact rest

@[inherit_doc isExact]
def membersAreExact : List (String × Json) → Bool
  | [] => true
  | (_, value) :: rest => isExact value && membersAreExact rest

end

mutual

/-- How deep arrays and objects nest in the value. -/
def depth : Json → Nat
  | .arr items => itemsDepth items + 1
  | .obj members => membersDepth members + 1
  | _ => 0

/-- The greatest depth among items. -/
def itemsDepth : List Json → Nat
  | [] => 0
  | item :: rest => max (depth item) (itemsDepth rest)

/-- The greatest depth among the values of members. -/
def membersDepth : List (String × Json) → Nat
  | [] => 0
  | (_, value) :: rest => max (depth value) (membersDepth rest)

end

mutual

/-- The tree of a value that is written. -/
def treeOf : Json → Tree
  | .null => .null
  | .bool b => .bool b
  | .int n => .number (numeralOf n)
  | .float x => floatTree x
  | .str s => .string (piecesOf s)
  | .arr items => .array (treesOf items)
  | .obj members => .object (memberTreesOf members)

/-- The trees of items. -/
def treesOf : List Json → List Tree
  | [] => []
  | item :: rest => treeOf item :: treesOf rest

/-- The trees of members. -/
def memberTreesOf : List (String × Json) → List (List Piece × Tree)
  | [] => []
  | (key, value) :: rest => (piecesOf key, treeOf value) :: memberTreesOf rest

end

/-! ## What a written value denotes -/

mutual

/-- Every integer in the value fits 64 bits. -/
def fitsWords : Json → Bool
  | .int n => fitsWord n
  | .arr items => itemsFitWords items
  | .obj members => membersFitWords members
  | _ => true

@[inherit_doc fitsWords]
def itemsFitWords : List Json → Bool
  | [] => true
  | item :: rest => fitsWords item && itemsFitWords rest

@[inherit_doc fitsWords]
def membersFitWords : List (String × Json) → Bool
  | [] => true
  | (_, value) :: rest => fitsWords value && membersFitWords rest

end

/-- What the text of a double denotes: a double, though not always the same one, or null. -/
def denotedFloat (x : Float) : Json := ((floatTree x).value? 0).getD .null

mutual

/-- The value that the text of a value denotes. -/
def denoted : Json → Json
  | .float x => denotedFloat x
  | .arr items => .arr (denotedItems items)
  | .obj members => .obj (denotedMembers members)
  | value => value

@[inherit_doc denoted]
def denotedItems : List Json → List Json
  | [] => []
  | item :: rest => denoted item :: denotedItems rest

@[inherit_doc denoted]
def denotedMembers : List (String × Json) → List (String × Json)
  | [] => []
  | (key, value) :: rest => (key, denoted value) :: denotedMembers rest

end

theorem value?_floatTree (x : Float) (limit : Nat) :
    (floatTree x).value? limit = some (denotedFloat x) := by
  have hlimit : (floatTree x).value? limit = (floatTree x).value? 0 := by
    obtain ⟨-, htree⟩ | ⟨numeral, -, -, htree, -⟩ := floatChars_cases x <;>
      rw [htree, Tree.value?, Tree.value?]
  obtain ⟨value, hvalue⟩ := Option.isSome_iff_exists.mp (isSome_floatTree x 0)
  rw [hlimit, denotedFloat, hvalue]
  rfl

mutual

/-- The tree of a value denotes what its text does, unless it nests too deep. -/
theorem value?_treeOf_denoted (limit : Nat) : ∀ value : Json, value.fitsWords = true →
    (treeOf value).value? limit = if value.depth ≤ limit then some value.denoted else none
  | .null, _ => by simp [treeOf, Tree.value?, depth, denoted]
  | .bool b, _ => by simp [treeOf, Tree.value?, depth, denoted]
  | .int n, h => by simp [treeOf, Tree.value?, value?_numeralOf h, depth, denoted]
  | .float x, _ => by simp [treeOf, value?_floatTree, depth, denoted]
  | .str s, _ => by simp [treeOf, Tree.value?, joinString?_piecesOf, depth, denoted]
  | .arr items, h => by
    -- an array is one level deeper than its items
    cases limit with
    | zero => rw [treeOf, Tree.value?, depth, if_neg (by omega)]
    | succ limit =>
      rw [treeOf, Tree.value?, itemValues?_treesOf limit items h, depth, denoted]
      by_cases hdeep : itemsDepth items ≤ limit
      · rw [if_pos hdeep, if_pos (by omega)]
        rfl
      · rw [if_neg hdeep, if_neg (by omega)]
        rfl
  | .obj members, h => by
    cases limit with
    | zero => rw [treeOf, Tree.value?, depth, if_neg (by omega)]
    | succ limit =>
      rw [treeOf, Tree.value?, memberValues?_memberTreesOf limit members h, depth, denoted]
      by_cases hdeep : membersDepth members ≤ limit
      · rw [if_pos hdeep, if_pos (by omega)]
        rfl
      · rw [if_neg hdeep, if_neg (by omega)]
        rfl

@[inherit_doc value?_treeOf_denoted]
theorem itemValues?_treesOf (limit : Nat) : ∀ items : List Json, itemsFitWords items = true →
    itemValues? limit (treesOf items) =
      if itemsDepth items ≤ limit then some (denotedItems items) else none
  | [], _ => by rw [treesOf, itemValues?, itemsDepth, if_pos (Nat.zero_le limit), denotedItems]
  | item :: rest, h => by
    rw [itemsFitWords, Bool.and_eq_true] at h
    rw [treesOf, itemValues?, value?_treeOf_denoted limit item h.1,
      itemValues?_treesOf limit rest h.2, itemsDepth, denotedItems]
    by_cases hitem : item.depth ≤ limit
    · by_cases hrest : itemsDepth rest ≤ limit
      · rw [if_pos hitem, if_pos hrest, if_pos (by omega)]
        rfl
      · rw [if_pos hitem, if_neg hrest, if_neg (by omega)]
        rfl
    · rw [if_neg hitem]
      exact (if_neg (by omega)).symm

@[inherit_doc value?_treeOf_denoted]
theorem memberValues?_memberTreesOf (limit : Nat) : ∀ members : List (String × Json),
    membersFitWords members = true → memberValues? limit (memberTreesOf members) =
      if membersDepth members ≤ limit then some (denotedMembers members) else none
  | [], _ => by
    rw [memberTreesOf, memberValues?, membersDepth, if_pos (Nat.zero_le limit), denotedMembers]
  | (key, value) :: rest, h => by
    rw [membersFitWords, Bool.and_eq_true] at h
    rw [memberTreesOf, memberValues?, joinString?_piecesOf,
      value?_treeOf_denoted limit value h.1, memberValues?_memberTreesOf limit rest h.2,
      membersDepth, denotedMembers]
    by_cases hvalue : value.depth ≤ limit
    · by_cases hrest : membersDepth rest ≤ limit
      · rw [if_pos hvalue, if_pos hrest, if_pos (by omega)]
        rfl
      · rw [if_pos hvalue, if_neg hrest, if_neg (by omega)]
        rfl
    · rw [if_neg hvalue]
      exact (if_neg (by omega)).symm

end

mutual

/-- Without fractions, the text of a value denotes the value. -/
theorem denoted_of_isExact : ∀ value : Json, value.isExact = true →
    value.fitsWords = true ∧ value.denoted = value
  | .null, _ | .bool _, _ | .str _, _ => ⟨rfl, rfl⟩
  | .int _, h => ⟨h, rfl⟩
  | .arr items, h => by
    obtain ⟨hfits, hdenoted⟩ := denotedItems_of_areExact items h
    exact ⟨hfits, by rw [denoted, hdenoted]⟩
  | .obj members, h => by
    obtain ⟨hfits, hdenoted⟩ := denotedMembers_of_areExact members h
    exact ⟨hfits, by rw [denoted, hdenoted]⟩

@[inherit_doc denoted_of_isExact]
theorem denotedItems_of_areExact : ∀ items : List Json, areExact items = true →
    itemsFitWords items = true ∧ denotedItems items = items
  | [], _ => ⟨rfl, rfl⟩
  | item :: rest, h => by
    rw [areExact, Bool.and_eq_true] at h
    obtain ⟨hfits, hdenoted⟩ := denoted_of_isExact item h.1
    obtain ⟨hothers, hrest⟩ := denotedItems_of_areExact rest h.2
    exact ⟨by rw [itemsFitWords, hfits, hothers]; rfl, by rw [denotedItems, hdenoted, hrest]⟩

@[inherit_doc denoted_of_isExact]
theorem denotedMembers_of_areExact : ∀ members : List (String × Json),
    membersAreExact members = true →
      membersFitWords members = true ∧ denotedMembers members = members
  | [], _ => ⟨rfl, rfl⟩
  | (key, value) :: rest, h => by
    rw [membersAreExact, Bool.and_eq_true] at h
    obtain ⟨hfits, hdenoted⟩ := denoted_of_isExact value h.1
    obtain ⟨hothers, hrest⟩ := denotedMembers_of_areExact rest h.2
    exact ⟨by rw [membersFitWords, hfits, hothers]; rfl, by rw [denotedMembers, hdenoted, hrest]⟩

end

/-- The tree of a value without fractions denotes the value, unless it nests too deep. -/
theorem value?_treeOf (limit : Nat) (value : Json) (h : value.isExact = true) :
    (treeOf value).value? limit = if value.depth ≤ limit then some value else none := by
  obtain ⟨hfits, hdenoted⟩ := denoted_of_isExact value h
  rw [value?_treeOf_denoted limit value hfits, hdenoted]

/-! ## Order of members

What the text of a value denotes has its members in the order of the value, so that sorting them
before or after makes no difference. -/

theorem denotedItems_eq_map (items : List Json) : denotedItems items = items.map denoted := by
  induction items with
  | nil => rfl
  | cons item rest ih => rw [denotedItems, ih, List.map_cons]

theorem denotedMembers_eq_map (members : List (String × Json)) :
    denotedMembers members = members.map fun member => (member.1, member.2.denoted) := by
  induction members with
  | nil => rfl
  | cons member rest ih => rw [denotedMembers, ih, List.map_cons]

theorem denotedMembers_insertMember (key : String) (value : Json) (members : List (String × Json)) :
    denotedMembers (insertMember key value members) =
      insertMember key value.denoted (denotedMembers members) := by
  induction members with
  | nil => rfl
  | cons member rest ih =>
    rw [insertMember, denotedMembers, insertMember]
    split_ifs
    · rw [denotedMembers]
    · rw [denotedMembers, denotedMembers]
    · rw [denotedMembers, ih]

theorem denotedMembers_sortMembers (members : List (String × Json)) :
    denotedMembers (sortMembers members) = sortMembers (denotedMembers members) := by
  rw [denotedMembers_eq_map members, sortMembers, sortMembers, List.foldl_map]
  refine (List.foldl_hom denotedMembers fun sorted (member : String × Json) => ?_).symm
  exact (denotedMembers_insertMember member.1 member.2 sorted).symm

/-- A number has no members to be sorted. -/
theorem canonical_denotedFloat (x : Float) : (denotedFloat x).canonical = denotedFloat x := by
  unfold denotedFloat
  obtain ⟨-, htree⟩ | ⟨numeral, -, -, htree, -⟩ := floatChars_cases x
  · rw [htree]
    rfl
  · rw [htree, Tree.value?]
    rcases numeral.value? with _ | number
    · rfl
    · cases number <;> rfl

mutual

/-- The canonical form of a value is denoted in canonical form. -/
theorem canonical_denoted : ∀ value : Json, value.denoted.canonical = value.canonical.denoted
  | .null | .bool _ | .int _ | .str _ => rfl
  | .float x => canonical_denotedFloat x
  | .arr items => by
    rw [denoted, canonical, canonical, denoted, canonicalItems_denotedItems items]
  | .obj members => by
    rw [denoted, canonical, canonical, denoted, denotedMembers_sortMembers,
      canonicalMembers_denotedMembers members]

@[inherit_doc canonical_denoted]
theorem canonicalItems_denotedItems : ∀ items : List Json,
    canonicalItems (denotedItems items) = denotedItems (canonicalItems items)
  | [] => rfl
  | item :: rest => by
    rw [denotedItems, canonicalItems, canonicalItems, denotedItems, canonical_denoted item,
      canonicalItems_denotedItems rest]

@[inherit_doc canonical_denoted]
theorem canonicalMembers_denotedMembers : ∀ members : List (String × Json),
    canonicalMembers (denotedMembers members) = denotedMembers (canonicalMembers members)
  | [] => rfl
  | (key, value) :: rest => by
    rw [denotedMembers, canonicalMembers, canonicalMembers, denotedMembers,
      canonical_denoted value, canonicalMembers_denotedMembers rest]

end

/-! ## Ways of writing -/

mutual

/-- The text is the value, with blanks between its tokens. -/
inductive Writes : Json → List Char → Prop
  | null : Writes .null ['n', 'u', 'l', 'l']
  | true : Writes (.bool true) ['t', 'r', 'u', 'e']
  | false : Writes (.bool false) ['f', 'a', 'l', 's', 'e']
  | int (n : Int) : Writes (.int n) (Decimal.intText n).toList
  | float (x : Float) : Writes (.float x) (floatChars x)
  | str (s : String) : Writes (.str s) (quoted s)
  | noItems : Writes (.arr []) ['[', ']']
  | arr {items : List Json} {cs gap : List Char} (written : WritesItems items cs)
      (blank : IsGap gap) : Writes (.arr items) ('[' :: (cs ++ gap ++ [']']))
  | noMembers : Writes (.obj []) ['\x7b', '\x7d']
  | obj {members : List (String × Json)} {cs gap : List Char}
      (written : WritesMembers members cs) (blank : IsGap gap) :
      Writes (.obj members) ('\x7b' :: (cs ++ gap ++ ['\x7d']))

/-- The text is some items, of which there is at least one, with commas between them. -/
inductive WritesItems : List Json → List Char → Prop
  | last {item : Json} {gap cs : List Char} (blank : IsGap gap) (written : Writes item cs) :
      WritesItems [item] (gap ++ cs)
  | cons {item : Json} {rest : List Json} {gap cs more : List Char} (blank : IsGap gap)
      (written : Writes item cs) (others : WritesItems rest more) :
      WritesItems (item :: rest) (gap ++ cs ++ ',' :: more)

/-- The text is some members, of which there is at least one, with commas between them. -/
inductive WritesMembers : List (String × Json) → List Char → Prop
  | last {key : String} {value : Json} {gap between cs : List Char} (blank : IsGap gap)
      (blankBetween : IsGap between) (written : Writes value cs) :
      WritesMembers [(key, value)] (gap ++ quoted key ++ ':' :: (between ++ cs))
  | cons {key : String} {value : Json} {rest : List (String × Json)}
      {gap between cs more : List Char} (blank : IsGap gap) (blankBetween : IsGap between)
      (written : Writes value cs) (others : WritesMembers rest more) :
      WritesMembers ((key, value) :: rest)
        (gap ++ quoted key ++ ':' :: (between ++ cs ++ ',' :: more))

end

theorem isGap_newline (level : Nat) : IsGap (newline level) := by
  intro c hc
  rcases List.mem_cons.mp hc with rfl | hc
  · rfl
  · rw [(List.mem_replicate.mp hc).2]
    rfl

mutual

/-- The indented text of a value is one way to write it. -/
theorem writes_pretty (level : Nat) : ∀ value : Json, value.isExact = true →
    Writes value (prettyChars level value)
  | .null, _ => by simpa only [prettyChars, compactChars] using .null
  | .bool true, _ => by simpa only [prettyChars, compactChars] using .true
  | .bool false, _ => by simpa only [prettyChars, compactChars] using .false
  | .int n, _ => by simpa only [prettyChars, compactChars] using .int n
  | .str s, _ => by simpa only [prettyChars, compactChars] using .str s
  | .arr [], _ => by simpa only [prettyChars] using .noItems
  | .arr (item :: rest), h => by
    rw [prettyChars]
    exact .arr (writesItems_pretty (level + 1) (item :: rest) h (List.cons_ne_nil _ _))
      (isGap_newline level)
  | .obj [], _ => by simpa only [prettyChars] using .noMembers
  | .obj (member :: rest), h => by
    rw [prettyChars]
    exact .obj (writesMembers_pretty (level + 1) (member :: rest) h (List.cons_ne_nil _ _))
      (isGap_newline level)

@[inherit_doc writes_pretty]
theorem writesItems_pretty (level : Nat) : ∀ items : List Json, areExact items = true →
    items ≠ [] → WritesItems items (prettyItems level items)
  | [], _, hne => absurd rfl hne
  | [item], h, _ => by
    rw [areExact, Bool.and_eq_true] at h
    rw [prettyItems]
    exact .last (isGap_newline level) (writes_pretty level item h.1)
  | item :: next :: rest, h, _ => by
    rw [areExact, Bool.and_eq_true] at h
    rw [prettyItems]
    · exact .cons (isGap_newline level) (writes_pretty level item h.1)
        (writesItems_pretty level (next :: rest) h.2 (List.cons_ne_nil _ _))
    · nofun

@[inherit_doc writes_pretty]
theorem writesMembers_pretty (level : Nat) : ∀ members : List (String × Json),
    membersAreExact members = true → members ≠ [] →
      WritesMembers members (prettyMembers level members)
  | [], _, hne => absurd rfl hne
  | [(key, value)], h, _ => by
    rw [membersAreExact, Bool.and_eq_true] at h
    rw [prettyMembers]
    exact .last (isGap_newline level) isGap_blank (writes_pretty level value h.1)
  | (key, value) :: next :: rest, h, _ => by
    rw [membersAreExact, Bool.and_eq_true] at h
    rw [prettyMembers]
    · exact .cons (isGap_newline level) isGap_blank (writes_pretty level value h.1)
        (writesMembers_pretty level (next :: rest) h.2 (List.cons_ne_nil _ _))
    · nofun

end

mutual

/-- The text of a value without blanks is one way to write it. -/
theorem writes_compact : ∀ value : Json, Writes value (compactChars value)
  | .null => by simpa only [compactChars] using .null
  | .bool true => by simpa only [compactChars] using .true
  | .bool false => by simpa only [compactChars] using .false
  | .int n => by simpa only [compactChars] using .int n
  | .float x => by simpa only [compactChars] using .float x
  | .str s => by simpa only [compactChars] using .str s
  | .arr [] => by simpa only [compactChars, compactItems] using .noItems
  | .arr (item :: rest) => by
    have hwrites := Writes.arr (writesItems_compact (item :: rest) (List.cons_ne_nil _ _)) isGap_nil
    rwa [List.append_nil] at hwrites
  | .obj [] => by simpa only [compactChars, compactMembers] using .noMembers
  | .obj (member :: rest) => by
    have hwrites :=
      Writes.obj (writesMembers_compact (member :: rest) (List.cons_ne_nil _ _)) isGap_nil
    rwa [List.append_nil] at hwrites

@[inherit_doc writes_compact]
theorem writesItems_compact : ∀ items : List Json, items ≠ [] →
    WritesItems items (compactItems items)
  | [], hne => absurd rfl hne
  | [item], _ => by
    rw [compactItems]
    exact .last isGap_nil (writes_compact item)
  | item :: next :: rest, _ => by
    rw [compactItems]
    · exact .cons isGap_nil (writes_compact item)
        (writesItems_compact (next :: rest) (List.cons_ne_nil _ _))
    · nofun

@[inherit_doc writes_compact]
theorem writesMembers_compact : ∀ members : List (String × Json), members ≠ [] →
    WritesMembers members (compactMembers members)
  | [], hne => absurd rfl hne
  | [(key, value)], _ => by
    rw [compactMembers]
    exact .last isGap_nil isGap_nil (writes_compact value)
  | (key, value) :: next :: rest, _ => by
    rw [compactMembers]
    · exact .cons isGap_nil isGap_nil (writes_compact value)
        (writesMembers_compact (next :: rest) (List.cons_ne_nil _ _))
    · nofun

end

/-! ## Reading -/

/-- The text of a double is that of its numeral, or null. -/
theorem isText_floatChars (x : Float) : IsText (floatTree x) (floatChars x) := by
  obtain ⟨hchars, htree⟩ | ⟨numeral, hproper, hchars, htree, -⟩ := floatChars_cases x
  · rw [hchars, htree]
    exact .null
  · rw [hchars, htree]
    exact .number hproper.isNumber

theorem isText_integer (n : Int) :
    IsText (.number (numeralOf n)) (Decimal.intText n).toList := by
  rw [← chars_numeralOf]
  exact .number (isProper_numeralOf n).isNumber

theorem isKey_quoted {lead between : List Char} (hlead : IsGap lead) (hbetween : IsGap between)
    (key : String) : IsKey (piecesOf key) (lead ++ quoted key ++ ':' :: between) := by
  have hkey := IsKey.mk hlead (isBody_escaped key.toList) isGap_nil hbetween
  simpa [quoted, piecesOf] using hkey

mutual

/-- A written value is a text of the grammar. -/
theorem Writes.isText : ∀ {value : Json} {cs : List Char}, Writes value cs →
    IsText (treeOf value) cs
  | _, _, .null => .null
  | _, _, .true => .true
  | _, _, .false => .false
  | _, _, .int n => isText_integer n
  | _, _, .float x => isText_floatChars x
  | _, _, .str s => .string (isBody_escaped s.toList)
  | _, _, .noItems => .noItems isGap_nil
  | _, _, .noMembers => .noMembers isGap_nil
  | _, _, .arr written blank => .array written.isItems blank
  | _, _, .obj written blank => .object written.isMembers blank

@[inherit_doc Writes.isText]
theorem WritesItems.isItems : ∀ {items : List Json} {cs : List Char}, WritesItems items cs →
    IsItems (treesOf items) cs
  | _, _, .last blank written => .last blank written.isText
  | _, _, .cons blank written others => by
    have htexts := IsItems.cons blank written.isText isGap_nil others.isItems
    rwa [List.append_nil] at htexts

@[inherit_doc Writes.isText]
theorem WritesMembers.isMembers : ∀ {members : List (String × Json)} {cs : List Char},
    WritesMembers members cs → IsMembers (memberTreesOf members) cs
  | _, _, @WritesMembers.last key _ _ _ _ blank between written => by
    have htexts := IsMembers.last (isKey_quoted blank between key) written.isText
    simpa [memberTreesOf] using htexts
  | _, _, @WritesMembers.cons key _ _ _ _ _ _ blank between written others => by
    have htexts := IsMembers.cons (isKey_quoted blank between key) written.isText isGap_nil
      others.isMembers
    simpa [memberTreesOf] using htexts

end

/-- A written value is read up to its end. -/
theorem valueAt_writes {value : Json} {cs : List Char} (h : Writes value cs) (fuel : Nat)
    (rest : List Char) (hfuel : 2 * cs.length ≤ fuel) (hrest : EndsValue rest) :
    valueAt fuel (cs ++ rest) = some (treeOf value, rest) :=
  h.isText.reads fuel rest hfuel hrest

/-- A written value is read as its tree, also behind blanks. -/
theorem read?_of_writes {value : Json} {gap cs : List Char} (hgap : IsGap gap)
    (h : Writes value cs) : Tree.read? (String.ofList (gap ++ cs)) = some (treeOf value) :=
  h.isText.read? hgap

/-- A written value is read back as it was written, unless it nests too deep. -/
theorem parseAsWritten?_of_writes {value : Json} {cs : List Char} (hexact : value.isExact = true)
    (h : Writes value cs) : parseAsWritten? (String.ofList cs) =
      if value.depth ≤ depthLimit then some value else none := by
  have hread := read?_of_writes isGap_nil h
  rw [List.nil_append] at hread
  rw [parseAsWritten?, hread, Option.bind_some, value?_treeOf depthLimit value hexact]

/-- A written value is read back in canonical form, unless it nests too deep. -/
theorem parse?_of_writes {value : Json} {cs : List Char} (hexact : value.isExact = true)
    (h : Writes value cs) : parse? (String.ofList cs) =
      if value.depth ≤ depthLimit then some value.canonical else none := by
  rw [parse?, parseAsWritten?_of_writes hexact h]
  split
  next => rfl
  next => rfl

/-- The indented text of a value is read back as the value. -/
theorem parse?_pretty {value : Json} (hexact : value.isExact = true) : parse? value.pretty =
    if value.depth ≤ depthLimit then some value.canonical else none :=
  parse?_of_writes hexact (writes_pretty 0 value hexact)

end Storyboard.Json
