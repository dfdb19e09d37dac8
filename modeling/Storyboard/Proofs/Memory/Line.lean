import Mathlib
import Storyboard.Memory.Directory
import Storyboard.Proofs.Json.Swallow
import Storyboard.Proofs.Story.Codec

/-!
# Records as lines

A record is written into a log as one line.  The line may fail to be read, as when its steps nest
too deep, but what is read of it has the digest, the label, the rating and the program of the record;
and a record that is fit to be written is read back (`Writable.parse?_line`).
-/

namespace Storyboard

namespace Json

/-! ## Text on one line -/

theorem hexDigit_ne_newline (n : Nat) : hexDigit n ≠ '\n' := by
  have h : ∀ k : Fin 16, Nat.digitChar k ≠ '\n' := by decide
  exact h ⟨n % 16, Nat.mod_lt n (by decide)⟩

theorem newline_not_mem_escapeChar (c : Char) : '\n' ∉ escapeChar c := by
  have hhex := fun n => Ne.symm (hexDigit_ne_newline n)
  by_cases hc : c = '\n'
  · subst hc
    decide
  · unfold escapeChar
    split_ifs <;> simp [hhex, Ne.symm hc]

theorem newline_not_mem_quoted (s : String) : '\n' ∉ quoted s := by
  have hbody : '\n' ∉ s.toList.flatMap escapeChar := by
    rw [List.mem_flatMap]
    rintro ⟨c, -, hc⟩
    exact newline_not_mem_escapeChar c hc
  simp [quoted, hbody]

theorem Numeral.IsProper.newline_not_mem {numeral : Numeral} (h : numeral.IsProper) :
    '\n' ∉ numeral.chars :=
  fun hmem => absurd (h.isNumeralChar '\n' hmem) (by decide)

mutual

/-- The text of a value without blanks stands on one line. -/
theorem newline_not_mem_compactChars : ∀ value : Json, '\n' ∉ compactChars value
  | .null | .bool true | .bool false => by simp [compactChars]
  | .int n => by
    rw [compactChars, ← chars_numeralOf]
    exact (isProper_numeralOf n).newline_not_mem
  | .float x => by
    rw [compactChars]
    obtain ⟨hchars, -⟩ | ⟨numeral, hproper, hchars, -⟩ := floatChars_cases x
    · rw [hchars]
      decide
    · rw [hchars]
      exact hproper.newline_not_mem
  | .str s => by
    rw [compactChars]
    exact newline_not_mem_quoted s
  | .arr items => by simp [compactChars, newline_not_mem_compactItems items]
  | .obj members => by simp [compactChars, newline_not_mem_compactMembers members]

@[inherit_doc newline_not_mem_compactChars]
theorem newline_not_mem_compactItems : ∀ items : List Json, '\n' ∉ compactItems items
  | [] => by simp [compactItems]
  | [item] => by
    rw [compactItems]
    exact newline_not_mem_compactChars item
  | item :: next :: rest => by
    simp [compactItems, newline_not_mem_compactChars item,
      newline_not_mem_compactItems (next :: rest)]

@[inherit_doc newline_not_mem_compactChars]
theorem newline_not_mem_compactMembers : ∀ members : List (String × Json),
    '\n' ∉ compactMembers members
  | [] => by simp [compactMembers]
  | [(key, value)] => by
    simp [compactMembers, newline_not_mem_quoted key, newline_not_mem_compactChars value]
  | (key, value) :: next :: rest => by
    simp [compactMembers, newline_not_mem_quoted key, newline_not_mem_compactChars value,
      newline_not_mem_compactMembers (next :: rest)]

end

/-! ## Numbers in range -/

theorem takeDigits_all {acc significand : Nat} {digits : List Char}
    (h : takeDigits acc digits = (significand, [])) :
    significand = Decimal.digitsValue acc digits := by
  induction digits generalizing acc with
  | nil => exact (congrArg Prod.fst h).symm
  | cons d ds ih =>
    rw [takeDigits] at h
    split at h
    · have hstep : acc * 10 + (d.toNat - '0'.toNat) = 10 * acc + (d.toNat - '0'.toNat) := by omega
      rw [ih h, hstep]
      rfl
    · cases h

/-- The numeral of a natural number denotes no other integer, even where the number is too great. -/
theorem eq_of_value?_numeralOf {n : Nat} {m : Int} (h : (numeralOf n).value? = some (.int m)) :
    m = n := by
  unfold Numeral.value? numeralOf at h
  rw [Int.natAbs_natCast, decide_eq_false (by omega)] at h
  cases htaken : takeDigits 0 (Decimal.natDigits n) with
  | mk significand uncounted =>
    rw [htaken] at h
    cases uncounted with
    | nil =>
      have hall := takeDigits_all htaken
      rw [Decimal.digitsValue_natDigits] at hall
      obtain ⟨⟩ := Option.some.inj h
      rw [hall]
    | cons c cs =>
      obtain ⟨x, -, hx⟩ := Option.map_eq_some_iff.mp h
      cases hx

/-- A natural number that is read within a bound is the one that was written. -/
theorem below?_treeOf_ofNat {limit bound n m : Nat} {value : Json}
    (hvalue : (treeOf (.ofNat n)).value? limit = some value) (h : value.below? bound = some m) :
    m = n := by
  rw [ofNat, treeOf, Tree.value?] at hvalue
  obtain ⟨number, hnumber, rfl⟩ := Option.map_eq_some_iff.mp hvalue
  cases number with
  | float x => cases h
  | int k =>
    obtain rfl := eq_of_value?_numeralOf hnumber
    obtain ⟨-, hm⟩ := (Option.ite_none_right_eq_some ..).mp h
    exact (Option.some.inj hm).symm

end Json

namespace Memory.Record

/-- The line of a record in a log. -/
def line (record : Record) : String := record.toJson.compact

/-- What records are compared by. -/
def key (record : Record) : String × Nat × String := (record.digest, record.rating, record.code)

/-- The members of a record. -/
def members (record : Record) : List (String × Json) :=
  [("pattern_hash", .str record.digest), ("concept", .str record.label),
    ("steps", Step.listToJson record.steps), ("meta", record.header.elim .null Header.toJson),
    ("rating", .ofNat record.rating), ("code", .str record.code),
    ("learned_at", .str (record.learnedAt.write "Z"))]

theorem toJson_eq (record : Record) : record.toJson = .obj record.members := rfl

theorem toList_line (record : Record) : record.line.toList = Json.compactChars record.toJson :=
  String.toList_ofList

theorem newline_not_mem_line (record : Record) : '\n' ∉ record.line.toList := by
  rw [toList_line]
  exact Json.newline_not_mem_compactChars _

/-- The line of a record ends with a brace. -/
theorem getLast?_line (record : Record) : record.line.toList.getLast? = some '\x7d' := by
  rw [toList_line, toJson, Json.compactChars, ← List.cons_append]
  exact List.getLast?_concat ..

/-- Fields that are written are read one by one. -/
theorem fieldsOf?_written {members fields : List (String × Json)}
    (hkeys : ∀ member ∈ members, member.1 ∈ keys)
    (h : fieldsOf? (Json.memberTreesOf members) = some fields) :
    List.Forall₂ (fun member field => ∃ value, field = (member.1, value) ∧
      (Json.treeOf member.2).value? (Json.depthLimit - 1) = some value) members fields := by
  induction members generalizing fields with
  | nil =>
    cases h
    exact .nil
  | cons member rest ih =>
    obtain ⟨name, value⟩ := member
    rw [List.forall_mem_cons] at hkeys
    have hname : keys.contains name = true := List.contains_iff_mem.mpr hkeys.1
    rw [Json.memberTreesOf, fieldsOf?, Json.joinString?_piecesOf] at h
    simp only [Option.bind_eq_bind, Option.bind_some, hname, if_true] at h
    obtain ⟨others, hothers, hfields⟩ := Option.bind_eq_some_iff.mp h
    obtain ⟨read, hread, hcons⟩ := Option.bind_eq_some_iff.mp hfields
    cases hcons
    exact .cons ⟨read, rfl, hread⟩ (ih hkeys.2 hothers)

/-- Fields that are written without floats and not too deep are all read. -/
theorem fieldsOf?_memberTreesOf {members : List (String × Json)}
    (hkeys : ∀ member ∈ members, member.1 ∈ keys)
    (hexact : Json.membersAreExact members = true)
    (hdepth : Json.membersDepth members ≤ Json.depthLimit - 1) :
    fieldsOf? (Json.memberTreesOf members) = some members := by
  induction members with
  | nil => rfl
  | cons member rest ih =>
    obtain ⟨name, value⟩ := member
    rw [List.forall_mem_cons] at hkeys
    rw [Json.membersAreExact, Bool.and_eq_true] at hexact
    rw [Json.membersDepth, Nat.max_le] at hdepth
    have hname : keys.contains name = true := List.contains_iff_mem.mpr hkeys.1
    have hvalue : (Json.treeOf value).value? (Json.depthLimit - 1) = some value := by
      rw [Json.value?_treeOf _ value hexact.1, if_pos hdepth.1]
    rw [Json.memberTreesOf, fieldsOf?, Json.joinString?_piecesOf]
    simp only [Option.bind_eq_bind, Option.bind_some, ih hkeys.2 hexact.2 hdepth.2, hname, if_true,
      hvalue]
    rfl

theorem value?_treeOf_str {limit : Nat} {s : String} {value : Json}
    (h : (Json.treeOf (.str s)).value? limit = some value) : value = .str s := by
  rw [Json.treeOf, Json.Tree.value?, Json.joinString?_piecesOf] at h
  exact (Option.some.inj h).symm

/-- The line of a record is read as its tree, also behind blanks. -/
theorem read?_line {gap : List Char} (hgap : Json.IsGap gap) (record : Record) :
    Json.Tree.read? (String.ofList gap ++ record.line) = some (Json.treeOf record.toJson) := by
  rw [line, Json.compact, ← String.ofList_append]
  exact Json.read?_of_writes hgap (Json.writes_compact _)

/-- The line of a record is read field by field. -/
theorem parse?_line_eq (record : Record) :
    parse? record.line = (fieldsOf? (Json.memberTreesOf record.members)).bind ofMembers? := by
  have hline := read?_line Json.isGap_nil record
  rw [String.ofList_nil, String.empty_append] at hline
  rw [parse?, hline, toJson_eq, Json.treeOf]

/-- What a record needs to be read back from its line: steps and a header that can be, a rating and
numbers that fit, and no more nesting than a reader allows. -/
structure Writable (record : Record) : Prop where
  steps : ∀ step ∈ record.steps, step.Writable ∧ step.Fits
  header : ∀ header, record.header = some header → header.Writable
  rating : record.rating < 256
  time : Timestamp.read? (record.learnedAt.write "Z") = some record.learnedAt
  exact : record.toJson.isExact = true
  depth : record.toJson.depth ≤ Json.depthLimit

/-- The record as it comes back from its line. -/
def reread (record : Record) : Record :=
  { record with
    steps := record.steps.map Step.withoutNull
    header := record.header.map Header.reread }

theorem lenientHeader_written {header : Option Header}
    (h : ∀ h, header = some h → h.Writable) :
    lenientHeader (some (header.elim .null Header.toJson)) = header.map Header.reread := by
  cases header with
  | none => rfl
  | some header => exact Header.ofJson?_canonical (h header rfl)

/-- A record is read back from its line. -/
theorem Writable.parse?_line {record : Record} (h : record.Writable) :
    parse? record.line = some record.reread := by
  have hdepth := h.depth
  rw [toJson_eq, Json.depth] at hdepth
  have hfields : fieldsOf? (Json.memberTreesOf record.members) = some record.members :=
    fieldsOf?_memberTreesOf (by simp [members, keys]) h.exact (by omega)
  have honce : eachOnce keys record.members = true := by rfl
  have hsteps := Step.listOfJson?_toJson h.steps
  have hrating : Json.below? 256 (.ofNat record.rating) = some record.rating := by
    have := h.rating
    rw [Json.ofNat, Json.below?, if_pos (by omega), Int.toNat_natCast]
  rw [parse?_line_eq, hfields, Option.bind_some, ofMembers?, if_pos honce]
  simp [members, List.lookup_cons, eitherMember?, readDefault, Json.str?, hsteps, h.time, hrating,
    lenientHeader_written h.header, reread]

theorem read?_epoch : Timestamp.read? (Timestamp.epoch.write "Z") = some Timestamp.epoch := by
  decide +kernel

/-- Blanks before the line of a record do not count. -/
theorem parse?_gap_line {gap : List Char} (hgap : Json.IsGap gap) (record : Record) :
    parse? (String.ofList gap ++ record.line) = parse? record.line := by
  have hline := read?_line Json.isGap_nil record
  rw [String.ofList_nil, String.empty_append] at hline
  rw [parse?, read?_line hgap, parse?, hline]

/-- Behind what is not blank the line of a record is lost, and what stands before it as well. -/
theorem parse?_swallowed_line {front : List Char} (h : ¬ Json.IsGap front) (record : Record) :
    parse? (String.ofList front ++ record.line) = none := by
  obtain ⟨v, hv⟩ : ∃ v, Json.compactChars record.toJson = Json.keyed 'p' v := ⟨_, rfl⟩
  have hwrites := Json.writes_compact record.toJson
  rw [hv] at hwrites
  have halone := Json.standsAlone_of_writes (by decide) hwrites
  rw [line, Json.compact, hv, ← String.ofList_append, parse?, Json.read?_swallowed halone h]

/-- What is read of the line of a record has the key and the label of the record, and the steps that
are read of its steps. -/
theorem of_parse?_line {record found : Record} (h : parse? record.line = some found) :
    found.key = record.key ∧ found.label = record.label ∧ ∃ steps,
      (Json.treeOf (Step.listToJson record.steps)).value? (Json.depthLimit - 1) = some steps ∧
        Step.listOfJson? steps = some found.steps := by
  rw [parse?_line_eq, members] at h
  obtain ⟨fields, hfields, hfound⟩ := Option.bind_eq_some_iff.mp h
  have hread := fieldsOf?_written (by simp [keys]) hfields
  simp only [List.forall₂_cons_left_iff, List.forall₂_nil_left_iff] at hread
  obtain ⟨_, _, ⟨digest, rfl, hdigest⟩, ⟨_, _, ⟨label, rfl, hlabel⟩, ⟨_, _, ⟨steps, rfl, hsteps⟩,
    ⟨_, _, ⟨header, rfl, -⟩, ⟨_, _, ⟨rating, rfl, hrating⟩, ⟨_, _, ⟨code, rfl, hcode⟩,
    ⟨_, _, ⟨time, rfl, -⟩, rfl, rfl⟩, rfl⟩, rfl⟩, rfl⟩, rfl⟩, rfl⟩, rfl⟩ := hread
  obtain rfl := value?_treeOf_str hdigest
  obtain rfl := value?_treeOf_str hlabel
  obtain rfl := value?_treeOf_str hcode
  obtain ⟨-, hmembers⟩ := (Option.ite_none_right_eq_some ..).mp hfound
  simp only [List.lookup_cons, List.lookup_nil, String.reduceBEq, Option.bind_eq_bind,
    Option.bind_some, readDefault, eitherMember?, Json.str?, Option.bind_eq_some_iff] at hmembers
  obtain ⟨_, hlist, n, hn, _, -, ⟨⟩⟩ := hmembers
  obtain rfl := Json.below?_treeOf_ofNat hrating hn
  exact ⟨rfl, rfl, steps, hsteps, hlist⟩

end Memory.Record

end Storyboard
