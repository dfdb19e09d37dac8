import Storyboard.Proofs.Concept.Resolve
import Storyboard.Proofs.Json.Written
import Storyboard.Proofs.Story.Flat
import Storyboard.Story.Basic

/-!
# Stories survive being written

A story of exact values that nests no deeper than the reader goes is read back from its text: every
field as it was, variables and extras as maps.  One thing is lost: a step whose value is null is
read as a step without a value.  A story that nests deeper is refused.
-/

namespace Storyboard

/-! ## Members -/

/-- The value is null. -/
def Json.isNull : Json → Bool
  | .null => true
  | _ => false

theorem Json.membersAreExact_iff {members : List (String × Json)} :
    membersAreExact members = true ↔ ∀ member ∈ members, member.2.isExact = true := by
  induction members with
  | nil => simp [membersAreExact]
  | cons member rest ih =>
    rw [membersAreExact, Bool.and_eq_true, ih, List.forall_mem_cons]

theorem Json.areExact_iff {items : List Json} :
    areExact items = true ↔ ∀ item ∈ items, item.isExact = true := by
  induction items with
  | nil => simp [areExact]
  | cons item rest ih => rw [areExact, Bool.and_eq_true, ih, List.forall_mem_cons]

theorem Json.IsCanonical.denoted {value : Json} (h : value.IsCanonical) :
    value.denoted.IsCanonical := by
  rw [IsCanonical, canonical_denoted, h]

theorem IsDataMap.denoted {entries : List (String × Json)} (h : IsDataMap entries) :
    IsDataMap (Json.denotedMembers entries) := by
  rw [Json.denotedMembers_eq_map]
  refine ⟨?_, List.forall_mem_map.mpr fun entry hentry => (h.canonical entry hentry).denoted⟩
  rw [KeysOnce, List.map_map]
  exact h.once

section Optional

variable {α : Type} {key : String} {encode : α → Json} {value : Option α}

theorem optionalMember_keys : ((optionalMember key encode value).map Prod.fst).Sublist [key] := by
  cases value with
  | none => exact List.nil_sublist _
  | some x => exact List.Sublist.refl _

theorem lookup_optionalMember (other : String) : (optionalMember key encode value).lookup other =
    if other = key then value.map encode else none := by
  cases value with
  | none => rw [optionalMember, List.lookup_nil, Option.map_none, ite_self]
  | some x =>
    rw [optionalMember, List.lookup_cons, List.lookup_nil, Option.map_some]
    by_cases h : other = key
    · rw [beq_iff_eq.mpr h, if_pos h]
    · rw [beq_false_of_ne h, if_neg h]

/-- A member that is written only when it has a value is read back. -/
theorem readOptional_written {decode : Json → Option α}
    (h : ∀ x, value = some x →
      decode (encode x).canonical = some x ∧ (encode x).canonical ≠ .null) :
    readOptional decode ((value.map encode).map Json.canonical) = some value := by
  cases value with
  | none => rfl
  | some x =>
    obtain ⟨hdecode, hnull⟩ := h x rfl
    rw [Option.map_some, Option.map_some, readOptional, hdecode]
    · rfl
    · exact hnull

theorem denotedMembers_optionalMember {f : α → α} (h : ∀ x, (encode x).denoted = encode (f x)) :
    Json.denotedMembers (optionalMember key encode value) =
      optionalMember key encode (value.map f) := by
  cases value with
  | none => rfl
  | some x => rw [Option.map_some, optionalMember, optionalMember, ← h]; rfl

theorem denotedMembers_optionalMember_same (h : ∀ x, (encode x).denoted = encode x) :
    Json.denotedMembers (optionalMember key encode value) = optionalMember key encode value := by
  rw [denotedMembers_optionalMember h, Option.map_id']

end Optional

/-- What is canonical is read from the value itself as it is from its text. -/
theorem readOptional_verbatim {β : Type} {decode : Json → Option β} {read : Option β}
    (h : ∀ x, value = some x → (encode x).IsCanonical)
    (hread : readOptional decode ((value.map encode).map Json.canonical) = some read) :
    readOptional decode (value.map encode) = some read := by
  cases value with
  | none => exact hread
  | some x => rwa [Option.map_some, Option.map_some, h x rfl] at hread

theorem readOptional_string (value : Option String) :
    readOptional Json.str? ((value.map Json.str).map Json.canonical) = some value :=
  readOptional_written fun _ _ => ⟨rfl, nofun⟩

theorem readOptional_ofNat {bound : Nat} {value : Option Nat}
    (h : ∀ n, value = some n → n < bound) :
    readOptional (Json.below? bound) ((value.map Json.ofNat).map Json.canonical) = some value := by
  refine readOptional_written fun n hvalue => ⟨?_, nofun⟩
  have hn : (0 : Int) ≤ n ∧ (n : Int) < bound := by
    have := h n hvalue
    omega
  exact if_pos hn

theorem readOptional_int64 {value : Option Int}
    (h : ∀ n, value = some n → Decimal.fitsInt64 n = true) :
    readOptional Json.int64? ((value.map Json.int).map Json.canonical) = some value :=
  readOptional_written fun n hvalue => ⟨if_pos (h n hvalue), nofun⟩

theorem readOptional_items {value : Option (List Json)}
    (h : ∀ items, value = some items → ∀ item ∈ items, item.IsCanonical) :
    readOptional canonicalItems? ((value.map Json.arr).map Json.canonical) = some value := by
  refine readOptional_written fun items hvalue => ?_
  have hitems := h items hvalue
  rw [Json.isCanonical_arr hitems, canonicalItems?, Json.canonicalItems_eq hitems]
  exact ⟨rfl, nofun⟩

/-- A canonical value is read back, unless it is null. -/
theorem readOptional_canonical {value : Option Json} (h : ∀ v, value = some v → v.IsCanonical) :
    readOptional (fun v => some v.canonical) ((value.map id).map Json.canonical) =
      some (value.filter fun v => !v.isNull) := by
  cases value with
  | none => rfl
  | some v =>
    have hv : v.canonical = v := h v rfl
    rw [Option.map_some, id_eq, Option.map_some, hv]
    cases v with
    | null => rfl
    | _ => exact congrArg some (congrArg some hv)

/-! ## Steps -/

namespace Step

/-- What a step needs to be read back: its variables and extras are maps, the extras keep off the
fields, and its values are canonical. -/
structure Writable (step : Step) : Prop where
  vars : IsDataMap step.vars
  value : ∀ v, step.value = some v → v.IsCanonical
  buffer : ∀ items, step.buffer = some items → ∀ item ∈ items, item.IsCanonical
  heap : ∀ items, step.heap = some items → ∀ item ∈ items, item.IsCanonical
  stackSnapshot : ∀ items, step.stackSnapshot = some items → ∀ item ∈ items, item.IsCanonical
  extra : IsDataMap step.extra
  extra_apart : ∀ entry ∈ step.extra, entry.1 ∉ keys

/-- The integers that have a field of their own fit it. -/
structure Fits (step : Step) : Prop where
  line : ∀ n, step.line = some n → n < UInt64.size
  head : ∀ n, step.head = some n → Decimal.fitsInt64 n = true
  tail : ∀ n, step.tail = some n → Decimal.fitsInt64 n = true

/-- The members of the fields. -/
def fieldMembers (step : Step) : List (String × Json) :=
  [("action", .str step.action), ("description", .str step.description), ("vars", .obj step.vars)]
    ++ optionalMember "line" Json.ofNat step.line
    ++ optionalMember "value" id step.value
    ++ optionalMember "node_id" .str step.nodeId
    ++ optionalMember "buffer" .arr step.buffer
    ++ optionalMember "head" .int step.head
    ++ optionalMember "tail" .int step.tail
    ++ optionalMember "heap" .arr step.heap
    ++ optionalMember "stack_snapshot" .arr step.stackSnapshot
    ++ optionalMember "source" .str step.source
    ++ optionalMember "target" .str step.target

theorem members_eq (step : Step) : step.members = step.fieldMembers ++ step.extra := rfl

theorem fieldMembers_sublist (step : Step) : (step.fieldMembers.map Prod.fst).Sublist keys := by
  simp only [fieldMembers, List.map_append]
  have h : (["action", "description", "vars"] : List String).Sublist _ := List.Sublist.refl _
  exact (((((((((h.append optionalMember_keys).append optionalMember_keys).append
    optionalMember_keys).append optionalMember_keys).append optionalMember_keys).append
    optionalMember_keys).append optionalMember_keys).append optionalMember_keys).append
    optionalMember_keys).append optionalMember_keys

variable {step : Step}

theorem Writable.isFlat (h : step.Writable) : IsFlat keys step.fieldMembers step.extra :=
  ⟨by decide, step.fieldMembers_sublist, h.extra, h.extra_apart⟩

/-- The step as it comes back from text. -/
def reread (step : Step) : Step :=
  { step with
    vars := Json.sortMembers step.vars
    value := step.value.filter fun v => !v.isNull
    extra := otherMembers keys (rereadMembers step.members) }

/-- Under the key of a field stands what was written there. -/
theorem Writable.lookup_reread (h : step.Writable) {key : String} (hkey : key ∈ keys) :
    (rereadMembers step.members).lookup key =
      (step.fieldMembers.lookup key).map Json.canonical :=
  h.isFlat.lookup_reread hkey

/-- A step that fits is read back from the value that its text denotes. -/
theorem ofJson?_canonical (h : step.Writable) (hfits : step.Fits) :
    ofJson? step.toJson.canonical = some step.reread := by
  have honce : eachOnce keys (rereadMembers step.members) = true := h.isFlat.eachOnce_reread
  have hvars : readDefault [] variables? (some (Json.obj step.vars).canonical) =
      some (Json.sortMembers step.vars) := h.vars.reread
  rw [toJson, canonical_obj, ofJson?, ofMembers?, if_pos honce]
  simp (disch := decide) only [h.lookup_reread]
  simp only [fieldMembers, List.lookup_append, lookup_optionalMember, List.lookup_cons,
    List.lookup_nil, String.reduceBEq, String.reduceEq, if_true, if_false, Option.none_or,
    Option.or_none]
  simp only [Option.map_some, hvars, readOptional_ofNat hfits.line, readOptional_canonical h.value,
    readOptional_string, readOptional_items h.buffer, readOptional_int64 hfits.head,
    readOptional_int64 hfits.tail, readOptional_items h.heap, readOptional_items h.stackSnapshot]
  rfl

/-- The steps are equal, their variables and extras as maps. -/
structure Same (a b : Step) : Prop where
  vars : a.vars.Perm b.vars
  extra : a.extra.Perm b.extra
  fields : { a with vars := [], extra := [] } = { b with vars := [], extra := [] }

/-- The step without a value that is null. -/
def withoutNull (step : Step) : Step := { step with value := step.value.filter fun v => !v.isNull }

/-- A step that fits is read back from the value that it is written as. -/
theorem ofJson?_toJson (h : step.Writable) (hfits : step.Fits) :
    ofJson? step.toJson = some step.withoutNull := by
  have honce : eachOnce keys step.members = true := h.isFlat.keysOnce.eachOnce keys
  have hlookup : ∀ key ∈ keys, step.members.lookup key = step.fieldMembers.lookup key :=
    fun key hkey => h.isFlat.lookup hkey
  have hvars : readDefault [] variables? (some (Json.obj step.vars)) = some step.vars := by
    rw [readDefault, variables?, Json.canonicalMembers_eq h.vars.canonical, h.vars.once.ofList_eq]
  rw [toJson, ofJson?, ofMembers?, if_pos honce]
  simp (disch := decide) only [hlookup]
  simp only [fieldMembers, List.lookup_append, lookup_optionalMember, List.lookup_cons,
    List.lookup_nil, String.reduceBEq, String.reduceEq, if_true, if_false, Option.none_or,
    Option.or_none]
  -- each kind of optional field is read back as it was written
  have hitems : ∀ {value : Option (List Json)},
      (∀ items, value = some items → ∀ item ∈ items, item.IsCanonical) →
        readOptional canonicalItems? (value.map Json.arr) = some value := fun h =>
    readOptional_verbatim (fun items hvalue => Json.isCanonical_arr (h items hvalue))
      (readOptional_items h)
  have hstring : ∀ value : Option String, readOptional Json.str? (value.map Json.str) = some value :=
    fun value => readOptional_verbatim (fun _ _ => rfl) (readOptional_string value)
  have hint : ∀ {value : Option Int}, (∀ n, value = some n → Decimal.fitsInt64 n = true) →
      readOptional Json.int64? (value.map Json.int) = some value := fun h =>
    readOptional_verbatim (fun _ _ => rfl) (readOptional_int64 h)
  have hline : readOptional (Json.below? UInt64.size) (step.line.map Json.ofNat) = some step.line :=
    readOptional_verbatim (fun _ _ => rfl) (readOptional_ofNat hfits.line)
  have hvalue : readOptional (fun v => some v.canonical) (step.value.map id) =
      some (step.value.filter fun v => !v.isNull) :=
    readOptional_verbatim h.value (readOptional_canonical h.value)
  have hextra : otherMembers keys step.members = step.extra := h.isFlat.otherMembers_eq
  simp only [hvars, hline, hvalue, hstring, hint hfits.head, hint hfits.tail, hitems h.buffer,
    hitems h.heap, hitems h.stackSnapshot, hextra]
  rfl

theorem Writable.same_reread (h : step.Writable) : step.withoutNull.Same step.reread := by
  have hextra := h.isFlat.otherMembers_reread_perm
  rw [← members_eq] at hextra
  unfold withoutNull reread
  constructor <;> dsimp only
  · exact (Json.sortMembers_perm h.vars.once).symm
  · exact hextra.symm

/-! Doubles are not always read back as they were, but the text of a step is still that of a step. -/

/-- The step with every double as its text denotes it. -/
def denoted (step : Step) : Step :=
  { step with
    vars := Json.denotedMembers step.vars
    value := step.value.map Json.denoted
    buffer := step.buffer.map Json.denotedItems
    heap := step.heap.map Json.denotedItems
    stackSnapshot := step.stackSnapshot.map Json.denotedItems
    extra := Json.denotedMembers step.extra }

theorem toJson_denoted (step : Step) : step.toJson.denoted = step.denoted.toJson := by
  have happend (front back : List (String × Json)) : Json.denotedMembers (front ++ back) =
      Json.denotedMembers front ++ Json.denotedMembers back := by
    simp only [Json.denotedMembers_eq_map, List.map_append]
  have hstring (key : String) (value : Option String) :
      Json.denotedMembers (optionalMember key .str value) = optionalMember key .str value :=
    denotedMembers_optionalMember_same fun _ => rfl
  have hint (key : String) (value : Option Int) :
      Json.denotedMembers (optionalMember key .int value) = optionalMember key .int value :=
    denotedMembers_optionalMember_same fun _ => rfl
  have hline : Json.denotedMembers (optionalMember "line" Json.ofNat step.line) =
      optionalMember "line" Json.ofNat step.line :=
    denotedMembers_optionalMember_same fun _ => rfl
  have hvalue : Json.denotedMembers (optionalMember "value" id step.value) =
      optionalMember "value" id (step.value.map Json.denoted) :=
    denotedMembers_optionalMember fun _ => rfl
  have hitems (key : String) (value : Option (List Json)) :
      Json.denotedMembers (optionalMember key .arr value) =
        optionalMember key .arr (value.map Json.denotedItems) :=
    denotedMembers_optionalMember fun _ => rfl
  rw [toJson, toJson, Json.denoted, members, members]
  simp only [happend, hstring, hint, hline, hvalue, hitems]
  rfl

theorem Writable.denoted (h : step.Writable) : step.denoted.Writable := by
  have hitems {value : Option (List Json)}
      (hvalue : ∀ items, value = some items → ∀ item ∈ items, item.IsCanonical) :
      ∀ items, value.map Json.denotedItems = some items → ∀ item ∈ items, item.IsCanonical := by
    intro items heq
    obtain ⟨items', hitems', rfl⟩ := Option.map_eq_some_iff.mp heq
    rw [Json.denotedItems_eq_map, List.forall_mem_map]
    exact fun item hitem => (hvalue items' hitems' item hitem).denoted
  constructor
  case vars => exact h.vars.denoted
  case value =>
    intro v heq
    obtain ⟨v', hv', rfl⟩ := Option.map_eq_some_iff.mp heq
    exact (h.value v' hv').denoted
  case buffer => exact hitems h.buffer
  case heap => exact hitems h.heap
  case stackSnapshot => exact hitems h.stackSnapshot
  case extra => exact h.extra.denoted
  case extra_apart =>
    show ∀ entry ∈ Json.denotedMembers step.extra, entry.1 ∉ keys
    rw [Json.denotedMembers_eq_map, List.forall_mem_map]
    exact h.extra_apart

/-- The text of a step that fits denotes a step. -/
theorem isSome_ofJson?_denoted (h : step.Writable) (hfits : step.Fits) :
    (ofJson? step.toJson.denoted.canonical).isSome = true := by
  have hfits : step.denoted.Fits := ⟨hfits.line, hfits.head, hfits.tail⟩
  rw [toJson_denoted, ofJson?_canonical h.denoted hfits]
  rfl

end Step

/-! ## Headers -/

theorem Family.ofName?_name (family : Family) : ofName? family.name = some family := by
  cases family <;> rfl

theorem Layout.ofName?_name (layout : Layout) : ofName? layout.name = some layout := by
  cases layout <;> rfl

theorem Animator.ofName?_name (animator : Animator) : ofName? animator.name = some animator := by
  cases animator <;> rfl

namespace Header

/-- What a header needs to be read back: a concept of the vocabulary, and extras that are a map and
keep off the fields. -/
structure Writable (header : Header) : Prop where
  kind : ∀ text, header.kind ≠ .other text
  extra : IsDataMap header.extra
  extra_apart : ∀ entry ∈ header.extra, entry.1 ∉ keys

/-- The members of the fields. -/
def fieldMembers (header : Header) : List (String × Json) :=
  [("kind", .str header.kind.label), ("family", .str header.family.name),
    ("layout", .str header.layout.name), ("theme", .str header.theme)]
    ++ optionalMember "parent_animator" (fun animator => .str animator.name) header.animator

theorem members_eq (header : Header) : header.members = header.fieldMembers ++ header.extra := rfl

theorem fieldMembers_sublist (header : Header) : (header.fieldMembers.map Prod.fst).Sublist keys := by
  rw [fieldMembers, List.map_append]
  have h : (["kind", "family", "layout", "theme"] : List String).Sublist _ := List.Sublist.refl _
  exact h.append optionalMember_keys

variable {header : Header}

theorem Writable.isFlat (h : header.Writable) : IsFlat keys header.fieldMembers header.extra :=
  ⟨by decide, header.fieldMembers_sublist, h.extra, h.extra_apart⟩

/-- Under the key of a field stands what was written there. -/
theorem Writable.lookup_reread (h : header.Writable) {key : String} (hkey : key ∈ keys) :
    (rereadMembers header.members).lookup key =
      (header.fieldMembers.lookup key).map Json.canonical :=
  h.isFlat.lookup_reread hkey

/-- The header as it comes back from text. -/
def reread (header : Header) : Header :=
  { header with extra := otherMembers keys (rereadMembers header.members) }

/-- A header is read back from the value that its text denotes. -/
theorem ofJson?_canonical (h : header.Writable) :
    ofJson? header.toJson.canonical = some header.reread := by
  have honce : eachOnce keys (rereadMembers header.members) = true := h.isFlat.eachOnce_reread
  have hanimator : readOptional (choice? Animator.ofName?) ((header.animator.map fun animator =>
      Json.str animator.name).map Json.canonical) = some header.animator :=
    readOptional_written fun animator _ => ⟨animator.ofName?_name, nofun⟩
  rw [toJson, canonical_obj, ofJson?, ofMembers?, if_pos honce]
  simp (disch := decide) only [h.lookup_reread]
  simp only [fieldMembers, List.lookup_append, lookup_optionalMember, List.lookup_cons,
    List.lookup_nil, String.reduceBEq, String.reduceEq, if_true, if_false, Option.none_or,
    Option.or_none]
  simp only [Option.map_some, Json.canonical, hanimator, readDefault, choice?, Family.ofName?_name,
    Layout.ofName?_name, Json.str?, Option.bind_eq_bind, Option.bind_some,
    Concept.parse_label h.kind]
  rfl

/-- The headers are equal, their extras as maps. -/
structure Same (a b : Header) : Prop where
  extra : a.extra.Perm b.extra
  fields : { a with extra := [] } = { b with extra := [] }

theorem Writable.same_reread (h : header.Writable) : header.Same header.reread := by
  have hextra := h.isFlat.otherMembers_reread_perm
  rw [← members_eq] at hextra
  unfold reread
  constructor <;> dsimp only
  exact hextra.symm

end Header

/-! ## Stories -/

/-- Steps are read back when each of them is. -/
theorem Step.listOfJson?_canonical {steps : List Step}
    (h : ∀ step ∈ steps, ofJson? step.toJson.canonical = some step.reread) :
    listOfJson? (listToJson steps).canonical = some (steps.map reread) := by
  rw [listToJson, Json.canonical, listOfJson?]
  induction steps with
  | nil => rfl
  | cons step rest ih =>
    rw [List.forall_mem_cons] at h
    rw [List.map_cons, Json.canonicalItems, List.mapM_cons, h.1, ih h.2]
    rfl

theorem Step.listOfJson?_toJson {steps : List Step}
    (h : ∀ step ∈ steps, step.Writable ∧ step.Fits) :
    listOfJson? (listToJson steps) = some (steps.map withoutNull) := by
  rw [listToJson, listOfJson?]
  induction steps with
  | nil => rfl
  | cons step rest ih =>
    rw [List.forall_mem_cons] at h
    rw [List.map_cons, List.mapM_cons, ofJson?_toJson h.1.1 h.1.2, ih h.2]
    rfl

namespace Story

/-- What a story needs to be read back. -/
structure Writable (story : Story) : Prop where
  steps : ∀ step ∈ story.steps, step.Writable
  header : story.header.Writable

/-- The number that a field shows fits 64 bits with sign. -/
def fitsPointer (pointer : Option Int) : Bool := pointer.all Decimal.fitsInt64

/-- Every number of the story is an integer that the machine word holds which is meant for it. -/
def inWords (story : Story) : Bool :=
  story.toJson.isExact && story.steps.all fun step =>
    fitsPointer step.head && fitsPointer step.tail

/-- The stories are equal, variables and extras as maps. -/
structure Same (a b : Story) : Prop where
  steps : List.Forall₂ Step.Same a.steps b.steps
  header : a.header.Same b.header

/-- The story whose steps have no value that is null. -/
def withoutNulls (story : Story) : Story :=
  { story with steps := story.steps.map Step.withoutNull }

variable {story : Story}

theorem isExact_of_inWords (h : story.inWords = true) : story.toJson.isExact = true :=
  (Bool.and_eq_true_iff.mp h).1

/-- The line of a step is a number of the story. -/
theorem line_lt_of_isExact (h : story.toJson.isExact = true) {step : Step}
    (hstep : step ∈ story.steps) {n : Nat} (hline : step.line = some n) : n < UInt64.size := by
  have hsteps : (Step.listToJson story.steps).isExact = true :=
    Json.membersAreExact_iff.mp h _ List.mem_cons_self
  have hjson : step.toJson.isExact = true :=
    Json.areExact_iff.mp hsteps _ (List.mem_map_of_mem hstep)
  have hmember : ("line", Json.ofNat n) ∈ step.members := by
    rw [Step.members, hline]
    simp [optionalMember]
  rw [Step.toJson, Json.isExact, Json.membersAreExact_iff] at hjson
  have hword := hjson _ hmember
  rw [Json.ofNat, Json.isExact, Json.fitsWord, Bool.and_eq_true, decide_eq_true_eq,
    decide_eq_true_eq] at hword
  have hsize : UInt64.size = 2 ^ 64 := rfl
  omega

theorem fits_of_inWords (h : story.inWords = true) {step : Step} (hstep : step ∈ story.steps) :
    step.Fits := by
  have hpointers := List.all_eq_true.mp (Bool.and_eq_true_iff.mp h).2 step hstep
  rw [Bool.and_eq_true, fitsPointer, fitsPointer, Option.all_eq_true, Option.all_eq_true]
    at hpointers
  exact ⟨fun n => line_lt_of_isExact (isExact_of_inWords h) hstep, hpointers.1, hpointers.2⟩

/-- The story as it comes back from text. -/
def reread (story : Story) : Story := ⟨story.steps.map Step.reread, story.header.reread⟩

theorem Writable.same_reread (h : story.Writable) : story.withoutNulls.Same story.reread := by
  refine ⟨?_, h.header.same_reread⟩
  rw [withoutNulls, reread, List.forall₂_map_left_iff, List.forall₂_map_right_iff,
    List.forall₂_same]
  exact fun step hstep => (h.steps step hstep).same_reread

/-- A story that does not nest too deep is read back. -/
theorem parse_pretty_of_depth_le (h : story.Writable)
    (hwords : story.inWords = true)
    (hdepth : story.toJson.depth ≤ Json.depthLimit) :
    ∃ read, parse story.pretty = .ok read ∧ story.withoutNulls.Same read := by
  refine ⟨story.reread, ?_, h.same_reread⟩
  have hflat : IsFlat ["steps", "meta"]
      [("steps", Step.listToJson story.steps), ("meta", story.header.toJson)] [] :=
    ⟨by decide, List.Sublist.refl _, .nil, nofun⟩
  -- the two members are found again among those of the canonical object
  obtain ⟨members, hmembers, honce, hlookup⟩ : ∃ members, story.toJson.canonical = .obj members ∧
      eachOnce ["steps", "meta"] members = true ∧ ∀ key ∈ ["steps", "meta"],
        members.lookup key = ([("steps", Step.listToJson story.steps),
          ("meta", story.header.toJson)].lookup key).map Json.canonical :=
    ⟨_, canonical_obj _, hflat.eachOnce_reread, fun _ hkey => hflat.lookup_reread hkey⟩
  have hsteps : members.lookup "steps" = some (Step.listToJson story.steps).canonical :=
    hlookup _ (by decide)
  have hheader : members.lookup "meta" = some story.header.toJson.canonical :=
    hlookup _ (by decide)
  have hread : ofJson? (.obj members) = some story.reread := by
    rw [ofJson?, if_pos honce, hsteps, hheader, Option.bind_some, Option.bind_some,
      Step.listOfJson?_canonical fun step hstep =>
        Step.ofJson?_canonical (h.steps step hstep) (fits_of_inWords hwords hstep),
      Header.ofJson?_canonical h.header]
    rfl
  have hlist : Json.get? "steps" (.obj members) =
      some (.arr (Json.canonicalItems (story.steps.map Step.toJson))) := by
    rw [Json.get?, hsteps, Step.listToJson, Json.canonical]
  rw [parse, pretty, Json.parse?_pretty (isExact_of_inWords hwords), if_pos hdepth, hmembers]
  dsimp only
  rw [hlist]
  dsimp only
  rw [hread]

/-- A story that nests too deep is refused. -/
theorem parse_pretty_of_depth_gt (hwords : story.inWords = true)
    (hdepth : Json.depthLimit < story.toJson.depth) :
    parse story.pretty = .error .undecodable := by
  rw [parse, pretty, Json.parse?_pretty (isExact_of_inWords hwords), if_neg (Nat.not_le.mpr hdepth)]

theorem Same.values {a b : Story} (h : a.Same b) :
    a.steps.map Step.value = b.steps.map Step.value := by
  have hsteps := h.steps
  generalize a.steps = told, b.steps = read at hsteps ⊢
  induction hsteps with
  | nil => rfl
  | @cons step _ rest _ hstep _ ih =>
    rw [List.map_cons, List.map_cons, ih]
    have hfields := congrArg Step.value hstep.fields
    exact congrArg (· :: _) hfields

/-- A story with a null value is not read back as it was. -/
theorem not_same_of_null (h : story.Writable) (hwords : story.inWords = true)
    (hnull : (story.steps.any fun step => step.value.any Json.isNull) = true) :
    ¬ ∃ read, parse story.pretty = .ok read ∧ story.Same read := by
  rintro ⟨read, hread, hsame⟩
  obtain ⟨step, hstep, hnull⟩ := List.any_eq_true.mp hnull
  rcases Nat.lt_or_ge Json.depthLimit story.toJson.depth with hdepth | hdepth
  · rw [parse_pretty_of_depth_gt hwords hdepth] at hread
    nomatch hread
  · obtain ⟨read', hread', hsame'⟩ := parse_pretty_of_depth_le h hwords hdepth
    obtain rfl := Except.ok.inj (hread.symm.trans hread')
    have hvalues := hsame.values.trans hsame'.values.symm
    rw [withoutNulls, List.map_map, List.map_inj_left] at hvalues
    have hvalue : step.value = step.value.filter fun v => !v.isNull := hvalues step hstep
    obtain ⟨v, hv, hnull⟩ := (Option.any_eq_true _ _).mp hnull
    rw [hv, Option.filter_some, hnull] at hvalue
    nomatch hvalue

end Story

end Storyboard
