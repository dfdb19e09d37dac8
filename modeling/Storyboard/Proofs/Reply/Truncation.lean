import Storyboard.Proofs.Reply.Front
import Storyboard.Proofs.Story.Codec
import Storyboard.Reply.Story

/-!
# Replies that break off anywhere

The text of a story may break off at any character.  What repair makes of it holds the steps that
are complete and at most the one that is cut: behind the cut there are only the brackets that close
what is open, and nothing can be read out of them.
-/

namespace Storyboard.Reply

open Json Nesting

/-! ## The front of a story -/

/-- The text of an object with steps and a header. -/
def storyChars (steps : List Json) (header : Json) : List Char :=
  '\x7b' :: (keyText "steps".toList ++ ('[' :: compactItems steps ++ ']' ::
    ',' :: (keyText "meta".toList ++ (compactChars header ++ ['\x7d']))))

theorem compactChars_story (steps : List Json) (header : Json) :
    compactChars (.obj [("steps", .arr steps), ("meta", header)]) = storyChars steps header := by
  have hsteps : quoted "steps" = '"' :: ("steps".toList ++ ['"']) := by decide
  have hmeta : quoted "meta" = '"' :: ("meta".toList ++ ['"']) := by decide
  simp [compactChars, compactMembers, storyChars, keyText, hsteps, hmeta]

theorem isPlain_steps : IsPlain "steps".toList := by
  simp [IsPlain]

theorem isPlain_meta : IsPlain "meta".toList := by
  simp [IsPlain]

theorem isKey_steps : IsKey (piecesOf "steps") (keyText "steps".toList) := isPlain_steps.isKey

theorem isKey_meta : IsKey (piecesOf "meta") (keyText "meta".toList) := isPlain_meta.isKey

/-- Steps of which the last one may be cut, and perhaps a header. -/
inductive StoryFront (steps : List Json) : List (List Piece × Tree) → Prop
  | empty : StoryFront steps []
  | steps {items : List Tree} (fits : FitsFront items steps) :
      StoryFront steps [(piecesOf "steps", .array items)]
  | header {items : List Tree} {value : Tree} (fits : FitsFront items steps) :
      StoryFront steps [(piecesOf "steps", .array items), (piecesOf "meta", value)]

section StoryFront

variable {steps : List Json} {header : Json} {front : List Char}

/-- A member whose value is followed by the closing brace is the last one. -/
theorem membersAt_single {key : List Piece} {lead rest : List Char} (h : IsKey key lead) {fuel : Nat}
    {members : List (List Piece × Tree)} {stop : List Char}
    (hread : membersAt fuel (lead ++ rest) = some (members, stop))
    (hlast : ∀ {less value after}, valueAt less rest = some (value, after) →
      after.head? = some '\x7d') :
    ∃ less value after, valueAt less rest = some (value, after) ∧ members = [(key, value)] := by
  obtain ⟨less, value, after, -, hvalue, hafter⟩ := h.membersAt_cases hread
  obtain ⟨more, rfl⟩ := List.head?_eq_some_iff.mp (hlast hvalue)
  rw [skip_cons rfl] at hafter
  obtain ⟨-, rfl⟩ | ⟨_, _, hnext, -, -⟩ := hafter
  · exact ⟨less, value, _, hvalue, rfl⟩
  · cases hnext

/-- Behind the steps, at most the header is read. -/
theorem membersAt_header_front (hheader : IsObject header)
    (hfront : front <+: keyText "meta".toList ++ compactChars header) {fuel : Nat}
    {members : List (List Piece × Tree)} {stop : List Char}
    (hread : membersAt fuel (closeUp ['\x7d'] front) = some (members, stop)) :
    ∃ value, members = [(piecesOf "meta", value)] := by
  obtain hin | ⟨rest, rfl, hrest⟩ := prefix_append_cases hfront
  · rw [membersAt_key_front isPlain_meta hin] at hread
    cases hread
  · rw [closeUp_append (keeps_key isKey_meta)] at hread
    obtain ⟨-, value, -, -, rfl⟩ := membersAt_single isKey_meta hread fun {_ _ after} hvalue => by
      by_cases hnil : rest = []
      · rw [hnil, closeUp_nil, valueAt_brace] at hvalue
        cases hvalue
      · obtain ⟨trees, -, htext⟩ := hheader.isText
        have hbrackets : ∀ c ∈ ['\x7d'], IsBracket c := List.forall_mem_singleton.mpr (Or.inl rfl)
        obtain rfl := rest_of_front htext hrest hnil hbrackets hvalue
        rfl
    exact ⟨value, rfl⟩

/-- Where the steps are cut, those before the cut are read as they are, and one more. -/
theorem membersAt_steps_front (hsteps : ∀ value ∈ steps, IsObject value)
    (hfront : front <+: keyText "steps".toList ++ '[' :: compactItems steps) {fuel : Nat}
    {members : List (List Piece × Tree)} {stop : List Char}
    (hread : membersAt fuel (closeUp ['\x7d'] front) = some (members, stop)) :
    StoryFront steps members := by
  obtain hin | ⟨rest, rfl, hrest⟩ := prefix_append_cases hfront
  · rw [membersAt_key_front isPlain_steps hin] at hread
    cases hread
  · rw [closeUp_append (keeps_key isKey_steps)] at hread
    have harray {less : Nat} {value : Tree} {after : List Char}
        (hvalue : valueAt less (closeUp ['\x7d'] rest) = some (value, after)) :
        after = ['\x7d'] ∧ ∃ items, value = .array items ∧ FitsFront items steps := by
      by_cases hnil : rest = []
      · rw [hnil, closeUp_nil, valueAt_brace] at hvalue
        cases hvalue
      · exact valueAt_array_front hsteps hrest hnil
          (List.forall_mem_singleton.mpr (Or.inl rfl)) hvalue
    obtain ⟨less, value, after, hvalue, rfl⟩ := membersAt_single isKey_steps hread fun hvalue => by
      rw [(harray hvalue).1]
      rfl
    obtain ⟨-, items, rfl, hfits⟩ := harray hvalue
    exact .steps hfits

/-- Behind steps that are complete, there is at most the header. -/
theorem membersAt_steps_whole (hheader : IsObject header)
    (hfront : front <+: ',' :: (keyText "meta".toList ++ compactChars header)) {fuel : Nat}
    {members : List (List Piece × Tree)} {stop : List Char}
    (hread : membersAt fuel (keyText "steps".toList ++ (compactChars (.arr steps) ++
      closeUp ['\x7d'] front)) = some (members, stop)) : StoryFront steps members := by
  have htext : IsText (.array (treesOf steps)) (compactChars (.arr steps)) :=
    (writes_compact (.arr steps)).isText
  rcases List.prefix_cons_iff.mp hfront with rfl | ⟨rest, rfl, hrest⟩
  · have hends : EndsValue (closeUp ['\x7d'] []) := endsValue_close isGap_nil [] (Or.inr rfl)
    obtain ⟨less, value, after, hvalue, rfl⟩ := membersAt_single isKey_steps hread fun hvalue => by
      rw [(htext.eq_of_valueAt isGap_nil hends hvalue).2]
      rfl
    obtain ⟨rfl, -⟩ := htext.eq_of_valueAt isGap_nil hends hvalue
    exact .steps (fitsFront_treesOf steps)
  · rw [closeUp_cons (after_of_isNeutral rfl _)] at hread
    obtain ⟨less, value, after, -, hvalue, hafter⟩ := isKey_steps.membersAt_cases hread
    have hends : EndsValue (',' :: closeUp ['\x7d'] rest) := endsValue_comma isGap_nil _
    obtain ⟨rfl, rfl⟩ := htext.eq_of_valueAt isGap_nil hends hvalue
    rw [skip_cons rfl] at hafter
    obtain ⟨hclose, -⟩ | ⟨next, others, hnext, hothers, rfl⟩ := hafter
    · cases hclose
    · obtain ⟨-, rfl⟩ := List.cons.inj hnext
      obtain ⟨value, rfl⟩ := membersAt_header_front hheader hrest hothers
      exact .header (fitsFront_treesOf steps)

/-- Out of a story that is cut, the steps before the cut are read as they are, and one more. -/
theorem valueAt_story_front (hsteps : ∀ value ∈ steps, IsObject value) (hheader : IsObject header)
    (hfront : front <+: storyChars steps header) (hproper : front ≠ storyChars steps header)
    (hne : front ≠ []) {fuel : Nat} {members : List (List Piece × Tree)} {stop : List Char}
    (hread : valueAt fuel (closeUp [] front) = some (.object members, stop)) :
    StoryFront steps members := by
  have hstory : storyChars steps header =
      ('\x7b' :: (keyText "steps".toList ++ '[' :: compactItems steps) ++
        ']' :: ',' :: (keyText "meta".toList ++ compactChars header)) ++ ['\x7d'] := by
    simp [storyChars]
  rw [hstory] at hfront hproper
  have hopened : front <+: '\x7b' :: ((keyText "steps".toList ++ '[' :: compactItems steps) ++
      ']' :: ',' :: (keyText "meta".toList ++ compactChars header)) :=
    (List.prefix_concat_iff.mp hfront).resolve_left hproper
  obtain ⟨cs, rfl, hcs⟩ := (List.prefix_cons_iff.mp hopened).resolve_left hne
  have hopen : (outside []).after '\x7b' = outside ['\x7d'] := rfl
  rw [closeUp_cons hopen] at hread
  obtain ⟨-, hempty⟩ | ⟨less, members', -, hmembers, hobject⟩ := valueAt_object_cases hread
  · cases hempty
    exact .empty
  cases hobject
  -- the array of the steps is cut, or complete and followed by the front of the header
  obtain hin | ⟨tail, rfl, htail⟩ := prefix_append_cons_cases hcs
  · exact membersAt_steps_front hsteps hin hmembers
  · have hsplit : (keyText "steps".toList ++ '[' :: compactItems steps) ++ ']' :: tail =
        keyText "steps".toList ++ (compactChars (.arr steps) ++ tail) := by
      simp [compactChars]
    rw [hsplit, closeUp_append (keeps_key isKey_steps), closeUp_append
      (keeps_text (writes_compact (.arr steps)).isText)] at hmembers
    exact membersAt_steps_whole hheader htail hmembers

end StoryFront

/-! ## What is read -/

section Values

variable {limit : Nat} {items trees : List Tree} {values whole : List Json}

theorem itemValues?_cons {item : Tree} :
    itemValues? limit (item :: items) = some values ↔ ∃ value others,
      values = value :: others ∧ item.value? limit = some value ∧
        itemValues? limit items = some others := by
  rw [itemValues?]
  cases item.value? limit with
  | none => simp
  | some value =>
    rw [Option.map_eq_some_iff]
    constructor
    · rintro ⟨others, hothers, rfl⟩
      exact ⟨value, others, rfl, rfl, hothers⟩
    · rintro ⟨_, others, rfl, hvalue, hothers⟩
      exact ⟨others, hothers, by rw [Option.some.inj hvalue]⟩

theorem length_itemValues? (h : itemValues? limit items = some values) :
    values.length = items.length := by
  induction items generalizing values with
  | nil =>
    cases h
    rfl
  | cons item items ih =>
    obtain ⟨value, others, rfl, -, hothers⟩ := itemValues?_cons.mp h
    rw [List.length_cons, List.length_cons, ih hothers]

/-- Items that are the same but for the last one denote the same values but for the last one. -/
theorem dropLast_prefix_of_itemValues? (hfirst : items.dropLast <+: trees)
    (hitems : itemValues? limit items = some values)
    (htrees : itemValues? limit trees = some whole) : values.dropLast <+: whole := by
  induction items generalizing values trees whole with
  | nil =>
    cases hitems
    exact List.nil_prefix
  | cons item items ih =>
    obtain ⟨value, others, rfl, hvalue, hothers⟩ := itemValues?_cons.mp hitems
    cases items with
    | nil =>
      cases hothers
      exact List.nil_prefix
    | cons next items =>
      rw [List.dropLast_cons_of_ne_nil (List.cons_ne_nil _ _)] at hfirst
      obtain ⟨rest, rfl⟩ := hfirst
      rw [List.cons_append] at htrees
      obtain ⟨value', whole, rfl, hvalue', hwhole⟩ := itemValues?_cons.mp htrees
      obtain rfl := Option.some.inj (hvalue.symm.trans hvalue')
      have hne : others ≠ [] := by
        rintro rfl
        cases length_itemValues? hothers
      rw [List.dropLast_cons_of_ne_nil hne]
      exact (List.prefix_cons_inj _).mpr (ih (List.prefix_append _ _) hothers hwhole)

/-- The values that are read are the first ones, but for the last, and no more than there are. -/
theorem FitsFront.denotes {steps : List Json} (h : FitsFront items steps)
    (hitems : itemValues? limit items = some values)
    (hwhole : itemValues? limit (treesOf steps) = some whole) :
    values.dropLast <+: whole ∧ values.length ≤ whole.length := by
  refine ⟨dropLast_prefix_of_itemValues? h.1 hitems hwhole, ?_⟩
  rw [length_itemValues? hitems, length_itemValues? hwhole, length_treesOf]
  exact h.2

end Values

/-- Reads a step from a value as it is written. -/
def readStep? (value : Json) : Option Step := Step.ofJson? value.canonical

/-- The steps among values as they are written. -/
def readSteps (values : List Json) : List Step := values.filterMap readStep?

theorem filterMap_canonicalItems (values : List Json) :
    (canonicalItems values).filterMap Step.ofJson? = readSteps values := by
  have hmap : canonicalItems values = values.map canonical := by
    induction values with
    | nil => rfl
    | cons value rest ih => rw [canonicalItems, ih, List.map_cons]
  rw [hmap, List.filterMap_map]
  rfl

/-- A value that is damaged damages no step but the last. -/
theorem dropLast_prefix_readSteps {values whole : List Json} (h : values.dropLast <+: whole) :
    (readSteps values).dropLast <+: readSteps whole := by
  unfold readSteps
  rcases List.eq_nil_or_concat' values with rfl | ⟨front, last, rfl⟩
  · exact List.nil_prefix
  · rw [List.dropLast_concat] at h
    have hfront := h.filterMap readStep?
    rw [List.filterMap_append]
    cases hlast : readStep? last with
    | none =>
      rw [List.filterMap_cons_none hlast, List.filterMap_nil, List.append_nil]
      exact (List.dropLast_prefix _).trans hfront
    | some step =>
      rw [List.filterMap_cons_some hlast, List.filterMap_nil, List.dropLast_concat]
      exact hfront

theorem length_readSteps_le (values : List Json) : (readSteps values).length ≤ values.length :=
  List.length_filterMap_le _ _

theorem length_readSteps_concat_le (values : List Json) (last : Json) :
    (readSteps (values ++ [last])).length ≤ (readSteps values).length + 1 := by
  rw [readSteps, List.filterMap_append, List.length_append]
  exact Nat.add_le_add_left (List.length_filterMap_le _ [last]) _

/-- A value that is damaged gives a step at most where the whole values give their last one. -/
theorem length_readSteps_le_of_isSome {values whole : List Json} (h : values.dropLast <+: whole)
    (hlength : values.length ≤ whole.length)
    (hlast : ∀ last ∈ whole.getLast?, (readStep? last).isSome = true) :
    (readSteps values).length ≤ (readSteps whole).length := by
  rcases List.eq_nil_or_concat' values with rfl | ⟨front, damaged, rfl⟩
  · exact Nat.zero_le _
  rcases List.eq_nil_or_concat' whole with rfl | ⟨others, last, rfl⟩
  · exact absurd hlength (by simp)
  rw [List.dropLast_concat] at h
  rw [List.length_append, List.length_append] at hlength
  obtain ⟨step, hstep⟩ := Option.isSome_iff_exists.mp (hlast last List.getLast?_concat)
  have hfront : front <+: others :=
    List.prefix_of_prefix_length_le h (List.prefix_append _ _) (Nat.le_of_add_le_add_right hlength)
  calc (readSteps (front ++ [damaged])).length
      ≤ (readSteps front).length + 1 := length_readSteps_concat_le front damaged
    _ ≤ (readSteps others).length + 1 := Nat.succ_le_succ (hfront.filterMap readStep?).length_le
    _ = (readSteps (others ++ [last])).length := by
      rw [readSteps, readSteps, List.filterMap_append, List.filterMap_cons_some hstep,
        List.filterMap_nil, List.length_append, List.length_singleton]

/-- The steps of an object. -/
def stepsOf (members : List (String × Json)) : List Step :=
  match members.lookup "steps" with
  | some (.arr items) => items.filterMap Step.ofJson?
  | _ => []

theorem steps_story (text : String) (concept : Concept) :
    (story text concept).steps = ((object? text).map stepsOf).getD [] := by
  unfold story
  cases object? text <;> rfl

/-- The steps stand under their key, wherever sorting puts it. -/
theorem stepsOf_rereadMembers {written : List (String × Json)} {values : List Json}
    (honce : KeysOnce written) (hlookup : written.lookup "steps" = some (.arr values)) :
    stepsOf (rereadMembers written) = readSteps values := by
  have hreread : (rereadMembers written).lookup "steps" = some (.arr (canonicalItems values)) := by
    rw [honce.canonicalMembers.lookup_perm honce.reread_perm, lookup_canonicalMembers, hlookup,
      Option.map_some, canonical]
  rw [stepsOf, hreread]
  exact filterMap_canonicalItems values

theorem memberValues?_cons {limit : Nat} {key : String} {tree : Tree}
    {trees : List (List Piece × Tree)} {written : List (String × Json)} :
    memberValues? limit ((piecesOf key, tree) :: trees) = some written ↔ ∃ value others,
      written = (key, value) :: others ∧ tree.value? limit = some value ∧
        memberValues? limit trees = some others := by
  rw [memberValues?, joinString?_piecesOf]
  cases tree.value? limit with
  | none => simp
  | some value =>
    dsimp only
    rw [Option.map_eq_some_iff]
    constructor
    · rintro ⟨others, hothers, rfl⟩
      exact ⟨value, others, rfl, rfl, hothers⟩
    · rintro ⟨_, others, rfl, hvalue, hothers⟩
      exact ⟨others, hothers, by rw [Option.some.inj hvalue]⟩

/-- The steps that are read from a story that is cut are those of its items. -/
theorem StoryFront.exists_items {steps : List Json} {trees : List (List Piece × Tree)} {limit : Nat}
    {written : List (String × Json)} (h : StoryFront steps trees)
    (hread : memberValues? (limit + 1) trees = some written) :
    ∃ items values, FitsFront items steps ∧ itemValues? limit items = some values ∧
      stepsOf (rereadMembers written) = readSteps values := by
  cases h with
  | empty =>
    cases hread
    exact ⟨[], [], ⟨List.nil_prefix, Nat.zero_le _⟩, rfl, rfl⟩
  | @steps items fits =>
    obtain ⟨array, others, rfl, harray, hothers⟩ := memberValues?_cons.mp hread
    cases hothers
    obtain ⟨values, hvalues, rfl⟩ := Option.map_eq_some_iff.mp harray
    have honce : KeysOnce [("steps", Json.arr values)] := List.nodup_singleton "steps"
    exact ⟨items, values, fits, hvalues, stepsOf_rereadMembers honce rfl⟩
  | @header items value fits =>
    obtain ⟨array, others, rfl, harray, hothers⟩ := memberValues?_cons.mp hread
    obtain ⟨header, others, rfl, -, hothers⟩ := memberValues?_cons.mp hothers
    cases hothers
    obtain ⟨values, hvalues, rfl⟩ := Option.map_eq_some_iff.mp harray
    have hkeys : (["steps", "meta"] : List String).Nodup := by decide
    have honce : KeysOnce [("steps", Json.arr values), ("meta", header)] := hkeys
    exact ⟨items, values, fits, hvalues, stepsOf_rereadMembers honce rfl⟩

/-! ## Broken stories -/

theorem parse?_of_members? {text : List Char} {members : List (String × Json)}
    (h : members? text = some members) : parse? (String.ofList text) = some (.obj members) := by
  unfold members? at h
  split at h
  next hparse =>
    rw [hparse, Option.some.inj h]
  next => cases h

section ObjectFront

variable {trees : List (List Piece × Tree)} {text front : List Char}
  {members : List (String × Json)}

theorem head?_of_front (h : IsText (.object trees) text) (hfront : front <+: text)
    (hne : front ≠ []) : front.head? = some '\x7b' := by
  obtain ⟨rest, rfl⟩ := hfront
  rw [← head?_of_isText h, List.head?_append_of_ne_nil _ hne]

/-- The front of an object is none: the whole one ends later. -/
theorem members?_of_front (h : IsText (.object trees) text) (hfront : front <+: text)
    (hproper : front ≠ text) : members? front = none := by
  rw [Option.eq_none_iff_forall_ne_some]
  intro members hmembers
  obtain ⟨fuel, others, stop, -, hread, -, -⟩ :=
    exists_written_of_parse? (parse?_of_members? hmembers)
  have hne : front ≠ [] := by
    rintro rfl
    cases hmembers
  obtain ⟨part, rfl, hcloses, hpartne⟩ :=
    exists_closes_of_valueAt (head?_of_front h hfront hne) hread
  have hpart : part <+: text := (List.prefix_append part stop).trans hfront
  obtain rfl : part = text :=
    hcloses.eq_of_prefix (closes_object h) hpartne h.ne_nil hpart List.prefix_rfl
  exact hproper (hfront.eq_of_length_le (List.prefix_append part stop).length_le)

/-- The front of an object holds no other object; what is found is its front, closed. -/
theorem exists_closeUp_of_object? (h : IsText (.object trees) text) (hfence : ¬ fence <:+: text)
    (hfront : front <+: text) (hproper : front ≠ text)
    (hobject : object? (String.ofList front) = some members) :
    ∃ part, part <+: text ∧ part ≠ text ∧ part ≠ [] ∧
      parse? (String.ofList (closeUp [] part)) = some (.obj members) := by
  by_cases hne : front = []
  · subst hne
    cases hobject
  have hstart : front.dropWhile (· != '\x7b') = front := by
    obtain ⟨c, cs, rfl⟩ := List.exists_cons_of_ne_nil hne
    obtain rfl : c = '\x7b' := Option.some.inj (head?_of_front h hfront hne)
    exact List.dropWhile_cons_of_neg (by simp)
  -- up to its last closing brace the front is a front again, and no object
  have hclosed : members? (Text.dropEndWhile (· != '\x7d') front) = none := by
    obtain ⟨back, hback, -⟩ := Text.exists_dropEndWhile (· != '\x7d') front
    have hin : Text.dropEndWhile (· != '\x7d') front <+: front := ⟨back, hback.symm⟩
    exact members?_of_front h (hin.trans hfront) (ne_of_prefix_of_ne hin hfront hproper)
  unfold object? at hobject
  rw [String.toList_ofList, dropFences_eq_self fun hin => hfence (hin.trans hfront.isInfix),
    hstart] at hobject
  dsimp only at hobject
  rw [hclosed, ite_self, if_neg (by simpa using hne), Option.orElse_none, balance_eq_closeUp]
    at hobject
  have hparse := parse?_of_members? hobject
  have hmend := mend_prefix front
  refine ⟨mend front, hmend.trans hfront, ne_of_prefix_of_ne hmend hfront hproper, ?_, hparse⟩
  intro hnil
  rw [hnil] at hobject
  cases hobject

end ObjectFront

section Story

variable {told : Story}

/-- The values of the steps, as the text of the story denotes them. -/
def stepValues (told : Story) : List Json := denotedItems (told.steps.map Step.toJson)

theorem compactChars_toJson (told : Story) : compactChars told.toJson =
    storyChars (told.steps.map Step.toJson) told.header.toJson :=
  compactChars_story _ _

/-- The items of a story nest less deep than the story. -/
theorem itemValues?_steps (hwords : told.toJson.fitsWords = true)
    (hdepth : told.toJson.depth ≤ depthLimit) :
    itemValues? 125 (treesOf (told.steps.map Step.toJson)) = some (stepValues told) := by
  have hsteps : itemsFitWords (told.steps.map Step.toJson) = true :=
    (Bool.and_eq_true_iff.mp hwords).1
  have hitems : itemsDepth (told.steps.map Step.toJson) ≤ 125 := by
    rw [Story.toJson, Step.listToJson, depth, membersDepth, depth, depthLimit] at hdepth
    omega
  rw [itemValues?_treesOf 125 _ hsteps, if_pos hitems, stepValues]

/-- From its whole text a story is read with all of the steps that can be read. -/
theorem steps_story_compact (hwords : told.toJson.fitsWords = true)
    (hdepth : told.toJson.depth ≤ depthLimit) (hfence : ¬ fence <:+: told.compact.toList)
    (concept : Concept) : (story told.compact concept).steps = readSteps (stepValues told) := by
  have hmembers : membersDepth [("steps", Step.listToJson told.steps),
      ("meta", told.header.toJson)] ≤ 126 := by
    rw [Story.toJson, depth, depthLimit] at hdepth
    omega
  have hwrites := writes_compact told.toJson
  have hwritten := memberValues?_memberTreesOf 126 _ hwords
  rw [if_pos hmembers] at hwritten
  have hread := members?_of_isText hwrites.isText hwritten
  rw [Story.compact, compact, String.toList_ofList] at hfence
  rw [Story.compact, compact]
  obtain ⟨inner, hinner⟩ := exists_braces hwrites
  rw [hinner] at hfence hread ⊢
  have hobject := object?_braces List.not_mem_nil List.not_mem_nil hfence hread
  rw [List.nil_append, List.append_nil] at hobject
  have hkeys : (["steps", "meta"] : List String).Nodup := by decide
  have honce : KeysOnce (denotedMembers [("steps", Step.listToJson told.steps),
      ("meta", told.header.toJson)]) := hkeys
  rw [steps_story, hobject]
  exact stepsOf_rereadMembers honce rfl

/-- From the front of its text a story is read with the steps before the cut and at most one
more. -/
theorem exists_steps_story_front (hwords : told.toJson.fitsWords = true)
    (hdepth : told.toJson.depth ≤ depthLimit) (hfence : ¬ fence <:+: told.compact.toList)
    {front : String} (hfront : front.toList <+: told.compact.toList) (concept : Concept) :
    ∃ values, (story front concept).steps = readSteps values ∧
      values.dropLast <+: stepValues told ∧ values.length ≤ (stepValues told).length := by
  by_cases hproper : front.toList = told.compact.toList
  · obtain rfl : front = told.compact := String.toList_inj.mp hproper
    exact ⟨_, steps_story_compact hwords hdepth hfence concept, List.dropLast_prefix _, le_rfl⟩
  rw [steps_story]
  cases hobject : object? front with
  | none => exact ⟨[], rfl, List.nil_prefix, Nat.zero_le _⟩
  | some members =>
    rw [Story.compact, compact, String.toList_ofList] at hfence hfront hproper
    rw [← String.ofList_toList (s := front)] at hobject
    have hjson : ∀ value ∈ told.steps.map Step.toJson, IsObject value :=
      List.forall_mem_map.mpr fun step _ => ⟨step.members, rfl⟩
    obtain ⟨part, hpart, hpartproper, hne, hparse⟩ :=
      exists_closeUp_of_object? (writes_compact told.toJson).isText hfence hfront hproper hobject
    obtain ⟨fuel, trees, stop, written, hread, hwritten, rfl⟩ := exists_written_of_parse? hparse
    rw [compactChars_toJson] at hpart hpartproper
    have hstory := valueAt_story_front hjson ⟨_, rfl⟩ hpart hpartproper hne hread
    obtain ⟨items, values, hfits, hitems, hsteps⟩ := hstory.exists_items hwritten
    exact ⟨values, hsteps, hfits.denotes hitems (itemValues?_steps hwords hdepth)⟩

/-- The step is read back from its own text. -/
def IsReadBack (step : Step) : Prop := (readStep? step.toJson.denoted).isSome = true

/-- A step whose further members keep off the names of fields is read back. -/
theorem isReadBack_of_writable {step : Step} (h : step.Writable) (hfits : step.Fits) :
    IsReadBack step := Step.isSome_ofJson?_denoted h hfits

/-- Breaking off damages no step but the one that is cut: the others are those of the whole text.
No step is made up, either: there are no more than were told, and as long as the last one that was
told is read back, no more than in the whole text. -/
theorem steps_story_of_prefix {front : String} (hwords : told.toJson.fitsWords = true)
    (hdepth : told.toJson.depth ≤ depthLimit) (hfence : ¬ fence <:+: told.compact.toList)
    (hfront : front.toList <+: told.compact.toList) (concept : Concept) :
    (story front concept).steps.dropLast <+: (story told.compact concept).steps ∧
      (story front concept).steps.length ≤ told.steps.length ∧
      ((∀ last ∈ told.steps.getLast?, IsReadBack last) →
        (story front concept).steps.length ≤ (story told.compact concept).steps.length) := by
  obtain ⟨values, hsteps, hfirst, hlength⟩ :=
    exists_steps_story_front hwords hdepth hfence hfront concept
  have hvalues : stepValues told = told.steps.map fun step => step.toJson.denoted := by
    rw [stepValues, denotedItems_eq_map, List.map_map]
    rfl
  rw [hsteps, steps_story_compact hwords hdepth hfence]
  refine ⟨dropLast_prefix_readSteps hfirst, ?_, fun hread => ?_⟩
  · calc (readSteps values).length ≤ values.length := length_readSteps_le values
      _ ≤ (stepValues told).length := hlength
      _ = told.steps.length := by rw [hvalues, List.length_map]
  · refine length_readSteps_le_of_isSome hfirst hlength fun last hlast => ?_
    rw [hvalues, List.getLast?_map] at hlast
    obtain ⟨step, hstep, rfl⟩ := Option.map_eq_some_iff.mp hlast
    exact hread step hstep

end Story

/-- A story of two steps, of which the first one is not read back: it has a further member under the
name of a field. -/
def twoSteps : Story :=
  ⟨[{ action := "push", description := "one, \x7b", extra := [("head", .str "x")] },
      { action := "pop", description := "" }], Header.plain .stack⟩

/-- A reply that breaks off in the action of the second step. -/
theorem steps_story_twoSteps :
    let front := "\x7b\"steps\":[\x7b\"action\":\"push\",\"description\":\"one, \x7b\"," ++
      "\"vars\":\x7b\x7d,\"head\":\"x\"\x7d,\x7b\"action\":\"po"
    front.toList <+: twoSteps.compact.toList ∧
      (∀ last ∈ twoSteps.steps.getLast?, IsReadBack last) ∧
      (story front .stack).steps.map Step.action = ["po"] ∧
      (story front .stack).steps.dropLast <+: (story twoSteps.compact .stack).steps ∧
      (story front .stack).steps.length ≤ twoSteps.steps.length ∧
      (story front .stack).steps.length ≤ (story twoSteps.compact .stack).steps.length := by
  intro front
  have hfence : ¬ fence <:+: twoSteps.compact.toList := by
    rw [Story.compact, compact, String.toList_ofList]
    decide +kernel
  have hfront : front.toList <+: twoSteps.compact.toList := by
    rw [Story.compact, compact, String.toList_ofList]
    decide +kernel
  have hread : ∀ last ∈ twoSteps.steps.getLast?, IsReadBack last := by
    rintro _ ⟨⟩
    exact isReadBack_of_writable ⟨.nil, nofun, nofun, nofun, nofun, .nil, nofun⟩
      ⟨nofun, nofun, nofun⟩
  obtain ⟨hfirst, htold, hwhole⟩ :=
    steps_story_of_prefix (by decide) (by decide) hfence hfront .stack
  exact ⟨hfront, hread, by decide +kernel, hfirst, htold, hwhole hread⟩

/-- A story whose only step has a further member under the name of a field. -/
def clashing : Story :=
  ⟨[{ action := "a", description := "", extra := [("line", .str "x")] }], Header.plain .stack⟩

/-- A step with a member under the name of a field is not read back from its whole text, as the name
stands for a field of another kind, but it is read from the front that ends before the member. -/
theorem not_forall_steps_story_of_prefix :
    ¬ ∀ (told : Story) (front : String) (concept : Concept), told.toJson.fitsWords = true →
      told.toJson.depth ≤ 100 → ¬ fence <:+: told.compact.toList →
        front.toList <+: told.compact.toList →
          (story front concept).steps.dropLast <+: (story told.compact concept).steps ∧
            (story front concept).steps.length ≤ (story told.compact concept).steps.length := by
  intro h
  set front := "\x7b\"steps\":[\x7b\"action\":\"a\",\"description\":\"\",\"vars\":\x7b\x7d"
  have hfence : ¬ fence <:+: clashing.compact.toList := by
    rw [Story.compact, compact, String.toList_ofList]
    decide +kernel
  have hfront : front.toList <+: clashing.compact.toList := by
    rw [Story.compact, compact, String.toList_ofList, String.toList_ofList]
    decide +kernel
  have hlength := (h clashing front .stack (by decide) (by decide) hfence hfront).2
  have hone : (story front .stack).steps.length = 1 := by decide +kernel
  have hnone : (readSteps (stepValues clashing)).length = 0 := by decide +kernel
  rw [hone, steps_story_compact (by decide) (by decide) hfence, hnone] at hlength
  exact absurd hlength (by decide)

end Storyboard.Reply
