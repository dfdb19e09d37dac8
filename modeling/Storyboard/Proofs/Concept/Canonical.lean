import Storyboard.Proofs.Concept.Resolve

/-!
# Canonical labels stay where they are

A label and a sub-label are normalized to a concept, and the label of that concept is normalized to
the same concept.  For the concepts of the vocabulary this is looked up.  Outside of it the label
alone has to name no family: its folded words stand at the front of those of both labels together,
so what is found in the words of the label is found in the words of both.

The label of a concept is resolved to the concept as well, unless the concept lies outside the
vocabulary and its label spells an alias (`resolve_settles`).
-/

namespace Storyboard

namespace Text

/-! ## Texts on both sides of a blank -/

theorem imageIn_across_blank {before cs more : List Char} {b c : Char} (h : isBlank b = true) :
    imageIn before c (cs ++ b :: more) = imageIn before c cs := by
  rw [imageIn, meetsCased_append_blank h]
  rfl

theorem imageIn_after_blank {before more cs : List Char} {b c : Char} (h : isBlank b = true) :
    imageIn (before ++ b :: more) c cs = imageIn before c cs := by
  rw [imageIn, meetsCased_append_blank h]
  rfl

/-- What follows a blank is lowered as if it stood alone. -/
theorem lowerAfter_after_blank {before more cs : List Char} {b : Char} (h : isBlank b = true) :
    lowerAfter (before ++ b :: more) cs = lowerAfter before cs := by
  induction cs generalizing before with
  | nil => rfl
  | cons c cs ih =>
    rw [lowerAfter_cons, lowerAfter_cons, imageIn_after_blank h, ← List.cons_append, ih]

/-- The texts on both sides of a blank are lowered each for itself. -/
theorem lowerAfter_across_blank {before cs more : List Char} {b : Char} (h : isBlank b = true) :
    lowerAfter before (cs ++ b :: more) = lowerAfter before cs ++ b :: lowerAfter [] more := by
  induction cs generalizing before with
  | nil =>
    rw [List.nil_append, lowerAfter_cons, imageIn_of_isLowered (isLowered_of_blank h).1,
      ← List.nil_append (b :: before), lowerAfter_after_blank h]
    rfl
  | cons c cs ih =>
    rw [List.cons_append, lowerAfter_cons, lowerAfter_cons, imageIn_across_blank h, ih,
      List.append_assoc]

theorem wordsFrom_across_blank {word cs more : List Char} {b : Char} (h : isBlank b = true) :
    wordsFrom word (cs ++ b :: more) = wordsFrom word cs ++ words more := by
  induction cs generalizing word with
  | nil =>
    rw [List.nil_append, wordsFrom_cons, if_pos h, words]
    cases word with
    | nil => rfl
    | cons c word => rfl
  | cons c cs ih =>
    rw [List.cons_append, wordsFrom_cons, wordsFrom_cons, ih, ih]
    split
    · split
      · rfl
      · rw [List.cons_append]
    · rfl

/-- The words on both sides of a blank are those of the two texts. -/
theorem words_across_blank {cs more : List Char} {b : Char} (h : isBlank b = true) :
    words (cs ++ b :: more) = words cs ++ words more :=
  wordsFrom_across_blank h

/-! ## Occurrences -/

/-- A text occurs in another exactly when it is a part of it without gaps. -/
theorem occursIn_eq_true_iff {needle cs : List Char} : occursIn needle cs = true ↔ needle <:+: cs := by
  induction cs with
  | nil => rw [occursIn, List.isEmpty_iff, List.infix_nil]
  | cons c cs ih => rw [occursIn, Bool.or_eq_true, List.isPrefixOf_iff_prefix, ih, List.infix_cons_iff]

end Text

namespace Concept

/-! ## Folding two labels -/

theorem foldedWords_append_sub (label sub : String) :
    foldedWords (label ++ " " ++ sub) = foldedWords label ++ foldedWords sub := by
  have hblank : Text.isBlank ' ' = true := rfl
  have hsplit : (label ++ " " ++ sub).toList = label.toList ++ ' ' :: sub.toList := by simp
  unfold foldedWords Text.lower
  simp only [String.toList_ofList]
  rw [hsplit, Text.lowerAfter_across_blank hblank, List.map_append, List.map_cons]
  exact Text.words_across_blank hblank

/-- The text of some words is where the text of these and further words starts. -/
theorem joinWords_begins (words more : List (List Char)) :
    joinWords words <+: joinWords (words ++ more) := by
  unfold joinWords
  induction words with
  | nil => exact List.nil_prefix
  | cons word rest ih =>
    cases rest with
    | nil =>
      cases more with
      | nil => exact List.prefix_refl _
      | cons next more =>
        rw [List.cons_append, List.nil_append, List.intercalate_cons_cons, List.append_assoc]
        simp
    | cons next rest =>
      rw [List.cons_append, List.cons_append, List.intercalate_cons_cons,
        List.intercalate_cons_cons]
      exact (List.prefix_append_right_inj _).mpr ih

/-- What is found in the folded label is found in it together with a sub-label. -/
theorem has_of_has_label {label sub needle : String}
    (h : (Folded.ofLabel label).has needle = true) :
    (Folded.ofLabel (label ++ " " ++ sub)).has needle = true := by
  rw [Folded.has, Text.occursIn_eq_true_iff] at h ⊢
  unfold Folded.ofLabel at h ⊢
  dsimp only at h ⊢
  rw [foldedWords_append_sub]
  exact h.trans (joinWords_begins _ _).isInfix

/-! ## Families -/

/-- The texts that name a family. -/
def familyNeedles : List String :=
  ["linked", "queue", "deque", "tree", "graph", "sort", "search", "stack"]

/-- A folded label names no family exactly when none of their texts is found in it. -/
theorem ofFolded?_eq_none_iff {f : Folded} :
    ofFolded? f = none ↔ ∀ needle ∈ familyNeedles, f.has needle = false := by
  simp only [ofFolded?, familyNeedles, List.forall_mem_cons, List.not_mem_nil]
  grind

/-- A label names no family when it names none together with a sub-label. -/
theorem ofFolded?_label_eq_none {label sub : String}
    (h : ofFolded? (Folded.ofLabel (label ++ " " ++ sub)) = none) :
    ofFolded? (Folded.ofLabel label) = none := by
  rw [ofFolded?_eq_none_iff] at h ⊢
  intro needle hneedle
  have hboth := h needle hneedle
  rw [Bool.eq_false_iff] at hboth ⊢
  exact fun hlabel => hboth (has_of_has_label hlabel)

/-! ## Labels outside the vocabulary -/

/-- What is normalized to a label outside the vocabulary is so without its sub-label. -/
theorem parse_eq_of_normalize_other {label sub raw : String}
    (h : normalize label sub = .other raw) : parse label = .other raw := by
  unfold normalize at h
  dsimp only at h
  split at h
  next => cases h
  next =>
    cases hfamily : ofFolded? (Folded.ofLabel (label ++ " " ++ sub)) with
    | some concept =>
      rw [hfamily, Option.getD_some] at h
      exact absurd h (ofFolded?_ne_other hfamily raw)
    | none =>
      rw [hfamily, Option.getD_none] at h
      have hwords : (foldedWords label).isEmpty = false := by
        rw [Bool.eq_false_iff]
        intro hempty
        -- a label without words is not kept
        have hraw : (foldedWords (Text.lower (Text.trimmed label))).isEmpty = true := by
          rw [foldedWords_lower_trimmed, hempty]
        rw [ofUnmatched, hraw] at h
        cases h
      rw [parse_eq, hwords, ofFolded?_label_eq_none hfamily, if_neg Bool.false_ne_true,
        Option.getD_none, h]

/-- A label outside the vocabulary is normalized to itself. -/
theorem parse_of_parse_other {label raw : String} (h : parse label = .other raw) :
    parse raw = .other raw :=
  calc parse raw = parse (Text.lower (Text.trimmed label)) := congrArg parse (eq_of_parse_other h)
    _ = parse label := parse_lower_trimmed label
    _ = .other raw := h

theorem parse_empty : parse "" = .unknown := by decide +kernel

/-- The label that a pair of labels is normalized to is normalized to the same concept, and is not
empty. -/
theorem normalize_settles (label sub : String) :
    normalize (normalize label sub).label "" = normalize label sub ∧
      (normalize label sub).label ≠ "" := by
  have hfixed : parse (normalize label sub).label = normalize label sub := by
    cases hconcept : normalize label sub with
    | other raw => exact parse_of_parse_other (parse_eq_of_normalize_other hconcept)
    | _ => exact parse_label nofun
  refine ⟨hfixed, fun hempty => ?_⟩
  rw [hempty, parse_empty] at hfixed
  rw [← hfixed] at hempty
  exact absurd hempty (by decide)

/-! ## Resolving canonical labels -/

/-- The concept is outside the vocabulary, and the letters and digits of its label spell an alias. -/
def SpellsAlias : Concept → Prop
  | other label => aliasKey label ∈ aliases.map Prod.fst
  | _ => False

/-- Labels are written with small letters and hyphens. -/
theorem isLowered_of_mem_label {kind : Concept} (h : ∀ text, kind ≠ .other text) {c : Char}
    (hc : c ∈ kind.label.toList) : Text.IsLowered c ∧ Text.isBlank c = false := by
  have hascii : ∀ n : Fin 128, (Char.ofNat n).isLower || Char.ofNat n == '-' →
      Text.IsLowered (Char.ofNat n) ∧ Text.isBlank (Char.ofNat n) = false := by decide +kernel
  have hall : ∀ kind ∈ vocabulary,
      kind.label.toList.all (fun c => c.val < 0x80 && (c.isLower || c == '-')) = true := by
    decide +kernel
  have hletter := List.all_eq_true.mp (hall kind (mem_vocabulary h)) c hc
  rw [Bool.and_eq_true, decide_eq_true_eq] at hletter
  obtain ⟨n, rfl⟩ := Text.exists_ascii hletter.1
  exact hascii n hletter.2

/-- A label is its own trimmed lower-case form. -/
theorem lower_trimmed_label {kind : Concept} (h : ∀ text, kind ≠ .other text) :
    Text.lower (Text.trimmed kind.label) = kind.label := by
  have htrim : Text.trim kind.label.toList = kind.label.toList := Text.trim_of_isTrimmed
    ⟨fun c hc => (isLowered_of_mem_label h (List.mem_of_mem_head? hc)).2,
      fun c hc => (isLowered_of_mem_label h (List.mem_of_mem_getLast? hc)).2⟩
  rw [Text.trimmed, htrim, Text.lower, String.toList_ofList,
    Text.lowerAfter_of_isLowered fun c hc => (isLowered_of_mem_label h hc).1, String.ofList_toList]

/-- The aliases that canonical labels spell stand for the concepts of these labels. -/
theorem resolve_label {kind : Concept} (h : ∀ text, kind ≠ .other text) :
    resolve kind.label = kind := by
  have hall : ∀ kind ∈ vocabulary, (aliases.lookup (aliasKey kind.label)).getD kind = kind := by
    decide +kernel
  rw [resolve_eq, lower_trimmed_label h, parse_label h]
  exact hall kind (mem_vocabulary h)

theorem exists_lookup_aliases_iff {key : String} :
    (∃ concept, aliases.lookup key = some concept) ↔ key ∈ aliases.map Prod.fst := by
  rw [← Option.isSome_iff_exists, List.lookup_isSome_iff, List.mem_map]
  refine exists_congr fun entry => and_congr_right fun _ => ?_
  rw [beq_iff_eq, eq_comm]

/-- A label outside the vocabulary is resolved to itself exactly when it spells no alias. -/
theorem resolve_of_parse_other_iff {label raw : String} (h : parse label = .other raw) :
    resolve raw = .other raw ↔ ¬ SpellsAlias (.other raw) := by
  have hlower : Text.lower (Text.trimmed raw) = raw := by
    rw [eq_of_parse_other h, Text.lower_trimmed_idempotent]
  have hresolve : resolve raw = (aliases.lookup (aliasKey raw)).getD (.other raw) := by
    rw [resolve_eq, hlower, parse_of_parse_other h]
  rw [hresolve, SpellsAlias, ← exists_lookup_aliases_iff]
  cases hkey : aliases.lookup (aliasKey raw) with
  | none =>
    refine iff_of_true rfl ?_
    rintro ⟨_, ⟨⟩⟩
  | some concept =>
    refine iff_of_false (lookup_aliases_ne_other hkey raw) (not_not_intro ⟨concept, rfl⟩)

/-- The label of what a label is resolved to is resolved to the same concept.  What two labels are
normalized to is also what its own label is resolved to, exactly unless that label lies outside the
vocabulary and spells an alias. -/
theorem resolve_settles :
    (∀ label : String, resolve (resolve label).label = resolve label) ∧
      ∀ label sub : String,
        resolve (normalize label sub).label = normalize label sub ↔
          ¬ SpellsAlias (normalize label sub) := by
  constructor
  · intro label
    cases hconcept : resolve label with
    | other raw => exact (resolve_of_parse_other (resolve_other hconcept)).trans hconcept
    | _ => exact resolve_label nofun
  · intro label sub
    cases hconcept : normalize label sub with
    | other raw => exact resolve_of_parse_other_iff (parse_eq_of_normalize_other hconcept)
    | _ => exact iff_of_true (resolve_label nofun) not_false

end Concept

end Storyboard
