import Storyboard.Concept.Alias
import Storyboard.Proofs.Text.Lower

/-!
# A label is resolved once

A label is resolved by way of its trimmed lower-case form, and so is what lies outside the
vocabulary, whose label is that form.  Resolving once more therefore changes nothing, and a label
that is only normalized ends under the same concept unless it spells an alias and names a family
that the alias does not stand for.
-/

namespace Storyboard.Concept

/-! ## Folding -/

/-- What a separator of words becomes. -/
theorem isBlank_separator {c : Char} (h : Text.isBlank c = true) :
    Text.isBlank (if c == '_' || c == '-' then ' ' else c) = true := by
  split
  · rfl
  · exact h

/-- The words of a label are those of the text between its blanks. -/
theorem foldedWords_between_blanks {label inner : String} {lead trail : List Char}
    (hlabel : label.toList = lead ++ inner.toList ++ trail)
    (hlead : ∀ c ∈ lead, Text.isBlank c = true) (htrail : ∀ c ∈ trail, Text.isBlank c = true) :
    foldedWords label = foldedWords inner := by
  unfold foldedWords Text.lower
  rw [String.toList_ofList, String.toList_ofList, hlabel,
    Text.lowerAfter_between_blanks hlead htrail, List.map_append, List.map_append]
  refine Text.words_between_blanks ?_ ?_
  · intro c hc
    obtain ⟨b, hb, rfl⟩ := List.mem_map.mp hc
    exact isBlank_separator (hlead b hb)
  · intro c hc
    obtain ⟨b, hb, rfl⟩ := List.mem_map.mp hc
    exact isBlank_separator (htrail b hb)

theorem foldedWords_lower_trimmed (label : String) :
    foldedWords (Text.lower (Text.trimmed label)) = foldedWords label := by
  obtain ⟨lead, trail, hlead, htrail, hlabel⟩ := Text.exists_blanks_trim label.toList
  have hlower : foldedWords (Text.lower (Text.trimmed label)) = foldedWords (Text.trimmed label) := by
    unfold foldedWords
    rw [Text.lower_lower]
  have htrimmed : label.toList = lead ++ (Text.trimmed label).toList ++ trail := by
    rw [Text.trimmed, String.toList_ofList]
    exact hlabel
  rw [hlower, foldedWords_between_blanks htrimmed hlead htrail]

/-- A label alone is folded like the label. -/
theorem ofLabel_alone (label : String) :
    Folded.ofLabel (label ++ " " ++ "") = Folded.ofLabel label := by
  have hblank : (label ++ " " ++ "").toList = [] ++ label.toList ++ [' '] := by simp
  have hwords : foldedWords (label ++ " " ++ "") = foldedWords label :=
    foldedWords_between_blanks hblank (by simp) (by simp [Text.isBlank])
  rw [Folded.ofLabel, Folded.ofLabel, hwords]

/-! ## Resolving -/

theorem parse_eq (label : String) : parse label =
    if (foldedWords label).isEmpty then .unknown
    else (ofFolded? (Folded.ofLabel label)).getD (ofUnmatched label) := by
  rw [parse, normalize, ofLabel_alone]
  rfl

/-- A label is normalized like its trimmed lower-case form. -/
theorem parse_lower_trimmed (label : String) :
    parse (Text.lower (Text.trimmed label)) = parse label := by
  rw [parse_eq, parse_eq, Folded.ofLabel, Folded.ofLabel, foldedWords_lower_trimmed, ofUnmatched,
    ofUnmatched, Text.lower_trimmed_idempotent]

theorem resolve_eq (label : String) : resolve label =
    (aliases.lookup (aliasKey (Text.lower (Text.trimmed label)))).getD (parse label) := by
  rw [resolve, parse_lower_trimmed]

/-- A label is resolved like its trimmed lower-case form. -/
theorem resolve_lower_trimmed (label : String) :
    resolve (Text.lower (Text.trimmed label)) = resolve label := by
  rw [resolve_eq, resolve_eq, Text.lower_trimmed_idempotent, parse_lower_trimmed]

/-- No family is outside the vocabulary. -/
theorem ofFolded?_ne_other {f : Folded} {concept : Concept} (h : ofFolded? f = some concept)
    (raw : String) : concept ≠ .other raw := by
  rintro rfl
  unfold ofFolded? at h
  repeat' split at h
  all_goals simp at h

/-- A label outside the vocabulary keeps its trimmed lower-case form. -/
theorem eq_of_parse_other {label raw : String} (h : parse label = .other raw) :
    raw = Text.lower (Text.trimmed label) := by
  rw [parse_eq] at h
  split at h
  · cases h
  · cases hfamily : ofFolded? (Folded.ofLabel label) with
    | some concept =>
      rw [hfamily, Option.getD_some] at h
      exact absurd h (ofFolded?_ne_other hfamily raw)
    | none =>
      rw [hfamily, Option.getD_none, ofUnmatched] at h
      split at h
      · cases h
      · exact (Concept.other.inj h).symm

theorem aliases_ne_other : ∀ entry ∈ aliases, ∀ raw, entry.2 ≠ .other raw := by
  simp [aliases]

/-- No alias stands for something outside the vocabulary. -/
theorem lookup_aliases_ne_other {key : String} {concept : Concept}
    (h : aliases.lookup key = some concept) (raw : String) : concept ≠ .other raw := by
  obtain ⟨before, after, hsplit, -⟩ := List.lookup_eq_some_iff.mp h
  have hmem : (key, concept) ∈ aliases := by
    rw [hsplit]
    exact List.mem_append_right _ List.mem_cons_self
  exact aliases_ne_other _ hmem raw

/-- What lies outside the vocabulary is no alias, and keeps its label when it is resolved. -/
theorem resolve_other {label raw : String} (h : resolve label = .other raw) :
    parse label = .other raw := by
  rw [resolve_eq] at h
  cases hkey : aliases.lookup (aliasKey (Text.lower (Text.trimmed label))) with
  | none =>
    rw [hkey, Option.getD_none] at h
    exact h
  | some concept =>
    rw [hkey, Option.getD_some] at h
    exact absurd h (lookup_aliases_ne_other hkey raw)

/-- What is normalized to a label outside the vocabulary is resolved by way of that label. -/
theorem resolve_of_parse_other {label raw : String} (h : parse label = .other raw) :
    resolve raw = resolve label := by
  rw [eq_of_parse_other h, resolve_lower_trimmed]

/-- What is outside the vocabulary once resolved stays what it is. -/
theorem reconsider_resolve (label : String) : (resolve label).reconsider = resolve label := by
  cases hconcept : resolve label with
  | other raw =>
    rw [reconsider, resolve_of_parse_other (resolve_other hconcept), hconcept]
  | _ => rfl

/-- What was reconsidered is not reconsidered to something else. -/
theorem reconsider_reconsider (concept : Concept) :
    concept.reconsider.reconsider = concept.reconsider := by
  cases concept with
  | other label => exact reconsider_resolve label
  | _ => rfl

/-- The label spells no alias, or what it is normalized to is what the alias stands for, or lies
outside the vocabulary. -/
def AliasAgrees (label : String) : Prop :=
  ∀ concept, aliases.lookup (aliasKey (Text.lower (Text.trimmed label))) = some concept →
    parse label = concept ∨ ∃ raw, parse label = .other raw

/-- A label that is normalized and then reconsidered ends where it would be resolved to exactly when
no alias disagrees. -/
theorem reconsider_parse_eq_resolve_iff (label : String) :
    (parse label).reconsider = resolve label ↔ AliasAgrees label := by
  by_cases hother : ∃ raw, parse label = .other raw
  · obtain ⟨raw, hraw⟩ := hother
    refine iff_of_true ?_ fun _ _ => Or.inr ⟨raw, hraw⟩
    rw [hraw, reconsider, resolve_of_parse_other hraw]
  · have hkept : (parse label).reconsider = parse label := by
      cases hparse : parse label with
      | other raw => exact absurd ⟨raw, hparse⟩ hother
      | _ => rfl
    rw [hkept, resolve_eq, AliasAgrees]
    generalize aliases.lookup (aliasKey (Text.lower (Text.trimmed label))) = spelled
    cases spelled with
    | none => exact iff_of_true (Option.getD_none).symm nofun
    | some concept =>
      rw [Option.getD_some]
      constructor
      · intro h _ hkey
        exact Or.inl (h.trans (Option.some.inj hkey))
      · intro h
        exact (h concept rfl).resolve_right hother

/-! ## Canonical labels -/

/-- The concepts that have a label of their own. -/
def vocabulary : List Concept :=
  [.stack,
    .queue .linear, .queue .circular, .queue .priority, .queue .deque, .queue .circularDeque,
    .queue .inputRestrictedDeque, .queue .outputRestrictedDeque, .queue .doublePriority,
    .queue .multiple,
    .linkedList .singly, .linkedList .doubly, .linkedList .circularSingly,
    .linkedList .circularDoubly,
    .tree .generic, .tree .bst, .tree .avl, .tree .redBlack, .tree .bTree,
    .graph .generic, .graph .bfs, .graph .dfs, .graph .weighted,
    .sorting .generic, .sorting .bubble, .sorting .selection, .sorting .insertion, .sorting .merge,
    .sorting .quick, .sorting .heap,
    .searching .generic, .searching .binary, .searching .linear,
    .unknown]

theorem mem_vocabulary {kind : Concept} (h : ∀ text, kind ≠ .other text) : kind ∈ vocabulary := by
  cases kind with
  | other text => exact absurd rfl (h text)
  | stack | unknown => simp [vocabulary]
  | queue kind | linkedList kind | tree kind | graph kind | sorting kind | searching kind =>
    cases kind <;> simp [vocabulary]

/-- A concept of the vocabulary is what its own label is normalized to. -/
theorem parse_label {kind : Concept} (h : ∀ text, kind ≠ .other text) : parse kind.label = kind := by
  have hall : ∀ kind ∈ vocabulary, parse kind.label = kind := by decide +kernel
  exact hall kind (mem_vocabulary h)

end Storyboard.Concept
