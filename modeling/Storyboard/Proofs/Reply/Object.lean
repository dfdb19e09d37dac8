import Mathlib.Data.List.Infix
import Storyboard.Proofs.Json.Canonical
import Storyboard.Proofs.Json.Written
import Storyboard.Proofs.Reply.Mending

/-!
# Finding an object in prose

Whatever stands in the strings of an object, the fences and the prose around it do not reach into
it: the first opening brace of the reply is its first character, the last closing brace its last.
-/

namespace Storyboard

namespace Reply

/-! ## Code fences -/

/-- Three backticks. -/
def fence : List Char := ['\x60', '\x60', '\x60']

theorem dropFencesAfter_eq (skip : Nat) (cs : List Char) :
    dropFencesAfter skip cs = dropFences (cs.drop skip) := by
  induction cs generalizing skip with
  | nil => cases skip <;> rfl
  | cons c cs ih =>
    cases skip with
    | zero => rfl
    | succ skip => rw [dropFencesAfter, ih, List.drop_succ_cons]

/-- Where no fence stands, the character is kept. -/
theorem dropFences_cons {c : Char} {cs : List Char} (h : ¬ fence <+: c :: cs) :
    dropFences (c :: cs) = c :: dropFences cs := by
  have hnone : Text.dropPrefix? fence (c :: cs) = none := by
    rw [Option.eq_none_iff_forall_ne_some]
    exact fun rest hrest => h ⟨rest, (Text.dropPrefix?_eq_some_iff.mp hrest).symm⟩
  unfold dropFences
  rw [dropFencesAfter, ← fence, hnone]

/-- A fence goes with the letters on it. -/
theorem dropFences_fence (rest : List Char) :
    dropFences (fence ++ rest) = dropFences (rest.dropWhile Char.isAlpha) := by
  have hsome : Text.dropPrefix? fence (fence ++ rest) = some rest := Text.dropPrefix?_append _ _
  have hdrop : rest.drop (rest.takeWhile Char.isAlpha).length = rest.dropWhile Char.isAlpha :=
    (congrArg (List.drop _) List.takeWhile_append_dropWhile.symm).trans List.drop_left
  have hcons : fence ++ rest = '\x60' :: '\x60' :: '\x60' :: rest := rfl
  rw [hcons] at hsome ⊢
  unfold dropFences
  rw [dropFencesAfter, ← fence, hsome]
  dsimp only
  rw [dropFencesAfter_eq, ← List.drop_drop, List.drop_succ_cons, List.drop_succ_cons,
    List.drop_zero, hdrop]
  rfl

/-- A text is kept up to where a fence may start. -/
theorem dropFences_append {text rest : List Char}
    (h : ∀ back, back ≠ [] → back <:+ text → ¬ fence <+: back ++ rest) :
    dropFences (text ++ rest) = text ++ dropFences rest := by
  induction text with
  | nil => rfl
  | cons c cs ih =>
    have hc : ¬ fence <+: c :: (cs ++ rest) := h (c :: cs) (List.cons_ne_nil _ _) List.suffix_rfl
    rw [List.cons_append, dropFences_cons hc,
      ih fun back hne hback => h back hne (hback.trans (List.suffix_cons c cs)), List.cons_append]

/-- A text without a fence is kept. -/
theorem dropFences_eq_self {text : List Char} (h : ¬ fence <:+: text) : dropFences text = text := by
  have hkept : dropFences (text ++ []) = text ++ dropFences [] := by
    refine dropFences_append fun back _ hback hfence => ?_
    rw [List.append_nil] at hfence
    exact h (hfence.isInfix.trans hback.isInfix)
  rwa [List.append_nil, show dropFences [] = [] from rfl, List.append_nil] at hkept

/-- A fence does not reach over a character that is none of its own. -/
theorem fence_prefix_append_iff {front rest : List Char} {c : Char} (hc : c ≠ '\x60') :
    fence <+: front ++ c :: rest ↔ fence <+: front := by
  constructor
  · intro h
    rcases List.prefix_or_prefix_of_prefix h (List.prefix_append front (c :: rest)) with hin | hover
    · exact hin
    · obtain ⟨back, hback⟩ := hover
      cases back with
      | nil =>
        rw [List.append_nil] at hback
        exact hback ▸ List.prefix_rfl
      | cons d back =>
        -- the character right behind `front` would be one of the fence
        obtain ⟨after, hafter⟩ := h
        rw [← hback, List.append_assoc] at hafter
        have hd : d = c := (List.cons.inj (List.append_cancel_left hafter)).1
        have hmem : c ∈ fence := by
          rw [← hback, hd]
          simp
        simp only [fence, List.mem_cons, List.not_mem_nil, or_false, or_self] at hmem
        exact absurd hmem hc
  · exact fun h => h.trans (List.prefix_append _ _)

/-- A text that ends in another character, and has no fence in it, is kept in front of anything. -/
theorem dropFences_concat_append {text : List Char} {c : Char} (hc : c ≠ '\x60')
    (h : ¬ fence <:+: text ++ [c]) (rest : List Char) :
    dropFences (text ++ [c] ++ rest) = text ++ [c] ++ dropFences rest := by
  refine dropFences_append fun back hne hback hfence => h ?_
  obtain ⟨front, hfront⟩ := hback
  obtain ⟨kept, d, rfl⟩ : ∃ kept d, back = kept ++ [d] :=
    ⟨back.dropLast, back.getLast hne, (List.dropLast_append_getLast hne).symm⟩
  rw [← List.append_assoc] at hfront
  obtain ⟨htext, hlast⟩ := List.append_inj' hfront rfl
  obtain rfl : d = c := (List.cons.inj hlast).1
  rw [List.append_assoc, List.singleton_append, fence_prefix_append_iff hc] at hfence
  rw [← htext]
  exact (hfence.trans (List.prefix_append _ _)).isInfix.trans
    ⟨front, [], by rw [List.append_nil, List.append_assoc]⟩

/-- What stands without fences stood there with them. -/
theorem mem_of_mem_dropFencesAfter {c : Char} {cs : List Char} :
    ∀ {skip : Nat}, c ∈ dropFencesAfter skip cs → c ∈ cs := by
  induction cs with
  | nil => intro skip h; cases skip <;> cases h
  | cons d cs ih =>
    intro skip h
    cases skip with
    | succ skip => exact List.mem_cons_of_mem d (ih h)
    | zero =>
      rw [dropFencesAfter] at h
      split at h
      next => exact List.mem_cons_of_mem d (ih h)
      next =>
        rcases List.mem_cons.mp h with rfl | hrest
        · exact List.mem_cons_self
        · exact List.mem_cons_of_mem d (ih hrest)

/-- Without fences, prose is passed over up to the brace behind it. -/
theorem dropWhile_dropFences (before tail : List Char) (h : '\x7b' ∉ before) :
    (dropFences (before ++ '\x7b' :: tail)).dropWhile (· != '\x7b') =
      '\x7b' :: dropFences tail := by
  have hbrace : ¬ fence <+: '\x7b' :: tail := by
    rw [← List.nil_append ('\x7b' :: tail), fence_prefix_append_iff (by decide)]
    exact fun hnil => absurd (List.prefix_nil.mp hnil) (List.cons_ne_nil _ _)
  induction hlength : before.length using Nat.strongRecOn generalizing before with
  | ind length ih =>
    cases before with
    | nil =>
      rw [List.nil_append, dropFences_cons hbrace, List.dropWhile_cons_of_neg (by simp)]
    | cons c cs =>
      by_cases hfence : fence <+: c :: cs
      · obtain ⟨rest, hrest⟩ := hfence
        -- the letters on the fence end before the brace
        have hname : (rest ++ '\x7b' :: tail).dropWhile Char.isAlpha =
            rest.dropWhile Char.isAlpha ++ '\x7b' :: tail := by
          rw [List.dropWhile_append]
          split
          next hnil =>
            rw [List.isEmpty_iff.mp hnil, List.dropWhile_cons_of_neg (by decide), List.nil_append]
          next => rfl
        have hshort : (rest.dropWhile Char.isAlpha).length < length := by
          have hcut := List.Sublist.length_le (List.dropWhile_sublist (l := rest) Char.isAlpha)
          rw [← hlength, ← hrest, List.length_append]
          exact Nat.lt_of_le_of_lt hcut (by simp [fence])
        have hfree : '\x7b' ∉ rest.dropWhile Char.isAlpha := fun hmem => h (by
          rw [← hrest]
          exact List.mem_append_right _ ((List.dropWhile_sublist _).mem hmem))
        rw [← hrest, List.append_assoc, dropFences_fence, hname]
        exact ih _ hshort _ hfree rfl
      · have hkept : ¬ fence <+: c :: (cs ++ '\x7b' :: tail) := by
          rw [← List.cons_append, fence_prefix_append_iff (by decide)]
          exact hfence
        have hc : c ≠ '\x7b' := fun heq => h (heq ▸ List.mem_cons_self)
        rw [List.cons_append, dropFences_cons hkept, List.dropWhile_cons_of_pos (by simp [hc])]
        exact ih cs.length (by rw [← hlength]; exact Nat.lt_succ_self _) cs
          (fun hmem => h (List.mem_cons_of_mem c hmem)) rfl

/-! ## The object between the braces -/

variable {members : List (String × Json)} {text : List Char}

/-- Behind prose the candidate is what stands between the braces. -/
theorem object?_braces {inner before after : List Char}
    (hbefore : '\x7b' ∉ before) (hafter : '\x7d' ∉ after)
    (hfence : ¬ fence <:+: '\x7b' :: (inner ++ ['\x7d']))
    (hmembers : members? ('\x7b' :: (inner ++ ['\x7d'])) = some members) :
    object? (String.ofList (before ++ '\x7b' :: (inner ++ ['\x7d']) ++ after)) = some members := by
  have hinner : ¬ fence <:+: inner ++ ['\x7d'] := fun h =>
    hfence (h.trans (List.suffix_cons _ _).isInfix)
  have hstart : (dropFences (before ++ '\x7b' :: (inner ++ ['\x7d']) ++ after)).dropWhile
      (· != '\x7b') = '\x7b' :: (inner ++ ['\x7d']) ++ dropFences after := by
    rw [List.append_assoc, List.cons_append, dropWhile_dropFences before _ hbefore,
      dropFences_concat_append (by decide) hinner]
    rfl
  -- what is dropped at the end reaches back to the closing brace of the object
  have hclosed : Text.dropEndWhile (· != '\x7d')
      ('\x7b' :: (inner ++ ['\x7d']) ++ dropFences after) = '\x7b' :: (inner ++ ['\x7d']) := by
    rw [Text.dropEndWhile_append_of_all]
    · rw [← List.cons_append]
      exact Text.dropEndWhile_concat_of_not _ (by decide)
    · intro c hc
      have hmem := mem_of_mem_dropFencesAfter hc
      rw [bne_iff_ne]
      rintro rfl
      exact hafter hmem
  unfold object?
  rw [String.toList_ofList, hstart]
  dsimp only
  rw [hclosed, hmembers]
  rfl

/-- The members of a written object are read back. -/
theorem members?_of_writes
    (hexact : (Json.obj members).isExact = true) (hcanonical : (Json.obj members).IsCanonical)
    (hdepth : (Json.obj members).depth ≤ Json.depthLimit)
    (hwritten : Json.Writes (.obj members) text) : members? text = some members := by
  unfold members?
  rw [Json.parse?_of_writes hexact hwritten, if_pos hdepth, hcanonical]

/-- An object stands between its braces. -/
theorem exists_braces (h : Json.Writes (.obj members) text) :
    ∃ inner, text = '\x7b' :: (inner ++ ['\x7d']) := by
  cases h with
  | noMembers => exact ⟨[], rfl⟩
  | obj written blank => exact ⟨_, rfl⟩

/-- An object that is written, with or without indentation, is found in a reply whatever its strings
hold, behind prose without an opening brace and before prose without a closing one, and so it is
between code fences. -/
theorem object?_embedded {before after : String}
    (hexact : (Json.obj members).isExact = true) (hcanonical : (Json.obj members).IsCanonical)
    (hdepth : (Json.obj members).depth ≤ Json.depthLimit)
    (hwritten : Json.Writes (.obj members) text) (hfence : ¬ fence <:+: text)
    (hbefore : '\x7b' ∉ before.toList) (hafter : '\x7d' ∉ after.toList) :
    object? (before ++ String.ofList text ++ after) = some members ∧
      ∀ gap gap' : String, Json.IsGap gap.toList → Json.IsGap gap'.toList →
        object? (before ++ ("```json" ++ gap ++ String.ofList text ++ gap' ++ "```") ++ after) =
          some members := by
  obtain ⟨inner, rfl⟩ := exists_braces hwritten
  have hmembers := members?_of_writes hexact hcanonical hdepth hwritten
  have hreply {front back : String} (hfront : '\x7b' ∉ front.toList)
      (hback : '\x7d' ∉ back.toList) :
      object? (front ++ String.ofList ('\x7b' :: (inner ++ ['\x7d'])) ++ back) =
        some members := by
    have hfound := object?_braces hfront hback hfence hmembers
    rwa [String.ofList_append, String.ofList_append, String.ofList_toList, String.ofList_toList]
      at hfound
  refine ⟨hreply hbefore hafter, fun gap gap' hgap hgap' => ?_⟩
  -- the fences and the gaps are prose as well: they hold no brace
  have hsplit : before ++ ("```json" ++ gap ++ String.ofList ('\x7b' :: (inner ++ ['\x7d'])) ++
      gap' ++ "```") ++ after = (before ++ "```json" ++ gap) ++
        String.ofList ('\x7b' :: (inner ++ ['\x7d'])) ++ (gap' ++ "```" ++ after) := by
    simp only [String.append_assoc]
  rw [hsplit]
  refine hreply ?_ ?_
  · simp only [String.toList_append, List.mem_append, not_or]
    exact ⟨⟨hbefore, by decide⟩, fun hmem => absurd (hgap _ hmem) (by decide)⟩
  · simp only [String.toList_append, List.mem_append, not_or]
    exact ⟨⟨fun hmem => absurd (hgap' _ hmem) (by decide), by decide⟩, hafter⟩

/-- Braces and quotes inside a string, between fences and behind a first sentence. -/
theorem object?_embedded_braces :
    object? ("Here: " ++ ("```json" ++ "\n" ++
      String.ofList (Json.compactChars (.obj [("a", .str "\x7d \" \x7b")])) ++ "\n" ++ "```") ++
        " Done.") = some [("a", .str "\x7d \" \x7b")] :=
  have hcanonical : (Json.obj [("a", .str "\x7d \" \x7b")]).IsCanonical := rfl
  (object?_embedded (by decide) hcanonical (by decide) (Json.writes_compact _) (by decide)
    (by decide) (by decide)).2 "\n" "\n"
    (by simp [Json.IsGap, Json.isSpace]) (by simp [Json.IsGap, Json.isSpace])

end Reply

end Storyboard
