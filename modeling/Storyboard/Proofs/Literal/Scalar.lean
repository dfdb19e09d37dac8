import Storyboard.Proofs.Literal.Nested

/-!
# Scalars in lists

A scalar is a literal that holds no other one.  It is written as a bare word or between single
quotes, so a character that is neither bare nor one of the marks around items stands in a list of
scalars only where one of its texts holds it (`not_mem_chars_list`).
-/

namespace Storyboard.Literal

/-- An empty value, a truth value, an integer or a text. -/
def isScalar : Literal → Bool
  | none | bool _ | int _ | text _ => true
  | _ => false

variable {value : Literal}

theorem isFloatFree_of_isScalar (h : value.isScalar = true) : value.isFloatFree = true := by
  cases value with
  | none | bool _ | int _ | text _ => rfl
  | float _ | tuple _ | list _ | dict _ => exact absurd h Bool.false_ne_true

theorem areFloatFree_of_isScalar {values : List Literal}
    (h : ∀ value ∈ values, value.isScalar = true) : areFloatFree values = true := by
  induction values with
  | nil => rfl
  | cons value values ih =>
    obtain ⟨hvalue, hvalues⟩ := List.forall_mem_cons.mp h
    rw [areFloatFree, isFloatFree_of_isScalar hvalue, ih hvalues]
    rfl

theorem havePlainTexts_of_forall {values : List Literal}
    (h : ∀ value ∈ values, value.hasPlainTexts = true) : havePlainTexts values = true := by
  induction values with
  | nil => rfl
  | cons value values ih =>
    obtain ⟨hvalue, hvalues⟩ := List.forall_mem_cons.mp h
    rw [havePlainTexts, hvalue, ih hvalues]
    rfl

/-- Scalars are read back with any fuel at all. -/
theorem readsBack_of_isScalar (h : value.isScalar = true) (hplain : value.hasPlainTexts = true)
    (fuel : Nat) : ReadsBack (fuel + 1) value := by
  intro rest hrest
  cases value with
  | none => exact valueAt_none fuel hrest
  | bool b => exact valueAt_bool fuel b hrest
  | int n => exact valueAt_int fuel n hrest
  | text s => exact valueAt_text fuel hplain rest
  | float _ | tuple _ | list _ | dict _ => exact absurd h Bool.false_ne_true

/-! ## Characters -/

/-- A character of a word or a minus sign. -/
def isBare (c : Char) : Bool := isKeywordChar c || c == '-'

/-- A scalar is a text or a bare word. -/
theorem isBare_of_mem_chars (h : value.isScalar = true) (htext : ∀ s, value ≠ .text s) :
    ∀ c ∈ chars true value, isBare c = true := by
  cases value with
  | none => exact List.all_eq_true.mp rfl
  | bool b => cases b <;> exact List.all_eq_true.mp rfl
  | int n =>
    intro c hc
    rw [chars, Decimal.toList_intText, List.mem_append] at hc
    rcases hc with hsign | hdigit
    · split at hsign
      · rw [List.mem_singleton.mp hsign]
        rfl
      · exact absurd hsign List.not_mem_nil
    · have hkeyword : isKeywordChar c = true := by
        rw [isKeywordChar, Char.isAlphanum, Decimal.isDigit_of_mem_natDigits hdigit, Bool.or_true,
          Bool.true_or]
      rw [isBare, hkeyword, Bool.true_or]
  | text s => exact absurd rfl (htext s)
  | float _ | tuple _ | list _ | dict _ => exact absurd h Bool.false_ne_true

/-- A character that is neither bare nor a quote stands in no scalar but a text that holds it. -/
theorem not_mem_chars {c : Char} (hbare : isBare c = false) (hquote : c ≠ '\'')
    (h : value.isScalar = true) (htext : ∀ s, value = .text s → c ∉ s.toList) :
    c ∉ chars true value := by
  by_cases hs : ∃ s, value = .text s
  · obtain ⟨s, rfl⟩ := hs
    rw [chars, if_pos rfl, List.mem_cons, List.mem_append, List.mem_singleton]
    simp [hquote, htext s rfl]
  · intro hc
    have hc := isBare_of_mem_chars h (fun s hvalue => hs ⟨s, hvalue⟩) c hc
    rw [hbare] at hc
    exact Bool.false_ne_true hc

/-- Nor does it stand in a list of scalars, if it is none of the marks around its items. -/
theorem not_mem_chars_list {c : Char} (hbare : isBare c = false)
    (hmarks : c ∉ ['\'', '[', ']', ',', ' ']) {values : List Literal}
    (h : ∀ value ∈ values, value.isScalar = true)
    (htexts : ∀ s, .text s ∈ values → c ∉ s.toList) : c ∉ chars true (.list values) := by
  simp only [List.mem_cons, List.not_mem_nil, or_false, not_or] at hmarks
  obtain ⟨hquote, hopen, hclose, hcomma, hblank⟩ := hmarks
  have hitem : ∀ value ∈ values, c ∉ chars true value := by
    intro value hvalue
    refine not_mem_chars hbare hquote (h value hvalue) fun s hs => ?_
    exact htexts s (hs ▸ hvalue)
  -- the marks between the items are the comma and the blank
  have hitems : ∀ values : List Literal, (∀ value ∈ values, c ∉ chars true value) →
      c ∉ joinedChars values := by
    intro values hvalues
    induction values with
    | nil => exact List.not_mem_nil
    | cons value rest ih =>
      obtain ⟨hvalue, hrest⟩ := List.forall_mem_cons.mp hvalues
      rw [joinedChars, List.mem_append, not_or]
      refine ⟨hvalue, ?_⟩
      cases rest with
      | nil => exact List.not_mem_nil
      | cons next rest =>
        rw [itemsChars_cons, List.mem_cons, List.mem_cons, not_or, not_or]
        exact ⟨hcomma, hblank, ih hrest⟩
  rw [chars_list, List.mem_cons, List.mem_append, List.mem_singleton]
  simp [hopen, hclose, hitems values hitem]

end Storyboard.Literal
