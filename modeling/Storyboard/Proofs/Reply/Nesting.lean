import Storyboard.Proofs.Json.Grammar
import Storyboard.Reply.Object

/-!
# The nesting of a text

A scanner of brackets and quotes agrees with the grammar: the text of a value leaves the brackets
that are open as they were, and closes none of them on the way.  So an object is closed by its last
character and by no earlier one.
-/

namespace Storyboard.Reply

/-! ## Fronts of a text -/

section Fronts

variable {front text more : List Char}

/-- The front of two texts ends within the first one or behind it. -/
theorem prefix_append_cases (h : front <+: text ++ more) :
    front <+: text ∨ ∃ rest, front = text ++ rest ∧ rest <+: more := by
  rcases List.prefix_or_prefix_of_prefix h (List.prefix_append text more) with hin | ⟨rest, rfl⟩
  · exact Or.inl hin
  · exact Or.inr ⟨rest, rfl, (List.prefix_append_right_inj text).mp h⟩

/-- The front of a text ends before the character or behind it. -/
theorem prefix_append_cons_cases {c : Char} (h : front <+: text ++ c :: more) :
    front <+: text ∨ ∃ rest, front = text ++ c :: rest ∧ rest <+: more := by
  obtain hin | ⟨back, rfl, hback⟩ := prefix_append_cases h
  · exact Or.inl hin
  · obtain rfl | ⟨rest, rfl, hrest⟩ := List.prefix_cons_iff.mp hback
    · exact Or.inl (by rw [List.append_nil])
    · exact Or.inr ⟨rest, rfl, hrest⟩

end Fronts

namespace Nesting

/-- Outside of strings. -/
abbrev outside (closers : List Char) : Nesting := ⟨closers, false, false⟩

/-- Inside a string. -/
abbrev inside (closers : List Char) : Nesting := ⟨closers, true, false⟩

/-- The text leads from one nesting to another and closes none of the brackets on the way. -/
structure Leads (closers text : List Char) (start stop : Nesting) : Prop where
  whole : text.foldl after start = stop
  within : ∀ front, front <+: text → closers <:+ (front.foldl after start).closers

section Leads

variable {closers text more : List Char} {start middle stop : Nesting}

theorem Leads.nil (h : closers <:+ start.closers) : Leads closers [] start start where
  whole := rfl
  within := by
    intro front hfront
    rw [List.prefix_nil.mp hfront]
    exact h

theorem Leads.cons {c : Char} (h : closers <:+ start.closers)
    (hrest : Leads closers text (start.after c) stop) : Leads closers (c :: text) start stop where
  whole := hrest.whole
  within := by
    intro front hfront
    rcases List.prefix_cons_iff.mp hfront with rfl | ⟨rest, rfl, hprefix⟩
    · exact h
    · exact hrest.within rest hprefix

theorem Leads.append (h : Leads closers text start middle)
    (hmore : Leads closers more middle stop) : Leads closers (text ++ more) start stop where
  whole := by rw [List.foldl_append, h.whole, hmore.whole]
  within := by
    intro front hfront
    obtain hin | ⟨rest, rfl, hrest⟩ := prefix_append_cases hfront
    · exact h.within front hin
    · rw [List.foldl_append, h.whole]
      exact hmore.within rest hrest

/-- Less is kept open, too. -/
theorem Leads.mono {fewer : List Char} (h : Leads closers text start stop)
    (hfewer : fewer <:+ closers) : Leads fewer text start stop :=
  ⟨h.whole, fun front hfront => hfewer.trans (h.within front hfront)⟩

end Leads

end Nesting

open Nesting

/-- A text that stands outside of strings and leaves the open brackets as they are. -/
def Keeps (text : List Char) : Prop :=
  ∀ closers, Leads closers text (outside closers) (outside closers)

namespace Keeps

variable {text more : List Char}

theorem nil : Keeps [] := fun _ => .nil List.suffix_rfl

theorem append (h : Keeps text) (hmore : Keeps more) : Keeps (text ++ more) :=
  fun closers => (h closers).append (hmore closers)

theorem cons {c : Char} (hc : ∀ closers, (outside closers).after c = outside closers)
    (h : Keeps text) : Keeps (c :: text) := fun closers =>
  .cons List.suffix_rfl (by rw [hc]; exact h closers)

/-- Brackets around a text that keeps the nesting. -/
theorem bracketed {opening closing : Char} (h : Keeps text)
    (hopening : ∀ closers, (outside closers).after opening = outside (closing :: closers))
    (hclosing : ∀ closers, (outside (closing :: closers)).after closing = outside closers) :
    Keeps (opening :: (text ++ [closing])) := by
  intro closers
  refine .cons List.suffix_rfl ?_
  rw [hopening]
  refine ((h _).mono (List.suffix_cons closing closers)).append ?_
  refine .cons (List.suffix_cons closing closers) ?_
  rw [hclosing]
  exact .nil List.suffix_rfl

end Keeps

/-! ## Characters that nest nothing -/

/-- Neither a quote nor a bracket. -/
def isNeutral (c : Char) : Bool := !(['"', '\x7b', '[', '\x7d', ']'].contains c)

theorem after_of_isNeutral {c : Char} (h : isNeutral c = true) (closers : List Char) :
    (outside closers).after c = outside closers := by
  simp only [isNeutral, List.contains_cons, List.contains_nil, Bool.or_false, Bool.not_eq_true',
    Bool.or_eq_false_iff] at h
  obtain ⟨hquote, hbrace, hbracket, hbrace', hbracket'⟩ := h
  simp [Nesting.after, hquote, hbrace, hbracket, hbrace', hbracket']

theorem keeps_of_isNeutral {text : List Char} (h : ∀ c ∈ text, isNeutral c = true) :
    Keeps text := by
  induction text with
  | nil => exact .nil
  | cons c cs ih =>
    obtain ⟨hc, hcs⟩ := List.forall_mem_cons.mp h
    exact .cons (after_of_isNeutral hc) (ih hcs)

theorem isNeutral_of_isSpace {c : Char} (h : Json.isSpace c = true) : isNeutral c = true := by
  simp only [Json.isSpace, Bool.or_eq_true, beq_iff_eq] at h
  obtain ((rfl | rfl) | rfl) | rfl := h <;> rfl

theorem keeps_gap {gap : List Char} (h : Json.IsGap gap) : Keeps gap :=
  keeps_of_isNeutral fun c hc => isNeutral_of_isSpace (h c hc)

theorem isNeutral_of_isDigit {c : Char} (h : c.isDigit = true) : isNeutral c = true := by
  unfold isNeutral
  rw [Bool.not_eq_true', List.contains_eq_any_beq, List.any_eq_false]
  intro d hd
  rw [beq_iff_eq]
  rintro rfl
  simp only [List.mem_cons, List.not_mem_nil, or_false] at hd
  obtain rfl | rfl | rfl | rfl | rfl := hd <;> cases h

theorem isNeutral_of_isRun {digits : List Char} (h : Json.IsRun digits) :
    ∀ c ∈ digits, isNeutral c = true := fun c hc => isNeutral_of_isDigit (h.2 c hc)

theorem isNeutral_of_isExponent {exponent : Option (Bool × List Char)} {text : List Char}
    (h : Json.IsExponent exponent text) : ∀ c ∈ text, isNeutral c = true := by
  cases h with
  | none => exact nofun
  | plain mark run =>
    refine List.forall_mem_cons.mpr ⟨?_, isNeutral_of_isRun run⟩
    rcases mark with rfl | rfl <;> rfl
  | signed negative mark run =>
    refine List.forall_mem_cons.mpr ⟨?_, List.forall_mem_cons.mpr ⟨?_, isNeutral_of_isRun run⟩⟩
    · rcases mark with rfl | rfl <;> rfl
    · cases negative <;> rfl

theorem keeps_number {numeral : Json.Numeral} {text : List Char}
    (h : Json.IsNumber numeral text) : Keeps text := by
  cases h with
  | mk proper exponent =>
  refine keeps_of_isNeutral ?_
  simp only [List.forall_mem_append]
  refine ⟨⟨⟨?_, isNeutral_of_isRun proper.whole⟩, ?_⟩, isNeutral_of_isExponent exponent⟩
  · cases numeral.negative
    · exact nofun
    · exact List.forall_mem_singleton.mpr rfl
  · cases hfraction : numeral.fraction with
    | none => exact nofun
    | some digits =>
      exact List.forall_mem_cons.mpr ⟨rfl, isNeutral_of_isRun (proper.fraction digits hfraction)⟩

/-! ## Strings -/

theorem after_inside {c : Char} (hquote : c ≠ '"') (hslash : c ≠ '\\') (closers : List Char) :
    (inside closers).after c = inside closers := by
  simp [Nesting.after, hquote, hslash]

theorem leads_inside_cons {c : Char} {text closers : List Char} (hquote : c ≠ '"')
    (hslash : c ≠ '\\') (h : Leads closers text (inside closers) (inside closers)) :
    Leads closers (c :: text) (inside closers) (inside closers) :=
  .cons List.suffix_rfl (by rw [after_inside hquote hslash]; exact h)

/-- The body of a string stays inside of it. -/
theorem leads_body {pieces : List Json.Piece} {text : List Char} (h : Json.IsBody pieces text)
    (closers : List Char) : Leads closers text (inside closers) (inside closers) := by
  induction h with
  | nil => exact .nil List.suffix_rfl
  | char quote slash _ _ ih => exact leads_inside_cons quote slash ih
  | escape _ _ ih => exact .cons List.suffix_rfl (.cons List.suffix_rfl ih)
  | unit unit _ ih =>
    have hdigits := Json.isSome_hexValue?_of_unit? unit
    have hdigit {x : Char} {text : List Char} (hx : (Json.hexValue? x).isSome = true) :
        Leads closers text (inside closers) (inside closers) →
          Leads closers (x :: text) (inside closers) (inside closers) := by
      refine leads_inside_cons ?_ ?_ <;> rintro rfl <;> cases hx
    simp only [List.forall_mem_cons] at hdigits
    obtain ⟨ha, hb, hc, hd, -⟩ := hdigits
    refine .cons List.suffix_rfl (.cons List.suffix_rfl ?_)
    exact hdigit ha (hdigit hb (hdigit hc (hdigit hd ih)))

/-- A string from quote to quote. -/
theorem keeps_quoted {pieces : List Json.Piece} {text more : List Char}
    (h : Json.IsBody pieces text) (hmore : Keeps more) : Keeps ('"' :: (text ++ '"' :: more)) :=
  fun closers => .cons List.suffix_rfl <|
    (leads_body h closers).append (.cons List.suffix_rfl (hmore closers))

/-! ## Values -/

theorem keeps_key {key : List Json.Piece} {text : List Char} (h : Json.IsKey key text) :
    Keeps text := by
  cases h with
  | mk blank text blankBetween blankAfter =>
    exact (keeps_gap blank).append (keeps_quoted text ((keeps_gap blankBetween).append
      (.cons (after_of_isNeutral rfl) (keeps_gap blankAfter))))

mutual

/-- The text of a value keeps the nesting. -/
theorem keeps_text : ∀ {tree : Json.Tree} {text : List Char}, Json.IsText tree text → Keeps text
  | _, _, .null | _, _, .true | _, _, .false => keeps_of_isNeutral (by simp [isNeutral])
  | _, _, .number text => keeps_number text
  | _, _, .string body => keeps_quoted body .nil
  | _, _, .noItems blank => (keeps_gap blank).bracketed (fun _ => rfl) fun _ => rfl
  | _, _, .array texts blank =>
    ((keeps_items texts).append (keeps_gap blank)).bracketed (fun _ => rfl) fun _ => rfl
  | _, _, .noMembers blank => (keeps_gap blank).bracketed (fun _ => rfl) fun _ => rfl
  | _, _, .object texts blank =>
    ((keeps_members texts).append (keeps_gap blank)).bracketed (fun _ => rfl) fun _ => rfl

@[inherit_doc keeps_text]
theorem keeps_items : ∀ {items : List Json.Tree} {text : List Char},
    Json.IsItems items text → Keeps text
  | _, _, .last blank text => (keeps_gap blank).append (keeps_text text)
  | _, _, .cons blank text blankAfter others =>
    (((keeps_gap blank).append (keeps_text text)).append (keeps_gap blankAfter)).append
      (.cons (after_of_isNeutral rfl) (keeps_items others))

@[inherit_doc keeps_text]
theorem keeps_members : ∀ {members : List (List Json.Piece × Json.Tree)} {text : List Char},
    Json.IsMembers members text → Keeps text
  | _, _, .last name text => (keeps_key name).append (keeps_text text)
  | _, _, .cons name text blankAfter others =>
    (((keeps_key name).append (keeps_text text)).append (keeps_gap blankAfter)).append
      (.cons (after_of_isNeutral rfl) (keeps_members others))

end

/-! ## Where an object ends -/

/-- What is open at the start is closed by the last character, and by no earlier one. -/
structure Closes (text : List Char) : Prop where
  whole : text.foldl Nesting.after {} = {}
  within : ∀ front, front <+: text → front ≠ [] → front ≠ text →
    (front.foldl Nesting.after {}).closers ≠ []

/-- Brackets close where the text between them keeps the nesting. -/
theorem closes_bracketed {opening closing : Char} {text : List Char} (h : Keeps text)
    (hopening : (outside []).after opening = outside [closing])
    (hclosing : (outside [closing]).after closing = outside []) :
    Closes (opening :: (text ++ [closing])) where
  whole := by
    show (text ++ [closing]).foldl Nesting.after ((outside []).after opening) = outside []
    rw [hopening, List.foldl_append, (h [closing]).whole]
    exact hclosing
  within := by
    intro front hfront hne hwhole
    obtain ⟨rest, rfl, hrest⟩ := (List.prefix_cons_iff.mp hfront).resolve_left hne
    have hin : rest <+: text := by
      rcases List.prefix_concat_iff.mp hrest with rfl | hin
      · exact absurd rfl hwhole
      · exact hin
    show (rest.foldl Nesting.after ((outside []).after opening)).closers ≠ []
    rw [hopening]
    intro hnil
    have hopen := (h [closing]).within rest hin
    rw [hnil] at hopen
    exact List.cons_ne_nil closing [] (List.suffix_nil.mp hopen)

/-- An object ends where it closes. -/
theorem closes_object {members : List (List Json.Piece × Json.Tree)} {text : List Char}
    (h : Json.IsText (.object members) text) : Closes text := by
  cases h with
  | noMembers blank => exact closes_bracketed (keeps_gap blank) rfl rfl
  | object texts blank =>
    exact closes_bracketed ((keeps_members texts).append (keeps_gap blank)) rfl rfl

/-- A text has one beginning that closes. -/
theorem Closes.eq_of_prefix {a b text : List Char} (ha : Closes a) (hb : Closes b)
    (hna : a ≠ []) (hnb : b ≠ []) (h : a <+: text) (h' : b <+: text) : a = b := by
  by_contra hne
  rcases List.prefix_or_prefix_of_prefix h h' with hab | hba
  · exact hb.within a hab hna hne (by rw [ha.whole])
  · exact ha.within b hba hnb (Ne.symm hne) (by rw [hb.whole])

end Storyboard.Reply
