import Storyboard.Proofs.Text.Lower
import Storyboard.Text.Search

/-!
# Names and the blanks behind them

A name is read up to the first character that is no part of a word, and an expected character is
looked for behind blanks.  No blank is a character of a word or of a dotted name, in ASCII or in the
tables beyond it, so it is plain where a name ends and where the blanks do.
-/

namespace Storyboard.Text

/-! ## Characters -/

/-- What the tables and the ASCII characters are looked through for. -/
structure WordFacts : Prop where
  letters : rangeBits letterRanges &&& rangeBits blankRanges = 0
  marks : rangeBits markRanges &&& rangeBits blankRanges = 0
  digits : rangeBits digitRanges &&& rangeBits blankRanges = 0
  connectors : rangeBits connectorRanges &&& rangeBits blankRanges = 0
  joiners : isBlank '\u200c' = false ∧ isBlank '\u200d' = false
  ascii_blank : ∀ n : Fin 128, isBlank (Char.ofNat n) = true → isDotted (Char.ofNat n) = false
  ascii_digit : ∀ n : Fin 128, (Char.ofNat n).isDigit = true → isBlank (Char.ofNat n) = false
  ascii_name : ∀ n : Fin 128, startsName (Char.ofNat n) = true → isWord (Char.ofNat n) = true

set_option maxRecDepth 20000 in
theorem wordFacts : WordFacts where
  letters := by decide +kernel
  marks := by decide +kernel
  digits := by decide +kernel
  connectors := by decide +kernel
  joiners := by decide +kernel
  ascii_blank := by decide +kernel
  ascii_digit := by decide +kernel
  ascii_name := by decide +kernel

/-- A table that shares no code point with the blanks holds no blank. -/
theorem not_inRanges_of_isBlank {table : Array (Nat × Nat)}
    (h : rangeBits table &&& rangeBits blankRanges = 0) {c : Char} (hascii : ¬ c.val < 0x80)
    (hblank : isBlank c = true) : inRanges table c.toNat = false := by
  rw [isBlank_of_not_ascii hascii] at hblank
  rw [Bool.eq_false_iff]
  intro hc
  have hapart := testBit_of_apart h (testBit_rangeBits hc)
  rw [testBit_rangeBits hblank] at hapart
  exact Bool.false_ne_true hapart.symm

/-- No blank belongs to a dotted name. -/
theorem isDotted_of_isBlank {c : Char} (h : isBlank c = true) : isDotted c = false := by
  by_cases hascii : c.val < 0x80
  · obtain ⟨n, rfl⟩ := exists_ascii hascii
    exact wordFacts.ascii_blank n h
  · have hpoint : c ≠ '.' := by
      rintro rfl
      exact hascii (by decide)
    have hjoiners : c ≠ '\u200c' ∧ c ≠ '\u200d' := by
      constructor
      · rintro rfl
        rw [wordFacts.joiners.1] at h
        cases h
      · rintro rfl
        rw [wordFacts.joiners.2] at h
        cases h
    unfold isDotted isWord
    rw [if_neg hascii, not_inRanges_of_isBlank wordFacts.letters hascii h,
      not_inRanges_of_isBlank wordFacts.marks hascii h,
      not_inRanges_of_isBlank wordFacts.digits hascii h,
      not_inRanges_of_isBlank wordFacts.connectors hascii h]
    simp [hpoint, hjoiners]

theorem isWord_of_isBlank {c : Char} (h : isBlank c = true) : isWord c = false := by
  have hdotted := isDotted_of_isBlank h
  rw [isDotted, Bool.or_eq_false_iff] at hdotted
  exact hdotted.1

theorem isBlank_of_isDigit {c : Char} (h : c.isDigit = true) : isBlank c = false := by
  have hascii : c.val < 0x80 := by
    simp only [Char.isDigit, Bool.and_eq_true, decide_eq_true_eq] at h
    exact Nat.lt_of_le_of_lt (UInt32.le_iff_toNat_le.mp h.2) (by decide)
  obtain ⟨n, rfl⟩ := exists_ascii hascii
  exact wordFacts.ascii_digit n h

/-- What may start a name is a character of words. -/
theorem isWord_of_startsName {c : Char} (h : startsName c = true) : isWord c = true := by
  have hascii : c.val < 0x80 := by
    simp only [startsName, Char.isAlpha, Char.isUpper, Char.isLower, Bool.or_eq_true,
      Bool.and_eq_true, decide_eq_true_eq, beq_iff_eq] at h
    rcases h with (h | h) | rfl
    · exact Nat.lt_of_le_of_lt (UInt32.le_iff_toNat_le.mp h.2) (by decide)
    · exact Nat.lt_of_le_of_lt (UInt32.le_iff_toNat_le.mp h.2) (by decide)
    · decide
  obtain ⟨n, rfl⟩ := exists_ascii hascii
  exact wordFacts.ascii_name n h

/-! ## Runs -/

/-- A run of characters of a kind is taken up to the first one of another kind. -/
theorem takeWhile_run {p : Char → Bool} {run rest : List Char} (hrun : ∀ c ∈ run, p c = true)
    (hrest : ∀ c ∈ rest.head?, p c = false) :
    (run ++ rest).takeWhile p = run ∧ (run ++ rest).dropWhile p = rest := by
  rw [List.takeWhile_append_of_pos hrun, List.dropWhile_append_of_pos hrun,
    dropWhile_eq_self_of_head hrest]
  cases rest with
  | nil => exact ⟨List.append_nil run, rfl⟩
  | cons c cs =>
    rw [List.takeWhile_cons_of_neg (by simp [hrest c rfl]), List.append_nil]
    exact ⟨rfl, rfl⟩

/-- A character of another kind is none of a run. -/
theorem not_mem_run {p : Char → Bool} {c : Char} (hc : p c = false) {run : List Char}
    (hrun : ∀ d ∈ run, p d = true) : c ∉ run := by
  intro hmem
  rw [hrun c hmem] at hc
  cases hc

theorem expect?_eq_some_iff {expected : Char} {cs rest : List Char} :
    expect? expected cs = some rest ↔ cs = expected :: rest := by
  cases cs with
  | nil => simp [expect?]
  | cons c cs => by_cases hc : c = expected <;> simp [expect?, hc]

/-- What is found behind blanks stands behind nothing but blanks. -/
theorem blanksThen?_eq_some_iff {expected : Char} (h : isBlank expected = false)
    {cs rest : List Char} : blanksThen? expected cs = some rest ↔
      ∃ blanks, (∀ c ∈ blanks, isBlank c = true) ∧ cs = blanks ++ expected :: rest := by
  rw [blanksThen?, expect?_eq_some_iff]
  constructor
  · intro hcs
    refine ⟨cs.takeWhile isBlank, fun c => List.mem_takeWhile_imp, ?_⟩
    rw [← hcs, List.takeWhile_append_dropWhile]
  · rintro ⟨blanks, hblanks, rfl⟩
    refine (takeWhile_run hblanks ?_).2
    rintro _ ⟨⟩
    exact h

/-! ## Names -/

/-- A text that is a name. -/
structure IsName (name : List Char) : Prop where
  start : name.head?.any startsName = true
  word : ∀ c ∈ name, isWord c = true

theorem IsName.exists_cons {name : List Char} (h : IsName name) :
    ∃ c cs, name = c :: cs ∧ startsName c = true := by
  cases name with
  | nil => exact absurd h.start Bool.false_ne_true
  | cons c cs => exact ⟨c, cs, rfl, h.start⟩

/-- A name is read up to where its word ends. -/
theorem name?_eq_some_iff {cs name rest : List Char} : name? cs = some (name, rest) ↔
    IsName name ∧ (∀ c ∈ rest.head?, isWord c = false) ∧ cs = name ++ rest := by
  constructor
  · intro h
    cases cs with
    | nil => cases h
    | cons c cs =>
      rw [name?] at h
      split at h
      next hc =>
        obtain ⟨rfl, rfl⟩ := Prod.mk.inj (Option.some.inj h)
        refine ⟨⟨hc, ?_⟩, fun d hd => dropWhile_head hd, ?_⟩
        · exact List.forall_mem_cons.mpr ⟨isWord_of_startsName hc, fun d => List.mem_takeWhile_imp⟩
        · rw [List.cons_append, List.takeWhile_append_dropWhile]
      next => cases h
  · rintro ⟨hname, hrest, rfl⟩
    obtain ⟨c, cs, rfl, hc⟩ := hname.exists_cons
    obtain ⟨htake, hdrop⟩ := takeWhile_run (List.forall_mem_cons.mp hname.word).2 hrest
    rw [List.cons_append, name?, if_pos hc, htake, hdrop]

/-- A name is read up to blanks and a character that is no part of a word. -/
theorem name?_append {name blanks rest : List Char} {c : Char} (hname : IsName name)
    (hblanks : ∀ c ∈ blanks, isBlank c = true) (hc : isWord c = false) :
    name? (name ++ blanks ++ c :: rest) = some (name, blanks ++ c :: rest) := by
  refine name?_eq_some_iff.mpr ⟨hname, fun d hd => ?_, List.append_assoc ..⟩
  cases blanks with
  | nil =>
    obtain rfl := Option.some.inj hd
    exact hc
  | cons b blanks =>
    obtain rfl := Option.some.inj hd
    exact isWord_of_isBlank (hblanks b List.mem_cons_self)

/-- A character that is neither blank nor part of a word stands in no name with blanks behind it. -/
theorem IsName.not_mem_append {name blanks : List Char} {c : Char} (hname : IsName name)
    (hblanks : ∀ c ∈ blanks, isBlank c = true) (hword : isWord c = false)
    (hblank : isBlank c = false) : c ∉ name ++ blanks := by
  rw [List.mem_append, not_or]
  exact ⟨not_mem_run hword hname.word, not_mem_run hblank hblanks⟩

end Storyboard.Text
