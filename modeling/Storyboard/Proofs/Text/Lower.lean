import Mathlib
import Storyboard.Proofs.Text.Tables
import Storyboard.Text.Trim

/-!
# Lower case is settled by one pass

Nothing that `lower` writes has a lower case other than itself, so lowering twice is lowering once.
The table is what this rests on: no image of a run of capitals lies in a run again.  Blanks have no
case and stand for the end of a word, so the blanks around a text are passed through and decide
nothing about the text between them, not even about a final sigma.
-/

namespace Storyboard.Text

/-! ## Single characters -/

/-- The character is its own lower case. -/
def IsLowered (c : Char) : Prop := lowerChar c = [c]

instance (c : Char) : Decidable (IsLowered c) := inferInstanceAs (Decidable (lowerChar c = [c]))

/-- The characters that are looked up one by one. -/
structure CharacterFacts : Prop where
  /-- The lower case of an ASCII character is ASCII, has no capitals and is blank when it was. -/
  ascii : ∀ n : Fin 128, (Char.ofNat n).toLower.val < 0x80 ∧
    (Char.ofNat n).toLower.toLower = (Char.ofNat n).toLower ∧
    isBlank (Char.ofNat n).toLower = isBlank (Char.ofNat n)
  /-- An ASCII blank has no case, and ends a word. -/
  ascii_blank : ∀ n : Fin 128, isBlank (Char.ofNat n) = true → IsLowered (Char.ofNat n) ∧
    isCased (Char.ofNat n) = false ∧ isCaseIgnorable (Char.ofNat n) = false
  /-- What stands for no code point, the image of the Kelvin sign, and the images that come in
  twos. -/
  small : (['\x00', 'k', 'i', '\u0307', 'σ', 'ς'].all fun c => c.toLower == c && c != '\u0130' &&
    !(runBits CaseRun.first).testBit c.toNat && !isBlank c) = true
  capital : (['\u0130', 'Σ'].all fun c => lowerChar c != [c] && !isBlank c) = true

set_option maxRecDepth 20000 in
theorem characterFacts : CharacterFacts where
  ascii := by decide +kernel
  ascii_blank := by decide +kernel
  small := by decide +kernel
  capital := by decide +kernel

theorem not_isLowered_capital {c : Char} (h : c ∈ ['\u0130', 'Σ']) :
    ¬ IsLowered c ∧ isBlank c = false := by
  have hcapital := List.all_eq_true.mp characterFacts.capital c h
  rwa [Bool.and_eq_true, bne_iff_ne, Bool.not_eq_true'] at hcapital

theorem IsLowered.ne_sigma {c : Char} (h : IsLowered c) : c ≠ 'Σ' := by
  rintro rfl
  exact (not_isLowered_capital (by simp)).1 h

theorem exists_ascii {c : Char} (h : c.val < 0x80) : ∃ n : Fin 128, c = Char.ofNat n :=
  ⟨⟨c.toNat, h⟩, (Char.ofNat_toNat c).symm⟩

theorem lowerChar_ascii {c : Char} (h : c.val < 0x80) : lowerChar c = [c.toLower] := by
  unfold lowerChar
  rw [if_pos h]

/-- A capital beyond ASCII lies in a run, or is the one beside the table. -/
theorem lowerChar_cases {c : Char} (h : ¬ c.val < 0x80) :
    (c = '\u0130' ∧ lowerChar c = ['i', '\u0307']) ∨
      (∃ run ∈ caseRuns.toList, run.Covers c.toNat ∧
        lowerChar c = [Char.ofNat (run.imageAt c.toNat)]) ∨
      (c ≠ '\u0130' ∧ (∀ run ∈ caseRuns.toList, ¬ run.Covers c.toNat) ∧ lowerChar c = [c]) := by
  unfold lowerChar
  rw [if_neg h]
  by_cases hdot : c = '\u0130'
  · exact Or.inl ⟨hdot, by rw [hdot]; rfl⟩
  · rw [if_neg (by simpa using hdot)]
    split
    next run hrun =>
      have hcovers := Array.find?_some hrun
      simp only [Bool.and_eq_true, decide_eq_true_eq, beq_iff_eq] at hcovers
      exact Or.inr (Or.inl ⟨run, Array.mem_toList_iff.mpr (Array.mem_of_find?_eq_some hrun),
        ⟨hcovers.1.1, hcovers.1.2, hcovers.2⟩, rfl⟩)
    next hnone =>
      refine Or.inr (Or.inr ⟨hdot, ?_, rfl⟩)
      intro run hrun hcovers
      have hfalse := Array.find?_eq_none.mp hnone run (Array.mem_toList_iff.mp hrun)
      obtain ⟨hfirst, hlast, hstride⟩ := hcovers
      exact hfalse (by simp [hfirst, hlast, hstride])

theorem isLowered_small {c : Char} (h : c ∈ ['\x00', 'k', 'i', '\u0307', 'σ', 'ς']) :
    IsLowered c ∧ isBlank c = false := by
  have hsmall := List.all_eq_true.mp characterFacts.small c h
  simp only [Bool.and_eq_true, beq_iff_eq, bne_iff_ne, Bool.not_eq_true'] at hsmall
  obtain ⟨⟨⟨hlower, hdot⟩, hout⟩, hblank⟩ := hsmall
  refine ⟨?_, hblank⟩
  by_cases hascii : c.val < 0x80
  · rw [IsLowered, lowerChar_ascii hascii, hlower]
  · rcases lowerChar_cases hascii with ⟨hc, -⟩ | ⟨run, hrun, hcovers, -⟩ | ⟨-, -, hself⟩
    · exact absurd hc hdot
    · rw [testBit_capital hrun hcovers] at hout
      exact absurd hout Bool.false_ne_true.symm
    · exact hself

theorem isBlank_of_not_ascii {c : Char} (h : ¬ c.val < 0x80) :
    isBlank c = inRanges blankRanges c.toNat := by
  unfold isBlank
  rw [if_neg h]

/-- A blank beyond ASCII is a bit of the blanks. -/
theorem not_blank_of_testBit {c : Char} (h : ¬ c.val < 0x80)
    (hbit : (rangeBits blankRanges).testBit c.toNat = false) : isBlank c = false := by
  rw [isBlank_of_not_ascii h, Bool.eq_false_iff]
  intro hblank
  rw [testBit_rangeBits hblank] at hbit
  exact Bool.false_ne_true hbit.symm

/-- What is no code point stands for the null character. -/
theorem toNat_ofNat_or (n : Nat) : (Char.ofNat n).toNat = n ∨ Char.ofNat n = '\x00' := by
  unfold Char.ofNat
  split
  · exact Or.inl rfl
  · exact Or.inr rfl

/-- An image is its own lower case, and not blank. -/
theorem isLowered_image {run : CaseRun} {n : Nat} (hrun : run ∈ caseRuns.toList)
    (hn : run.Covers n) :
    IsLowered (Char.ofNat (run.imageAt n)) ∧ isBlank (Char.ofNat (run.imageAt n)) = false := by
  have himage := testBit_image hrun hn
  -- a code without a character stands for the null character, which has no case
  rcases toNat_ofNat_or (run.imageAt n) with hcode | hnul
  · by_cases hsmall : run.imageAt n < 0x80
    · rw [eq_kelvin_of_testBit himage hsmall]
      exact @isLowered_small 'k' (by simp)
    · have hlarge : ¬ (Char.ofNat (run.imageAt n)).val < 0x80 := by
        intro h
        exact hsmall (hcode ▸ h)
      constructor
      · rcases lowerChar_cases hlarge with ⟨hc, -⟩ | ⟨other, hother, hcovers, -⟩ | ⟨-, -, hself⟩
        · rw [hc] at hcode
          rw [← hcode] at himage
          exact absurd (himage.symm.trans tableFacts.dot) Bool.false_ne_true.symm
        · rw [hcode] at hcovers
          have hcapital := testBit_of_apart tableFacts.avoid himage
          exact absurd ((testBit_capital hother hcovers).symm.trans hcapital)
            Bool.false_ne_true.symm
        · exact hself
      · refine not_blank_of_testBit hlarge ?_
        rw [hcode]
        exact testBit_of_apart tableFacts.image himage
  · rw [hnul]
    exact isLowered_small (by simp)

/-- A capital of a run is not blank. -/
theorem not_blank_of_covers {run : CaseRun} {c : Char} (hrun : run ∈ caseRuns.toList)
    (hc : run.Covers c.toNat) (hlarge : ¬ c.val < 0x80) : isBlank c = false :=
  not_blank_of_testBit hlarge (testBit_of_apart tableFacts.capital (testBit_capital hrun hc))

/-- What a character becomes in lower case stays as it is, and is blank when the character was. -/
theorem isLowered_of_mem_lowerChar {c d : Char} (h : d ∈ lowerChar c) :
    IsLowered d ∧ isBlank d = isBlank c := by
  by_cases hascii : c.val < 0x80
  · obtain ⟨n, rfl⟩ := exists_ascii hascii
    obtain ⟨hsmall, hidem, hblank⟩ := characterFacts.ascii n
    rw [lowerChar_ascii hascii, List.mem_singleton] at h
    subst h
    exact ⟨by rw [IsLowered, lowerChar_ascii hsmall, hidem], hblank⟩
  · rcases lowerChar_cases hascii with ⟨rfl, himage⟩ | ⟨run, hrun, hcovers, himage⟩ | ⟨-, -, hself⟩
    · rw [himage, List.mem_cons, List.mem_singleton] at h
      have hblank := (@not_isLowered_capital '\u0130' (by simp)).2
      rcases h with rfl | rfl
      · exact ⟨(isLowered_small (by simp)).1, (isLowered_small (by simp)).2.trans hblank.symm⟩
      · exact ⟨(isLowered_small (by simp)).1, (isLowered_small (by simp)).2.trans hblank.symm⟩
    · rw [himage, List.mem_singleton] at h
      subst h
      obtain ⟨hlowered, hblank⟩ := isLowered_image hrun hcovers
      exact ⟨hlowered, by rw [hblank, not_blank_of_covers hrun hcovers hascii]⟩
    · rw [hself, List.mem_singleton] at h
      subst h
      exact ⟨hself, rfl⟩

theorem lowerChar_ne_nil (c : Char) : lowerChar c ≠ [] := by
  by_cases hascii : c.val < 0x80
  · simp [lowerChar_ascii hascii]
  · rcases lowerChar_cases hascii with ⟨-, h⟩ | ⟨_, -, -, h⟩ | ⟨-, -, h⟩ <;> simp [h]

/-- A blank has no case, and ends a word. -/
theorem isLowered_of_blank {c : Char} (h : isBlank c = true) :
    IsLowered c ∧ isCased c = false ∧ isCaseIgnorable c = false := by
  by_cases hascii : c.val < 0x80
  · obtain ⟨n, rfl⟩ := exists_ascii hascii
    exact characterFacts.ascii_blank n h
  · -- no table shares a code with the blanks
    have hout : ∀ table, rangeBits table &&& rangeBits blankRanges = 0 →
        inRanges table c.toNat = false := by
      intro table htable
      rw [Bool.eq_false_iff]
      intro hmem
      have hfree := testBit_of_apart htable (testBit_rangeBits hmem)
      rw [not_blank_of_testBit hascii hfree] at h
      exact Bool.false_ne_true h
    refine ⟨?_, ?_, ?_⟩
    · rcases lowerChar_cases hascii with ⟨rfl, -⟩ | ⟨run, hrun, hcovers, -⟩ | ⟨-, -, hself⟩
      · rw [(not_isLowered_capital (by simp)).2] at h
        exact absurd h Bool.false_ne_true
      · rw [not_blank_of_covers hrun hcovers hascii] at h
        exact absurd h Bool.false_ne_true
      · exact hself
    · unfold isCased
      rw [if_neg hascii]
      exact hout _ tableFacts.cased
    · unfold isCaseIgnorable
      rw [if_neg hascii]
      exact hout _ tableFacts.ignorable

/-! ## Texts -/

/-- What a character becomes that follows `before` and precedes `cs`. -/
def imageIn (before : List Char) (c : Char) (cs : List Char) : List Char :=
  if c == 'Σ' then
    if meetsCased before && !meetsCased cs then ['ς'] else ['σ']
  else lowerChar c

theorem lowerAfter_nil (before : List Char) : lowerAfter before [] = [] := rfl

theorem lowerAfter_cons (before : List Char) (c : Char) (cs : List Char) :
    lowerAfter before (c :: cs) = imageIn before c cs ++ lowerAfter (c :: before) cs := rfl

theorem imageIn_of_isLowered {before cs : List Char} {c : Char} (h : IsLowered c) :
    imageIn before c cs = [c] := by
  unfold imageIn
  rw [if_neg (by simpa using h.ne_sigma), h]

theorem imageIn_ne_nil (before : List Char) (c : Char) (cs : List Char) :
    imageIn before c cs ≠ [] := by
  unfold imageIn
  split
  · split <;> simp
  · exact lowerChar_ne_nil c

theorem isLowered_of_mem_imageIn {before cs : List Char} {c d : Char}
    (h : d ∈ imageIn before c cs) : IsLowered d ∧ isBlank d = isBlank c := by
  unfold imageIn at h
  split at h
  next hsigma =>
    rw [beq_iff_eq.mp hsigma, (@not_isLowered_capital 'Σ' (by simp)).2]
    have hsmall : d ∈ ['\x00', 'k', 'i', '\u0307', 'σ', 'ς'] := by
      split at h <;> simp [List.mem_singleton.mp h]
    exact isLowered_small hsmall
  next => exact isLowered_of_mem_lowerChar h

theorem isLowered_of_mem_lowerAfter {before cs : List Char} {d : Char}
    (h : d ∈ lowerAfter before cs) : IsLowered d := by
  induction cs generalizing before with
  | nil => exact absurd h List.not_mem_nil
  | cons c cs ih =>
    rw [lowerAfter_cons, List.mem_append] at h
    rcases h with h | h
    · exact (isLowered_of_mem_imageIn h).1
    · exact ih h

theorem lowerAfter_of_isLowered {before cs : List Char} (h : ∀ c ∈ cs, IsLowered c) :
    lowerAfter before cs = cs := by
  induction cs generalizing before with
  | nil => rfl
  | cons c cs ih =>
    rw [List.forall_mem_cons] at h
    rw [lowerAfter_cons, imageIn_of_isLowered h.1, ih h.2]
    rfl

/-- Lower case is settled by one pass. -/
theorem lower_lower (s : String) : lower (lower s) = lower s := by
  unfold lower
  rw [String.toList_ofList, lowerAfter_of_isLowered fun c => isLowered_of_mem_lowerAfter]

/-- A blank ends a word, and what stands behind it decides nothing about a final sigma. -/
theorem meetsCased_append_blank {cs more : List Char} {b : Char} (h : isBlank b = true) :
    meetsCased (cs ++ b :: more) = meetsCased cs := by
  unfold meetsCased
  rw [List.dropWhile_append]
  cases cs.dropWhile isCaseIgnorable with
  | cons c rest => rfl
  | nil =>
    obtain ⟨-, hcased, hignored⟩ := isLowered_of_blank h
    rw [List.isEmpty_nil, if_pos rfl, List.dropWhile_cons_of_neg (by simp [hignored])]
    exact hcased

/-- Blanks at the far end decide nothing about a final sigma. -/
theorem meetsCased_append_blanks {cs blanks : List Char} (h : ∀ c ∈ blanks, isBlank c = true) :
    meetsCased (cs ++ blanks) = meetsCased cs := by
  cases blanks with
  | nil => rw [List.append_nil]
  | cons b blanks => exact meetsCased_append_blank (h b List.mem_cons_self)

theorem imageIn_append_blanks {before cs blanks : List Char} {c : Char}
    (h : ∀ c ∈ blanks, isBlank c = true) :
    imageIn before c (cs ++ blanks) = imageIn before c cs := by
  rw [imageIn, meetsCased_append_blanks h]
  rfl

theorem imageIn_before_blanks {before cs blanks : List Char} {c : Char}
    (h : ∀ c ∈ blanks, isBlank c = true) :
    imageIn (before ++ blanks) c cs = imageIn before c cs := by
  rw [imageIn, meetsCased_append_blanks h]
  rfl

theorem lowerAfter_append_blanks {before cs blanks : List Char}
    (h : ∀ c ∈ blanks, isBlank c = true) :
    lowerAfter before (cs ++ blanks) = lowerAfter before cs ++ blanks := by
  induction cs generalizing before with
  | nil => exact lowerAfter_of_isLowered fun c hc => (isLowered_of_blank (h c hc)).1
  | cons c cs ih =>
    rw [List.cons_append, lowerAfter_cons, lowerAfter_cons, imageIn_append_blanks h, ih,
      List.append_assoc]

theorem lowerAfter_before_blanks {before blanks cs : List Char}
    (h : ∀ c ∈ blanks, isBlank c = true) :
    lowerAfter (before ++ blanks) cs = lowerAfter before cs := by
  induction cs generalizing before with
  | nil => rfl
  | cons c cs ih =>
    rw [lowerAfter_cons, lowerAfter_cons, imageIn_before_blanks h, ← List.cons_append, ih]

theorem lowerAfter_blanks_append {before blanks cs : List Char}
    (h : ∀ c ∈ blanks, isBlank c = true) :
    lowerAfter before (blanks ++ cs) = blanks ++ lowerAfter (blanks.reverse ++ before) cs := by
  induction blanks generalizing before with
  | nil => rfl
  | cons b blanks ih =>
    rw [List.forall_mem_cons] at h
    rw [List.cons_append, lowerAfter_cons, imageIn_of_isLowered (isLowered_of_blank h.1).1,
      ih h.2, List.reverse_cons, List.append_assoc]
    rfl

/-- The blanks around a text are passed through, and what stands between them is lowered as if it
stood alone. -/
theorem lowerAfter_between_blanks {lead cs trail : List Char}
    (hlead : ∀ c ∈ lead, isBlank c = true) (htrail : ∀ c ∈ trail, isBlank c = true) :
    lowerAfter [] (lead ++ cs ++ trail) = lead ++ lowerAfter [] cs ++ trail := by
  have hback : ∀ c ∈ lead.reverse, isBlank c = true := by simpa using hlead
  rw [lowerAfter_append_blanks htrail, lowerAfter_blanks_append hlead, List.append_nil,
    ← List.nil_append lead.reverse, lowerAfter_before_blanks hback]

/-! ## Outer blanks -/

/-- A text that neither starts nor ends with a blank. -/
structure IsTrimmed (cs : List Char) : Prop where
  start : ∀ c ∈ cs.head?, isBlank c = false
  finish : ∀ c ∈ cs.getLast?, isBlank c = false

theorem dropWhile_eq_self_of_head {p : Char → Bool} {cs : List Char}
    (h : ∀ c ∈ cs.head?, p c = false) : cs.dropWhile p = cs := by
  cases cs with
  | nil => rfl
  | cons c cs => exact List.dropWhile_cons_of_neg (by simp [h c rfl])

theorem dropWhile_head {p : Char → Bool} {cs : List Char} {c : Char}
    (h : c ∈ (cs.dropWhile p).head?) : p c = false := by
  have := List.head?_dropWhile_not p cs
  rwa [h] at this

theorem trim_of_isTrimmed {cs : List Char} (h : IsTrimmed cs) : trim cs = cs := by
  unfold trim trimStart trimEnd dropEndWhile
  rw [dropWhile_eq_self_of_head h.start,
    dropWhile_eq_self_of_head (by rw [List.head?_reverse]; exact h.finish), List.reverse_reverse]

/-- A text is trimmed if the characters at its two ends are no blanks. -/
theorem isTrimmed_cons_concat {first last : Char} (middle : List Char)
    (hfirst : isBlank first = false) (hlast : isBlank last = false) :
    IsTrimmed (first :: (middle ++ [last])) := by
  constructor
  · intro c hc
    obtain rfl := Option.some.inj hc
    exact hfirst
  · intro c hc
    rw [← List.cons_append, List.getLast?_concat] at hc
    obtain rfl := Option.some.inj hc
    exact hlast

/-- A text is what is left of it between the blanks that are cut off. -/
theorem exists_blanks_trim (cs : List Char) : ∃ lead trail,
    (∀ c ∈ lead, isBlank c = true) ∧ (∀ c ∈ trail, isBlank c = true) ∧
      cs = lead ++ trim cs ++ trail := by
  refine ⟨cs.takeWhile isBlank, ((trimStart cs).reverse.takeWhile isBlank).reverse, ?_, ?_, ?_⟩
  · exact fun c => List.mem_takeWhile_imp
  · intro c hc
    exact List.mem_takeWhile_imp (List.mem_reverse.mp hc)
  · unfold trim trimEnd dropEndWhile
    rw [List.append_assoc, ← List.reverse_append, List.takeWhile_append_dropWhile,
      List.reverse_reverse]
    exact List.takeWhile_append_dropWhile.symm

theorem isTrimmed_trim (cs : List Char) : IsTrimmed (trim cs) := by
  constructor
  · intro c hc
    -- cutting at the end leaves the first character in place
    have hhead : c ∈ (trimStart cs).head? := by
      obtain ⟨rest, hrest⟩ : ∃ rest, trimStart cs = trim cs ++ rest :=
        ⟨((trimStart cs).reverse.takeWhile isBlank).reverse, by
          unfold trim trimEnd dropEndWhile
          rw [← List.reverse_append, List.takeWhile_append_dropWhile, List.reverse_reverse]⟩
      rw [hrest, List.head?_append, hc]
      rfl
    exact dropWhile_head hhead
  · intro c hc
    unfold trim trimEnd dropEndWhile at hc
    rw [List.getLast?_reverse] at hc
    exact dropWhile_head hc

theorem lowerAfter_ne_nil {before cs : List Char} (h : cs ≠ []) : lowerAfter before cs ≠ [] := by
  obtain ⟨c, cs, rfl⟩ := List.exists_cons_of_ne_nil h
  exact List.append_ne_nil_of_left_ne_nil (imageIn_ne_nil before c cs) _

theorem exists_getLast_lowerAfter {before cs : List Char} {d : Char}
    (h : d ∈ (lowerAfter before cs).getLast?) : ∃ c ∈ cs.getLast?, isBlank d = isBlank c := by
  induction cs generalizing before with
  | nil => exact absurd h (Option.not_mem_none d)
  | cons c cs ih =>
    rw [lowerAfter_cons] at h
    cases cs with
    | nil =>
      rw [lowerAfter_nil, List.append_nil] at h
      exact ⟨c, rfl, (isLowered_of_mem_imageIn (List.mem_of_getLast? h)).2⟩
    | cons e cs =>
      rw [List.getLast?_append_of_ne_nil _ (lowerAfter_ne_nil (List.cons_ne_nil e cs))] at h
      obtain ⟨f, hf, hblank⟩ := ih h
      exact ⟨f, by rwa [List.getLast?_cons_cons], hblank⟩

theorem isTrimmed_lowerAfter {cs : List Char} (h : IsTrimmed cs) :
    IsTrimmed (lowerAfter [] cs) := by
  constructor
  · intro d hd
    cases cs with
    | nil => exact absurd hd (Option.not_mem_none d)
    | cons c cs =>
      rw [lowerAfter_cons, List.head?_append_of_ne_nil _ (imageIn_ne_nil [] c cs)] at hd
      rw [(isLowered_of_mem_imageIn (List.mem_of_head? hd)).2]
      exact h.start c rfl
  · intro d hd
    obtain ⟨c, hc, hblank⟩ := exists_getLast_lowerAfter hd
    rw [hblank]
    exact h.finish c hc

/-- Trimming and lowering once more changes nothing. -/
theorem lower_trimmed_idempotent (s : String) :
    lower (trimmed (lower (trimmed s))) = lower (trimmed s) := by
  have htrim : trimmed (lower (trimmed s)) = lower (trimmed s) := by
    unfold trimmed lower
    rw [String.toList_ofList, String.toList_ofList,
      trim_of_isTrimmed (isTrimmed_lowerAfter (isTrimmed_trim _))]
  rw [htrim, lower_lower]

theorem wordsFrom_cons (word : List Char) (c : Char) (cs : List Char) :
    wordsFrom word (c :: cs) = if isBlank c then
      if word.isEmpty then wordsFrom [] cs else word.reverse :: wordsFrom [] cs
    else wordsFrom (c :: word) cs := rfl

theorem wordsFrom_blanks {word blanks : List Char} (h : ∀ c ∈ blanks, isBlank c = true) :
    wordsFrom word blanks = wordsFrom word [] := by
  induction blanks generalizing word with
  | nil => rfl
  | cons b blanks ih =>
    rw [List.forall_mem_cons] at h
    rw [wordsFrom_cons, if_pos h.1, ih h.2]
    rfl

theorem wordsFrom_append_blanks {word cs blanks : List Char} (h : ∀ c ∈ blanks, isBlank c = true) :
    wordsFrom word (cs ++ blanks) = wordsFrom word cs := by
  induction cs generalizing word with
  | nil => exact wordsFrom_blanks h
  | cons c cs ih => rw [List.cons_append, wordsFrom_cons, wordsFrom_cons, ih, ih]

theorem words_blanks_append {blanks cs : List Char} (h : ∀ c ∈ blanks, isBlank c = true) :
    words (blanks ++ cs) = words cs := by
  induction blanks with
  | nil => rfl
  | cons b blanks ih =>
    rw [List.forall_mem_cons] at h
    rw [List.cons_append, words, wordsFrom_cons, if_pos h.1]
    exact ih h.2

/-- The blanks around a text are not part of any word. -/
theorem words_between_blanks {lead cs trail : List Char} (hlead : ∀ c ∈ lead, isBlank c = true)
    (htrail : ∀ c ∈ trail, isBlank c = true) : words (lead ++ cs ++ trail) = words cs := by
  rw [words, wordsFrom_append_blanks htrail]
  exact words_blanks_append hlead

end Storyboard.Text
