import Storyboard.Proofs.Json.Limits
import Storyboard.Proofs.Json.Written

/-!
# Texts in front of an object

A text that is put in front of the text of an object swallows it, unless it is blank: wherever a
reader of both arrives inside the first, it cannot come to an end behind the second.  Inside a
string it falls out at the first key of the object; inside an array or an object it still lacks the
closing bracket; and a value that is complete is followed by the opening brace.
-/

namespace Storyboard.Json

/-! ## The rest of a text -/

section Rest

variable {w cs rest : List Char} {c : Char}

theorem suffix_tail (h : w <:+ c :: cs) (hhead : w.head? ≠ some c) : w <:+ cs := by
  rcases List.suffix_cons_iff.mp h with rfl | h
  · exact absurd rfl hhead
  · exact h

/-- What starts with no character to be dropped stays a part of the text. -/
theorem suffix_dropWhile {p : Char → Bool} (h : w <:+ cs) (hhead : ∀ c ∈ w.head?, p c = false) :
    w <:+ cs.dropWhile p := by
  induction cs with
  | nil => exact h
  | cons d ds ih =>
    rw [List.dropWhile_cons]
    split
    next hd =>
      refine ih (suffix_tail h fun hw => ?_)
      rw [hhead d hw] at hd
      cases hd
    next => exact h

end Rest

/-! ## Objects behind a text -/

section Swallow

variable {k : Char} {v : List Char}

/-- The text of an object whose first key starts with the character `k`. -/
def keyed (k : Char) (v : List Char) : List Char := '\x7b' :: '"' :: k :: v

/-- The object is still to be read, or a string has come to its end at the first quote in it. -/
def Leaves (k : Char) (v rest : List Char) : Prop := keyed k v <:+ rest ∨ rest = k :: v

/-- The object is read to its end, and its first key starts with a letter. -/
structure StandsAlone (k : Char) (v : List Char) : Prop where
  letter : k.isAlpha = true
  whole : ∀ fuel tree rest, valueAt fuel (keyed k v) = some (tree, rest) → rest = []

theorem keyed_tail {c : Char} {cs : List Char} (h : keyed k v <:+ c :: cs) (hc : c ≠ '\x7b') :
    keyed k v <:+ cs :=
  suffix_tail h fun hhead => hc (Option.some.inj hhead).symm

theorem suffix_skip {cs : List Char} (h : keyed k v <:+ cs) : keyed k v <:+ skip cs :=
  suffix_dropWhile h fun _ hc => by obtain rfl := Option.some.inj hc; rfl

theorem isSpace_of_isAlpha (hk : k.isAlpha = true) : isSpace k = false := by
  simp only [isSpace, Bool.or_eq_false_iff, beq_eq_false_iff_ne]
  refine ⟨⟨⟨?_, ?_⟩, ?_⟩, ?_⟩ <;> rintro rfl <;> cases hk

/-- What follows a separator still holds the object. -/
theorem Leaves.behind {c : Char} {rest next : List Char} (hk : k.isAlpha = true)
    (h : Leaves k v rest) (hc : c ≠ '\x7b' ∧ c.isAlpha = false) (hnext : skip rest = c :: next) :
    keyed k v <:+ next := by
  rcases h with h | rfl
  · have hskip := suffix_skip h
    rw [hnext] at hskip
    exact keyed_tail hskip hc.1
  · rw [skip_cons (isSpace_of_isAlpha hk)] at hnext
    obtain ⟨rfl, -⟩ := List.cons.inj hnext
    rw [hk] at hc
    cases hc.2

theorem Leaves.skip_ne_nil {rest : List Char} (hk : k.isAlpha = true) (h : Leaves k v rest) :
    skip rest ≠ [] := by
  rcases h with h | rfl
  · intro hnil
    have hskip := suffix_skip h
    rw [hnil] at hskip
    cases List.suffix_nil.mp hskip
  · rw [skip_cons (isSpace_of_isAlpha hk)]
    nofun

/-- A brace is no digit of an escape. -/
theorem unit?_brace {a b c d : Char} {n : Nat} (h : unit? a b c d = some n) :
    ∀ x ∈ [a, b, c, d], x ≠ '\x7b' := by
  have hbrace : hexValue? '\x7b' = none := by decide
  rintro x hx rfl
  simp only [List.mem_cons, List.not_mem_nil, or_false] at hx
  obtain rfl | rfl | rfl | rfl := hx <;> simp [unit?, hbrace] at h

/-- A string that starts before the object ends before it, or at its first quote. -/
theorem stringBody_leaves {cs rest : List Char} {pieces : List Piece} (h : keyed k v <:+ cs)
    (hread : stringBody cs = some (pieces, rest)) : Leaves k v rest := by
  fun_induction stringBody cs generalizing pieces rest with
  | case1 => cases hread
  | case2 tail =>
    cases hread
    exact Or.inl (keyed_tail h (by decide))
  | case3 a b c d tail ih =>
    obtain ⟨n, hunit, hread⟩ := Option.bind_eq_some_iff.mp hread
    obtain ⟨⟨others, after⟩, hbody, hread⟩ := Option.bind_eq_some_iff.mp hread
    cases hread
    -- the brace of the object is no digit, so the escape ends before it
    have hdigits := unit?_brace hunit
    simp only [List.forall_mem_cons] at hdigits
    obtain ⟨ha, hb, hc, hd, -⟩ := hdigits
    refine ih ?_ hbody
    have h := keyed_tail (keyed_tail h (by decide)) (by decide)
    exact keyed_tail (keyed_tail (keyed_tail (keyed_tail h ha) hb) hc) hd
  | case4 e tail _ ih =>
    obtain ⟨c, hescape, hread⟩ := Option.bind_eq_some_iff.mp hread
    obtain ⟨⟨others, after⟩, hbody, hread⟩ := Option.bind_eq_some_iff.mp hread
    cases hread
    have he : e ≠ '\x7b' := by
      rintro rfl
      cases hescape
    exact ih (keyed_tail (keyed_tail h (by decide)) he) hbody
  | case5 => cases hread
  | case6 c tail _ _ _ _ ih =>
    obtain ⟨⟨others, after⟩, hbody, hread⟩ := Option.bind_eq_some_iff.mp hread
    cases hread
    rcases List.suffix_cons_iff.mp h with heq | h
    · -- inside the object the string ends at the first quote, right behind the brace
      obtain ⟨-, rfl⟩ := List.cons.inj heq
      cases hbody
      exact Or.inr rfl
    · exact ih h hbody

theorem digits?_leaves {cs rest digits : List Char} (h : keyed k v <:+ cs)
    (hread : digits? cs = some (digits, rest)) : keyed k v <:+ rest := by
  obtain ⟨-, hrest⟩ := (Option.ite_none_left_eq_some ..).mp hread
  obtain ⟨-, rfl⟩ := Prod.mk.inj (Option.some.inj hrest)
  exact suffix_dropWhile h fun _ hc => by obtain rfl := Option.some.inj hc; rfl

theorem wholePart?_leaves {cs rest digits : List Char} (h : keyed k v <:+ cs)
    (hread : wholePart? cs = some (digits, rest)) : keyed k v <:+ rest := by
  obtain ⟨⟨run, after⟩, hrun, hwhole⟩ := Option.bind_eq_some_iff.mp hread
  dsimp only at hwhole
  split at hwhole
  next => cases hwhole
  next =>
    cases hwhole
    exact digits?_leaves h hrun

theorem fractionPart?_leaves {cs rest : List Char} {fraction : Option (List Char)}
    (h : keyed k v <:+ cs) (hread : fractionPart? cs = some (fraction, rest)) :
    keyed k v <:+ rest := by
  unfold fractionPart? at hread
  split at hread
  next tail =>
    obtain ⟨⟨digits, after⟩, hdigits, hpair⟩ := Option.map_eq_some_iff.mp hread
    cases hpair
    exact digits?_leaves (keyed_tail h (by decide)) hdigits
  next =>
    cases hread
    exact h

theorem exponentPart?_leaves {cs rest : List Char} {exponent : Option (Bool × List Char)}
    (h : keyed k v <:+ cs) (hread : exponentPart? cs = some (exponent, rest)) :
    keyed k v <:+ rest := by
  unfold exponentPart? at hread
  split at hread
  next =>
    cases hread
    exact h
  next c tail =>
    split at hread
    next hc =>
      have hbrace : c ≠ '\x7b' := by
        rintro rfl
        cases hc
      have htail := keyed_tail h hbrace
      dsimp only at hread
      obtain ⟨⟨digits, after⟩, hdigits, hpair⟩ := Option.map_eq_some_iff.mp hread
      cases hpair
      refine digits?_leaves ?_ hdigits
      split
      next => exact keyed_tail htail (by decide)
      next => exact keyed_tail htail (by decide)
      next => exact htail
    next =>
      cases hread
      exact h

/-- A number that starts before the object ends before it. -/
theorem numeral?_leaves {cs rest : List Char} {numeral : Numeral} (h : keyed k v <:+ cs)
    (hread : numeral? cs = some (numeral, rest)) : keyed k v <:+ rest := by
  unfold numeral? at hread
  obtain ⟨⟨whole, afterWhole⟩, hwhole, hread⟩ := Option.bind_eq_some_iff.mp hread
  obtain ⟨⟨fraction, afterFraction⟩, hfraction, hread⟩ := Option.bind_eq_some_iff.mp hread
  obtain ⟨⟨exponent, after⟩, hexponent, hread⟩ := Option.bind_eq_some_iff.mp hread
  cases hread
  refine exponentPart?_leaves (fractionPart?_leaves (wholePart?_leaves ?_ hwhole) hfraction)
    hexponent
  split
  next => exact keyed_tail h (by decide)
  next => exact h

theorem word?_leaves {cs rest : List Char} {tree : Tree} (h : keyed k v <:+ cs)
    (hread : word? cs = some (tree, rest)) : keyed k v <:+ rest := by
  unfold word? at hread
  split at hread
  next =>
    cases hread
    exact keyed_tail (keyed_tail (keyed_tail (keyed_tail h (by decide)) (by decide)) (by decide))
      (by decide)
  next =>
    cases hread
    exact keyed_tail (keyed_tail (keyed_tail (keyed_tail (keyed_tail h (by decide)) (by decide))
      (by decide)) (by decide)) (by decide)
  next =>
    cases hread
    exact keyed_tail (keyed_tail (keyed_tail (keyed_tail h (by decide)) (by decide)) (by decide))
      (by decide)
  next => cases hread

mutual

/-- A value that starts before the object leaves it to be read, or comes to its end inside of it.
Only the object itself is read to its end. -/
theorem valueAt_leaves (halone : StandsAlone k v) :
    ∀ (fuel : Nat) {cs rest : List Char} {tree : Tree}, keyed k v <:+ cs →
      valueAt fuel cs = some (tree, rest) →
        Leaves k v rest ∨ (skip cs = keyed k v ∧ rest = [])
  | 0, _, _, _, _, hread => nomatch hread
  | fuel + 1, cs, rest, tree, h, hread => by
    by_cases hwhole : skip cs = keyed k v
    · rw [← valueAt_skip, hwhole] at hread
      exact Or.inr ⟨hwhole, halone.whole _ _ _ hread⟩
    refine Or.inl ?_
    obtain ⟨less, c, tail, hless, hskip, hstep⟩ := valueAt_cases hread
    obtain rfl := Nat.succ.inj hless
    have hcs := suffix_skip h
    rw [hskip] at hcs hwhole
    have htail : keyed k v <:+ tail := (List.suffix_cons_iff.mp hcs).resolve_left (Ne.symm hwhole)
    -- what stops at a quote may be at the object's first key; all else ends before the object
    cases hstep with
    | string hbody => exact stringBody_leaves htail hbody
    | noItems hclose => exact .inl (Leaves.behind halone.letter (.inl htail) (by decide) hclose)
    | array hitems => exact .inl (itemsAt_leaves halone fuel htail hitems)
    | noMembers hclose => exact .inl (Leaves.behind halone.letter (.inl htail) (by decide) hclose)
    | object hmembers => exact .inl (membersAt_leaves halone fuel htail hmembers)
    | number hnumeral => exact .inl (numeral?_leaves hcs hnumeral)
    | word hword => exact .inl (word?_leaves hcs hword)

/-- The items of an array that opens before the object end before it. -/
theorem itemsAt_leaves (halone : StandsAlone k v) :
    ∀ (fuel : Nat) {cs rest : List Char} {items : List Tree}, keyed k v <:+ cs →
      itemsAt fuel cs = some (items, rest) → keyed k v <:+ rest
  | 0, _, _, _, _, hread => nomatch hread
  | fuel + 1, cs, rest, items, h, hread => by
    obtain ⟨less, item, after, hless, hitem, hafter⟩ := itemsAt_cases hread
    obtain rfl := Nat.succ.inj hless
    have hleaves := (valueAt_leaves halone fuel h hitem).resolve_right ?_
    · obtain ⟨hclose, rfl⟩ | ⟨next, others, hnext, hothers, rfl⟩ := hafter
      · exact hleaves.behind halone.letter (by decide) hclose
      · exact itemsAt_leaves halone fuel (hleaves.behind halone.letter (by decide) hnext) hothers
    · -- the object itself is the end of the text, and the bracket is still to come
      rintro ⟨-, rfl⟩
      obtain ⟨hclose, -⟩ | ⟨next, others, hnext, -⟩ := hafter
      · cases hclose
      · cases hnext

/-- The members of an object that opens before the other end before it. -/
theorem membersAt_leaves (halone : StandsAlone k v) :
    ∀ (fuel : Nat) {cs rest : List Char} {members : List (List Piece × Tree)}, keyed k v <:+ cs →
      membersAt fuel cs = some (members, rest) → keyed k v <:+ rest
  | 0, _, _, _, _, hread => nomatch hread
  | fuel + 1, cs, rest, members, h, hread => by
    obtain ⟨less, body, key, colon, text, value, after, hless, hbody, hkey, hcolon, hvalue, hafter⟩ :=
      membersAt_cases hread
    obtain rfl := Nat.succ.inj hless
    have hquote := Leaves.behind halone.letter (.inl h) (by decide) hbody
    have htext := (stringBody_leaves hquote hkey).behind halone.letter (by decide) hcolon
    have hleaves := (valueAt_leaves halone fuel htext hvalue).resolve_right ?_
    · obtain ⟨hclose, rfl⟩ | ⟨next, others, hnext, hothers, rfl⟩ := hafter
      · exact hleaves.behind halone.letter (by decide) hclose
      · exact membersAt_leaves halone fuel (hleaves.behind halone.letter (by decide) hnext) hothers
    · rintro ⟨-, rfl⟩
      obtain ⟨hclose, -⟩ | ⟨next, others, hnext, -⟩ := hafter
      · cases hclose
      · cases hnext

end

/-- Behind a text that is not blank the object is not read. -/
theorem read?_swallowed (halone : StandsAlone k v) {front : List Char} (h : ¬ IsGap front) :
    Tree.read? (String.ofList (front ++ keyed k v)) = none := by
  unfold Tree.read?
  rw [String.toList_ofList]
  dsimp only
  split
  next tree rest hread =>
    obtain hleaves | ⟨hskip, -⟩ := valueAt_leaves halone _ (List.suffix_append front _) hread
    · rw [if_neg]
      rw [List.isEmpty_iff]
      exact hleaves.skip_ne_nil halone.letter
    · -- what is not blank in front is not passed over
      have hfront : skip front ≠ [] := by
        intro hnil
        exact h fun c hc => List.dropWhile_eq_nil_iff.mp hnil c hc
      have hlength := congrArg List.length hskip
      rw [skip, List.dropWhile_append, ← skip, List.isEmpty_eq_false_iff.mpr hfront,
        if_neg Bool.false_ne_true, List.length_append] at hlength
      have hpos : 0 < (skip front).length := List.length_pos_of_ne_nil hfront
      omega
  next => rfl

/-- A written object is read to its end. -/
theorem standsAlone_of_writes {value : Json} (hk : k.isAlpha = true)
    (h : Writes value (keyed k v)) : StandsAlone k v where
  letter := hk
  whole := by
    intro fuel tree rest hread
    have hwhole := valueAt_writes h (fuel + 2 * (keyed k v).length) [] (by omega) nofun
    rw [List.append_nil, valueAt_le (by omega) hread] at hwhole
    exact congrArg Prod.snd (Option.some.inj hwhole)

end Swallow

end Storyboard.Json
