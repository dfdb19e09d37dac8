import Storyboard.Literal.Reader

/-!
# Reading integers that have been written

The decimal text of a 64-bit integer is read as that integer, wherever the text after it goes on with
something that is no part of a number; and so is a list of such integers between brackets.
-/

namespace Storyboard

namespace Decimal

theorem isDigit_of_mem_natDigits {m : Nat} {c : Char} (hc : c ∈ natDigits m) : c.isDigit = true :=
  Nat.isDigit_of_mem_toDigits (by omega) (Nat.le_refl 10) hc

/-- Every number has a first digit. -/
theorem exists_natDigits (m : Nat) : ∃ d ds, natDigits m = d :: ds ∧ d.isDigit = true := by
  have hne : natDigits m ≠ [] := Nat.toDigits_ne_nil
  obtain ⟨d, ds, hds⟩ := List.exists_cons_of_ne_nil hne
  have hmem : d ∈ natDigits m := by
    rw [hds]
    exact List.mem_cons_self
  exact ⟨d, ds, hds, isDigit_of_mem_natDigits hmem⟩

/-- Digits are read as the number that they write. -/
theorem nat?_natDigits (m : Nat) : nat? (natDigits m) = some m := by
  have hall : (natDigits m).all Char.isDigit = true :=
    List.all_eq_true.mpr fun c hc => isDigit_of_mem_natDigits hc
  have hne : (natDigits m).isEmpty = false := by
    rw [List.isEmpty_eq_false_iff]
    exact Nat.toDigits_ne_nil
  have hvalue : digitsValue 0 (natDigits m) = m := Nat.ofDigitChars_ten_toDigits
  unfold nat?
  rw [hall, hne, hvalue]
  rfl

/-- The characters of an integer. -/
theorem toList_intText (v : Int) :
    (intText v).toList = (if v < 0 then ['-'] else []) ++ natDigits v.natAbs := by
  cases v with
  | ofNat m =>
    rw [if_neg (by simp)]
    exact String.toList_ofList
  | negSucc m =>
    rw [if_pos (Int.negSucc_lt_zero m)]
    exact String.toList_ofList

/-- Digits have no sign before them. -/
theorem splitSign_natDigits (m : Nat) : splitSign (natDigits m) = (false, natDigits m) := by
  obtain ⟨d, ds, hds, hd⟩ := exists_natDigits m
  rw [hds]
  unfold splitSign
  -- a sign is no digit, so the text starts with none
  split
  next h =>
    obtain ⟨rfl, _⟩ := List.cons.inj h
    cases hd
  next h =>
    obtain ⟨rfl, _⟩ := List.cons.inj h
    cases hd
  next => rfl

theorem splitSign_minus (cs : List Char) : splitSign ('-' :: cs) = (true, cs) := rfl

/-- A 64-bit integer is read as what was written. -/
theorem int64?_intText {v : Int} (h : fitsInt64 v = true) :
    int64? (intText v).toList = some (Int64.ofInt v) := by
  rw [toList_intText]
  by_cases hneg : v < 0
  · have hv : (-(v.natAbs : Int)) = v := by omega
    rw [if_pos hneg]
    unfold int64?
    rw [List.cons_append, List.nil_append, splitSign_minus]
    dsimp only
    rw [nat?_natDigits]
    dsimp only
    rw [if_pos rfl, hv, if_pos h]
  · have hv : (v.natAbs : Int) = v := by omega
    rw [if_neg hneg, List.nil_append]
    unfold int64?
    rw [splitSign_natDigits]
    dsimp only
    rw [nat?_natDigits]
    dsimp only
    rw [if_neg Bool.false_ne_true, hv, if_pos h]

theorem toInt_ofInt {v : Int} (h : fitsInt64 v = true) : (Int64.ofInt v).toInt = v := by
  rw [fitsInt64, Bool.and_eq_true, decide_eq_true_eq, decide_eq_true_eq] at h
  rw [Int64.toInt_minValue, Int64.toInt_maxValue] at h
  exact Int64.toInt_ofInt_of_le h.1 (Int.lt_of_le_sub_one h.2)

end Decimal

namespace Literal

/-- The text does not go on with a part of a number. -/
def EndsNumber (text : List Char) : Prop :=
  ∀ c ∈ text.head?, (c.isDigit || c == '_' || c == '.' || c == 'e' || c == 'E') = false

theorem endsNumber_cons {c : Char} (cs : List Char)
    (h : (c.isDigit || c == '_' || c == '.' || c == 'e' || c == 'E') = false) :
    EndsNumber (c :: cs) := by
  intro d hd
  obtain rfl := Option.some.inj hd
  exact h

/-- Nothing is read of a text that does not start with a part of a number. -/
theorem numberRun_end {rest : List Char} (hrest : EndsNumber rest) :
    numberRun rest = ([], rest) := by
  match rest with
  | [] => rfl
  | [c] =>
    have hc := hrest c rfl
    rw [numberRun, if_neg (Bool.eq_false_iff.mp hc)]
    exact nofun
  | c :: sign :: cs =>
    have hc := hrest c rfl
    have hexp : (c == 'e' || c == 'E') = false := by
      simp only [Bool.or_eq_false_iff] at hc ⊢
      exact ⟨hc.1.2, hc.2⟩
    rw [numberRun, hexp, Bool.false_and, if_neg Bool.false_ne_true,
      if_neg (Bool.eq_false_iff.mp hc)]

/-- A run of digits is read up to its end. -/
theorem numberRun_digits {digits rest : List Char} (hd : ∀ c ∈ digits, c.isDigit)
    (hrest : EndsNumber rest) : numberRun (digits ++ rest) = (digits, rest) := by
  induction digits with
  | nil => exact numberRun_end hrest
  | cons d ds ih =>
    have hdigit : d.isDigit := hd d List.mem_cons_self
    have hexp : (d == 'e' || d == 'E') = false := by
      rw [Bool.or_eq_false_iff, beq_eq_false_iff_ne, beq_eq_false_iff_ne]
      constructor
      · rintro rfl
        cases hdigit
      · rintro rfl
        cases hdigit
    have hds := ih fun c hc => hd c (List.mem_cons_of_mem _ hc)
    rw [List.cons_append]
    -- the reader looks two characters ahead, so it matters whether one is left
    generalize ds ++ rest = tail at hds
    match tail with
    | [] =>
      obtain ⟨rfl, rfl⟩ := Prod.mk.inj hds
      rw [numberRun, hdigit, Bool.true_or]
      · rfl
      · exact nofun
    | sign :: cs =>
      rw [numberRun, hexp, Bool.false_and, if_neg Bool.false_ne_true, hdigit]
      simp only [Bool.true_or, if_pos]
      rw [hds]

/-- Digits with the sign that was read before them are read as the integer that they write. -/
theorem number_run {v : Int} (h : Decimal.fitsInt64 v = true) {rest : List Char}
    (hrest : EndsNumber rest) :
    (let (run, rest) := numberRun (Decimal.natDigits v.natAbs ++ rest)
      let digits := (if v < 0 then ['-'] else []) ++ run.filter (· != '_')
      if run.any fun c => c == '.' || c == 'e' || c == 'E' then
        match Decimal.float? digits with
        | some x => .ok (.float x, rest)
        | Option.none => .error ⟨.badFloat, rest⟩
      else
        match Decimal.int64? digits with
        | some n => .ok (.int n, rest)
        | Option.none => .error ⟨.badInteger, rest⟩ : Except Failure (Literal × List Char)) =
      .ok (.int (Int64.ofInt v), rest) := by
  have hdigit : ∀ c ∈ Decimal.natDigits v.natAbs, c.isDigit = true := fun c hc =>
    Decimal.isDigit_of_mem_natDigits hc
  have hfilter : (Decimal.natDigits v.natAbs).filter (· != '_') = Decimal.natDigits v.natAbs := by
    rw [List.filter_eq_self]
    rintro c hc
    rw [bne_iff_ne]
    rintro rfl
    exact Nat.underscore_not_in_toDigits hc
  -- no digit marks a float, so the run is read as an integer
  have hwhole : (Decimal.natDigits v.natAbs).any (fun c => c == '.' || c == 'e' || c == 'E') =
      false := by
    rw [List.any_eq_false]
    intro c hc hpart
    simp only [Bool.or_eq_true, beq_iff_eq] at hpart
    rcases hpart with (rfl | rfl) | rfl
    all_goals cases hdigit _ hc
  rw [numberRun_digits hdigit hrest]
  dsimp only
  rw [hwhole, if_neg Bool.false_ne_true, hfilter, ← Decimal.toList_intText, Decimal.int64?_intText h]

/-- An integer is read up to the end of its text. -/
theorem number_intText {v : Int} (h : Decimal.fitsInt64 v = true) {rest : List Char}
    (hrest : EndsNumber rest) :
    number ((Decimal.intText v).toList ++ rest) = .ok (.int (Int64.ofInt v), rest) := by
  have hrun := number_run h hrest
  rw [Decimal.toList_intText]
  by_cases hneg : v < 0
  · rw [if_pos hneg] at hrun ⊢
    exact hrun
  · rw [if_neg hneg] at hrun ⊢
    obtain ⟨d, ds, hds, hd⟩ := Decimal.exists_natDigits v.natAbs
    have hcons : [] ++ Decimal.natDigits v.natAbs ++ rest = d :: (ds ++ rest) := by
      rw [hds]
      rfl
    unfold number
    split
    next sign body hsplit =>
    -- there is no sign before the first digit
    split at hsplit
    next cs he =>
      rw [hcons] at he
      obtain ⟨rfl, _⟩ := List.cons.inj he
      cases hd
    next cs he =>
      rw [hcons] at he
      obtain ⟨rfl, _⟩ := List.cons.inj he
      cases hd
    next =>
      obtain ⟨rfl, rfl⟩ := Prod.mk.inj hsplit
      exact hrun

/-- An integer may start with the character. -/
def startsInteger (c : Char) : Bool := c.isDigit || c == '-'

/-- A character that something starts with is none of those that it never starts with. -/
theorem beq_of_starts {starts : Char → Bool} {c : Char} (h : starts c = true) (others : List Char)
    (hothers : others.any starts = false) : ∀ k ∈ others, (c == k) = false := by
  rintro k hk
  rw [beq_eq_false_iff_ne]
  rintro rfl
  exact absurd h (List.any_eq_false.mp hothers c hk)

/-- There is no trivia before a character that starts something else. -/
theorem skip_of_starts {starts : Char → Bool} {c : Char} (h : starts c = true)
    (hothers : [' ', '\t', '\n', '\x0c', '\r', '\\', '#'].any starts = false) (cs : List Char) :
    skip (c :: cs) = c :: cs := by
  have htrivia := beq_of_starts h _ hothers
  simp only [List.forall_mem_cons] at htrivia
  rw [skip, skipTrivia, Text.isAsciiBlank]
  simp only [htrivia, Bool.or_self, Bool.false_eq_true, if_false]

theorem exists_head_intText (v : Int) :
    ∃ c cs, (Decimal.intText v).toList = c :: cs ∧ startsInteger c = true := by
  rw [Decimal.toList_intText]
  by_cases hneg : v < 0
  · rw [if_pos hneg]
    exact ⟨'-', _, rfl, rfl⟩
  · rw [if_neg hneg]
    obtain ⟨d, ds, hds, hd⟩ := Decimal.exists_natDigits v.natAbs
    exact ⟨d, ds, hds, by rw [startsInteger, hd, Bool.true_or]⟩

/-- There is no trivia before an integer. -/
theorem skip_intText (v : Int) (rest : List Char) :
    skip ((Decimal.intText v).toList ++ rest) = (Decimal.intText v).toList ++ rest := by
  obtain ⟨c, cs, hcs, hc⟩ := exists_head_intText v
  rw [hcs]
  exact skip_of_starts hc rfl _

/-- An integer is read as a value. -/
theorem valueAt_intText (fuel : Nat) {v : Int} (h : Decimal.fitsInt64 v = true) {rest : List Char}
    (hrest : EndsNumber rest) :
    valueAt (fuel + 1) ((Decimal.intText v).toList ++ rest) = .ok (.int (Int64.ofInt v), rest) := by
  have hnumber := number_intText h hrest
  rw [valueAt, skip_intText]
  obtain ⟨c, cs, hcs, hc⟩ := exists_head_intText v
  rw [hcs, List.cons_append] at hnumber ⊢
  have hstart : (c.isDigit || c == '-' || c == '+' || c == '.') = true := by
    rw [show (c.isDigit || c == '-') = true from hc]
    rfl
  have hopen := beq_of_starts hc ['[', '(', '\x7b', '"', '\''] rfl
  simp only [List.forall_mem_cons] at hopen
  obtain ⟨hlist, htuple, hdict, hdouble, hsingle, _⟩ := hopen
  dsimp only
  rw [hlist, htuple, hdict, hdouble, hsingle, hstart]
  exact hnumber

/-- The integers of a list, separated by commas. -/
def itemsText (values : List Int) : List Char :=
  [',', ' '].intercalate (values.map fun v => (Decimal.intText v).toList)

theorem itemsText_singleton (v : Int) : itemsText [v] = (Decimal.intText v).toList :=
  List.intercalate_singleton

theorem itemsText_cons_cons (v w : Int) (values : List Int) :
    itemsText (v :: w :: values) =
      (Decimal.intText v).toList ++ ',' :: ' ' :: itemsText (w :: values) := by
  simp [itemsText, List.intercalate_cons_cons]

/-- There is no trivia before the first integer. -/
theorem skip_itemsText (v : Int) (values : List Int) (rest : List Char) :
    skip (itemsText (v :: values) ++ rest) = itemsText (v :: values) ++ rest := by
  cases values with
  | nil =>
    rw [itemsText_singleton]
    exact skip_intText v rest
  | cons w values =>
    rw [itemsText_cons_cons, List.append_assoc]
    exact skip_intText v _

/-- Every integer takes at least one character. -/
theorem length_le_itemsText (values : List Int) : values.length ≤ (itemsText values).length := by
  have hpos : ∀ v : Int, 0 < (Decimal.intText v).toList.length := by
    intro v
    obtain ⟨c, cs, hcs, -⟩ := exists_head_intText v
    rw [hcs]
    exact Nat.succ_pos _
  induction values with
  | nil => exact Nat.zero_le _
  | cons v values ih =>
    cases values with
    | nil =>
      rw [itemsText_singleton]
      exact hpos v
    | cons w values =>
      have := hpos v
      rw [itemsText_cons_cons, List.length_append, List.length_cons, List.length_cons]
      simp only [List.length_cons] at ih ⊢
      omega

/-- An item is read where no closing bracket stands, and what follows it decides how reading goes
on. -/
theorem itemsAt_of_valueAt {fuel : Nat} {close : Char} (comma : Bool) {cs tail : List Char}
    {item : Literal} (hopen : ((skip cs).head? == some close) = false)
    (hvalue : valueAt fuel (skip cs) = .ok (item, tail)) :
    itemsAt (fuel + 1) close comma cs =
      match skip tail with
      | [] => .error ⟨.noCommaOrClose, []⟩
      | c :: rest =>
        if c == ',' then
          (itemsAt fuel close true rest).map fun (items, comma, rest) => (item :: items, comma, rest)
        else if c == close then .ok ([item], false, rest)
        else .error ⟨.noCommaOrClose, c :: rest⟩ := by
  rw [itemsAt]
  dsimp only
  rw [hopen, if_neg Bool.false_ne_true]
  generalize valueAt fuel (skip cs) = value at hvalue ⊢
  subst hvalue
  rfl

/-- An item that is an integer is read. -/
theorem itemsAt_item (fuel : Nat) (comma : Bool) {v : Int} (h : Decimal.fitsInt64 v = true)
    {cs tail : List Char} (hcs : skip cs = (Decimal.intText v).toList ++ tail)
    (htail : EndsNumber tail) :
    itemsAt (fuel + 2) ']' comma cs =
      match skip tail with
      | [] => .error ⟨.noCommaOrClose, []⟩
      | c :: rest =>
        if c == ',' then
          (itemsAt (fuel + 1) ']' true rest).map fun (items, comma, rest) =>
            (.int (Int64.ofInt v) :: items, comma, rest)
        else if c == ']' then .ok ([.int (Int64.ofInt v)], false, rest)
        else .error ⟨.noCommaOrClose, c :: rest⟩ := by
  have hhead : ((skip cs).head? == some ']') = false := by
    obtain ⟨c, ds, hc, hstart⟩ := exists_head_intText v
    rw [hcs, hc]
    exact beq_of_starts hstart [']'] rfl ']' List.mem_cons_self
  refine itemsAt_of_valueAt comma hhead ?_
  rw [hcs]
  exact valueAt_intText fuel h htail

/-- The items of a list of integers are read up to the closing bracket. -/
theorem itemsAt_integers (v : Int) (values : List Int)
    (h : ∀ w ∈ v :: values, Decimal.fitsInt64 w = true) (rest : List Char) (fuel : Nat)
    (comma : Bool) {cs : List Char} (hcs : skip cs = itemsText (v :: values) ++ ']' :: rest) :
    itemsAt (fuel + values.length + 2) ']' comma cs =
      .ok ((v :: values).map fun w => .int (Int64.ofInt w), false, rest) := by
  induction values generalizing v comma cs with
  | nil =>
    rw [itemsText_singleton] at hcs
    exact itemsAt_item fuel comma (h v List.mem_cons_self) hcs (endsNumber_cons rest rfl)
  | cons w values ih =>
    have hblank : skip (' ' :: (itemsText (w :: values) ++ ']' :: rest)) =
        itemsText (w :: values) ++ ']' :: rest := skip_itemsText w values _
    have hrest := ih w (fun u hu => h u (List.mem_cons_of_mem _ hu)) true hblank
    rw [itemsText_cons_cons, List.append_assoc] at hcs
    rw [List.length_cons]
    refine (itemsAt_item (fuel + (values.length + 1)) comma (h v List.mem_cons_self) hcs
      (endsNumber_cons _ rfl)).trans ?_
    show (itemsAt (fuel + values.length + 2) ']' true
      (' ' :: (itemsText (w :: values) ++ ']' :: rest))).map _ = _
    rw [hrest]
    rfl

/-- A list of integers is read. -/
theorem readAt_integers (v : Int) (values : List Int)
    (h : ∀ w ∈ v :: values, Decimal.fitsInt64 w = true) (rest : List Char) :
    readAt ('[' :: (itemsText (v :: values) ++ ']' :: rest)) =
      .ok (.list ((v :: values).map fun w => .int (Int64.ofInt w)), rest) := by
  have hlen := length_le_itemsText (v :: values)
  rw [List.length_cons] at hlen
  obtain ⟨fuel, hfuel⟩ : ∃ fuel,
      2 * ('[' :: (itemsText (v :: values) ++ ']' :: rest)).length + 2 =
        fuel + values.length + 2 + 1 := by
    refine ⟨2 * ('[' :: (itemsText (v :: values) ++ ']' :: rest)).length - values.length - 1, ?_⟩
    simp only [List.length_cons, List.length_append]
    omega
  have hitems := itemsAt_integers v values h rest fuel false (skip_itemsText v values (']' :: rest))
  rw [readAt, hfuel, valueAt]
  show (itemsAt (fuel + values.length + 2) ']' false
    (itemsText (v :: values) ++ ']' :: rest)).map _ = _
  rw [hitems]
  rfl

end Literal

end Storyboard
