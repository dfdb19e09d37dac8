import Storyboard.Source.Hints
import Storyboard.Proofs.Source.Site

/-!
# Where the subscripts of a text stand

A subscript is looked for from the left, at each place where a word may start.  So none is found
exactly when no place of the text has one (`firstSubscripted?_eq_none_iff`).  A character that can
stand neither in a subscript nor between a name and its parenthesis parts a text: what is
subscripted or called in it is so on one of the two sides (`IsSubscripted.of_append_cons`,
`NamesCall.of_append_cons`).
-/

namespace Storyboard.Text

variable {α : Type} {f : Option Char → List Char → Option α} {before : Option Char} {cs : List Char}

/-- What stands before a place is the last character that has been passed, if any has been. -/
theorem getLast?_cons_or (c : Char) (front : List Char) (before : Option Char) :
    (c :: front).getLast?.or before = front.getLast?.or (some c) := by
  rw [List.getLast?_cons]
  cases front.getLast? <;> rfl

/-- A search succeeds at some place. -/
theorem exists_of_firstPlace {found : α} (h : firstPlace f before cs = some found) :
    ∃ front rest, cs = front ++ rest ∧ f (front.getLast?.or before) rest = some found := by
  induction cs generalizing before with
  | nil => exact ⟨[], [], rfl, h⟩
  | cons c cs ih =>
    rw [firstPlace] at h
    cases hhere : f before (c :: cs) with
    | some here =>
      rw [hhere] at h
      exact ⟨[], c :: cs, rfl, hhere.trans h⟩
    | none =>
      rw [hhere] at h
      obtain ⟨front, rest, rfl, hfound⟩ := ih h
      refine ⟨c :: front, rest, rfl, ?_⟩
      rw [getLast?_cons_or]
      exact hfound

/-- A search that fails has failed at every place. -/
theorem eq_none_of_firstPlace (h : firstPlace f before cs = none) {front rest : List Char}
    (hcs : cs = front ++ rest) : f (front.getLast?.or before) rest = none := by
  induction front generalizing before cs with
  | nil =>
    rw [List.nil_append] at hcs
    subst hcs
    show f before cs = none
    cases cs with
    | nil => exact h
    | cons c cs =>
      rw [firstPlace] at h
      cases hhere : f before (c :: cs) with
      | none => rfl
      | some here =>
        rw [hhere] at h
        exact nomatch h
  | cons c front ih =>
    subst hcs
    rw [getLast?_cons_or]
    refine ih ?_ rfl
    rw [List.cons_append, firstPlace] at h
    cases hhere : f before (c :: (front ++ rest)) with
    | none =>
      rw [hhere] at h
      exact h
    | some here =>
      rw [hhere] at h
      exact nomatch h

/-- A dotted name is read up to where its characters end. -/
theorem dottedName?_eq_some_iff {cs name rest : List Char} : dottedName? cs = some (name, rest) ↔
    (name.head?.any startsName = true ∧ ∀ c ∈ name, isDotted c = true) ∧
      (∀ c ∈ rest.head?, isDotted c = false) ∧ cs = name ++ rest := by
  constructor
  · intro h
    cases cs with
    | nil => cases h
    | cons c cs =>
      rw [dottedName?] at h
      split at h
      next hc =>
        obtain ⟨rfl, rfl⟩ := Prod.mk.inj (Option.some.inj h)
        -- the first character is one of the name, and the run behind it is as long as it can be
        have hdotted : isDotted c = true := by rw [isDotted, isWord_of_startsName hc, Bool.true_or]
        refine ⟨⟨hc, ?_⟩, fun d hd => dropWhile_head hd, ?_⟩
        · exact List.forall_mem_cons.mpr ⟨hdotted, fun d => List.mem_takeWhile_imp⟩
        · rw [List.cons_append, List.takeWhile_append_dropWhile]
      next => cases h
  · intro h
    obtain ⟨⟨hstart, hname⟩, hrest, rfl⟩ := h
    cases name with
    | nil => exact absurd hstart Bool.false_ne_true
    | cons c name =>
      have hc : startsName c = true := hstart
      obtain ⟨htake, hdrop⟩ := takeWhile_run (List.forall_mem_cons.mp hname).2 hrest
      rw [List.cons_append, dottedName?, if_pos hc, htake, hdrop]

end Storyboard.Text

namespace Storyboard.Source

/-! ## Subscripts -/

/-- In the text a name has that subscript. -/
def IsSubscripted (subscript : String) (text name : List Char) : Prop :=
  ∃ front rest, text = front ++ rest ∧
    subscripted? subscript.toList front.getLast? rest = some name

/-- The names that have that subscript, from the left. -/
def subscriptedNames (subscript : String) (text : List Char) : List (List Char) :=
  (List.range (text.length + 1)).filterMap fun place =>
    subscripted? subscript.toList (text.take place).getLast? (text.drop place)

variable {subscript : String} {text name : List Char}

theorem mem_subscriptedNames_iff :
    name ∈ subscriptedNames subscript text ↔ IsSubscripted subscript text name := by
  rw [subscriptedNames, List.mem_filterMap]
  constructor
  · intro h
    obtain ⟨place, -, hname⟩ := h
    exact ⟨_, _, (List.take_append_drop place text).symm, hname⟩
  · intro h
    obtain ⟨front, rest, rfl, hname⟩ := h
    refine ⟨front.length, ?_, ?_⟩
    · rw [List.mem_range, List.length_append]
      omega
    · rw [List.take_left, List.drop_left]
      exact hname

/-- What is found behind another text is found in the text alone. -/
theorem isSubscripted_of_firstPlace {before : Option Char}
    (h : Text.firstPlace (subscripted? subscript.toList) before text = some name) :
    IsSubscripted subscript text name := by
  obtain ⟨front, rest, htext, hname⟩ := Text.exists_of_firstPlace h
  refine ⟨front, rest, htext, ?_⟩
  cases hlast : front.getLast? with
  | some c =>
    rw [hlast] at hname
    exact hname
  | none =>
    rw [hlast] at hname
    unfold subscripted? at hname ⊢
    rw [Option.none_or] at hname
    split at hname
    next => exact hname
    next => exact nomatch hname

theorem isSubscripted_of_firstSubscripted? (h : firstSubscripted? subscript text = some name) :
    IsSubscripted subscript text name :=
  isSubscripted_of_firstPlace h

theorem firstSubscripted?_eq_none_iff :
    firstSubscripted? subscript text = none ↔ ∀ name, ¬ IsSubscripted subscript text name := by
  constructor
  · intro h name hsubscripted
    obtain ⟨front, rest, htext, hname⟩ := hsubscripted
    have hnone := Text.eq_none_of_firstPlace h htext
    rw [Option.or_none, hname] at hnone
    exact nomatch hnone
  · intro h
    rw [Option.eq_none_iff_forall_ne_some]
    intro name hname
    exact h name (isSubscripted_of_firstSubscripted? hname)

/-- What is found at the front of a text is a dotted name and a pair of brackets, with nothing but
blanks around the index. -/
theorem exists_brackets_of_subscripted? {index : List Char} {before : Option Char}
    (h : subscripted? index before text = some name) :
    Text.wordMayStart before = true ∧
      (name.head?.any Text.startsName = true ∧ ∀ c ∈ name, Text.isDotted c = true) ∧
      ∃ lead trail rest, (∀ c ∈ lead, Text.isBlank c = true) ∧
        (∀ c ∈ trail, Text.isBlank c = true) ∧
        text = name ++ '[' :: (lead ++ index ++ trail ++ ']' :: rest) := by
  unfold subscripted? at h
  split at h
  next hbefore =>
    obtain ⟨⟨dotted, behind⟩, hdotted, h⟩ := Option.bind_eq_some_iff.mp h
    obtain ⟨inside, hinside, h⟩ := Option.bind_eq_some_iff.mp h
    obtain ⟨afterIndex, hafter, h⟩ := Option.bind_eq_some_iff.mp h
    obtain ⟨rest, hrest, h⟩ := Option.bind_eq_some_iff.mp h
    obtain rfl := Option.some.inj h
    obtain ⟨hname, -, rfl⟩ := Text.dottedName?_eq_some_iff.mp hdotted
    obtain rfl := Text.expect?_eq_some_iff.mp hinside
    obtain ⟨trail, htrail, rfl⟩ := (Text.blanksThen?_eq_some_iff rfl).mp hrest
    have hlead := Text.dropPrefix?_eq_some_iff.mp hafter
    refine ⟨hbefore, hname, inside.takeWhile Text.isBlank, trail, rest,
      fun c => List.mem_takeWhile_imp, htrail, ?_⟩
    rw [List.append_assoc, List.append_assoc, ← hlead, List.takeWhile_append_dropWhile]
  next => exact nomatch h

/-- A dotted name and brackets around the index are found: the name ends at the bracket and the
blanks end at the index, so each part is read whole. -/
theorem subscripted?_brackets {index lead trail : List Char} {before : Option Char}
    (hindex : index.head?.any (!Text.isBlank ·) = true) (hbefore : Text.wordMayStart before = true)
    (hname : name.head?.any Text.startsName = true ∧ ∀ c ∈ name, Text.isDotted c = true)
    (hlead : ∀ c ∈ lead, Text.isBlank c = true) (htrail : ∀ c ∈ trail, Text.isBlank c = true)
    (rest : List Char) :
    subscripted? index before (name ++ '[' :: (lead ++ index ++ trail ++ ']' :: rest)) =
      some name := by
  have hbracket : ∀ c ∈ ('[' :: (lead ++ index ++ trail ++ ']' :: rest)).head?,
      Text.isDotted c = false := by
    intro c hc
    obtain rfl := Option.some.inj hc
    rfl
  have hblanks : (lead ++ (index ++ (trail ++ ']' :: rest))).dropWhile Text.isBlank =
      index ++ (trail ++ ']' :: rest) := by
    refine (Text.takeWhile_run hlead fun c hc => ?_).2
    cases index with
    | nil => exact absurd hindex Bool.false_ne_true
    | cons d index =>
      obtain rfl := Option.some.inj hc
      exact Bool.not_eq_true' _ ▸ hindex
  have hopen : Text.expect? '[' ('[' :: (lead ++ index ++ trail ++ ']' :: rest)) =
      some (lead ++ index ++ trail ++ ']' :: rest) := Text.expect?_eq_some_iff.mpr rfl
  have hclose : Text.blanksThen? ']' (trail ++ ']' :: rest) = some rest :=
    (Text.blanksThen?_eq_some_iff rfl).mpr ⟨trail, htrail, rfl⟩
  rw [← List.append_assoc, ← List.append_assoc] at hblanks
  rw [subscripted?, if_pos hbefore, Text.dottedName?_eq_some_iff.mpr ⟨hname, hbracket, rfl⟩]
  simp only [Option.bind_eq_bind, Option.bind_some, hopen, hblanks, Text.dropPrefix?_append, hclose,
    Option.pure_def]

/-- A subscript at the front of a text is a dotted name and a pair of brackets, with nothing but
blanks around the index. -/
theorem subscripted?_eq_some_iff {index : List Char} {before : Option Char}
    (hindex : index.head?.any (!Text.isBlank ·) = true) :
    subscripted? index before text = some name ↔
      Text.wordMayStart before = true ∧
        (name.head?.any Text.startsName = true ∧ ∀ c ∈ name, Text.isDotted c = true) ∧
        ∃ lead trail rest, (∀ c ∈ lead, Text.isBlank c = true) ∧
          (∀ c ∈ trail, Text.isBlank c = true) ∧
          text = name ++ '[' :: (lead ++ index ++ trail ++ ']' :: rest) := by
  refine ⟨exists_brackets_of_subscripted?, ?_⟩
  rintro ⟨hbefore, hname, lead, trail, rest, hlead, htrail, rfl⟩
  exact subscripted?_brackets hindex hbefore hname hlead htrail rest

/-! ## Texts in two parts -/

section Parts

variable {α : Type} {a b front middle tail : List α} {x : α}

/-- What does not hold an element of a text lies before it or behind it. -/
theorem parts_of_append_cons (h : a ++ x :: b = front ++ middle ++ tail) (hx : x ∉ middle) :
    (∃ more, front = a ++ x :: more ∧ b = more ++ middle ++ tail) ∨
      ∃ more, a = front ++ middle ++ more := by
  rcases List.append_eq_append_iff.mp h with ⟨more, hmore, hb⟩ | ⟨more, ha, -⟩
  · cases more with
    | nil => exact Or.inr ⟨[], by rw [List.append_nil, hmore, List.append_nil]⟩
    | cons y more =>
      obtain ⟨rfl, rfl⟩ := List.cons.inj hb
      obtain ⟨between, hfront, hbetween⟩ := exists_of_append_eq_append_cons hmore hx
      exact Or.inl ⟨between, hfront, congrArg (· ++ tail) hbetween⟩
  · exact Or.inr ⟨more, ha⟩

end Parts

variable {a b : List Char} {c : Char}

/-- A name before a parenthesis stands on one side of a character that separates them. -/
theorem NamesCall.of_append_cons {before inside : List Char}
    (h : NamesCall (a ++ c :: b) before name inside) (hword : Text.isWord c = false)
    (hblank : Text.isBlank c = false) (hparen : c ≠ '(') :
    (∃ inside, NamesCall a before name inside) ∨ ∃ before, NamesCall b before name inside := by
  obtain ⟨hname, ⟨blanks, hblanks, hshape⟩, hwhole⟩ := h
  have hmiddle : c ∉ name ++ blanks ++ ['('] := by
    rw [List.mem_append, List.mem_singleton, not_or]
    exact ⟨hname.not_mem_append hblanks hword hblank, hparen⟩
  have hparts : a ++ c :: b = before ++ (name ++ blanks ++ ['(']) ++ inside := by
    rw [hshape]
    simp
  rcases parts_of_append_cons hparts hmiddle with ⟨more, rfl, rfl⟩ | ⟨more, rfl⟩
  · refine Or.inr ⟨more, hname, ⟨blanks, hblanks, by simp⟩, fun front d between hmore hd => ?_⟩
    exact hwhole (a ++ c :: front) d between (by rw [hmore]; simp) hd
  · exact Or.inl ⟨more, hname, ⟨blanks, hblanks, by simp⟩, hwhole⟩

/-- A subscript stands on one side of a character that separates them. -/
theorem IsSubscripted.of_append_cons (h : IsSubscripted subscript (a ++ c :: b) name)
    (hsubscript : subscript.toList.head?.any (!Text.isBlank ·) = true)
    (hdotted : Text.isDotted c = false) (hblank : Text.isBlank c = false)
    (hother : c ∉ '[' :: ']' :: subscript.toList) :
    IsSubscripted subscript a name ∨ IsSubscripted subscript b name := by
  obtain ⟨front, rest, htext, hname⟩ := h
  obtain ⟨hfront, hdots, lead, trail, tail, hlead, htrail, rfl⟩ :=
    (subscripted?_eq_some_iff hsubscript).mp hname
  rw [List.mem_cons, List.mem_cons, not_or, not_or] at hother
  -- the separating character lies outside the subscript, so that this is before or behind it
  have hmiddle : c ∉ name ++ '[' :: (lead ++ subscript.toList ++ trail ++ [']']) := by
    simp only [List.mem_append, List.mem_cons, List.not_mem_nil, or_false, not_or]
    exact ⟨Text.not_mem_run hdotted hdots.2, hother.1,
      ⟨⟨Text.not_mem_run hblank hlead, hother.2.2⟩, Text.not_mem_run hblank htrail⟩, hother.2.1⟩
  have hparts : a ++ c :: b =
      front ++ (name ++ '[' :: (lead ++ subscript.toList ++ trail ++ [']'])) ++ tail := by
    rw [htext]
    simp
  rcases parts_of_append_cons hparts hmiddle with ⟨more, rfl, rfl⟩ | ⟨more, rfl⟩
  · refine Or.inr ⟨more, name ++ '[' :: (lead ++ subscript.toList ++ trail ++ ']' :: tail),
      by simp, (subscripted?_eq_some_iff hsubscript).mpr ⟨?_, hdots, lead, trail, tail, hlead,
        htrail, rfl⟩⟩
    rw [List.getLast?_append_of_ne_nil _ (List.cons_ne_nil c more)] at hfront
    cases more with
    | nil => rfl
    | cons d more => exact hfront
  · exact Or.inl ⟨front, name ++ '[' :: (lead ++ subscript.toList ++ trail ++ ']' :: more),
      by simp, (subscripted?_eq_some_iff hsubscript).mpr ⟨hfront, hdots, lead, trail, more, hlead,
        htrail, rfl⟩⟩

end Storyboard.Source
