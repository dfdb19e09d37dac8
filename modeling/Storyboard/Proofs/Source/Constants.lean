import Storyboard.Proofs.Literal.IntegerList
import Storyboard.Proofs.Source.Scan
import Storyboard.Proofs.Text.Name

/-!
# Constants

The constant of a name is what the last plain assignment `x = e` to it made it: the literal `e`, or
nothing if `e` is none (`constant?_observeAll_iff`).  An augmented assignment `x += e` and a tuple of
targets `x, y = e` assign the name too, but no binding is touched by them.  So a constant is what
the last assignment of any form says exactly when every line that assigns the name in one of these
two forms is followed by a plain assignment to it.
-/

namespace Storyboard.Source

/-! ## Assignments -/

/-- The text is `name = value`. -/
structure IsAssignment (text name value : List Char) : Prop where
  isName : Text.IsName name
  shape : ∃ gap rest, (∀ c ∈ gap, Text.isBlank c = true) ∧ text = name ++ gap ++ '=' :: rest ∧
    rest ≠ [] ∧ rest.head? ≠ some '=' ∧ value = Text.trimStart rest

/-- The operators that may stand before the equals sign of an augmented assignment. -/
def augmentingOperators : List (List Char) :=
  [['+'], ['-'], ['*'], ['/'], ['/', '/'], ['%'], ['@'], ['&'], ['|'], ['^'], ['>', '>'],
    ['<', '<'], ['*', '*']]

/-- The text is `name op= ...`. -/
def IsAugmented (text name : List Char) : Prop :=
  Text.IsName name ∧ ∃ gap op rest, (∀ c ∈ gap, Text.isBlank c = true) ∧
    op ∈ augmentingOperators ∧ text = name ++ gap ++ op ++ '=' :: rest

/-- The text is `x, y = ...`, and the name is one of those before the equals sign. -/
def IsUnpacked (text name : List Char) : Prop :=
  ∃ (first second : List Char) (others : List (List Char)) (rest : List Char),
    text = [','].intercalate (first :: second :: others) ++ '=' :: rest ∧ rest.head? ≠ some '=' ∧
    (∀ target ∈ first :: second :: others, Text.IsName (Text.trim target)) ∧
    name ∈ (first :: second :: others).map Text.trim

/-- The text assigns the name otherwise than by a plain assignment. -/
def Rebinds (text name : List Char) : Prop := IsAugmented text name ∨ IsUnpacked text name

/-- Behind a name stand only blanks before the equals sign of an assignment. -/
theorem blanksThen?_of_shape {gap rest : List Char} (hgap : ∀ c ∈ gap, Text.isBlank c = true) :
    Text.blanksThen? '=' (gap ++ '=' :: rest) = some rest :=
  (Text.blanksThen?_eq_some_iff rfl).mpr ⟨gap, hgap, rfl⟩

/-! ## Reading an assignment -/

/-- No literal starts with the character. -/
def startsNoLiteral (c : Char) : Bool :=
  !(c.isDigit || c.isAlpha || ['[', '(', '\x7b', '"', '\'', '-', '+', '.', '_'].contains c)

theorem parse?_of_skip {cs rest : List Char} {c : Char} (h : Literal.skip cs = c :: rest)
    (hc : startsNoLiteral c = true) : Literal.parse? cs = none := by
  simp only [startsNoLiteral, Bool.not_eq_true', Bool.or_eq_false_iff, List.contains_cons,
    List.contains_nil] at hc
  obtain ⟨⟨hdigit, halpha⟩, hlist, hparen, hbrace, hquote, hsingle, hminus, hplus, hpoint, hline, -⟩ := hc
  have hvalue : Literal.readAt cs = .error ⟨.unexpectedCharacter, c :: rest⟩ := by
    rw [Literal.readAt, Literal.valueAt, h]
    simp [hdigit, halpha, hlist, hparen, hbrace, hquote, hsingle, hminus, hplus, hpoint, hline]
  rw [Literal.parse?, Literal.parse, hvalue]
  rfl

theorem parse?_of_skip_nil {cs : List Char} (h : Literal.skip cs = []) :
    Literal.parse? cs = none := by
  have hvalue : Literal.readAt cs = .error ⟨.endOfInput, []⟩ := by
    rw [Literal.readAt, Literal.valueAt, h]
  rw [Literal.parse?, Literal.parse, hvalue]
  rfl

/-- No literal starts with a blank. -/
theorem startsNoLiteral_of_isBlank {c : Char} (h : Text.isBlank c = true) :
    startsNoLiteral c = true := by
  have hdigit : c.isDigit = false := by
    rw [Bool.eq_false_iff]
    intro hc
    rw [Text.isBlank_of_isDigit hc] at h
    cases h
  have hname : Text.startsName c = false := by
    rw [Bool.eq_false_iff]
    intro hc
    have hword := Text.isWord_of_startsName hc
    rw [Text.isWord_of_isBlank h] at hword
    cases hword
  rw [Text.startsName, Bool.or_eq_false_iff] at hname
  have hother := Literal.beq_of_starts h ['[', '(', '\x7b', '"', '\'', '-', '+', '.', '_'] (by decide)
  simp only [List.forall_mem_cons] at hother
  simp [startsNoLiteral, hdigit, hname.1, hother, ← beq_eq_false_iff_ne]

/-- A blank before an equals sign or before nothing is no literal, with the blank or without. -/
theorem parse?_blank_cons {blank : Char} {body : List Char} (h : Text.isBlank blank = true)
    (hbody : body = [] ∨ body.head? = some '=') :
    Literal.parse? (blank :: body) = none ∧ Literal.parse? body = none := by
  have hother := Literal.beq_of_starts h ['\\', '#'] (by decide)
  simp only [List.forall_mem_cons] at hother
  -- the blank is trivia, or it is left and starts no literal
  have hskip : Literal.skip (blank :: body) = Literal.skip body ∨
      Literal.skip (blank :: body) = blank :: body := by
    rw [Literal.skip, Literal.skipTrivia, hother.1, hother.2.1]
    cases Text.isAsciiBlank blank
    · exact .inr rfl
    · exact .inl rfl
  have hnone : Literal.parse? body = none ∧
      (Literal.skip (blank :: body) = Literal.skip body → Literal.parse? (blank :: body) = none) := by
    rcases hbody with rfl | hhead
    · exact ⟨parse?_of_skip_nil rfl, parse?_of_skip_nil⟩
    · obtain ⟨rest, rfl⟩ := List.head?_eq_some_iff.mp hhead
      exact ⟨parse?_of_skip rfl rfl, fun hsame => parse?_of_skip hsame rfl⟩
  refine ⟨?_, hnone.1⟩
  rcases hskip with hsame | hleft
  · exact hnone.2 hsame
  · exact parse?_of_skip hleft (startsNoLiteral_of_isBlank h)

/-- What is read as the right-hand side of an assignment from what stands behind its equals sign. -/
def assigned? (rest : List Char) : Option (List Char) :=
  let body := Text.trimStart rest
  if body.isEmpty || body.head? == some '=' then
    (rest.takeWhile Text.isBlank).getLast?.map (· :: body)
  else some body

theorem assignment?_of_shape {name gap : List Char} (hname : Text.IsName name)
    (hgap : ∀ c ∈ gap, Text.isBlank c = true) (rest : List Char) :
    assignment? (name ++ gap ++ '=' :: rest) = (assigned? rest).map fun read => (name, read) := by
  unfold assignment? assigned? Text.trimStart
  simp only [Text.name?_append hname hgap (by decide : Text.isWord '=' = false),
    blanksThen?_of_shape hgap, Option.bind_eq_bind, Option.bind_some]
  rw [apply_ite (Option.map _), Option.map_map, Option.map_eq_bind]
  rfl

theorem ne_of_assigned? {rest read : List Char} (h : assigned? rest = some read) :
    rest ≠ [] ∧ rest.head? ≠ some '=' := by
  constructor
  · rintro rfl
    cases h
  · intro hhead
    obtain ⟨more, rfl⟩ := List.head?_eq_some_iff.mp hhead
    cases h

/-- What is read is the same literal as it is without blanks before it, or neither is a literal. -/
theorem exists_assigned? {rest : List Char} (hne : rest ≠ []) (hhead : rest.head? ≠ some '=') :
    ∃ read, assigned? rest = some read ∧
      Literal.parse? read = Literal.parse? (Text.trimStart rest) := by
  have hrest : rest.takeWhile Text.isBlank ++ Text.trimStart rest = rest :=
    List.takeWhile_append_dropWhile
  unfold assigned?
  dsimp only
  split
  next hbody =>
    rw [Bool.or_eq_true, List.isEmpty_iff, beq_iff_eq] at hbody
    cases hlast : (rest.takeWhile Text.isBlank).getLast? with
    | none =>
      rw [List.getLast?_eq_none_iff.mp hlast, List.nil_append] at hrest
      rw [hrest] at hbody
      exact absurd hbody (not_or.mpr ⟨hne, hhead⟩)
    | some last =>
      obtain ⟨hread, hvalue⟩ := parse?_blank_cons
        (List.mem_takeWhile_imp (List.mem_of_getLast? hlast)) hbody
      exact ⟨last :: Text.trimStart rest, rfl, hread.trans hvalue.symm⟩
  next => exact ⟨_, rfl, rfl⟩

/-- An assignment is read as one to its name. -/
theorem assignment?_of_isAssignment {text name value : List Char}
    (h : IsAssignment text name value) :
    ∃ read, assignment? text = some (name, read) ∧
      Literal.parse? read = Literal.parse? value := by
  obtain ⟨hname, gap, rest, hgap, rfl, hne, hhead, rfl⟩ := h
  obtain ⟨read, hread, hparse⟩ := exists_assigned? hne hhead
  exact ⟨read, by rw [assignment?_of_shape hname hgap, hread]; rfl, hparse⟩

/-- What is read as an assignment is one. -/
theorem isAssignment_of_assignment? {text name read : List Char}
    (h : assignment? text = some (name, read)) : ∃ value, IsAssignment text name value := by
  have hread := h
  obtain ⟨⟨run, behind⟩, hrun, h⟩ := Option.bind_eq_some_iff.mp h
  obtain ⟨rest, hrest, -⟩ := Option.bind_eq_some_iff.mp h
  obtain ⟨hname, -, rfl⟩ := Text.name?_eq_some_iff.mp hrun
  obtain ⟨gap, hgap, rfl⟩ := (Text.blanksThen?_eq_some_iff rfl).mp hrest
  rw [← List.append_assoc, assignment?_of_shape hname hgap] at hread
  obtain ⟨value, hvalue, hpair⟩ := Option.map_eq_some_iff.mp hread
  obtain ⟨rfl, rfl⟩ := Prod.mk.inj hpair
  obtain ⟨hne, hhead⟩ := ne_of_assigned? hvalue
  exact ⟨_, hname, gap, rest, hgap, (List.append_assoc ..).symm, hne, hhead, rfl⟩

/-- A loop header is no assignment. -/
theorem loopHeader?_of_isAssignment {text name value : List Char}
    (h : IsAssignment text name value) : loopHeader? text = none := by
  obtain ⟨hname, gap, rest, hgap, hshape, -⟩ := h
  rw [Option.eq_none_iff_forall_not_mem]
  intro header hheader
  obtain ⟨afterFor, hfor, hheader⟩ := Option.bind_eq_some_iff.mp hheader
  obtain ⟨⟨loopName, afterName⟩, hloop, -⟩ := Option.bind_eq_some_iff.mp hheader
  obtain ⟨behind, hprefix, hblanks⟩ := Option.bind_eq_some_iff.mp hfor
  have htext : text = ['f', 'o', 'r'] ++ behind := Text.dropPrefix?_eq_some_iff.mp hprefix
  cases behind with
  | nil => cases hblanks
  | cons blank behind =>
    rw [Text.someBlanks?] at hblanks
    split at hblanks
    next hblank =>
      obtain rfl := Option.some.inj hblanks
      -- the name of the assignment would be `for`, and an equals sign stands behind the blanks
      have hfirst : Text.name? text = some (['f', 'o', 'r'], blank :: behind) := by
        refine Text.name?_eq_some_iff.mpr ⟨⟨rfl, List.all_eq_true.mp rfl⟩, ?_, htext⟩
        rintro _ ⟨⟩
        exact Text.isWord_of_isBlank hblank
      rw [hshape, Text.name?_append hname hgap (by decide : Text.isWord '=' = false)] at hfirst
      have hbehind := (Prod.mk.inj (Option.some.inj hfirst)).2
      have hequals : (gap ++ '=' :: rest).dropWhile Text.isBlank = '=' :: rest :=
        (Text.takeWhile_run hgap (by rintro _ ⟨⟩; rfl)).2
      rw [hbehind, List.dropWhile_cons_of_pos hblank] at hequals
      rw [hequals] at hloop
      cases hloop
    next => cases hblanks

/-! ## Rebinding -/

/-- If neither of two elements stands before the other one, they stand at the same place. -/
theorem eq_of_append_cons {α : Type} {a b c d : List α} {x y : α}
    (h : a ++ x :: b = c ++ y :: d) (hx : x ∉ c) (hy : y ∉ a) : x = y := by
  rcases List.append_eq_append_iff.mp h with ⟨more, hmore, hrest⟩ | ⟨more, hmore, hrest⟩
  · cases more with
    | nil => exact (List.cons.inj hrest).1
    | cons z more =>
      obtain ⟨rfl, -⟩ := List.cons.inj hrest
      exact absurd (by rw [hmore]; simp) hx
  · cases more with
    | nil => exact (List.cons.inj hrest).1.symm
    | cons z more =>
      obtain ⟨rfl, -⟩ := List.cons.inj hrest
      exact absurd (by rw [hmore]; simp) hy

/-- An operator starts with a character that is neither blank nor part of a word, and with no
equals sign. -/
theorem exists_of_mem_augmentingOperators {op : List Char} (h : op ∈ augmentingOperators) :
    ∃ c cs, op = c :: cs ∧ Text.isWord c = false ∧ Text.isBlank c = false ∧ c ≠ '=' := by
  have hall : augmentingOperators.all (fun op => op.head?.any fun c =>
      !Text.isWord c && !Text.isBlank c && c != '=') = true := rfl
  have hop := List.all_eq_true.mp hall op h
  cases op with
  | nil => cases hop
  | cons c cs =>
    have hc : (!Text.isWord c && !Text.isBlank c && c != '=') = true := hop
    rw [Bool.and_eq_true, Bool.and_eq_true, Bool.not_eq_true', Bool.not_eq_true', bne_iff_ne] at hc
    exact ⟨c, cs, rfl, hc.1.1, hc.1.2, hc.2⟩

/-- A plain assignment assigns no name in another form. -/
theorem not_rebinds_of_isAssignment {text name value : List Char}
    (h : IsAssignment text name value) (other : List Char) : ¬ Rebinds text other := by
  obtain ⟨hname, gap, rest, hgap, hshape, -⟩ := h
  have hbefore : ∀ {c}, Text.isWord c = false → Text.isBlank c = false → c ∉ name ++ gap :=
    fun hword hblank => hname.not_mem_append hgap hword hblank
  rintro (⟨hother, blanks, op, more, hblanks, hop, htext⟩ |
    ⟨first, second, others, more, htext, -, htargets, -⟩)
  · -- an operator would stand where the equals sign does
    obtain ⟨c, cs, rfl, hword, hblank, hne⟩ := exists_of_mem_augmentingOperators hop
    rw [hshape, List.append_assoc _ (c :: cs), List.cons_append] at htext
    have hequals : '=' ∉ other ++ blanks :=
      hother.not_mem_append hblanks (by decide) (by decide)
    exact hne (eq_of_append_cons htext hequals (hbefore hword hblank)).symm
  · -- a comma would stand before it
    have hcomma : name ++ gap ++ '=' :: rest =
        first ++ ',' :: ([','].intercalate (second :: others) ++ '=' :: more) := by
      rw [← hshape, htext, List.intercalate_cons_cons]
      simp
    obtain ⟨lead, trail, hlead, htrail, hfirst⟩ := Text.exists_blanks_trim first
    have hequals : '=' ∉ first := by
      rw [hfirst, List.append_assoc, List.mem_append, not_or]
      exact ⟨Text.not_mem_run (by decide) hlead,
        (htargets first List.mem_cons_self).not_mem_append htrail (by decide) (by decide)⟩
    exact absurd (eq_of_append_cons hcomma hequals (hbefore (by decide) (by decide))) (by decide)

/-! ## Bindings -/

/-- The line assigns the name by a plain assignment. -/
def Sets (name : List Char) (line : Line) : Prop :=
  line.isUse = true ∧ ∃ value, IsAssignment line.text name value

/-- The line is a plain assignment of that literal to the name. -/
def SetsTo (name : List Char) (value : Literal) (line : Line) : Prop :=
  line.isUse = true ∧ ∃ e, IsAssignment line.text name e ∧ Literal.parse? e = some value

/-- The line assigns the name in another form. -/
def Overwrites (name : List Char) (line : Line) : Prop :=
  line.isUse = true ∧ Rebinds line.text name

/-- The line is the last one of its kind. -/
def IsLast (kind : Line → Prop) (lines : List Line) (line : Line) : Prop :=
  ∃ before after, lines = before ++ line :: after ∧ kind line ∧ ∀ later ∈ after, ¬ kind later

/-- The last line that assigns the name in any of the three forms assigns it that literal. -/
def IsFresh (lines : List Line) (name : List Char) (value : Literal) : Prop :=
  ∃ line, IsLast (fun line => Sets name line ∨ Overwrites name line) lines line ∧
    SetsTo name value line

/-- The bindings behind lines. -/
def observeAll (lines : List Line) : Bindings := lines.foldl Bindings.observe {}

/-- A plain assignment makes the constant what is assigned. -/
theorem constant?_observe_of_isAssignment {line : Line} {name value : List Char}
    (huse : line.isUse = true) (h : IsAssignment line.text name value) (bindings : Bindings) :
    (bindings.observe line).constant? name = Literal.parse? value := by
  obtain ⟨read, hread, hparse⟩ := assignment?_of_isAssignment h
  have hplain : (line.inClass || line.isHeader) = false := by
    rw [Line.isUse, Bool.and_eq_true, Bool.not_eq_true', Bool.not_eq_true'] at huse
    rw [huse.1, huse.2, Bool.or_false]
  unfold Bindings.observe
  simp only [loopHeader?_of_isAssignment h, hread, hplain, Bool.false_eq_true, if_false]
  rw [← hparse]
  cases Literal.parse? read with
  | none => exact Ordered.find?_erase_self _ _
  | some literal => exact Ordered.find?_put_self _ _ _

/-- Any other line leaves the constant as it is. -/
theorem constant?_observe_of_not_sets {line : Line} {name : List Char} (h : ¬ Sets name line)
    (bindings : Bindings) : (bindings.observe line).constant? name = bindings.constant? name := by
  unfold Bindings.observe
  dsimp only
  split
  next =>
    split <;> rfl
  next =>
    split
    next => rfl
    next hplain =>
      split
      next other read hread =>
        have hother : name ≠ other := by
          rintro rfl
          refine h ⟨?_, isAssignment_of_assignment? hread⟩
          rw [Bool.not_eq_true, Bool.or_eq_false_iff] at hplain
          rw [Line.isUse, hplain.1, hplain.2]
          rfl
        split
        next => exact Ordered.find?_put_ne hother _ _
        next => exact Ordered.find?_erase_ne hother _
      next => rfl

theorem isLast_concat_iff {kind : Line → Prop} {lines : List Line} {line new : Line} :
    IsLast kind (lines ++ [new]) line ↔
      (kind new ∧ line = new) ∨ (¬ kind new ∧ IsLast kind lines line) := by
  constructor
  · rintro ⟨before, after, hlines, hkind, hafter⟩
    rcases List.eq_nil_or_concat' after with rfl | ⟨after, last, rfl⟩
    · obtain ⟨-, hnew⟩ := List.append_inj' hlines rfl
      obtain rfl := List.singleton_inj.mp hnew
      exact .inl ⟨hkind, rfl⟩
    · rw [← List.cons_append, ← List.append_assoc] at hlines
      obtain ⟨rfl, hnew⟩ := List.append_inj' hlines rfl
      obtain rfl := List.singleton_inj.mp hnew
      exact .inr ⟨hafter new (by simp), before, after, rfl, hkind, fun later hlater =>
        hafter later (List.mem_append_left _ hlater)⟩
  · rintro (⟨hkind, rfl⟩ | ⟨hnew, before, after, rfl, hkind, hafter⟩)
    · exact ⟨lines, [], rfl, hkind, nofun⟩
    · refine ⟨before, after ++ [new], by simp, hkind, fun later hlater => ?_⟩
      rcases List.mem_append.mp hlater with hlater | hlater
      · exact hafter later hlater
      · rwa [List.mem_singleton.mp hlater]

/-- A constant is the literal of the last plain assignment to its name. -/
theorem constant?_observeAll_iff (lines : List Line) (name : List Char) (value : Literal) :
    (observeAll lines).constant? name = some value ↔
      ∃ line, IsLast (Sets name) lines line ∧ SetsTo name value line := by
  induction lines using List.reverseRecOn with
  | nil =>
    refine ⟨nofun, ?_⟩
    rintro ⟨line, ⟨before, after, hlines, -⟩, -⟩
    exact absurd hlines (by simp)
  | append_singleton lines new ih =>
    rw [observeAll, List.foldl_append, List.foldl_cons, List.foldl_nil, ← observeAll]
    simp only [isLast_concat_iff]
    by_cases hsets : Sets name new
    · obtain ⟨huse, e, he⟩ := hsets
      rw [constant?_observe_of_isAssignment huse he]
      constructor
      · exact fun hvalue => ⟨new, .inl ⟨⟨huse, e, he⟩, rfl⟩, huse, e, he, hvalue⟩
      · rintro ⟨line, ⟨-, rfl⟩ | ⟨hnot, -⟩, -, e', he', hvalue⟩
        · rw [← constant?_observe_of_isAssignment huse he (observeAll lines),
            constant?_observe_of_isAssignment huse he', hvalue]
        · exact absurd ⟨huse, e, he⟩ hnot
    · rw [constant?_observe_of_not_sets hsets, ih]
      simp [hsets]

/-- A constant is the literal of the last plain assignment to its name.  The last assignment in any
of the three forms assigns that literal exactly when every assignment in another form is followed
by a plain one. -/
theorem constant?_isFresh_iff (lines : List Line) (name : List Char) (value : Literal) :
    ((observeAll lines).constant? name = some value ↔
      ∃ line, IsLast (Sets name) lines line ∧ SetsTo name value line) ∧
    ((observeAll lines).constant? name = some value →
      (IsFresh lines name value ↔ ∀ before line after, lines = before ++ line :: after →
        Overwrites name line → ∃ later ∈ after, Sets name later)) := by
  refine ⟨constant?_observeAll_iff lines name value, fun hconstant => ?_⟩
  obtain ⟨last, ⟨front, back, hlast, hsets, hback⟩, hvalue⟩ :=
    (constant?_observeAll_iff lines name value).mp hconstant
  constructor
  · rintro ⟨fresh, ⟨before, after, hfresh, -, hafter⟩, huse, e, he, -⟩ ahead line behind hline hover
    have hother : fresh ≠ line := by
      rintro rfl
      exact not_rebinds_of_isAssignment he name hover.2
    -- the line stands before the last assignment, not behind it
    rcases List.append_eq_append_iff.mp (hfresh.symm.trans hline) with ⟨more, -, hmore⟩ | ⟨more, -, hmore⟩
    · cases more with
      | nil => exact absurd (List.cons.inj hmore).1 hother
      | cons first more =>
        have hlate : line ∈ after := by
          rw [(List.cons.inj hmore).2]
          simp
        exact absurd (.inr hover) (hafter line hlate)
    · cases more with
      | nil => exact absurd (List.cons.inj hmore).1.symm hother
      | cons first more =>
        refine ⟨fresh, ?_, huse, e, he⟩
        rw [(List.cons.inj hmore).2]
        simp
  · intro hover
    refine ⟨last, ⟨front, back, hlast, .inl hsets, fun later hlater => ?_⟩, hvalue⟩
    rintro (hlate | hlate)
    · exact hback later hlater hlate
    · obtain ⟨between, more, rfl⟩ := List.append_of_mem hlater
      obtain ⟨latest, hlatest, hset⟩ := hover (front ++ last :: between) later more
        (by rw [hlast, List.append_assoc, List.cons_append]) hlate
      exact hback latest (by simp [hlatest]) hset

/-- A plain assignment behind an augmented one. -/
theorem constant?_isFresh_iff_reassigned :
    (observeAll (scan "n = 1\nn += 1\nn = 3\n")).constant? ['n'] = some (.int 3) ∧
      IsFresh (scan "n = 1\nn += 1\nn = 3\n") ['n'] (.int 3) := by
  have hscan : scan "n = 1\nn += 1\nn = 3\n" =
      [lineIn [] 1 0 ['n', ' ', '=', ' ', '1'], lineIn [] 2 0 ['n', ' ', '+', '=', ' ', '1']] ++
        [lineIn [] 3 0 ['n', ' ', '=', ' ', '3']] := rfl
  rw [hscan]
  have hlast : IsAssignment ['n', ' ', '=', ' ', '3'] ['n'] ['3'] :=
    ⟨⟨rfl, List.all_eq_true.mp rfl⟩, [' '], [' ', '3'], List.forall_mem_singleton.mpr rfl, rfl,
      List.cons_ne_nil _ _, by decide, rfl⟩
  refine ⟨rfl, ((constant?_isFresh_iff _ _ _).2 rfl).mpr fun before line after hlines hover => ?_⟩
  rcases List.eq_nil_or_concat' after with rfl | ⟨front, later, rfl⟩
  · obtain ⟨-, hline⟩ := List.append_inj' hlines rfl
    obtain rfl := List.singleton_inj.mp hline
    exact absurd hover.2 (not_rebinds_of_isAssignment hlast ['n'])
  · rw [← List.cons_append, ← List.append_assoc] at hlines
    obtain ⟨-, hline⟩ := List.append_inj' hlines rfl
    obtain rfl := List.singleton_inj.mp hline
    exact ⟨_, List.mem_append_right _ (List.mem_singleton_self _), rfl, _, hlast⟩

/-- An augmented assignment leaves the constant. -/
theorem constant?_augmented :
    (observeAll (scan "n = 3\nn += 1\n")).constant? ['n'] = some (.int 3) ∧
      ¬ IsFresh (scan "n = 3\nn += 1\n") ['n'] (.int 3) := by
  have hscan : scan "n = 3\nn += 1\n" = [lineIn [] 1 0 ['n', ' ', '=', ' ', '3']] ++
      [lineIn [] 2 0 ['n', ' ', '+', '=', ' ', '1']] := rfl
  rw [hscan]
  refine ⟨rfl, ?_⟩
  rintro ⟨line, hlast, -, e, he, -⟩
  have hover : Overwrites ['n'] (lineIn [] 2 0 ['n', ' ', '+', '=', ' ', '1']) :=
    ⟨rfl, .inl ⟨⟨rfl, List.all_eq_true.mp rfl⟩, [' '], ['+'], [' ', '1'],
      List.forall_mem_singleton.mpr rfl, by decide, rfl⟩⟩
  rcases isLast_concat_iff.mp hlast with ⟨-, rfl⟩ | ⟨hnot, -⟩
  · exact not_rebinds_of_isAssignment he ['n'] hover.2
  · exact hnot (.inr hover)

end Storyboard.Source
