import Storyboard.Source.Call
import Storyboard.Proofs.Text.Name

/-!
# Where the calls of a text stand

A search for calls goes on behind the parenthesis of what it finds, so it is not plain which of the
places that look like a call it reports.  It reports all of them: a call is found wherever a name
stands before a parenthesis that is closed, and nowhere else (`finds_sitesAfter_iff`).  The search
does not look at quotes.  So the calls of a text stand outside its strings exactly when no string
holds a name before a parenthesis that is closed (`sites_unquoted_iff`).
-/

namespace Storyboard.Source

/-! ## Quotes -/

/-- How a text is quoted at a place: the quote that is open there, and whether a backslash guards
the character there. -/
structure Quoting where
  quote : Option Char := none
  guarded : Bool := false

/-- The quoting behind a character. -/
def Quoting.after (quoting : Quoting) (c : Char) : Quoting :=
  if quoting.guarded then { quoting with guarded := false }
  else if c == '\\' then { quoting with guarded := true }
  else { quote := quoteAfter quoting.quote c }

/-- The quoting behind a text. -/
def quotingBehind (before : List Char) : Quoting := before.foldl Quoting.after {}

/-- Behind a text without a comment, a comment is looked for in the quoting behind that text. -/
theorem stripCommentFrom_append (quoting : Quoting) {before : List Char}
    (h : stripCommentFrom quoting.quote quoting.guarded before = before) (rest : List Char) :
    stripCommentFrom quoting.quote quoting.guarded (before ++ rest) =
      before ++ stripCommentFrom (before.foldl Quoting.after quoting).quote
        (before.foldl Quoting.after quoting).guarded rest := by
  induction before generalizing quoting with
  | nil => rfl
  | cons c before ih =>
    obtain ⟨quote, guarded⟩ := quoting
    -- no comment starts at the character, and the next one is quoted as `after` says
    have hnext : ∀ cs, stripCommentFrom quote guarded (c :: cs) = c :: stripCommentFrom
        (Quoting.after ⟨quote, guarded⟩ c).quote (Quoting.after ⟨quote, guarded⟩ c).guarded cs := by
      intro cs
      unfold Quoting.after
      cases guarded with
      | true => rw [stripCommentFrom]; rfl
      | false =>
        rw [stripCommentFrom] at h ⊢
        by_cases hguard : (c == '\\') = true
        · simp [hguard]
        · rw [if_neg hguard] at h ⊢
          split at h
          next => cases h
          next hcomment => simp [hguard, hcomment]
    rw [hnext] at h
    rw [List.cons_append, hnext, ih _ (List.cons.inj h).2, List.foldl_cons, List.cons_append]

/-! ## Openings -/

/-- The text before the name of an opening: its receiver and a dot. -/
def Opening.front (o : Opening) : List Char := o.receiver.elim [] (· ++ ['.'])

/-- A split at the last dot puts the run together again. -/
theorem front_of_splitReceiver? {run name : List Char} {receiver : Option (List Char)}
    (h : splitReceiver? run = some (receiver, name)) (hstart : run.head?.any Text.startsName = true)
    (inside : List Char) :
    run = Opening.front ⟨receiver, name, inside⟩ ++ name ∧
      name.head?.any Text.startsName = true ∧ '.' ∉ name := by
  have hpoint : '.' ∉ (run.reverse.takeWhile (· != '.')).reverse := by
    intro hmem
    have := List.mem_takeWhile_imp (List.mem_reverse.mp hmem)
    simp at this
  have hrun : run = (run.reverse.dropWhile (· != '.')).reverse ++
      (run.reverse.takeWhile (· != '.')).reverse := by
    rw [← List.reverse_append, List.takeWhile_append_dropWhile, List.reverse_reverse]
  -- the name is what stands behind the last dot, and the dot itself ends the front
  unfold splitReceiver? at h
  dsimp only at h
  split at h
  next hnil =>
    rw [hnil, List.reverse_nil, List.nil_append] at hrun
    obtain ⟨rfl, rfl⟩ := Prod.mk.inj (Option.some.inj h)
    exact ⟨hrun, by rwa [← hrun], hpoint⟩
  next dot receiver hcons =>
    have hdot : dot = '.' := by
      have := List.head?_dropWhile_not (· != '.') run.reverse
      rw [hcons] at this
      simpa using this
    split at h
    next c cs hname =>
      split at h
      next hc =>
        obtain ⟨rfl, rfl⟩ := Prod.mk.inj (Option.some.inj h)
        rw [hcons, hdot, List.reverse_cons] at hrun
        exact ⟨hrun, by rw [hname]; exact hc, hpoint⟩
      next => cases h
    next => cases h

/-- An opening at the front of a text is its receiver, its name, blanks and the parenthesis. -/
theorem eq_of_opening? {cs : List Char} {o : Opening} (h : opening? cs = some o) :
    (∀ c ∈ o.front, Text.isDotted c = true) ∧ Text.IsName o.name ∧
      ∃ blanks, (∀ c ∈ blanks, Text.isBlank c = true) ∧
        cs = o.front ++ o.name ++ blanks ++ '(' :: o.inside := by
  obtain ⟨⟨run, rest⟩, hrun, h⟩ := Option.bind_eq_some_iff.mp h
  obtain ⟨inside, hinside, h⟩ := Option.bind_eq_some_iff.mp h
  obtain ⟨⟨receiver, name⟩, hsplit, h⟩ := Option.bind_eq_some_iff.mp h
  obtain rfl := Option.some.inj h
  obtain ⟨blanks, hblanks, rfl⟩ := (Text.blanksThen?_eq_some_iff rfl).mp hinside
  cases cs with
  | nil => cases hrun
  | cons c cs =>
    rw [Text.dottedName?] at hrun
    split at hrun
    next hc =>
      obtain ⟨rfl, hrest⟩ := Prod.mk.inj (Option.some.inj hrun)
      obtain ⟨hfront, hstart, hpoint⟩ := front_of_splitReceiver? hsplit hc inside
      have hdotted : ∀ d ∈ c :: cs.takeWhile Text.isDotted, Text.isDotted d = true := by
        refine List.forall_mem_cons.mpr ⟨?_, fun d => List.mem_takeWhile_imp⟩
        rw [Text.isDotted, Text.isWord_of_startsName hc, Bool.true_or]
      refine ⟨fun d hd => hdotted d ?_, ⟨hstart, fun d hd => ?_⟩, blanks, hblanks, ?_⟩
      · rw [hfront]
        exact List.mem_append_left _ hd
      · -- a dot of the run would be one of the name
        have hd' := hdotted d (by rw [hfront]; exact List.mem_append_right _ hd)
        rw [Text.isDotted, Bool.or_eq_true, beq_iff_eq] at hd'
        exact hd'.resolve_right (fun hdot => hpoint (hdot ▸ hd))
      · rw [List.append_assoc, ← hrest, ← hfront, List.cons_append,
          List.takeWhile_append_dropWhile]
    next => cases hrun

/-- A word without a point is a name without a receiver. -/
theorem splitReceiver?_of_isName {name : List Char} (h : Text.IsName name) :
    splitReceiver? name = some (none, name) := by
  have hpoint : ∀ c ∈ name.reverse, (c != '.') = true := by
    intro c hc
    rw [bne_iff_ne]
    rintro rfl
    exact absurd (h.word _ (List.mem_reverse.mp hc)) Bool.false_ne_true
  have hnone : ∀ c ∈ ([] : List Char).head?, (c != '.') = false := nofun
  obtain ⟨htake, hdrop⟩ := Text.takeWhile_run hpoint hnone
  rw [List.append_nil] at htake hdrop
  unfold splitReceiver?
  dsimp only
  rw [hdrop, htake, List.reverse_reverse]

/-- A name before a parenthesis opens a call. -/
theorem opening?_of_isName {name blanks inside : List Char} (hname : Text.IsName name)
    (hblanks : ∀ c ∈ blanks, Text.isBlank c = true) :
    opening? (name ++ blanks ++ '(' :: inside) = some ⟨none, name, inside⟩ := by
  have hdotted : ∀ c ∈ name, Text.isDotted c = true := by
    intro c hc
    rw [Text.isDotted, hname.word c hc, Bool.true_or]
  -- the name ends before the blanks or the parenthesis
  have hstop : ∀ c ∈ (blanks ++ '(' :: inside).head?, Text.isDotted c = false := by
    intro c hc
    cases blanks with
    | nil =>
      obtain rfl := Option.some.inj hc
      rfl
    | cons b blanks =>
      obtain rfl := Option.some.inj hc
      exact Text.isDotted_of_isBlank (hblanks b List.mem_cons_self)
  have hrun : Text.dottedName? (name ++ (blanks ++ '(' :: inside)) =
      some (name, blanks ++ '(' :: inside) := by
    obtain ⟨c, cs, rfl, hc⟩ := hname.exists_cons
    obtain ⟨htake, hdrop⟩ := Text.takeWhile_run (List.forall_mem_cons.mp hdotted).2 hstop
    rw [List.cons_append, Text.dottedName?, if_pos hc, htake, hdrop]
  have hinside : Text.blanksThen? '(' (blanks ++ '(' :: inside) = some inside :=
    (Text.blanksThen?_eq_some_iff rfl).mpr ⟨blanks, hblanks, rfl⟩
  rw [List.append_assoc]
  unfold opening?
  simp only [hrun, hinside, splitReceiver?_of_isName hname, Option.bind_eq_bind,
    Option.bind_some, Option.pure_def]

/-! ## Names before a parenthesis -/

/-- In the text, a name stands behind `before` and, with blanks between, before a parenthesis,
behind which the text goes on with `inside`.  It is the whole name: none that starts further left
goes on to here. -/
structure NamesCall (text before name inside : List Char) : Prop where
  isName : Text.IsName name
  shape : ∃ blanks, (∀ c ∈ blanks, Text.isBlank c = true) ∧
    text = before ++ name ++ blanks ++ '(' :: inside
  whole : ∀ front c between, before = front ++ c :: between → Text.startsName c = true →
    ∃ d ∈ between, Text.isWord d = false

/-- A call opens wherever characters of a name go on to the name before a parenthesis. -/
theorem opening?_ne_none {c : Char} {between name blanks : List Char} (hc : Text.startsName c = true)
    (hbetween : ∀ d ∈ between, Text.isWord d = true) (hname : Text.IsName name)
    (hblanks : ∀ d ∈ blanks, Text.isBlank d = true) (inside : List Char) :
    opening? (c :: (between ++ name ++ blanks ++ '(' :: inside)) ≠ none := by
  have hlong : Text.IsName (c :: between ++ name) := by
    refine ⟨hc, fun d hd => ?_⟩
    rcases List.mem_append.mp hd with hd | hd
    · rcases List.mem_cons.mp hd with rfl | hd
      · exact Text.isWord_of_startsName hc
      · exact hbetween d hd
    · exact hname.word d hd
  have hopen : opening? (c :: between ++ name ++ blanks ++ '(' :: inside) = _ :=
    opening?_of_isName hlong hblanks
  rw [List.cons_append, List.cons_append, List.cons_append] at hopen
  rw [hopen]
  exact Option.some_ne_none _

/-- Where no call opens, the names before a parenthesis are those further on. -/
theorem namesCall_cons_iff {c : Char} {cs before name inside : List Char}
    (h : opening? (c :: cs) = none) :
    NamesCall (c :: cs) before name inside ↔
      ∃ before', before = c :: before' ∧ NamesCall cs before' name inside := by
  constructor
  · rintro ⟨hname, ⟨blanks, hblanks, hshape⟩, hwhole⟩
    cases before with
    | nil =>
      rw [hshape, List.nil_append, opening?_of_isName hname hblanks] at h
      cases h
    | cons b before =>
      obtain ⟨rfl, rfl⟩ := List.cons.inj hshape
      refine ⟨before, rfl, hname, ⟨blanks, hblanks, rfl⟩, fun front d between heq => ?_⟩
      exact hwhole (c :: front) d between (by rw [heq, List.cons_append])
  · rintro ⟨before, rfl, hname, ⟨blanks, hblanks, rfl⟩, hwhole⟩
    refine ⟨hname, ⟨blanks, hblanks, rfl⟩, fun front d between heq hd => ?_⟩
    cases front with
    | cons f front =>
      obtain ⟨rfl, rfl⟩ := List.cons.inj heq
      exact hwhole front d between rfl hd
    | nil =>
      -- a name that starts here and goes on to the parenthesis would open a call
      obtain ⟨rfl, rfl⟩ := List.cons.inj heq
      by_contra hall
      have hword : ∀ e ∈ before, Text.isWord e = true := by
        intro e he
        rw [← Bool.not_eq_false]
        exact fun hfalse => hall ⟨e, he, hfalse⟩
      exact opening?_ne_none hd hword hname hblanks inside h

theorem Opening.front_cases (o : Opening) : o.front = [] ∨ ∃ r, o.front = r ++ ['.'] := by
  unfold Opening.front
  cases o.receiver with
  | none => exact .inl rfl
  | some receiver => exact .inr ⟨receiver, rfl⟩

/-- Two texts that end in no blank are equal if they are so with blanks behind them. -/
theorem eq_of_append_blanks {cs ds blanks more : List Char} (h : cs ++ blanks = ds ++ more)
    (hcs : ∀ c ∈ cs.getLast?, Text.isBlank c = false) (hds : ∀ c ∈ ds.getLast?, Text.isBlank c = false)
    (hblanks : ∀ c ∈ blanks, Text.isBlank c = true) (hmore : ∀ c ∈ more, Text.isBlank c = true) :
    cs = ds := by
  have htrim : ∀ {l b : List Char}, (∀ c ∈ l.getLast?, Text.isBlank c = false) →
      (∀ c ∈ b, Text.isBlank c = true) → Text.trimEnd (l ++ b) = l := by
    intro l b hl hb
    unfold Text.trimEnd Text.dropEndWhile
    rw [List.reverse_append, (Text.takeWhile_run (by simpa using hb) (by simpa using hl)).2,
      List.reverse_reverse]
  rw [← htrim hcs hblanks, h, htrim hds hmore]

/-- The last character of a name is no blank. -/
theorem getLast?_append_name {front name : List Char} (h : Text.IsName name) :
    ∀ c ∈ (front ++ name).getLast?, Text.isBlank c = false := by
  intro c hc
  have hne : name ≠ [] := by
    obtain ⟨d, ds, rfl, -⟩ := h.exists_cons
    exact List.cons_ne_nil d ds
  rw [List.getLast?_append_of_ne_nil _ hne] at hc
  rw [Bool.eq_false_iff]
  intro hblank
  have hword := Text.isWord_of_isBlank hblank
  rw [h.word c (List.mem_of_getLast? hc)] at hword
  cases hword

/-- Before the same parenthesis stands one whole name, and the one of an opening is whole. -/
theorem NamesCall.eq_opening {cs before name inside : List Char} {o : Opening}
    (h : NamesCall cs before name inside) (ho : Text.IsName o.name)
    (heq : o.front ++ o.name = before ++ name) : before = o.front ∧ name = o.name := by
  rcases List.append_eq_append_iff.mp heq with ⟨more, hbefore, hname⟩ | ⟨more, hfront, hname⟩
  · cases more with
    | nil => exact ⟨by rw [hbefore, List.append_nil], by rw [hname, List.nil_append]⟩
    | cons c more =>
      -- the name would be the end of a longer one
      obtain ⟨d, hd, hword⟩ := h.whole o.front c more hbefore (by have := ho.start; rwa [hname] at this)
      have hin := ho.word d (by rw [hname]; simp [hd])
      rw [hword] at hin
      cases hin
  · cases hmore : more.getLast? with
    | none =>
      obtain rfl := List.getLast?_eq_none_iff.mp hmore
      exact ⟨by rw [hfront, List.append_nil], by rw [hname, List.nil_append]⟩
    | some c =>
      -- the receiver ends in a point, which is no part of a name
      have hpoint : c = '.' := by
        rcases o.front_cases with hnil | ⟨r, hr⟩
        · rw [hnil] at hfront
          obtain ⟨-, rfl⟩ := List.append_eq_nil_iff.mp hfront.symm
          cases hmore
        · have hlast := congrArg List.getLast? (hr.symm.trans hfront)
          rw [List.getLast?_concat, List.getLast?_append, hmore] at hlast
          exact (Option.some.inj hlast).symm
      have hword := h.isName.word c (by rw [hname]; exact List.mem_append_left _ (List.mem_of_getLast? hmore))
      rw [hpoint] at hword
      cases hword

/-- No parenthesis stands in a name with its receiver before it and blanks behind it. -/
theorem paren_not_mem {front name blanks : List Char}
    (hfront : ∀ c ∈ front, Text.isDotted c = true) (hname : Text.IsName name)
    (hblanks : ∀ c ∈ blanks, Text.isBlank c = true) : '(' ∉ front ++ name ++ blanks := by
  rw [List.append_assoc, List.mem_append, not_or]
  exact ⟨Text.not_mem_run rfl hfront, hname.not_mem_append hblanks rfl rfl⟩

section Cuts

variable {α : Type} {a b c d : List α} {x : α}

/-- Of two ways to cut a text at an element, the one that does not have it behind lies further
right. -/
theorem exists_of_append_eq_append_cons (h : a ++ b = c ++ x :: d) (hb : x ∉ b) :
    ∃ more, a = c ++ x :: more ∧ d = more ++ b := by
  rcases List.append_eq_append_iff.mp h with ⟨more, -, hmore⟩ | ⟨more, hmore, hd⟩
  · exact absurd (by rw [hmore]; simp) hb
  · cases more with
    | nil => exact absurd (by rw [← List.nil_append b, ← hd]; exact List.mem_cons_self) hb
    | cons y more =>
      obtain ⟨rfl, rfl⟩ := List.cons.inj hd
      exact ⟨more, hmore, rfl⟩

/-- A text is cut at the first such element, or at a later one. -/
theorem cut_cases (h : a ++ x :: b = c ++ x :: d) (hc : x ∉ c) :
    (a = c ∧ b = d) ∨ ∃ more, a = c ++ x :: more ∧ d = more ++ x :: b := by
  rcases List.append_eq_append_iff.mp h with ⟨more, hmore, hb⟩ | ⟨more, hmore, hd⟩
  · cases more with
    | nil => exact .inl ⟨by rw [hmore, List.append_nil], (List.cons.inj hb).2⟩
    | cons y more =>
      obtain ⟨rfl, -⟩ := List.cons.inj hb
      exact absurd (by rw [hmore]; simp) hc
  · cases more with
    | nil => exact .inl ⟨by rw [hmore, List.append_nil], (List.cons.inj hd).2.symm⟩
    | cons y more =>
      obtain ⟨rfl, rfl⟩ := List.cons.inj hd
      exact .inr ⟨more, hmore, rfl⟩

end Cuts

/-- Where a call opens, its name stands whole before the parenthesis. -/
theorem namesCall_opening {cs : List Char} {o : Opening} (h : opening? cs = some o) :
    NamesCall cs o.front o.name o.inside := by
  obtain ⟨-, hname, blanks, hblanks, hcs⟩ := eq_of_opening? h
  refine ⟨hname, ⟨blanks, hblanks, hcs⟩, fun front c between heq hc => ?_⟩
  rcases o.front_cases with hnil | ⟨r, hr⟩
  · rw [hnil] at heq
    exact absurd heq (by simp)
  · -- the point at the end of the receiver is no part of a word
    have hlast := congrArg List.getLast? (hr.symm.trans heq)
    rw [List.getLast?_concat, List.getLast?_append_of_ne_nil _ (List.cons_ne_nil c between)]
      at hlast
    cases between with
    | nil =>
      obtain rfl := Option.some.inj hlast
      cases hc
    | cons d between =>
      rw [List.getLast?_cons_cons] at hlast
      exact ⟨'.', List.mem_of_getLast? hlast.symm, rfl⟩

/-- A name behind a parenthesis stays whole with all that is before the parenthesis. -/
theorem NamesCall.behind_paren {rest before name inside : List Char} (passed : List Char)
    (h : NamesCall rest before name inside) :
    NamesCall (passed ++ '(' :: rest) (passed ++ '(' :: before) name inside := by
  obtain ⟨more, hmore, hshape⟩ := h.shape
  refine ⟨h.isName, ⟨more, hmore, ?_⟩, fun front c between heq hc => ?_⟩
  · rw [hshape]
    simp
  · -- the parenthesis is no part of a word
    rcases List.append_eq_append_iff.mp heq with ⟨as, -, has⟩ | ⟨bs, -, hbs⟩
    · cases as with
      | nil =>
        obtain ⟨rfl, -⟩ := List.cons.inj has
        cases hc
      | cons a as =>
        obtain ⟨rfl, rfl⟩ := List.cons.inj has
        exact h.whole as c between rfl hc
    · cases bs with
      | nil =>
        obtain ⟨rfl, -⟩ := List.cons.inj hbs
        cases hc
      | cons b bs =>
        obtain ⟨rfl, rfl⟩ := List.cons.inj hbs
        exact ⟨'(', by simp, rfl⟩

/-- A name before a later parenthesis than the first one stands behind that one. -/
theorem NamesCall.exists_behind {passed rest before name inside : List Char}
    (h : NamesCall (passed ++ '(' :: rest) before name inside) {more between : List Char}
    (hmore : ∀ c ∈ more, Text.isBlank c = true) (hpassed : before ++ name ++ more = passed ++ '(' :: between)
    (hrest : rest = between ++ '(' :: inside) :
    ∃ before', before = passed ++ '(' :: before' ∧ NamesCall rest before' name inside := by
  have hparen : '(' ∉ name ++ more := h.isName.not_mem_append hmore rfl rfl
  rw [List.append_assoc] at hpassed
  obtain ⟨before, rfl, rfl⟩ := exists_of_append_eq_append_cons hpassed hparen
  refine ⟨before, rfl, h.isName, ⟨more, hmore, ?_⟩, fun front c rest heq => ?_⟩
  · rw [hrest, ← List.append_assoc]
  · exact h.whole (passed ++ '(' :: front) c rest (by rw [heq]; simp)

/-- Where a call opens, its name stands before a parenthesis, and so do those behind that one. -/
theorem namesCall_iff_of_opening? {cs : List Char} {o : Opening} (h : opening? cs = some o) :
    ∃ passed, cs = passed ++ '(' :: o.inside ∧ ∀ before name inside,
      NamesCall cs before name inside ↔ (before = o.front ∧ name = o.name ∧ inside = o.inside) ∨
        ∃ before', before = passed ++ '(' :: before' ∧ NamesCall o.inside before' name inside := by
  have hopening := namesCall_opening h
  obtain ⟨hfront, hname, blanks, hblanks, rfl⟩ := eq_of_opening? h
  refine ⟨_, rfl, fun before name inside => ⟨fun hnames => ?_, ?_⟩⟩
  · obtain ⟨more, hmore, hshape⟩ := hnames.shape
    rcases cut_cases hshape.symm (paren_not_mem hfront hname hblanks) with
      ⟨hpassed, hinside⟩ | ⟨between, hpassed, hinside⟩
    · have heq := eq_of_append_blanks hpassed (getLast?_append_name hnames.isName)
        (getLast?_append_name hname) hmore hblanks
      obtain ⟨hbefore, hsame⟩ := hnames.eq_opening hname heq.symm
      exact .inl ⟨hbefore, hsame, hinside⟩
    · exact .inr (hnames.exists_behind hmore hpassed hinside)
  · rintro (⟨rfl, rfl, rfl⟩ | ⟨before, rfl, hnames⟩)
    · exact hopening
    · exact hnames.behind_paren _

/-! ## The search -/

/-- A call, and the text before its name. -/
structure Site where
  before : List Char
  call : Call

/-- The same call in a text that starts further left. -/
def Site.behind (text : List Char) (site : Site) : Site :=
  { site with before := text ++ site.before }

/-- The calls of a text after its first `skip` characters, each with the text before its name. -/
def sitesAfter : (skip : Nat) → List Char → List Site
  | _, [] => []
  | skip + 1, c :: cs => (sitesAfter skip cs).map (.behind [c])
  | 0, c :: cs =>
    match opening? (c :: cs) with
    | some o =>
      (o.call?.map fun call => ⟨o.front, call⟩).toList ++
        (sitesAfter (cs.length - o.inside.length) cs).map (.behind [c])
    | none => (sitesAfter 0 cs).map (.behind [c])

/-- The calls of a text, each with the text before its name. -/
def sites (text : List Char) : List Site := sitesAfter 0 text

/-- Without the text before them, these are the calls. -/
theorem map_call_sitesAfter (skip : Nat) (cs : List Char) :
    (sitesAfter skip cs).map Site.call = callsAfter skip cs := by
  have hbehind : ∀ (text : List Char) (found : List Site),
      (found.map (Site.behind text)).map Site.call = found.map Site.call := by
    intro text found
    rw [List.map_map]
    rfl
  fun_induction sitesAfter skip cs with
  | case1 => rfl
  | case2 skip c cs ih => rw [callsAfter, hbehind, ih]
  | case3 c cs o ho ih =>
    rw [callsAfter, ho, List.map_append, hbehind, ih]
    dsimp only
    cases o.call? <;> rfl
  | case4 c cs ho ih => rw [callsAfter, ho, hbehind, ih]

theorem sitesAfter_eq_drop (skip : Nat) (cs : List Char) :
    sitesAfter skip cs = (sitesAfter 0 (cs.drop skip)).map (.behind (cs.take skip)) := by
  induction skip generalizing cs with
  | zero => exact (List.map_id'' (fun _ => rfl) _).symm
  | succ skip ih =>
    cases cs with
    | nil => simp [sitesAfter]
    | cons c cs =>
      rw [sitesAfter, ih, List.map_map]
      simp [Function.comp_def, Site.behind]

/-- Among the sites is one of that name, behind that text and with these arguments. -/
def Finds (found : List Site) (before name : List Char) (args : List (List Char)) : Prop :=
  ∃ site ∈ found, site.before = before ∧ site.call.name = String.ofList name ∧ site.call.args = args

theorem finds_append_iff {found more : List Site} {before name : List Char}
    {args : List (List Char)} : Finds (found ++ more) before name args ↔
      Finds found before name args ∨ Finds more before name args := by
  simp only [Finds, List.mem_append, or_and_right, exists_or]

theorem finds_behind_iff {found : List Site} {text before name : List Char}
    {args : List (List Char)} : Finds (found.map (.behind text)) before name args ↔
      ∃ before', before = text ++ before' ∧ Finds found before' name args := by
  constructor
  · rintro ⟨_, hmem, rfl, hcall⟩
    obtain ⟨site, hsite, rfl⟩ := List.mem_map.mp hmem
    exact ⟨site.before, rfl, site, hsite, rfl, hcall⟩
  · rintro ⟨_, rfl, site, hsite, rfl, hcall⟩
    exact ⟨_, List.mem_map_of_mem hsite, rfl, hcall⟩

/-- The opening reports its own call, if its parenthesis is closed. -/
theorem finds_opening_iff {o : Opening} {before name : List Char} {args : List (List Char)} :
    Finds (o.call?.map fun call => ⟨o.front, call⟩).toList before name args ↔
      before = o.front ∧ name = o.name ∧
        ∃ enclosed, enclosed? 0 none o.inside = some enclosed ∧ args = splitArgs enclosed := by
  unfold Opening.call?
  cases henclosed : enclosed? 0 none o.inside with
  | none => simp [Finds]
  | some enclosed => simp [Finds, eq_comm, String.ofList_inj]

/-- Behind an opening the search goes on after the parenthesis. -/
theorem sitesAfter_opening {c : Char} {cs passed inside : List Char}
    (h : c :: cs = passed ++ '(' :: inside) :
    (sitesAfter (cs.length - inside.length) cs).map (Site.behind [c]) =
      (sitesAfter 0 inside).map (Site.behind (passed ++ ['('])) := by
  have hwhole : c :: cs = (passed ++ ['(']) ++ inside := by rw [h]; simp
  have hlength : (cs.length - inside.length).succ = (passed ++ ['(']).length := by
    have := congrArg List.length hwhole
    simp only [List.length_append, List.length_cons, List.length_nil] at this ⊢
    omega
  rw [← sitesAfter, sitesAfter_eq_drop, hlength, hwhole, List.drop_left, List.take_left]

/-- A call is found wherever a name stands before a parenthesis that is closed, and nowhere
else. -/
theorem finds_sitesAfter_iff (cs before name : List Char) (args : List (List Char)) :
    Finds (sitesAfter 0 cs) before name args ↔
      ∃ inside enclosed, NamesCall cs before name inside ∧ enclosed? 0 none inside = some enclosed ∧
        args = splitArgs enclosed := by
  induction hn : cs.length using Nat.strong_induction_on generalizing cs before with
  | h n ih =>
    cases cs with
    | nil =>
      refine ⟨fun ⟨_, hmem, _⟩ => absurd hmem List.not_mem_nil, ?_⟩
      rintro ⟨inside, enclosed, hnames, -⟩
      obtain ⟨blanks, -, hshape⟩ := hnames.shape
      exact absurd hshape (by simp)
    | cons c cs =>
      rw [sitesAfter]
      -- a text without an opening at its front gives way to a shorter one, and so does one behind it
      cases ho : opening? (c :: cs) with
      | none =>
        have hlater := fun before => ih cs.length (hn ▸ Nat.lt_succ_self _) cs before rfl
        dsimp only
        rw [finds_behind_iff]
        simp only [namesCall_cons_iff ho, hlater]
        constructor
        · rintro ⟨before, rfl, inside, enclosed, hnames, hargs⟩
          exact ⟨inside, enclosed, ⟨before, rfl, hnames⟩, hargs⟩
        · rintro ⟨inside, enclosed, ⟨before, rfl, hnames⟩, hargs⟩
          exact ⟨before, rfl, inside, enclosed, hnames, hargs⟩
      | some o =>
        obtain ⟨passed, hcs, hnames⟩ := namesCall_iff_of_opening? ho
        have hlater := fun before => ih o.inside.length
          (by rw [← hn, hcs, List.length_append, List.length_cons]; omega) o.inside before rfl
        dsimp only
        rw [finds_append_iff, finds_opening_iff, sitesAfter_opening hcs, finds_behind_iff]
        simp only [hnames, hlater]
        constructor
        · rintro (⟨rfl, rfl, enclosed, hargs⟩ | ⟨before, rfl, inside, enclosed, hlate, hargs⟩)
          · exact ⟨o.inside, enclosed, .inl ⟨rfl, rfl, rfl⟩, hargs⟩
          · exact ⟨inside, enclosed, .inr ⟨before, by simp, hlate⟩, hargs⟩
        · rintro ⟨inside, enclosed, ⟨rfl, rfl, rfl⟩ | ⟨before, rfl, hlate⟩, hargs⟩
          · exact .inl ⟨rfl, rfl, enclosed, hargs⟩
          · exact .inr ⟨before, by simp, inside, enclosed, hlate, hargs⟩

/-- The calls of a text stand outside its strings exactly when no string of it holds a name before
a parenthesis that is closed; the strings are those in which no comment starts. -/
theorem sites_unquoted_iff (text : List Char) :
    (sites text).map Site.call = calls text ∧
    (∀ before name args, Finds (sites text) before name args ↔
      ∃ inside enclosed, NamesCall text before name inside ∧
        enclosed? 0 none inside = some enclosed ∧ args = splitArgs enclosed) ∧
    (∀ before rest, text = before ++ rest → stripComment before = before →
      stripComment text = before ++
        stripCommentFrom (quotingBehind before).quote (quotingBehind before).guarded rest) ∧
    ((∀ site ∈ sites text, (quotingBehind site.before).quote = none) ↔
      ∀ before name inside, NamesCall text before name inside →
        (enclosed? 0 none inside).isSome → (quotingBehind before).quote = none) := by
  refine ⟨map_call_sitesAfter 0 text, fun before name args => finds_sitesAfter_iff ..,
    fun before rest htext hbefore => ?_, ?_⟩
  · subst htext
    exact stripCommentFrom_append {} hbefore rest
  · constructor
    · intro hsites before name inside hnames hclosed
      obtain ⟨enclosed, henclosed⟩ := Option.isSome_iff_exists.mp hclosed
      -- a name before a closed parenthesis is the one of some site
      obtain ⟨site, hsite, rfl, -⟩ := (finds_sitesAfter_iff text before name _).mpr
        ⟨inside, enclosed, hnames, henclosed, rfl⟩
      exact hsites site hsite
    · intro hstrings site hsite
      obtain ⟨inside, enclosed, hnames, henclosed, -⟩ :=
        (finds_sitesAfter_iff text site.before site.call.name.toList site.call.args).mp
          ⟨site, hsite, rfl, String.ofList_toList.symm, rfl⟩
      exact hstrings _ _ _ hnames (Option.isSome_of_eq_some henclosed)

/-- A call inside a string is reported. -/
theorem sites_quoted_push :
    ∃ site ∈ sites "print(\"s.push(1)\")".toList, site.call.receiver = some ['s'] ∧
      site.call.name = "push" ∧ site.call.args = [['1']] ∧
      (quotingBehind site.before).quote = some '"' := by
  decide +kernel

end Storyboard.Source
