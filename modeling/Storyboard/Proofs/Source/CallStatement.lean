import Storyboard.Proofs.Source.StringArgument
import Storyboard.Proofs.Source.Subscript
import Storyboard.Source.Bindings

/-!
# Calls as statements

A dotted name with arguments between parentheses is found as one call of these arguments, and
behind it only what is called inside them (`calls_callText`).  Before its parenthesis stands neither
a blank nor an equals sign, so it is neither the header of a loop nor an assignment.
-/

namespace Storyboard.Source

/-! ## The search for calls -/

/-- Every call of a text is a name before a parenthesis. -/
theorem exists_namesCall_of_mem_calls {text : List Char} {call : Call} (h : call ∈ calls text) :
    ∃ before inside, NamesCall text before call.name.toList inside := by
  rw [calls, ← map_call_sitesAfter] at h
  obtain ⟨site, hsite, rfl⟩ := List.mem_map.mp h
  obtain ⟨inside, enclosed, hnames, -⟩ := (finds_sitesAfter_iff text _ _ _).mp
    ⟨site, hsite, rfl, String.ofList_toList.symm, rfl⟩
  exact ⟨site.before, inside, hnames⟩

theorem callsAfter_eq_drop (skip : Nat) (cs : List Char) :
    callsAfter skip cs = callsAfter 0 (cs.drop skip) := by
  rw [← map_call_sitesAfter, sitesAfter_eq_drop, List.map_map, ← map_call_sitesAfter 0]
  rfl

/-- Where a call opens, it is found if it is closed, and then what is called behind its
parenthesis. -/
theorem calls_of_opening? {cs : List Char} {o : Opening} (h : opening? cs = some o) :
    calls cs = o.call?.toList ++ calls o.inside := by
  obtain ⟨-, -, blanks, -, hshape⟩ := eq_of_opening? h
  generalize o.front ++ o.name ++ blanks = front at hshape
  have hbehind : cs.drop (front.length + 1) = o.inside := by
    rw [hshape, List.drop_append]
    simp
  have hlength := congrArg List.length hshape
  rw [List.length_append, List.length_cons] at hlength
  cases cs with
  | nil => exact nomatch h
  | cons c cs =>
    have hskip : cs.length - o.inside.length = front.length := by
      rw [List.length_cons] at hlength
      omega
    rw [calls, callsAfter, h]
    dsimp only
    rw [hskip, callsAfter_eq_drop, ← hbehind, List.drop_succ_cons, calls]

/-! ## Calls of a dotted name -/

/-- A dotted name of a call, its receiver if there is one, and its name. -/
structure IsCallee (callee : List Char) (receiver : Option (List Char)) (name : List Char) :
    Prop where
  start : callee.head?.any Text.startsName = true
  dotted : ∀ c ∈ callee, Text.isDotted c = true
  split : splitReceiver? callee = some (receiver, name)

/-- Arguments as they are written behind an opening parenthesis, with the closing one. -/
def argsText (args : List (List Char)) : List Char := [',', ' '].intercalate args ++ [')']

/-- The text of a call. -/
def callText (callee : List Char) (args : List (List Char)) : List Char :=
  callee ++ '(' :: argsText args

variable {callee name inside : List Char} {receiver : Option (List Char)} {args : List (List Char)}

theorem argsText_cons_cons (arg next : List Char) (args : List (List Char)) :
    argsText (arg :: next :: args) = arg ++ ',' :: ' ' :: argsText (next :: args) := by
  simp [argsText, List.intercalate_cons_cons]

/-- Arguments end at the parenthesis that closes them. -/
theorem enclosed?_argsText (h : ∀ arg ∈ args, IsArgument arg) :
    enclosed? 0 none (argsText args) = some ([',', ' '].intercalate args) := by
  induction args with
  | nil => rfl
  | cons arg args ih =>
    obtain ⟨harg, hargs⟩ := List.forall_mem_cons.mp h
    cases args with
    | nil =>
      rw [argsText, List.intercalate_singleton, enclosed?_append harg.sealed]
      simp [enclosed?, isQuote, isOpening, isClosing]
    | cons next args =>
      rw [argsText_cons_cons, enclosed?_append harg.sealed]
      simp [enclosed?_cons, isQuote, isOpening, isClosing, ih hargs, List.intercalate_cons_cons]

theorem opening?_callee (h : IsCallee callee receiver name) (inside : List Char) :
    opening? (callee ++ '(' :: inside) = some ⟨receiver, name, inside⟩ := by
  have hend : ∀ c ∈ ('(' :: inside).head?, Text.isDotted c = false := by
    intro c hc
    obtain rfl := Option.some.inj hc
    rfl
  have hname : Text.dottedName? (callee ++ '(' :: inside) = some (callee, '(' :: inside) :=
    Text.dottedName?_eq_some_iff.mpr ⟨⟨h.start, h.dotted⟩, hend, rfl⟩
  have hparen : Text.blanksThen? '(' ('(' :: inside) = some inside := rfl
  unfold opening?
  simp only [hname, hparen, h.split, Option.bind_eq_bind, Option.bind_some, Option.pure_def]

/-- A call is found with its arguments, and then what is called inside them. -/
theorem calls_callText (hcallee : IsCallee callee receiver name)
    (h : ∀ arg ∈ args, IsArgument arg) :
    calls (callText callee args) =
      ⟨receiver, String.ofList name, args⟩ :: calls (argsText args) := by
  have hsplit : splitArgs ([',', ' '].intercalate args) = args :=
    splitArgs_join h (List.forall_mem_singleton.mpr rfl)
  rw [callText, calls_of_opening? (opening?_callee hcallee _), Opening.call?, enclosed?_argsText h,
    Option.map_some, hsplit]
  rfl

/-- Nothing is called where there is no parenthesis. -/
theorem calls_argsText (h : ∀ arg ∈ args, '(' ∉ arg) : calls (argsText args) = [] := by
  have hnone : '(' ∉ argsText args := by
    induction args with
    | nil => decide
    | cons arg args ih =>
      obtain ⟨harg, hargs⟩ := List.forall_mem_cons.mp h
      cases args with
      | nil => simp [argsText, harg]
      | cons next args =>
        have hrest := ih hargs
        rw [argsText_cons_cons]
        simp [harg, hrest]
  refine List.eq_nil_iff_forall_not_mem.mpr fun call hcall => ?_
  obtain ⟨before, inside, hnames⟩ := exists_namesCall_of_mem_calls hcall
  obtain ⟨blanks, -, hshape⟩ := hnames.shape
  rw [hshape] at hnone
  exact hnone (List.mem_append_right _ List.mem_cons_self)

/-! ## What a call is not -/

/-- What does not hold the parenthesis and stands at the front of a call stands before the
parenthesis. -/
theorem exists_of_callee_eq_append {front rest : List Char}
    (h : callee ++ '(' :: inside = front ++ rest) (hparen : '(' ∉ front) :
    ∃ more, callee = front ++ more ∧ rest = more ++ '(' :: inside := by
  have hparts : callee ++ '(' :: inside = [] ++ front ++ rest := h
  rcases parts_of_append_cons hparts hparen with ⟨more, hnil, -⟩ | ⟨more, rfl⟩
  · exact absurd hnil.symm (by simp)
  · refine ⟨more, rfl, ?_⟩
    rw [List.nil_append, List.append_assoc] at h
    exact (List.append_cancel_left h).symm

/-- Up to the parenthesis of a call there are only dotted characters. -/
theorem head_of_dotted {more : List Char} (h : ∀ c ∈ more, Text.isDotted c = true) {c : Char}
    (hc : c ∈ (more ++ '(' :: inside).head?) : Text.isDotted c = true ∨ c = '(' := by
  cases more with
  | nil => exact Or.inr (Option.some.inj hc).symm
  | cons d more =>
    obtain rfl := Option.some.inj hc
    exact Or.inl (h d List.mem_cons_self)

/-- No blank stands before the parenthesis of a call. -/
theorem isBlank_head_of_dotted {more : List Char} (h : ∀ c ∈ more, Text.isDotted c = true) {c : Char}
    (hc : c ∈ (more ++ '(' :: inside).head?) : Text.isBlank c = false := by
  rw [← Bool.not_eq_true]
  intro hblank
  rcases head_of_dotted h hc with hdotted | rfl
  · rw [Text.isDotted_of_isBlank hblank] at hdotted
    exact Bool.false_ne_true hdotted
  · exact absurd hblank (by decide)

/-- No equals sign stands before the parenthesis of a call. -/
theorem blanksThen?_of_dotted {more : List Char} (h : ∀ c ∈ more, Text.isDotted c = true) :
    Text.blanksThen? '=' (more ++ '(' :: inside) = none := by
  rw [Option.eq_none_iff_forall_ne_some]
  intro rest hrest
  obtain ⟨blanks, hblanks, hshape⟩ := (Text.blanksThen?_eq_some_iff rfl).mp hrest
  cases blanks with
  | nil =>
    have hhead : '=' ∈ (more ++ '(' :: inside).head? := by rw [hshape]; rfl
    rcases head_of_dotted h hhead with hdotted | hparen
    · exact absurd hdotted (by decide)
    · exact absurd hparen (by decide)
  | cons b blanks =>
    have hhead : b ∈ (more ++ '(' :: inside).head? := by rw [hshape]; rfl
    have hblank := hblanks b List.mem_cons_self
    rw [isBlank_head_of_dotted h hhead] at hblank
    exact Bool.false_ne_true hblank

theorem loopHeader?_callText (h : ∀ c ∈ callee, Text.isDotted c = true) :
    loopHeader? (callText callee args) = none := by
  have hfor :
      (Text.dropPrefix? "for".toList (callText callee args)).bind Text.someBlanks? = none := by
    cases hrest : Text.dropPrefix? "for".toList (callText callee args) with
    | none => rfl
    | some rest =>
      obtain ⟨more, rfl, rfl⟩ :=
        exists_of_callee_eq_append (Text.dropPrefix?_eq_some_iff.mp hrest) (by decide)
      have hblank : ∀ c ∈ (more ++ '(' :: argsText args).head?, Text.isBlank c = false :=
        fun c hc => isBlank_head_of_dotted (List.forall_mem_append.mp h).2 hc
      generalize more ++ '(' :: argsText args = rest at hblank
      cases rest with
      | nil => rfl
      | cons c rest => simp [Text.someBlanks?, hblank c rfl]
  unfold loopHeader?
  rw [hfor]
  rfl

theorem assignment?_callText (h : ∀ c ∈ callee, Text.isDotted c = true) :
    assignment? (callText callee args) = none := by
  unfold assignment?
  cases hread : Text.name? (callText callee args) with
  | none => rfl
  | some read =>
    obtain ⟨name, afterName⟩ := read
    obtain ⟨hname, -, hshape⟩ := Text.name?_eq_some_iff.mp hread
    obtain ⟨more, rfl, rfl⟩ := exists_of_callee_eq_append hshape (Text.not_mem_run rfl hname.word)
    simp only [Option.bind_eq_bind, Option.bind_some,
      blanksThen?_of_dotted (List.forall_mem_append.mp h).2, Option.bind_none]

end Storyboard.Source
