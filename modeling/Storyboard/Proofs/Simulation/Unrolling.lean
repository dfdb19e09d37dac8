import Storyboard.Proofs.Simulation.Disciplines
import Storyboard.Proofs.Source.Statement
import Storyboard.Stack

/-!
# Loops that are unrolled

A loop over a list of scalars that pushes its variable means the same as the pushes of its items,
one after the other, but for the lines that the steps carry; provided that the texts of the list
are taken for texts.  The header of a loop is cut at its first colon, also inside a text, and then
the variable is pushed by its name; so without calls and subscripts in its texts, a loop means the
same as the pushes exactly when there is no colon in them (`unrolled_iff`).
-/

namespace Storyboard

open Literal (chars joinedChars)

/-! ## Steps without their lines -/

/-- The step without the line that it carries. -/
def Step.unplaced (step : Step) : Step := { step with line := none }

section Replays

variable {σ α : Type} {perform : σ → Cue α → σ × List Step}

/-- Where the line of a cue goes into its steps only, replays of the same operations tell the same
but for their lines. -/
theorem map_unplaced_replay
    (hstate : ∀ state cue, (perform state cue).1 = (perform state ⟨0, cue.op⟩).1)
    (hsteps : ∀ state cue, (perform state cue).2.map Step.unplaced =
      (perform state ⟨0, cue.op⟩).2.map Step.unplaced)
    {cues others : List (Cue α)} (h : cues.map Cue.op = others.map Cue.op) (state : σ) :
    (replay perform state cues).2.map Step.unplaced =
      (replay perform state others).2.map Step.unplaced := by
  induction cues generalizing others state with
  | nil =>
    rw [List.map_nil] at h
    rw [List.map_eq_nil_iff.mp h.symm]
  | cons cue cues ih =>
    cases others with
    | nil => exact absurd h (List.cons_ne_nil _ _)
    | cons other others =>
      obtain ⟨hop, hrest⟩ := List.cons.inj h
      have hnext : (perform state cue).1 = (perform state other).1 := by
        rw [hstate, hop, ← hstate]
      have hfirst : (perform state cue).2.map Step.unplaced =
          (perform state other).2.map Step.unplaced := by
        rw [hsteps, hop, ← hsteps]
      rw [replay, replay]
      dsimp only
      rw [List.map_append, List.map_append, hfirst, hnext, ih hrest]

end Replays

namespace Stack

open Source (IsStatement IsArgument NamesCall IsSubscripted lineIn pushOf listedHeader)

variable {values : List Literal}

theorem perform_unplaced (items : List Literal) (cue : Cue Op) :
    (perform items cue).1 = (perform items ⟨0, cue.op⟩).1 ∧
      (perform items cue).2.map Step.unplaced =
        (perform items ⟨0, cue.op⟩).2.map Step.unplaced := by
  obtain ⟨line, op⟩ := cue
  cases op with
  | push value => exact ⟨rfl, rfl⟩
  | pop => unfold perform; dsimp only; cases items.getLast? <;> exact ⟨rfl, rfl⟩
  | peek => unfold perform; dsimp only; cases items.getLast? <;> exact ⟨rfl, rfl⟩

/-! ## Texts that ask for nothing -/

/-- The names of calls that a stack may take operations from. -/
def operationNames : List String := pushNames ++ popNames ++ peekNames

/-- Nothing in the text looks like an operation on a stack. -/
structure IsIdle (text : List Char) : Prop where
  calls : ∀ before name inside, NamesCall text before name inside →
    String.ofList name ∉ operationNames
  subscripts : ∀ name, ¬ IsSubscripted "-1" text name

theorem opsOfCall?_of_not_mem {call : Source.Call} (h : call.name ∉ operationNames)
    (line : Source.Line) (bindings : Source.Bindings) : opsOfCall? line bindings call = none := by
  rw [operationNames, List.mem_append, List.mem_append, not_or, not_or] at h
  obtain ⟨⟨hpush, hpop⟩, hpeek⟩ := h
  simp [opsOfCall?, Source.Call.isOneOf, hpush, hpop, hpeek]

theorem filterMap_opsOfCall?_of_isIdle {text : List Char} (h : IsIdle text) (line : Source.Line)
    (bindings : Source.Bindings) :
    (Source.calls text).filterMap (opsOfCall? line bindings) = [] := by
  rw [List.filterMap_eq_nil_iff]
  intro call hcall
  obtain ⟨before, inside, hnames⟩ := Source.exists_namesCall_of_mem_calls hcall
  have hname := h.calls before _ inside hnames
  rw [String.ofList_toList] at hname
  exact opsOfCall?_of_not_mem hname line bindings

/-- A stack takes nothing from an idle line. -/
theorem opsOfLine_of_isIdle {line : Source.Line} (h : IsIdle line.text)
    (bindings : Source.Bindings) : opsOfLine line bindings = [] := by
  unfold opsOfLine
  rw [filterMap_opsOfCall?_of_isIdle h, Source.firstSubscripted?_eq_none_iff.mpr h.subscripts]

/-- Without parentheses and brackets a text is idle. -/
theorem isIdle_of_not_mem {text : List Char} (hparen : '(' ∉ text) (hbracket : '[' ∉ text) :
    IsIdle text where
  calls := by
    intro before name inside h
    obtain ⟨blanks, -, hshape⟩ := h.shape
    rw [hshape] at hparen
    exact absurd (List.mem_append_right _ List.mem_cons_self) hparen
  subscripts := by
    intro name h
    obtain ⟨front, rest, htext, hname⟩ := h
    have hindex : "-1".toList.head?.any (!Text.isBlank ·) = true := rfl
    obtain ⟨-, -, lead, trail, behind, -, -, rfl⟩ :=
      (Source.subscripted?_eq_some_iff hindex).mp hname
    rw [htext] at hbracket
    exact hbracket (List.mem_append_right _ (List.mem_append_right _ List.mem_cons_self))

/-- Idle texts stay idle with a quote or a comma between them. -/
theorem IsIdle.append_cons {a b : List Char} {c : Char} (ha : IsIdle a) (hb : IsIdle b)
    (hc : c ∈ ['\'', ',']) : IsIdle (a ++ c :: b) := by
  have hother : Text.isWord c = false ∧ Text.isDotted c = false ∧ Text.isBlank c = false ∧
      c ≠ '(' ∧ c ∉ '[' :: ']' :: "-1".toList := by
    rw [List.mem_cons, List.mem_singleton] at hc
    rcases hc with rfl | rfl <;> exact ⟨rfl, rfl, rfl, by decide, by simp⟩
  obtain ⟨hword, hdotted, hblank, hparen, hmarks⟩ := hother
  constructor
  · intro before name inside h
    rcases h.of_append_cons hword hblank hparen with ⟨inside, h⟩ | ⟨before, h⟩
    · exact ha.calls before name inside h
    · exact hb.calls before name inside h
  · intro name h
    rcases h.of_append_cons rfl hdotted hblank hmarks with h | h
    · exact ha.subscripts name h
    · exact hb.subscripts name h

/-- A scalar is idle if its text is, with blanks before it and a closing bracket behind. -/
theorem isIdle_scalar {value : Literal} (hscalar : value.isScalar = true)
    (hidle : ∀ s, value = .text s → IsIdle s.toList) {lead tail : List Char}
    (hlead : '(' ∉ lead ∧ '[' ∉ lead) (htail : '(' ∉ tail ∧ '[' ∉ tail) :
    IsIdle (lead ++ chars true value ++ tail) := by
  by_cases htext : ∃ s, value = .text s
  · obtain ⟨s, rfl⟩ := htext
    have hshape : lead ++ chars true (.text s) ++ tail =
        lead ++ '\'' :: (s.toList ++ '\'' :: tail) := by
      rw [chars, if_pos rfl]
      simp
    rw [hshape]
    have hback := (hidle s rfl).append_cons (isIdle_of_not_mem htail.1 htail.2)
      (c := '\'') List.mem_cons_self
    exact (isIdle_of_not_mem hlead.1 hlead.2).append_cons hback List.mem_cons_self
  · have hnone : ∀ c, Literal.isBare c = false → c ≠ '\'' → c ∉ chars true value := by
      intro c hbare hquote
      exact Literal.not_mem_chars hbare hquote hscalar fun s hs => absurd ⟨s, hs⟩ htext
    have hparen := hnone '(' rfl (by decide)
    have hbracket := hnone '[' rfl (by decide)
    exact isIdle_of_not_mem (by simp [hlead.1, hparen, htail.1]) (by simp [hlead.2, hbracket, htail.2])

theorem isIdle_joinedChars (hscalar : ∀ value ∈ values, value.isScalar = true)
    (hidle : ∀ s, .text s ∈ values → IsIdle s.toList) {lead tail : List Char}
    (hlead : '(' ∉ lead ∧ '[' ∉ lead) (htail : '(' ∉ tail ∧ '[' ∉ tail) :
    IsIdle (lead ++ joinedChars values ++ tail) := by
  induction values generalizing lead with
  | nil =>
    refine isIdle_of_not_mem ?_ ?_
    · simp [joinedChars, hlead.1, htail.1]
    · simp [joinedChars, hlead.2, htail.2]
  | cons value values ih =>
    obtain ⟨hvalue, hvalues⟩ := List.forall_mem_cons.mp hscalar
    have htext : ∀ s, value = .text s → IsIdle s.toList := by
      intro s hs
      exact hidle s (hs ▸ List.mem_cons_self)
    cases values with
    | nil =>
      rw [joinedChars, Literal.itemsChars, List.append_nil]
      exact isIdle_scalar hvalue htext hlead htail
    | cons next values =>
      have hfirst : IsIdle (lead ++ chars true value ++ []) :=
        isIdle_scalar hvalue htext hlead (by decide)
      have hrest : IsIdle ([' '] ++ joinedChars (next :: values) ++ tail) :=
        ih hvalues (fun s hs => hidle s (List.mem_cons_of_mem _ hs)) (by decide)
      -- the comma between two items separates texts that are idle each
      have hshape : lead ++ joinedChars (value :: next :: values) ++ tail =
          (lead ++ chars true value ++ []) ++ ',' :: ([' '] ++ joinedChars (next :: values) ++ tail) := by
        rw [joinedChars, Literal.itemsChars_cons]
        simp
      rw [hshape]
      exact hfirst.append_cons hrest (by decide)

/-- The list of a header is no subscript, because a blank stands before it. -/
theorem isIdle_listedHeader (hscalar : ∀ value ∈ values, value.isScalar = true)
    (hidle : ∀ s, .text s ∈ values → IsIdle s.toList) : IsIdle (listedHeader values) := by
  have hitems : IsIdle ([] ++ joinedChars values ++ [']', ':']) :=
    isIdle_joinedChars hscalar hidle (by decide) (by decide)
  rw [List.nil_append] at hitems
  have hshape : listedHeader values = ['f', 'o', 'r', ' ', 'v', ' ', 'i', 'n', ' '] ++
      '[' :: (joinedChars values ++ [']', ':']) := by
    rw [listedHeader, Literal.chars_list]
    simp
  rw [hshape]
  constructor
  · intro before name inside h
    rcases h.of_append_cons rfl rfl (by decide) with ⟨inside, h⟩ | ⟨before, h⟩
    · obtain ⟨blanks, -, hfront⟩ := h.shape
      have hparen : '(' ∈ ['f', 'o', 'r', ' ', 'v', ' ', 'i', 'n', ' '] := by
        rw [hfront]
        exact List.mem_append_right _ List.mem_cons_self
      exact absurd hparen (by decide)
    · exact hitems.calls before name inside h
  · -- the search passes over the words of the header, which stand before no bracket
    have hfirst : Source.firstSubscripted? "-1" (['f', 'o', 'r', ' ', 'v', ' ', 'i', 'n', ' '] ++
        '[' :: (joinedChars values ++ [']', ':'])) =
      Text.firstPlace (Source.subscripted? "-1".toList) (some '[')
        (joinedChars values ++ [']', ':']) := rfl
    refine Source.firstSubscripted?_eq_none_iff.mp ?_
    rw [hfirst, Option.eq_none_iff_forall_ne_some]
    intro name hname
    exact hitems.subscripts name (Source.isSubscripted_of_firstPlace hname)

/-! ## The two programs -/

/-- A loop over a list that pushes its variable. -/
def pushLoop (values : List Literal) : String :=
  String.ofList (Source.unlines [listedHeader values, [' ', ' ', ' ', ' '] ++ pushOf ['v']])

/-- The items of the list pushed one after the other. -/
def pushLines (values : List Literal) : String :=
  String.ofList (Source.unlines (values.map fun value => pushOf (chars true value)))

/-- A line that pushes an argument asks for its values, if the argument is idle. -/
theorem opsOfLine_pushOf {arg : List Char} (harg : IsArgument arg) (hidle : IsIdle (arg ++ [')']))
    (number indent : Nat) (bindings : Source.Bindings) :
    opsOfLine (lineIn [] number indent (pushOf arg)) bindings =
      (bindings.expand arg).map Op.push := by
  have hcall : opsOfCall? (lineIn [] number indent (pushOf arg)) bindings
      ⟨some ['s'], "push", [arg]⟩ = some ((bindings.expand arg).map Op.push) := rfl
  have hcalls : (Source.calls (lineIn [] number indent (pushOf arg)).text).filterMap
      (opsOfCall? (lineIn [] number indent (pushOf arg)) bindings) =
        [(bindings.expand arg).map Op.push] := by
    show (Source.calls (pushOf arg)).filterMap _ = _
    rw [Source.calls_pushOf harg, List.filterMap_cons, hcall, filterMap_opsOfCall?_of_isIdle hidle]
  unfold opsOfLine
  rw [hcalls]
  exact List.flatten_singleton

/-- A loop over a list is scanned as its header and its body. -/
theorem script_pushLoop (hscalar : ∀ value ∈ values, value.isScalar = true)
    (hplain : ∀ value ∈ values, value.hasPlainTexts = true)
    (hidle : ∀ s, .text s ∈ values → IsIdle s.toList) {bindings : Source.Bindings}
    (hheader : Source.Bindings.observe {} (lineIn [] 1 0 (listedHeader values)) = bindings) :
    script (pushLoop values) = cuesOn (lineIn [] 2 4 (pushOf ['v']))
      (((bindings.observe (lineIn [] 2 4 (pushOf ['v']))).expand ['v']).map .push) := by
  have hstatement := Source.isStatement_listedHeader hscalar hplain
  have hlines : Text.lines (pushLoop values).toList =
      [listedHeader values, [' ', ' ', ' ', ' '] ++ pushOf ['v']] := by
    rw [pushLoop, String.toList_ofList]
    refine Source.lines_unlines (List.forall_mem_cons.mpr ⟨hstatement.isLine, ?_⟩)
    decide
  have hbody : Source.scanFrom [] 2 [[' ', ' ', ' ', ' '] ++ pushOf ['v']] =
      [lineIn [] 2 4 (pushOf ['v'])] := rfl
  -- the header asks for nothing, and the body for what the loop variable stands for
  have hfirst : opsOfLine (lineIn [] 1 0 (listedHeader values)) bindings = [] :=
    opsOfLine_of_isIdle (isIdle_listedHeader hscalar hidle) bindings
  have hvariable : IsArgument ['v'] := by
    refine ⟨List.cons_ne_nil _ _, ⟨fun c hc => ?_, fun c hc => ?_⟩, rfl⟩
    · obtain rfl := Option.some.inj hc
      rfl
    · obtain rfl := Option.some.inj hc
      rfl
  have hsecond := opsOfLine_pushOf hvariable (isIdle_of_not_mem (by decide) (by decide)) 2 4
    (bindings.observe (lineIn [] 2 4 (pushOf ['v'])))
  rw [script, Source.boundLines, Source.scan, hlines, Source.scanFrom_statement hstatement, hbody,
    Source.boundLinesFrom, Source.boundLinesFrom, Source.boundLinesFrom]
  dsimp only
  rw [hheader, List.flatMap_cons, List.flatMap_singleton]
  dsimp only
  rw [hfirst, hsecond]
  rfl

/-- The header binds its variable to the values of the loop, if they are known. -/
theorem observe_listedHeader {iterable : List Char}
    (h : Source.loopHeader? (listedHeader values) = some (['v'], iterable)) :
    Source.Bindings.observe {} (lineIn [] 1 0 (listedHeader values)) =
      match Source.iterableValues? [] iterable with
      | some values => ⟨[⟨['v'], values, 0⟩], []⟩
      | none => ⟨[], []⟩ := by
  have htext : (lineIn [] 1 0 (listedHeader values)).text = listedHeader values := rfl
  unfold Source.Bindings.observe
  rw [htext, h]
  rfl

/-- Without a colon in its texts, the loop pushes its items. -/
theorem script_pushLoop_listed (hlength : values.length ≤ 64)
    (hscalar : ∀ value ∈ values, value.isScalar = true)
    (hplain : ∀ value ∈ values, value.hasPlainTexts = true)
    (hidle : ∀ s, .text s ∈ values → IsIdle s.toList)
    (hcolon : ∀ s, .text s ∈ values → ':' ∉ s.toList) :
    script (pushLoop values) = cuesOn (lineIn [] 2 4 (pushOf ['v'])) (values.map .push) := by
  have hheader := observe_listedHeader (Source.loopHeader?_listed hscalar hcolon)
  have hall : values.take Source.maxLoopValues = values := List.take_of_length_le hlength
  rw [Source.iterableValues?_listed hscalar hplain, hall] at hheader
  exact script_pushLoop hscalar hplain hidle hheader

/-- With a colon in a text, the loop pushes the name of its variable. -/
theorem script_pushLoop_cutOff (hscalar : ∀ value ∈ values, value.isScalar = true)
    (hplain : ∀ value ∈ values, value.hasPlainTexts = true)
    (hidle : ∀ s, .text s ∈ values → IsIdle s.toList) {s : String} (hs : .text s ∈ values)
    (hcolon : ':' ∈ s.toList) : script (pushLoop values) = [⟨2, .push (.text "v")⟩] := by
  obtain ⟨iterable, hlist, hvalues⟩ := Source.exists_loopHeader?_cutOff hscalar hplain hs hcolon
  have hheader := observe_listedHeader hlist
  rw [hvalues] at hheader
  exact script_pushLoop hscalar hplain hidle hheader

/-- A scalar is read as itself where no name is bound. -/
theorem expand_chars {value : Literal} (hscalar : value.isScalar = true)
    (hplain : value.hasPlainTexts = true) :
    Source.Bindings.expand ⟨[], []⟩ (chars true value) = [value] := by
  have hfree := Literal.isFloatFree_of_isScalar hscalar
  have htrim : Text.trim (chars true value) = chars true value :=
    Text.trim_of_isTrimmed (Source.isArgument_chars hfree hplain).trimmed
  have hread := Literal.parse_nested value hfree hplain
  rw [Literal.nested, String.toList_ofList] at hread
  have hexpand : Source.Bindings.expand ⟨[], []⟩ (chars true value) =
      [Literal.lenient (Text.trim (chars true value))] := rfl
  rw [hexpand, htrim, Literal.lenient, htrim, Literal.parse?, hread]
  rfl

/-- The items pushed one after the other are all that the lines ask for. -/
theorem map_op_script_pushLines (hscalar : ∀ value ∈ values, value.isScalar = true)
    (hplain : ∀ value ∈ values, value.hasPlainTexts = true)
    (hidle : ∀ s, .text s ∈ values → IsIdle s.toList) :
    (script (pushLines values)).map Cue.op = values.map .push := by
  have hlines : Text.lines (pushLines values).toList =
      values.map fun value => pushOf (chars true value) := by
    rw [pushLines, String.toList_ofList]
    refine Source.lines_unlines fun text htext => ?_
    obtain ⟨value, hvalue, rfl⟩ := List.mem_map.mp htext
    exact (Source.isStatement_pushOf (hscalar value hvalue) (hplain value hvalue)).isLine
  rw [script, Source.boundLines, Source.scan, hlines]
  clear hlines
  generalize 1 = number
  induction values generalizing number with
  | nil => rfl
  | cons value values ih =>
    obtain ⟨hvalue, hvalues⟩ := List.forall_mem_cons.mp hscalar
    obtain ⟨hvaluePlain, hvaluesPlain⟩ := List.forall_mem_cons.mp hplain
    have hrest := ih hvalues hvaluesPlain fun s hs => hidle s (List.mem_cons_of_mem _ hs)
    have harg := Source.isArgument_chars (Literal.isFloatFree_of_isScalar hvalue) hvaluePlain
    have hargIdle : IsIdle ([] ++ chars true value ++ [')']) :=
      isIdle_scalar hvalue (fun s hs => hidle s (hs ▸ List.mem_cons_self)) (by decide) (by decide)
    rw [List.nil_append] at hargIdle
    -- a call binds no name, so every line is read with the bindings of the first
    have hobserve : Source.Bindings.observe {} (lineIn [] number 0 (pushOf (chars true value))) =
        ⟨[], []⟩ := rfl
    have hops := opsOfLine_pushOf harg hargIdle number 0 ⟨[], []⟩
    rw [expand_chars hvalue hvaluePlain] at hops
    rw [List.map_cons, Source.scanFrom_statement (Source.isStatement_pushOf hvalue hvaluePlain),
      Source.boundLinesFrom, hobserve, List.flatMap_cons, List.map_append, hrest]
    dsimp only
    rw [hops]
    rfl

/-! ## Loop and lines -/

/-- The loop and the pushes tell the same but for the lines. -/
theorem simulate_unplaced_eq {code other : String}
    (h : (script code).map Cue.op = (script other).map Cue.op) :
    (simulate code).steps.map Step.unplaced = (simulate other).steps.map Step.unplaced :=
  map_unplaced_replay (fun items cue => (perform_unplaced items cue).1)
    (fun items cue => (perform_unplaced items cue).2) h []

/-- Each push tells its value. -/
theorem values_of_replay_push {cues : List (Cue Op)} (h : cues.map Cue.op = values.map .push)
    (items : List Literal) :
    (replay perform items cues).2.map Step.value = values.map fun value => some value.toJson := by
  induction values generalizing cues items with
  | nil =>
    rw [List.map_nil] at h
    rw [List.map_eq_nil_iff.mp h]
    rfl
  | cons value values ih =>
    cases cues with
    | nil => exact absurd h.symm (List.cons_ne_nil _ _)
    | cons cue cues =>
      obtain ⟨line, op⟩ := cue
      obtain ⟨rfl, hrest⟩ := List.cons.inj h
      rw [replay, List.map_cons, ← ih hrest (items ++ [value])]
      rfl

/-- Without operations in its texts, a loop over a list of scalars that pushes its variable tells the
same as the pushes of its items, but for the lines, exactly when there is no colon in its texts. -/
theorem unrolled_iff (values : List Literal) (hlength : values.length ≤ 64)
    (hscalar : ∀ value ∈ values, value.isScalar = true)
    (hplain : ∀ value ∈ values, value.hasPlainTexts = true)
    (hidle : ∀ s, .text s ∈ values → IsIdle s.toList) :
    (simulate (pushLoop values)).steps.map Step.unplaced =
        (simulate (pushLines values)).steps.map Step.unplaced ↔
      ∀ s, .text s ∈ values → ':' ∉ s.toList := by
  have hlines := map_op_script_pushLines hscalar hplain hidle
  constructor
  · intro h s hs hcolon
    have hvalues := congrArg (List.map Step.value) h
    have hkeep : ∀ steps : List Step, (steps.map Step.unplaced).map Step.value =
        steps.map Step.value := by
      intro steps
      rw [List.map_map]
      rfl
    have hloop : (simulate (pushLoop values)).steps.map Step.value = [some (.str "v")] := by
      rw [simulate, script_pushLoop_cutOff hscalar hplain hidle hs hcolon]
      rfl
    rw [hkeep, hkeep, hloop, simulate, values_of_replay_push hlines] at hvalues
    -- the text with the colon would be the name of the variable
    have hmem : some (Literal.toJson (.text s)) ∈ values.map fun value => some value.toJson :=
      List.mem_map_of_mem hs
    rw [← hvalues, List.mem_singleton] at hmem
    obtain rfl : s = "v" := Json.str.inj (Option.some.inj hmem)
    exact absurd hcolon (by decide)
  · intro hcolon
    apply simulate_unplaced_eq
    rw [script_pushLoop_listed hlength hscalar hplain hidle hcolon, hlines, cuesOn, List.map_map]
    exact List.map_id _

/-- An empty value, a truth value, a negative number and a text with a comma, a bracket and a hash. -/
def mixedScalars : List Literal := [.none, .bool true, .int (-5), .text "a, b]#"]

theorem unrolled_iff_mixedScalars :
    (simulate (pushLoop mixedScalars)).steps.map Step.unplaced =
      (simulate (pushLines mixedScalars)).steps.map Step.unplaced := by
  have htext : ∀ s, Literal.text s ∈ mixedScalars → s = "a, b]#" := by
    intro s hs
    simpa [mixedScalars] using hs
  have hidle : ∀ s, Literal.text s ∈ mixedScalars → IsIdle s.toList := by
    intro s hs
    rw [htext s hs]
    exact isIdle_of_not_mem (by decide) (by decide)
  refine (unrolled_iff mixedScalars (by decide) (by decide) (by decide) hidle).mpr fun s hs => ?_
  rw [htext s hs]
  decide

/-- A colon in a text makes the loop push the name of its variable, and a call in a text is made when
the header is read. -/
theorem loop_not_unrolled :
    ((simulate (pushLoop [.text "a:b"])).steps.map Step.unplaced ≠
        (simulate (pushLines [.text "a:b"])).steps.map Step.unplaced ∧
      (simulate (pushLoop [.text "a:b"])).steps.map Step.description = ["Pushed v onto stack"]) ∧
    (simulate (pushLoop [.text "push(1)"])).steps.map Step.unplaced ≠
        (simulate (pushLines [.text "push(1)"])).steps.map Step.unplaced ∧
      (simulate (pushLoop [.text "push(1)"])).steps.map Step.description =
        ["Pushed 1 onto stack", "Pushed push(1) onto stack"] := by
  refine ⟨⟨fun h => ?_, by decide +kernel⟩, fun h => ?_, by decide +kernel⟩
  · have hdescriptions := congrArg (List.map Step.description) h
    exact absurd hdescriptions (by decide +kernel)
  · have hdescriptions := congrArg (List.map Step.description) h
    exact absurd hdescriptions (by decide +kernel)

end Stack

end Storyboard
