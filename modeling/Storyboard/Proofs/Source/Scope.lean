import Storyboard.Proofs.Source.Scan

/-!
# What encloses a line

A line encloses a later one if it is less indented than that one and than every line between the
two.  The scan keeps a stack of the headers whose bodies may still go on, and the bindings keep one
of loops; both are popped by the indentation of the next line.  Such a stack holds those of the
lines behind which only deeper ones have come (`opened`).  Their indentations grow, so what is
popped is what does not enclose the next line (`dropWhile_stackOf`), and what is left says which
scopes and loops the line lies in (`scan_reports_scopes`).
-/

namespace Storyboard.Source

section Enclosing

variable {α β : Type} {indentOf : α → Nat}

/-! ## Enclosing lines -/

variable (indentOf) in
/-- A line, with the lines between, encloses one of the given indentation. -/
structure Encloses (h : α) (between : List α) (indent : Nat) : Prop where
  lessIndented : indentOf h < indent
  deeper : ∀ m ∈ between, indentOf h < indentOf m

variable (indentOf) in
/-- The lines behind which only deeper ones have come. -/
def opened : List α → List α
  | [] => []
  | h :: between =>
    if ∀ m ∈ between, indentOf h < indentOf m then h :: opened between else opened between

variable (indentOf) in
/-- Those of the earlier lines that enclose one of the given indentation, outermost first. -/
def enclosers (indent : Nat) (earlier : List α) : List α :=
  (opened indentOf earlier).filter fun h => indentOf h < indent

theorem mem_opened {earlier : List α} {h : α} :
    h ∈ opened indentOf earlier ↔
      ∃ before between, earlier = before ++ h :: between ∧
        ∀ m ∈ between, indentOf h < indentOf m := by
  induction earlier with
  | nil => simp [opened]
  | cons first rest ih =>
    have hrest : h ∈ opened indentOf rest ↔ ∃ before between,
        first :: rest = (first :: before) ++ h :: between ∧
          ∀ m ∈ between, indentOf h < indentOf m := by
      simpa using ih
    have hsplit : (∃ before between, first :: rest = before ++ h :: between ∧
          ∀ m ∈ between, indentOf h < indentOf m) ↔
        (h = first ∧ ∀ m ∈ rest, indentOf first < indentOf m) ∨ h ∈ opened indentOf rest := by
      rw [hrest]
      constructor
      · rintro ⟨before, between, heq, hdeeper⟩
        cases before with
        | nil =>
          obtain ⟨rfl, rfl⟩ := List.cons.inj heq
          exact .inl ⟨rfl, hdeeper⟩
        | cons _ before =>
          obtain ⟨rfl, -⟩ := List.cons.inj heq
          exact .inr ⟨before, between, heq, hdeeper⟩
      · rintro (⟨rfl, hdeeper⟩ | ⟨before, between, heq, hdeeper⟩)
        · exact ⟨[], rest, rfl, hdeeper⟩
        · exact ⟨first :: before, between, heq, hdeeper⟩
    -- the first one stays open as long as all that follows is deeper
    rw [hsplit, opened]
    split
    next hdeeper => rw [List.mem_cons, and_iff_left hdeeper]
    next hdeeper => rw [or_iff_right fun hfirst => hdeeper hfirst.2]

theorem mem_enclosers {earlier : List α} {h : α} {indent : Nat} :
    h ∈ enclosers indentOf indent earlier ↔
      ∃ before between, earlier = before ++ h :: between ∧ Encloses indentOf h between indent := by
  rw [enclosers, List.mem_filter, mem_opened, decide_eq_true_iff]
  constructor
  · rintro ⟨⟨before, between, heq, hdeeper⟩, hless⟩
    exact ⟨before, between, heq, hless, hdeeper⟩
  · rintro ⟨before, between, heq, hless, hdeeper⟩
    exact ⟨⟨before, between, heq, hdeeper⟩, hless⟩

/-- Behind the next line there is nothing yet, and the others stay open if they enclose it. -/
theorem opened_append (earlier : List α) (next : α) :
    opened indentOf (earlier ++ [next]) = enclosers indentOf (indentOf next) earlier ++ [next] := by
  induction earlier with
  | nil => rfl
  | cons h between ih =>
    have hdeeper : (∀ m ∈ between ++ [next], indentOf h < indentOf m) ↔
        (∀ m ∈ between, indentOf h < indentOf m) ∧ indentOf h < indentOf next := by
      rw [List.forall_mem_append, List.forall_mem_singleton]
    rw [List.cons_append, opened, ih]
    by_cases hbetween : ∀ m ∈ between, indentOf h < indentOf m
    · have hopened : opened indentOf (h :: between) = h :: opened indentOf between :=
        if_pos hbetween
      by_cases hnext : indentOf h < indentOf next
      · rw [if_pos (hdeeper.mpr ⟨hbetween, hnext⟩), enclosers, enclosers, hopened,
          List.filter_cons_of_pos (by simpa using hnext), List.cons_append]
      · rw [if_neg fun hall => hnext (hdeeper.mp hall).2, enclosers, enclosers, hopened,
          List.filter_cons_of_neg (by simpa using hnext)]
    · have hopened : opened indentOf (h :: between) = opened indentOf between := if_neg hbetween
      rw [if_neg fun hall => hbetween (hdeeper.mp hall).1, enclosers, enclosers, hopened]

/-- Open lines are each deeper than the one before. -/
theorem opened_pairwise (earlier : List α) :
    (opened indentOf earlier).Pairwise fun a b => indentOf a < indentOf b := by
  induction earlier with
  | nil => exact .nil
  | cons h between ih =>
    rw [opened]
    split
    next hdeeper =>
      refine .cons (fun m hm => ?_) ih
      obtain ⟨before, after, rfl, -⟩ := mem_opened.mp hm
      exact hdeeper m (by simp)
    next => exact ih

/-! ## Stacks -/

/-- Of entries that are each less indented than those before, popping takes those that are not less
indented than the next line. -/
theorem dropWhile_eq_filter {indent : β → Nat} {stack : List β}
    (h : stack.Pairwise fun a b => indent b < indent a) (next : Nat) :
    stack.dropWhile (fun b => decide (next ≤ indent b)) =
      stack.filter fun b => decide (indent b < next) := by
  induction stack with
  | nil => rfl
  | cons top below ih =>
    obtain ⟨htop, hbelow⟩ := List.pairwise_cons.mp h
    by_cases hpop : next ≤ indent top
    · rw [List.dropWhile_cons_of_pos (by simpa using hpop),
        List.filter_cons_of_neg (by simpa using hpop), ih hbelow]
    · have hall : ∀ b ∈ top :: below, decide (indent b < next) = true := by
        refine List.forall_mem_cons.mpr ⟨decide_eq_true (Nat.not_le.mp hpop), fun b hb => ?_⟩
        exact decide_eq_true (Nat.lt_trans (htop b hb) (Nat.not_le.mp hpop))
      rw [List.dropWhile_cons_of_neg (by simpa using hpop), List.filter_eq_self.mpr hall]

variable (indentOf) in
/-- What the open lines have put on a stack, innermost first. -/
def stackOf (open? : α → Option β) (earlier : List α) : List β :=
  ((opened indentOf earlier).filterMap open?).reverse

/-- Popping a stack by the indentation of a line leaves what encloses the line. -/
theorem dropWhile_stackOf {open? : α → Option β} {indent : β → Nat}
    (hindent : ∀ a b, open? a = some b → indent b = indentOf a) (next : Nat) (earlier : List α) :
    (stackOf indentOf open? earlier).dropWhile (fun b => decide (next ≤ indent b)) =
      ((enclosers indentOf next earlier).filterMap open?).reverse := by
  have hpairwise : (stackOf indentOf open? earlier).Pairwise fun a b => indent b < indent a := by
    refine List.pairwise_reverse.mpr (List.pairwise_filterMap.mpr ?_)
    refine (opened_pairwise earlier).imp fun hlt b hb b' hb' => ?_
    rw [hindent _ b hb, hindent _ b' hb']
    exact hlt
  rw [dropWhile_eq_filter hpairwise, stackOf, List.filter_reverse, enclosers,
    List.filter_filterMap, List.filterMap_filter]
  congr 2
  funext a
  cases ha : open? a with
  | none => simp
  | some b => simp [hindent a b ha, Option.filter]

theorem stackOf_append {open? : α → Option β} (earlier : List α) (next : α) :
    stackOf indentOf open? (earlier ++ [next]) = (open? next).toList ++
      ((enclosers indentOf (indentOf next) earlier).filterMap open?).reverse := by
  rw [stackOf, opened_append, List.filterMap_append, List.reverse_append]
  cases h : open? next <;> simp [h]

/-- Something on the stack of a line is as wanted when one of the lines that enclose it has put it
there. -/
theorem any_stack_iff {open? : α → Option β} {p : β → Bool} {Q : α → Prop} {earlier : List α}
    {indent : Nat} (hQ : ∀ a, (∃ b, open? a = some b ∧ p b = true) ↔ Q a) :
    ((enclosers indentOf indent earlier).filterMap open?).reverse.any p = true ↔
      ∃ before h between, earlier = before ++ h :: between ∧ Q h ∧
        Encloses indentOf h between indent := by
  simp only [List.any_eq_true, List.mem_reverse, List.mem_filterMap, ← hQ]
  constructor
  · rintro ⟨b, ⟨h, hh, hb⟩, hp⟩
    obtain ⟨before, between, heq, hencloses⟩ := mem_enclosers.mp hh
    exact ⟨before, h, between, heq, ⟨b, hb, hp⟩, hencloses⟩
  · rintro ⟨before, h, between, heq, ⟨b, hb, hp⟩, hencloses⟩
    exact ⟨b, ⟨h, mem_enclosers.mpr ⟨before, between, heq, hencloses⟩, hb⟩, hp⟩

end Enclosing

/-! ## Classes and functions -/

/-- The block that a line starts. -/
def Line.block? (line : Line) : Option Block :=
  if isClassHeader line.text then some (.classBody line.indent)
  else (defParams? line.text).map (.defBody line.indent)

theorem Line.block?_indent (line : Line) (block : Block) (h : line.block? = some block) :
    block.indent = line.indent := by
  unfold block? at h
  split at h
  · obtain rfl := Option.some.inj h
    rfl
  · obtain ⟨params, -, rfl⟩ := Option.map_eq_some_iff.mp h
    rfl

/-- A class header is no function header. -/
theorem defParams?_eq_none {text : List Char} (h : isClassHeader text = true) :
    defParams? text = none := by
  obtain ⟨rest, rfl⟩ := List.isPrefixOf_iff_prefix.mp h
  rfl

/-- The parameters of the block that a line starts are those of its function header. -/
theorem Line.block?_params (line : Line) :
    line.block?.bind Block.params? = defParams? line.text := by
  unfold block?
  split
  next h => rw [defParams?_eq_none h]; rfl
  next => cases defParams? line.text <;> rfl

theorem Line.block?_isClass (line : Line) :
    (∃ block, line.block? = some block ∧ block.isClass = true) ↔
      isClassHeader line.text = true := by
  unfold block?
  split
  next h => exact ⟨fun _ => h, fun _ => ⟨_, rfl, rfl⟩⟩
  next h =>
    refine ⟨?_, fun hclass => absurd hclass h⟩
    rintro ⟨block, hblock, hclass⟩
    obtain ⟨params, -, rfl⟩ := Option.map_eq_some_iff.mp hblock
    cases hclass

theorem Line.block?_isDef (line : Line) :
    (∃ block, line.block? = some block ∧ block.params?.isSome = true) ↔
      (defParams? line.text).isSome = true := by
  rw [← block?_params]
  cases line.block? <;> simp

theorem blocksBelow_eq (blocks : List Block) (line : Line) :
    blocksBelow blocks line.indent line.text = line.block?.toList ++ blocks := by
  unfold blocksBelow Line.block?
  split
  next => rfl
  next => cases defParams? line.text <;> rfl

/-- A line says of the classes and functions around it what the headers say that enclose it. -/
structure Reports (earlier : List Line) (line : Line) : Prop where
  inClass : line.inClass = true ↔ ∃ before h between, earlier = before ++ h :: between ∧
    isClassHeader h.text = true ∧ Encloses Line.indent h between line.indent
  inDef : line.inDef = true ↔ ∃ before h between, earlier = before ++ h :: between ∧
    (defParams? h.text).isSome = true ∧ Encloses Line.indent h between line.indent
  params : line.params = ((enclosers Line.indent line.indent earlier).filterMap fun h =>
    defParams? h.text).getLast?.getD []

/-- Below the blocks that enclosing headers have started, a line reports those headers. -/
theorem lineIn_reports (earlier : List Line) (number indent : Nat) (text : List Char) :
    Reports earlier (lineIn ((enclosers Line.indent indent earlier).filterMap Line.block?).reverse
      number indent text) := by
  constructor
  · exact any_stack_iff Line.block?_isClass
  · exact any_stack_iff Line.block?_isDef
  · show (List.findSome? Block.params? _).getD [] = _
    rw [← List.head?_filterMap, List.filterMap_reverse, List.head?_reverse,
      List.filterMap_filterMap]
    simp only [Line.block?_params]
    rfl

/-- After the earlier lines, the scan has the blocks that are open, and goes on to report. -/
theorem scanFrom_reports (earlier : List Line) {number : Nat} {raws : List (List Char)}
    {before later : List Line} {line : Line}
    (h : scanFrom (stackOf Line.indent Line.block? earlier) number raws = before ++ line :: later) :
    Reports (earlier ++ before) line := by
  induction raws generalizing number earlier before with
  | nil => exact absurd h (by simp [scanFrom])
  | cons raw rest ih =>
    rw [scanFrom] at h
    dsimp only at h
    split at h
    next => exact ih earlier h
    next =>
      rw [enclosing, dropWhile_stackOf Line.block?_indent] at h
      cases before with
      | nil =>
        obtain ⟨rfl, -⟩ := List.cons.inj h
        rw [List.append_nil]
        exact lineIn_reports ..
      | cons next before =>
        obtain ⟨hnext, h⟩ := List.cons.inj h
        have hindent : indentation raw = next.indent := congrArg Line.indent hnext
        have htext : Text.trim (stripComment raw) = next.text := congrArg Line.text hnext
        -- the line joins the earlier ones, and may open a block for the next
        rw [hindent, htext, blocksBelow_eq, ← stackOf_append] at h
        rw [List.append_cons]
        exact ih _ h

/-! ## Loops -/

/-- The loop that a line starts, if it is a loop header and the constants tell the values. -/
def loopOf? (entry : Line × Bindings) : Option Loop := do
  let (name, iterable) ← loopHeader? entry.1.text
  let values ← iterableValues? entry.2.constants iterable
  return ⟨name, values, entry.1.indent⟩

theorem loopOf?_indent (entry : Line × Bindings) (loop : Loop) (h : loopOf? entry = some loop) :
    loop.indent = entry.1.indent := by
  obtain ⟨⟨name, iterable⟩, -, h⟩ := Option.bind_eq_some_iff.mp h
  obtain ⟨values, -, h⟩ := Option.bind_eq_some_iff.mp h
  obtain rfl := Option.some.inj h
  rfl

/-- A line pops the loops that it ends, and pushes the one that it starts. -/
theorem Bindings.observe_loops (bindings : Bindings) (line : Line) :
    (bindings.observe line).loops = (loopOf? (line, bindings.observe line)).toList ++
      bindings.loops.dropWhile fun loop => decide (line.indent ≤ loop.indent) := by
  unfold loopOf? observe
  cases hheader : loopHeader? line.text with
  | some header =>
    -- a loop header leaves the constants as they are
    obtain ⟨name, iterable⟩ := header
    cases hvalues : iterableValues? bindings.constants iterable <;> simp [hvalues]
  | none =>
    dsimp only
    split
    next => rfl
    next =>
      cases assignment? line.text with
      | none => rfl
      | some assigned =>
        obtain ⟨name, value⟩ := assigned
        dsimp only
        cases Literal.parse? value <;> rfl

/-- After the earlier lines, the bindings have the loops that are open, and each line takes them on
to those around it. -/
theorem boundLinesFrom_loops (earlier : List (Line × Bindings)) {bindings here : Bindings}
    {line : Line} {lines : List Line} {before later : List (Line × Bindings)}
    (hloops : bindings.loops = stackOf (fun entry => entry.1.indent) loopOf? earlier)
    (h : boundLinesFrom bindings lines = before ++ (line, here) :: later) :
    here.loops = stackOf (fun entry => entry.1.indent) loopOf?
      (earlier ++ before ++ [(line, here)]) := by
  induction lines generalizing bindings earlier before with
  | nil => exact absurd h (by simp [boundLinesFrom])
  | cons first rest ih =>
    have hfirst : (bindings.observe first).loops =
        stackOf (fun entry => entry.1.indent) loopOf?
          (earlier ++ [(first, bindings.observe first)]) := by
      rw [Bindings.observe_loops, hloops, dropWhile_stackOf loopOf?_indent, stackOf_append]
    rw [boundLinesFrom] at h
    cases before with
    | nil =>
      obtain ⟨heq, -⟩ := List.cons.inj h
      obtain ⟨rfl, rfl⟩ := Prod.mk.inj heq
      rwa [List.append_nil]
    | cons next before =>
      obtain ⟨rfl, hrest⟩ := List.cons.inj h
      rw [List.append_cons earlier]
      exact ih _ hfirst hrest

/-- A line that the scan lists lies in a class, or in a function, when a header of one encloses it,
and has the parameters of the innermost such function.  The loops on it, the innermost last, are
those of the headers over known values that enclose it, its own included. -/
theorem scan_reports_scopes (code : String) :
    (∀ earlier line later, scan code = earlier ++ line :: later → Reports earlier line) ∧
    (boundLines code).map Prod.fst = scan code ∧
    ∀ earlier entry later, boundLines code = earlier ++ entry :: later →
      entry.2.loops.reverse =
        (enclosers (fun entry => entry.1.indent) entry.1.indent earlier ++ [entry]).filterMap
          loopOf? := by
  refine ⟨fun earlier line later h => ?_, map_fst_boundLinesFrom _ _, ?_⟩
  · exact scanFrom_reports [] h
  · intro earlier entry later h
    have hloops := boundLinesFrom_loops [] rfl h
    rw [hloops, List.nil_append, stackOf, List.reverse_reverse, opened_append]

theorem scan_reports_scopes_nested :
    (∃ outer inner line, scan "class A:\n def f(x):\n  x.push(1)" = [outer, inner] ++ line :: [] ∧
      line.inClass = true ∧ line.params = [['x']] ∧ Reports [outer, inner] line) ∧
    ∃ outer inner entry,
      boundLines "for i in [1, 2]:\n for j in []:\n  f(i)" = [outer, inner] ++ entry :: [] ∧
      entry.2.loops.map Loop.name = [['j'], ['i']] ∧
      entry.2.loops.reverse = (enclosers (fun entry => entry.1.indent) entry.1.indent
        [outer, inner] ++ [entry]).filterMap loopOf? := by
  have hscan := scan_reports_scopes "class A:\n def f(x):\n  x.push(1)"
  have hbound := scan_reports_scopes "for i in [1, 2]:\n for j in []:\n  f(i)"
  exact ⟨⟨_, _, _, rfl, by decide +kernel, by decide +kernel, hscan.1 _ _ _ rfl⟩,
    _, _, _, rfl, by decide +kernel, hbound.2.2 _ _ _ rfl⟩

end Storyboard.Source
