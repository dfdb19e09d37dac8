import Storyboard.Proofs.Simulation.Cause
import Storyboard.Proofs.Source.Subscript

/-!
# Lines that work on parameters

The body of a function says what is done to its parameters, whatever they will be, and not what is
done to a variable that happens to have the same name.  A stack takes nothing from a line that only
works on parameters.  A queue takes nothing from its method calls and subscripts either; but it does
not ask for the parameters where a loop runs over a name that has been enqueued to, nor where
`pop(0)` has no receiver (`parameters_tell_only_loops`).
-/

namespace Storyboard

open Source (Line Bindings Call)

/-! ## The steps of a line -/

section Lines

variable {σ α : Type} {perform : σ → Cue α → σ × List Step}

/-- Every cue is performed in some state, and its steps are among those of the replay. -/
theorem exists_state_of_mem_cues {cues : List (Cue α)} {cue : Cue α} (h : cue ∈ cues) (state : σ) :
    ∃ before, ∀ step ∈ (perform before cue).2, step ∈ (replay perform state cues).2 := by
  induction cues generalizing state with
  | nil => exact absurd h List.not_mem_nil
  | cons first rest ih =>
    rcases List.mem_cons.mp h with rfl | hrest
    · exact ⟨state, fun step hstep => List.mem_append_left _ hstep⟩
    · obtain ⟨before, hbefore⟩ := ih hrest (perform state first).1
      exact ⟨before, fun step hstep => List.mem_append_right _ (hbefore step hstep)⟩

/-- Where every cue tells something, and tells it on its own line, a line is told of exactly when a
cue stands on it. -/
theorem exists_step_on_line_iff
    (htold : ∀ state cue, ∀ step ∈ (perform state cue).2, step.IsToldOn (some cue.line))
    (htells : ∀ state cue, (perform state cue).2 ≠ []) (state : σ) (cues : List (Cue α))
    (number : Nat) :
    (∃ step ∈ (replay perform state cues).2, step.line = some number) ↔
      ∃ cue ∈ cues, cue.line = number := by
  constructor
  · intro h
    obtain ⟨step, hstep, hnumber⟩ := h
    obtain ⟨cue, hcue, before, hperformed⟩ := exists_cue_of_mem_replay hstep
    rw [(htold before cue step hperformed).carries] at hnumber
    exact ⟨cue, hcue, Option.some.inj hnumber⟩
  · intro h
    obtain ⟨cue, hcue, hnumber⟩ := h
    have hstate : ∃ before, ∀ step ∈ (perform before cue).2,
        step ∈ (replay perform state cues).2 := exists_state_of_mem_cues hcue state
    obtain ⟨before, hbefore⟩ := hstate
    obtain ⟨step, hstep⟩ := List.exists_mem_of_ne_nil _ (htells before cue)
    exact ⟨step, hbefore step hstep, hnumber ▸ (htold before cue step hstep).carries⟩

/-- A line has a cue of its own when it asks for something. -/
theorem exists_cue_on_line_iff (line : Line) {ops : List α} :
    (∃ cue ∈ cuesOn line ops, cue.line = line.number) ↔ ops ≠ [] := by
  constructor
  · intro h hops
    obtain ⟨cue, hcue, -⟩ := h
    rw [hops] at hcue
    exact List.not_mem_nil hcue
  · intro h
    obtain ⟨op, hop⟩ := List.exists_mem_of_ne_nil ops h
    exact ⟨⟨line.number, op⟩, List.mem_map_of_mem hop, rfl⟩

end Lines

namespace Source

variable {line : Line} {call : Call}

/-- No other line has the number of a line. -/
theorem not_isUseIn_of_split {code : String} {earlier later : List (Line × Bindings)}
    {bindings : Bindings} (h : boundLines code = earlier ++ (line, bindings) :: later) :
    ¬ IsUseIn earlier line.number ∧ ¬ IsUseIn later line.number := by
  have hnumbers : (boundLines code).Pairwise fun a b => a.1.number < b.1.number := by
    have hscan : ((boundLines code).map Prod.fst).Pairwise fun a b => a.number < b.number := by
      rw [boundLines, map_fst_boundLinesFrom]
      exact scanFrom_pairwise [] 1 (Text.lines code.toList)
    rw [List.pairwise_map] at hscan
    exact hscan
  rw [h, List.pairwise_append, List.pairwise_cons] at hnumbers
  obtain ⟨-, ⟨hlater, -⟩, hearlier⟩ := hnumbers
  constructor
  · intro huse
    obtain ⟨entry, hentry, -, hnumber⟩ := huse
    have hless := hearlier entry hentry _ List.mem_cons_self
    rw [hnumber] at hless
    exact Nat.lt_irrefl _ hless
  · intro huse
    obtain ⟨entry, hentry, -, hnumber⟩ := huse
    have hless := hlater entry hentry
    rw [hnumber] at hless
    exact Nat.lt_irrefl _ hless

/-! ## Working on parameters -/

/-- What the line calls, subscripts by its first or last place or runs over is a parameter: each call
has one for its receiver, or else for its first argument. -/
structure WorksOnParams (line : Line) : Prop where
  calls : ∀ call ∈ calls line.text, line.isParam call.target = true
  subscripts : ∀ subscript ∈ ["0", "-1"], ∀ name, IsSubscripted subscript line.text name →
    line.isParam (some name) = true
  loop : ∀ subject ∈ Queue.Linear.loopSubject? line.text, line.isParam (some subject) = true

theorem worksOnParams_iff : WorksOnParams line ↔
    (∀ call ∈ Source.calls line.text, line.isParam call.target = true) ∧
      (∀ subscript ∈ ["0", "-1"], ∀ name ∈ subscriptedNames subscript line.text,
        line.isParam (some name) = true) ∧
      ∀ subject ∈ Queue.Linear.loopSubject? line.text, line.isParam (some subject) = true := by
  constructor
  · intro h
    refine ⟨h.calls, fun subscript hsubscript name hname => ?_, h.loop⟩
    exact h.subscripts subscript hsubscript name (mem_subscriptedNames_iff.mp hname)
  · intro h
    obtain ⟨hcalls, hsubscripts, hloop⟩ := h
    refine ⟨hcalls, fun subscript hsubscript name hname => ?_, hloop⟩
    exact hsubscripts subscript hsubscript name (mem_subscriptedNames_iff.mpr hname)

instance : Decidable (WorksOnParams line) := decidable_of_iff' _ worksOnParams_iff

theorem Line.isDefinition_of_isParam {receiver : Option (List Char)}
    (h : line.isParam receiver = true) (operand : Option (List Char)) :
    line.isDefinition receiver operand = true := by
  simp [isDefinition, h]

/-- Without receiver and operand, a definition is a header or a line of a class body. -/
theorem Line.isDefinition_none : line.isDefinition none none = !line.isUse := by
  simp [isDefinition, isParam, isUse]

/-- The operand of an insertion into a parameter, or of a parameter, belongs to a definition. -/
theorem isDefinition_of_insertion? {receiver : Option (List Char)} {operand : List Char}
    (h : call.insertion? = some (receiver, operand)) (hparam : line.isParam call.target = true) :
    line.isDefinition receiver (some operand) = true := by
  obtain ⟨callee, name, args⟩ := call
  match callee, args with
  | some callee, [x] =>
    obtain ⟨rfl, -⟩ := Prod.mk.inj (Option.some.inj h)
    exact Line.isDefinition_of_isParam hparam _
  | none, [x] =>
    obtain ⟨-, rfl⟩ := Prod.mk.inj (Option.some.inj h)
    -- the value itself is the parameter here
    have hoperand : line.isParam (some x) = true := hparam
    simp [Line.isDefinition, hoperand]
  | none, [q, x] =>
    obtain ⟨rfl, -⟩ := Prod.mk.inj (Option.some.inj h)
    exact Line.isDefinition_of_isParam hparam _

/-- A call that takes nothing from a parameter belongs to a definition. -/
theorem isDefinition_of_nullary? {receiver : Option (List Char)}
    (h : call.nullary? = some receiver) (hparam : line.isParam call.target = true) :
    line.isDefinition receiver none = true := by
  obtain ⟨callee, name, args⟩ := call
  match callee, args with
  | some callee, [] =>
    obtain rfl := Option.some.inj h
    exact Line.isDefinition_of_isParam hparam none
  | none, [] => exact absurd hparam Bool.false_ne_true
  | none, [q] =>
    obtain rfl := Option.some.inj h
    exact Line.isDefinition_of_isParam hparam none

/-- Where every subscript of the kind has a parameter before it, so has the first. -/
theorem isParam_of_firstSubscripted? {subscript : String} {name : List Char}
    (hparams : WorksOnParams line) (hsubscript : subscript ∈ ["0", "-1"])
    (h : firstSubscripted? subscript line.text = some name) : line.isParam (some name) = true :=
  hparams.subscripts subscript hsubscript name (isSubscripted_of_firstSubscripted? h)

end Source

/-! ## Stacks -/

namespace Stack

variable {line : Line} {call : Call}

theorem opsOfCall?_of_isParam (h : line.isParam call.target = true) (bindings : Bindings) :
    opsOfCall? line bindings call = none := by
  unfold opsOfCall?
  split
  next =>
    split
    next receiver operand hinsertion =>
      rw [if_pos (Source.isDefinition_of_insertion? hinsertion h)]
    next => rfl
  next =>
    split
    next =>
      split
      next receiver hnullary => rw [if_pos (Source.isDefinition_of_nullary? hnullary h)]
      next => rfl
    next =>
      split
      next => rw [if_pos (Line.isDefinition_of_isParam h none)]
      next => rfl

/-- A stack takes nothing from a line that works on parameters. -/
theorem opsOfLine_of_worksOnParams (h : Source.WorksOnParams line) (bindings : Bindings) :
    opsOfLine line bindings = [] := by
  have hcalls : (Source.calls line.text).filterMap (opsOfCall? line bindings) = [] :=
    List.filterMap_eq_nil_iff.mpr fun call hcall => opsOfCall?_of_isParam (h.calls call hcall) _
  unfold opsOfLine
  rw [hcalls]
  dsimp only
  split
  next name hname =>
    have hparam := Source.isParam_of_firstSubscripted? h (by decide) hname
    rw [if_pos (Line.isDefinition_of_isParam hparam none)]
  next => rfl

theorem no_step_of_worksOnParams {code : String} {earlier later : List (Line × Bindings)}
    {bindings : Bindings} (hsplit : Source.boundLines code = earlier ++ (line, bindings) :: later)
    (h : Source.WorksOnParams line) :
    ∀ step ∈ (simulate code).steps, step.line ≠ some line.number := by
  obtain ⟨hearlier, hlater⟩ := Source.not_isUseIn_of_split hsplit
  intro step hstep hnumber
  obtain ⟨cue, hcue, before, htold⟩ := exists_cue_of_mem_replay hstep
  rw [(perform_told before cue step htold).carries] at hnumber
  obtain hnumber := Option.some.inj hnumber
  have hsilent : cuesOn line (opsOfLine line bindings) = [] := by
    rw [opsOfLine_of_worksOnParams h]
    rfl
  rw [script, hsplit, List.flatMap_append, List.flatMap_cons] at hcue
  dsimp only at hcue
  rw [hsilent, List.nil_append, List.mem_append] at hcue
  have huses := isUseIn_of_mem_flatMap fun line bindings (huse : line.isUse = false) =>
    opsOfLine_of_isUse bindings huse
  rcases hcue with hcue | hcue
  · exact hearlier (hnumber ▸ huses earlier cue hcue)
  · exact hlater (hnumber ▸ huses later cue hcue)

end Stack

/-! ## Linear queues -/

namespace Queue.Linear

variable {line : Line} {call : Call} {bindings : Bindings} {known : List (List Char)}

/-- The names that have been enqueued to behind some lines. -/
def knownBehind : List (List Char) → List (Line × Bindings) → List (List Char)
  | known, [] => known
  | known, (line, _) :: rest =>
    if isTraversal known line then knownBehind known rest
    else knownBehind (known ++ receiversOfLine line) rest

theorem scriptFrom_append (known : List (List Char)) (first second : List (Line × Bindings)) :
    scriptFrom known (first ++ second) =
      scriptFrom known first ++ scriptFrom (knownBehind known first) second := by
  induction first generalizing known with
  | nil => rfl
  | cons entry rest ih =>
    obtain ⟨line, bindings⟩ := entry
    rw [List.cons_append, scriptFrom, scriptFrom, knownBehind]
    dsimp only
    split
    next => rw [ih, List.cons_append]
    next => rw [ih, List.append_assoc]

/-- Every operation tells something. -/
theorem perform_ne_nil (items : List Literal) (cue : Cue Op) : (perform items cue).2 ≠ [] := by
  unfold perform
  cases cue.op with
  | enqueue | display | traverse => exact List.cons_ne_nil _ _
  | dequeue | peek => cases items <;> exact List.cons_ne_nil _ _

/-- The call `pop(0)` without a receiver. -/
def IsBarePop (call : Call) : Prop :=
  call.receiver = none ∧ call.name = "pop" ∧ call.args = [['0']]

theorem nullaryOps?_of_isParam (h : line.isParam call.target = true) (ops : List Op) :
    nullaryOps? line call ops = none := by
  unfold nullaryOps?
  split
  next receiver hnullary => rw [if_pos (Source.isDefinition_of_nullary? hnullary h)]
  next => rfl

theorem enqueue?_of_isParam (h : line.isParam call.target = true) : enqueue? line call = none := by
  unfold enqueue?
  split
  next =>
    split
    next receiver operand hinsertion =>
      rw [if_pos (Source.isDefinition_of_insertion? hinsertion h)]
    next => rfl
  next => rfl

/-- On a parameter, only `pop(0)` without a receiver asks for something. -/
theorem isBarePop_of_opsOfCall? {ops : List Op} (h : line.isParam call.target = true)
    (hops : opsOfCall? line bindings call = some ops) :
    IsBarePop call ∧ ops = List.replicate bindings.iterations .dequeue := by
  unfold opsOfCall? at hops
  simp only [enqueue?_of_isParam h, nullaryOps?_of_isParam h, Option.map_none, ite_self,
    Option.ite_none_left_eq_some, Option.ite_none_right_eq_some, Option.some.injEq] at hops
  obtain ⟨-, -, hpop, huse, rfl⟩ := hops
  rw [Bool.and_eq_true, beq_iff_eq, beq_iff_eq] at hpop
  refine ⟨⟨?_, hpop⟩, rfl⟩
  cases hreceiver : call.receiver with
  | none => rfl
  | some receiver =>
    have hparam : line.isParam (some receiver) = true := by
      rw [Call.target, hreceiver] at h
      exact h
    rw [hreceiver, Line.isDefinition_of_isParam hparam none] at huse
    exact absurd rfl huse

/-- A bare `pop(0)` asks for its removals wherever it is used. -/
theorem opsOfCall?_of_isBarePop (huse : line.isUse = true) (h : IsBarePop call) :
    opsOfCall? line bindings call = some (List.replicate bindings.iterations .dequeue) := by
  obtain ⟨hreceiver, hname, hargs⟩ := h
  have hother : ∀ names : List String, "pop" ∉ names → call.isOneOf names = false := by
    intro names hnames
    rw [Call.isOneOf, hname, List.contains_eq_mem, decide_eq_false hnames]
  unfold opsOfCall?
  rw [hother _ (by decide), hother _ (by decide), hname, hargs, hreceiver, Line.isDefinition_none,
    huse]
  rfl

/-- A queue does not look at the front of a parameter. -/
theorem looksAtFront_of_worksOnParams (h : Source.WorksOnParams line) :
    looksAtFront known line = false := by
  unfold looksAtFront
  split
  next name hname =>
    have hparam : line.isParam (some (Source.baseName name)) = true := by
      have hname := Source.isParam_of_firstSubscripted? h (by decide) hname
      rw [Line.isParam, Source.baseName] at hname ⊢
      rwa [Source.baseName, List.takeWhile_idem]
    dsimp only
    rw [Line.isDefinition_of_isParam hparam none, Bool.not_true, Bool.and_false]
  next => rfl

/-- From a line that works on parameters a queue takes only the removals of a bare `pop(0)`. -/
theorem opsOfLine_ne_nil_iff (h : Source.WorksOnParams line) (huse : line.isUse = true) :
    opsOfLine known line bindings ≠ [] ↔
      (∃ call ∈ Source.calls line.text, IsBarePop call) ∧ bindings.iterations ≠ 0 := by
  unfold opsOfLine
  rw [looksAtFront_of_worksOnParams h]
  constructor
  · intro hops
    cases hfound : (Source.calls line.text).filterMap (opsOfCall? line bindings) with
    | nil =>
      rw [hfound] at hops
      exact absurd rfl hops
    | cons first rest =>
      rw [hfound] at hops
      dsimp only at hops
      -- some call asks for an operation, and on parameters only a bare removal does
      obtain ⟨op, hop⟩ := List.exists_mem_of_ne_nil _ hops
      obtain ⟨ops, hmem, hop⟩ := List.mem_flatten.mp hop
      rw [← hfound] at hmem
      obtain ⟨call, hcall, hops⟩ := List.mem_filterMap.mp hmem
      obtain ⟨hbare, rfl⟩ := isBarePop_of_opsOfCall? (h.calls call hcall) hops
      exact ⟨⟨call, hcall, hbare⟩, (List.mem_replicate.mp hop).1⟩
  · intro hbare
    obtain ⟨⟨call, hcall, hbare⟩, hiterations⟩ := hbare
    have hmem : List.replicate bindings.iterations Op.dequeue ∈
        (Source.calls line.text).filterMap (opsOfCall? line bindings) :=
      List.mem_filterMap.mpr ⟨call, hcall, opsOfCall?_of_isBarePop huse hbare⟩
    have hop : Op.dequeue ∈ ((Source.calls line.text).filterMap (opsOfCall? line bindings)).flatten :=
      List.mem_flatten.mpr ⟨_, hmem, List.mem_replicate.mpr ⟨hiterations, rfl⟩⟩
    split
    next hnil =>
      rw [hnil] at hmem
      exact absurd hmem List.not_mem_nil
    next => exact List.ne_nil_of_mem hop

/-- The line is a loop over a known queue, as far as its own parameters are not asked for. -/
theorem isTraversal_iff : isTraversal known line = true ↔
    line.isUse = true ∧
      ∃ subject, loopSubject? line.text = some subject ∧ Source.baseName subject ∈ known := by
  unfold isTraversal
  cases hsubject : loopSubject? line.text with
  | none => simp
  | some subject => simp [Line.isDefinition_none, and_comm]

/-- A queue is told of on a line exactly when the line traverses a queue or asks for something
itself. -/
theorem exists_step_on_split_iff {code : String} {earlier later : List (Line × Bindings)}
    (hsplit : Source.boundLines code = earlier ++ (line, bindings) :: later) :
    (∃ step ∈ (simulate code).steps, step.line = some line.number) ↔
      isTraversal (knownBehind [] earlier) line = true ∨
        opsOfLine (knownBehind [] earlier ++ receiversOfLine line) line bindings ≠ [] := by
  obtain ⟨hearlier, hlater⟩ := Source.not_isUseIn_of_split hsplit
  -- all other lines have other numbers
  have hothers : ∀ known lines, ¬ Source.IsUseIn lines line.number →
      ∀ cue ∈ scriptFrom known lines, cue.line ≠ line.number := by
    intro known lines hnone cue hcue hnumber
    exact hnone (hnumber ▸ isUseIn_of_mem_scriptFrom known lines cue hcue)
  rw [simulate, exists_step_on_line_iff perform_told perform_ne_nil, script, hsplit,
    scriptFrom_append, ← exists_cue_on_line_iff line, scriptFrom]
  dsimp only
  constructor
  · intro h
    obtain ⟨cue, hcue, hnumber⟩ := h
    rcases List.mem_append.mp hcue with hcue | hcue
    · exact absurd hnumber (hothers _ _ hearlier cue hcue)
    · split at hcue
      next htraversal => exact Or.inl htraversal
      next =>
        rcases List.mem_append.mp hcue with hcue | hcue
        · exact Or.inr ⟨cue, hcue, hnumber⟩
        · exact absurd hnumber (hothers _ _ hlater cue hcue)
  · intro h
    split
    next =>
      exact ⟨_, List.mem_append_right _ List.mem_cons_self, rfl⟩
    next htraversal =>
      obtain ⟨cue, hcue, hnumber⟩ := h.resolve_left htraversal
      exact ⟨cue, List.mem_append_right _ (List.mem_append_left _ hcue), hnumber⟩

end Queue.Linear

/-! ## What a line that works on parameters tells -/

open Queue.Linear in
/-- A line that works only on parameters tells nothing of a stack, and of a queue only where it runs
over a name that has been enqueued to before, or calls `pop(0)` without a receiver. -/
theorem parameters_tell_only_loops (code : String) (earlier later : List (Line × Bindings))
    (line : Line) (bindings : Bindings)
    (hsplit : Source.boundLines code = earlier ++ (line, bindings) :: later)
    (hparams : Source.WorksOnParams line) :
    (∀ step ∈ (Stack.simulate code).steps, step.line ≠ some line.number) ∧
      ((∃ step ∈ (Queue.Linear.simulate code).steps, step.line = some line.number) ↔
        line.isUse = true ∧
          ((∃ subject, loopSubject? line.text = some subject ∧
              Source.baseName subject ∈ knownBehind [] earlier) ∨
            ((∃ call ∈ Source.calls line.text, IsBarePop call) ∧ bindings.iterations ≠ 0))) := by
  refine ⟨Stack.no_step_of_worksOnParams hsplit hparams, ?_⟩
  rw [exists_step_on_split_iff hsplit, isTraversal_iff]
  cases huse : line.isUse with
  | true => rw [opsOfLine_ne_nil_iff hparams huse, eq_self, true_and, true_and]
  | false => simp [opsOfLine_of_isUse huse]

/-- A function that appends the front of its parameter to it, and a queue of that name. -/
def fillParameter : String := "q.append(2)\ndef fill(q):\n    q.append(q[0])\n"

/-- The third line of `fillParameter`. -/
def fillParameterBody : Line where
  number := 3
  indent := 4
  text := "q.append(q[0])".toList
  isHeader := false
  inClass := false
  inDef := true
  params := [['q']]

open Queue.Linear in
theorem parameters_tell_only_loops_fill :
    Source.WorksOnParams fillParameterBody ∧
      (∀ step ∈ (Stack.simulate fillParameter).steps, step.line ≠ some 3) ∧
      ∀ step ∈ (Queue.Linear.simulate fillParameter).steps, step.line ≠ some 3 := by
  have hparams : Source.WorksOnParams fillParameterBody := by decide +kernel
  have hsplit : Source.boundLines fillParameter =
      (Source.boundLines fillParameter).take 2 ++ [(fillParameterBody, ⟨[], []⟩)] := by rfl
  obtain ⟨hstack, hqueue⟩ :=
    parameters_tell_only_loops fillParameter _ _ fillParameterBody _ hsplit hparams
  refine ⟨hparams, hstack, fun step hstep hnumber => ?_⟩
  obtain ⟨-, hloop | hpop⟩ := hqueue.mp ⟨step, hstep, hnumber⟩
  · obtain ⟨subject, hsubject, -⟩ := hloop
    have hnone : loopSubject? fillParameterBody.text = none := by decide +kernel
    rw [hnone] at hsubject
    exact nomatch hsubject
  · obtain ⟨⟨call, hcall, hbare⟩, -⟩ := hpop
    have hreceivers : ∀ call ∈ Source.calls fillParameterBody.text, call.receiver ≠ none := by
      decide +kernel
    exact hreceivers call hcall hbare.1

/-- A function that runs over its parameter, and a queue of that name. -/
def runOverParameter : String :=
  "q.enqueue(1)\nq.enqueue(2)\ndef show(q):\n    for item in q:\n        pass\n"

/-- The loop in the function counts as a traversal of the queue outside. -/
theorem parameter_traversed :
    ∃ line ∈ Source.scan runOverParameter,
      line.inDef = true ∧ line.inClass = false ∧ Source.WorksOnParams line ∧
        ∃ step ∈ (Queue.Linear.simulate runOverParameter).steps, step.line = some line.number := by
  decide +kernel

end Storyboard
