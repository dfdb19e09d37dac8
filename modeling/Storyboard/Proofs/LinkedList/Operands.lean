import Storyboard.LinkedList.Simulation
import Storyboard.Proofs.Concept.Canonical
import Storyboard.Proofs.Source.CallStatement
import Mathlib.Data.List.Forall2

/-!
# Names and literals as operands

A name that has last been assigned a literal may be replaced by that literal.  What is inserted and
what is deleted is looked up among the names, so there nothing changes.  But the value that is
searched for, and the one before or after which or the position at which something is inserted, is
read as it is written.  So there a call asks for the same only if the name, taken as a text, is the
same value as the literal (`opsOfCall_eq_iff`).  Where that is so, or no such operand is replaced,
the whole story stays the same (`operands_replaced`); a statement that is a call may then be written
with the literals (`LineReplaced.of_callText`).
-/

namespace Storyboard.Text

/-- A character that does not stand in what is looked for parts a text. -/
theorem occursIn_append_cons {needle a : List Char} {c : Char} (h : c ∉ needle) (b : List Char) :
    occursIn needle (a ++ c :: b) = (occursIn needle a || occursIn needle b) := by
  rw [Bool.eq_iff_iff, Bool.or_eq_true, occursIn_eq_true_iff, occursIn_eq_true_iff,
    occursIn_eq_true_iff]
  constructor
  · intro hwhole
    obtain ⟨front, rest, hparts⟩ := hwhole
    rcases Source.parts_of_append_cons hparts.symm h with ⟨more, -, rfl⟩ | ⟨more, rfl⟩
    · exact Or.inr ⟨more, rest, rfl⟩
    · exact Or.inl ⟨front, more, rfl⟩
  · intro hpart
    rcases hpart with ⟨front, rest, rfl⟩ | ⟨front, rest, rfl⟩
    · exact ⟨front, rest ++ c :: b, by simp⟩
    · exact ⟨a ++ c :: front, rest, by simp⟩

end Storyboard.Text

namespace Storyboard.LinkedList

open Source (Line Bindings Call)

variable {x c : List Char} {line other : Line} {bindings : Bindings} {call called : Call}

/-! ## Replacing operands -/

/-- On a line the name stands for the literal that was assigned to it last: it is neither a loop
variable nor a parameter there, and the literal is no name itself. -/
structure StandsFor (x c : List Char) (line : Line) (bindings : Bindings) : Prop where
  constant : bindings.constant? x = Literal.parse? c
  assigned : (Literal.parse? c).isSome = true
  notLoopVar : bindings.loop? x = none
  notParam : line.isParam (some x) = false
  literal : bindings.loop? c = none ∧ bindings.constant? c = none ∧ line.isParam (some c) = false
  trimmed : Text.trim x = x ∧ Text.trim c = c

/-- An operand is replaced or stays. -/
def Replaces (x c operand replaced : List Char) : Prop :=
  replaced = operand ∨ (operand = x ∧ replaced = c)

/-- The same call with some operands replaced. -/
structure CallReplaced (x c : List Char) (call called : Call) : Prop where
  receiver : called.receiver = call.receiver
  name : called.name = call.name
  args : List.Forall₂ (Replaces x c) call.args called.args

/-- The operand that a call reads as it is written: what it searches for, or where it inserts. -/
def literalOperand? (call : Call) : Option (List Char) :=
  if (endOf? call).isSome then none
  else if (anchorOf? call).isSome then (lastTwo? call.args).map Prod.fst
  else if call.isOneOf searchNames then call.args.getLast?
  else none

/-- What two calls read as it is written is the same. -/
def ReadAlike (call called : Call) : Prop :=
  (literalOperand? called).map Literal.lenient = (literalOperand? call).map Literal.lenient

/-- The literal has the values of the name. -/
theorem StandsFor.expand_eq (h : StandsFor x c line bindings) :
    bindings.expand c = bindings.expand x := by
  obtain ⟨value, hvalue⟩ := Option.isSome_iff_exists.mp h.assigned
  have hname : bindings.resolve x = [value] := by
    unfold Bindings.resolve
    dsimp only
    rw [h.trimmed.1, h.notLoopVar, h.constant, hvalue]
  have hliteral : bindings.resolve c = [value] := by
    unfold Bindings.resolve
    dsimp only
    rw [h.trimmed.2, h.literal.1, h.literal.2.1, Literal.lenient, h.trimmed.2, hvalue]
  have hloops : bindings.isLoopVar x = false ∧ bindings.isLoopVar c = false := by
    unfold Bindings.isLoopVar
    rw [h.trimmed.1, h.trimmed.2, h.notLoopVar, h.literal.1]
    exact ⟨rfl, rfl⟩
  unfold Bindings.expand
  dsimp only
  rw [hname, hliteral, hloops.1, hloops.2]

theorem StandsFor.expand_replaced (h : StandsFor x c line bindings) {operand replaced : List Char}
    (hreplaced : Replaces x c operand replaced) :
    bindings.expand replaced = bindings.expand operand := by
  rcases hreplaced with rfl | ⟨rfl, rfl⟩
  · rfl
  · exact h.expand_eq

theorem StandsFor.isParam_replaced (h : StandsFor x c line bindings) {operand replaced : List Char}
    (hreplaced : Replaces x c operand replaced) :
    line.isParam (some replaced) = line.isParam (some operand) := by
  rcases hreplaced with rfl | ⟨rfl, rfl⟩
  · rfl
  · rw [h.notParam, h.literal.2.2]

section Arguments

variable {args replaced : List (List Char)}

/-- The last arguments are both missing, or one replaces the other. -/
theorem getLast?_replaced (h : List.Forall₂ (Replaces x c) args replaced) :
    Option.Rel (Replaces x c) args.getLast? replaced.getLast? := by
  have hback := List.forall₂_reverse_iff.mpr h
  rw [← List.head?_reverse, ← List.head?_reverse]
  generalize args.reverse = back at hback ⊢
  generalize replaced.reverse = replacedBack at hback ⊢
  cases hback with
  | nil => exact .none
  | cons hlast _ => exact .some hlast

/-- So are the last two. -/
theorem lastTwo?_replaced (h : List.Forall₂ (Replaces x c) args replaced) :
    Option.Rel (fun a b => Replaces x c a.1 b.1 ∧ Replaces x c a.2 b.2) (lastTwo? args)
      (lastTwo? replaced) := by
  have hback := List.forall₂_reverse_iff.mpr h
  unfold lastTwo?
  generalize args.reverse = back at hback ⊢
  generalize replaced.reverse = replacedBack at hback ⊢
  cases hback with
  | nil => exact .none
  | cons hlast hrest =>
    cases hrest with
    | nil => exact .none
    | cons hbefore _ => exact .some ⟨hbefore, hlast⟩

end Arguments

/-! ## What a call asks for -/

theorem CallReplaced.isOneOf (h : CallReplaced x c call called) (names : List String) :
    called.isOneOf names = call.isOneOf names := by
  rw [Call.isOneOf, Call.isOneOf, h.name]

theorem CallReplaced.isPositional (h : CallReplaced x c call called) :
    isPositional called = isPositional call := by
  unfold LinkedList.isPositional
  rw [h.name, h.receiver, h.args.length_eq]

theorem CallReplaced.endOf? (h : CallReplaced x c call called) : endOf? called = endOf? call := by
  unfold LinkedList.endOf?
  simp only [h.isPositional, h.isOneOf]

theorem CallReplaced.anchorOf? (h : CallReplaced x c call called) :
    anchorOf? called = anchorOf? call := by
  unfold LinkedList.anchorOf?
  simp only [h.isPositional, h.isOneOf]

/-- Neither the name nor the literal is a parameter, so a call belongs to a definition or not
whichever of them it has. -/
theorem CallReplaced.isDefinition (h : CallReplaced x c call called)
    (hstands : StandsFor x c line bindings) :
    line.isDefinition called.subject called.args.getLast? =
      line.isDefinition call.subject call.args.getLast? := by
  have hsubject : line.isParam called.subject = line.isParam call.subject := by
    obtain ⟨receiver, name, args⟩ := call
    obtain ⟨calledReceiver, calledName, calledArgs⟩ := called
    obtain ⟨rfl, -, hargs⟩ := h
    -- without a receiver the subject is the first operand, which may be replaced
    cases calledReceiver with
    | some receiver => rfl
    | none =>
      cases hargs with
      | nil => rfl
      | cons hfirst hrest =>
        cases hrest with
        | nil => rfl
        | cons _ _ => exact hstands.isParam_replaced hfirst
  have hlast : line.isParam called.args.getLast? = line.isParam call.args.getLast? := by
    have hrel := getLast?_replaced h.args
    generalize call.args.getLast? = operand at hrel ⊢
    generalize called.args.getLast? = replaced at hrel ⊢
    cases hrel with
    | none => rfl
    | some hreplaced => exact hstands.isParam_replaced hreplaced
  unfold Line.isDefinition
  rw [hsubject, hlast]

/-- What is inserted or deleted is the same. -/
theorem CallReplaced.values (h : CallReplaced x c call called)
    (hstands : StandsFor x c line bindings) :
    called.args.getLast?.elim [] bindings.expand = call.args.getLast?.elim [] bindings.expand := by
  have hrel := getLast?_replaced h.args
  generalize call.args.getLast? = operand at hrel ⊢
  generalize called.args.getLast? = replaced at hrel ⊢
  cases hrel with
  | none => rfl
  | some hreplaced => exact hstands.expand_replaced hreplaced

/-- Names of searches are names of nothing else. -/
theorem not_mem_of_mem_searchNames {name : String} (h : name ∈ searchNames) :
    name ∉ deleteNames ∧ name ∉ deleteFrontNames ∧ name ∉ deleteBackNames ∧
      name ∉ displayNames ∧ name ∉ displayBackwardNames ∧ name ∉ traverseNames := by
  revert name
  decide

/-- Anchors of one kind are the same only for the same literal. -/
theorem anchorOf?_injective {anchor : Literal → Anchor} (h : anchorOf? call = some anchor)
    {a b : Literal} (hab : anchor a = anchor b) : a = b := by
  unfold LinkedList.anchorOf? at h
  split at h
  · obtain rfl := Option.some.inj h
    exact Anchor.position.inj hab
  · split at h
    · obtain rfl := Option.some.inj h
      exact Anchor.after.inj hab
    · split at h
      · obtain rfl := Option.some.inj h
        exact Anchor.before.inj hab
      · exact nomatch h

/-- Of two insertions by anchors of one kind, the literals of the anchors are the same. -/
theorem insertBy_eq_iff {anchor : Literal → Anchor} (h : anchorOf? call = some anchor)
    (values : List Literal) (a b : Literal) :
    values.map (Op.insertBy (anchor a)) = values.map (Op.insertBy (anchor b)) ↔
      values.map (Op.insertBy (anchor b)) = [] ∨ a = b := by
  cases values with
  | nil => exact iff_of_true rfl (Or.inl rfl)
  | cons value values =>
    constructor
    · intro hops
      have hop := (List.cons.inj hops).1
      exact Or.inr (anchorOf?_injective h (Op.insertBy.inj hop).1)
    · intro hab
      rcases hab with hnil | rfl
      · exact absurd hnil (List.cons_ne_nil _ _)
      · rfl

/-- Away from searches, operations without operand look at the arguments only for their number. -/
theorem CallReplaced.opsWithoutOperand (h : CallReplaced x c call called)
    (hsearch : call.isOneOf searchNames = false) :
    opsWithoutOperand bindings called = opsWithoutOperand bindings call := by
  unfold LinkedList.opsWithoutOperand
  simp only [h.isOneOf, hsearch, h.args.length_eq, Bool.false_eq_true, if_false]

theorem opsWithoutOperand_search (bindings : Bindings) (h : call.isOneOf searchNames = true) :
    call.isOneOf deleteNames = false ∧ opsWithoutOperand bindings call =
      (call.args.getLast?.map fun operand => Op.search (Literal.lenient operand)).toList := by
  have hother : ∀ names, call.name ∉ names → call.isOneOf names = false := by
    intro names hnames
    rw [Call.isOneOf, List.contains_eq_mem, decide_eq_false hnames]
  rw [Call.isOneOf, List.contains_iff_mem] at h
  obtain ⟨hdelete, hfront, hback, hdisplay, hbackward, htraverse⟩ := not_mem_of_mem_searchNames h
  refine ⟨hother _ hdelete, ?_⟩
  unfold LinkedList.opsWithoutOperand
  rw [hother _ hfront, hother _ hback, hother _ hdisplay, hother _ hbackward, hother _ htraverse,
    Call.isOneOf, List.contains_iff_mem.mpr h]
  rfl

/-- A call with replaced operands asks for the same exactly when it asks for nothing, or reads the
same where it reads an operand as it is written. -/
theorem opsOfCall_eq_iff (h : CallReplaced x c call called) (hstands : StandsFor x c line bindings) :
    opsOfCall line bindings called = opsOfCall line bindings call ↔
      opsOfCall line bindings call = [] ∨ ReadAlike call called := by
  unfold opsOfCall ReadAlike literalOperand?
  rw [h.isDefinition hstands, h.endOf?, h.anchorOf?, h.isOneOf, h.isOneOf, h.values hstands]
  split
  next => exact iff_of_true rfl (Or.inl rfl)
  next =>
    cases hend : LinkedList.endOf? call with
    | some place => exact iff_of_true rfl (Or.inr rfl)
    | none =>
      cases hanchor : LinkedList.anchorOf? call with
      | some anchor =>
        have hrel := lastTwo?_replaced h.args
        generalize lastTwo? call.args = operands at hrel ⊢
        generalize lastTwo? called.args = replaced at hrel ⊢
        cases hrel with
        | none => exact iff_of_true rfl (Or.inl rfl)
        | some hpair =>
          dsimp only
          rw [hstands.expand_replaced hpair.2, insertBy_eq_iff hanchor]
          simp
      | none =>
        -- only a search reads its operand as it is written
        cases hsearch : call.isOneOf searchNames with
        | false =>
          rw [h.opsWithoutOperand hsearch]
          exact iff_of_true rfl (Or.inr rfl)
        | true =>
          have hcalled : called.isOneOf searchNames = true := (h.isOneOf _).trans hsearch
          obtain ⟨hdelete, hops⟩ := opsWithoutOperand_search bindings hsearch
          obtain ⟨-, hcalledOps⟩ := opsWithoutOperand_search bindings hcalled
          have hrel := getLast?_replaced h.args
          dsimp only
          rw [hdelete, hops, hcalledOps]
          generalize call.args.getLast? = operand at hrel ⊢
          generalize called.args.getLast? = replaced at hrel ⊢
          cases hrel with
          | none => exact iff_of_true rfl (Or.inl rfl)
          | some _ => simp

/-! ## Programs -/

/-- The lines stand at the same place, and only their texts may differ. -/
structure SamePlace (line other : Line) : Prop where
  number : other.number = line.number
  indent : other.indent = line.indent
  isHeader : other.isHeader = line.isHeader
  inClass : other.inClass = line.inClass
  inDef : other.inDef = line.inDef
  params : other.params = line.params

/-- On a line, operands of calls are replaced, and everything else is read as before. -/
structure LineReplaced (x c : List Char) (line : Line) (bindings : Bindings) (other : Line) :
    Prop where
  standsFor : StandsFor x c line bindings
  /-- Operands that are read as they are written are replaced only by what reads the same. -/
  calls : List.Forall₂ (fun call called => CallReplaced x c call called ∧
    (opsOfCall line bindings call = [] ∨ ReadAlike call called))
    (Source.calls line.text) (Source.calls other.text)
  place : SamePlace line other
  /-- A loop runs over the same values. -/
  loop : ∀ constants,
    (Source.loopHeader? other.text).map (Prod.map id (Source.iterableValues? constants)) =
      (Source.loopHeader? line.text).map (Prod.map id (Source.iterableValues? constants))
  /-- A name is assigned the same literal, or something else. -/
  assignment : (Source.assignment? other.text).map (Prod.map id Literal.parse?) =
    (Source.assignment? line.text).map (Prod.map id Literal.parse?)
  /-- The line starts a loop that may walk links, or follows a link, as before. -/
  links : "while ".toList.isPrefixOf other.text = "while ".toList.isPrefixOf line.text ∧
    ∀ link ∈ [".next", ".prev"],
      Text.occursIn link.toList other.text = Text.occursIn link.toList line.text
  nodes : headNode? other.text = headNode? line.text ∧ linkedNode? other.text = linkedNode? line.text

section CallStatement

open Source (IsCallee IsArgument argsText callText)

variable {callee name : List Char} {receiver : Option (List Char)}
variable {args replaced : List (List Char)}

/-- An operand that is split off as it is, and in which nothing is called and no link is followed. -/
structure IsOperand (arg : List Char) : Prop extends IsArgument arg where
  paren : '(' ∉ arg
  links : ∀ link ∈ [".next", ".prev"], Text.occursIn link.toList arg = false

/-- A word is an operand, for instance a name or an integer. -/
theorem isOperand_of_word {arg : List Char} (hne : arg ≠ []) (h : ∀ d ∈ arg, Text.isWord d = true) :
    IsOperand arg := by
  have hblank : ∀ d ∈ arg, Text.isBlank d = false := by
    intro d hd
    rw [← Bool.not_eq_true]
    intro hblank
    have hword := h d hd
    rw [Text.isWord_of_isBlank hblank] at hword
    exact Bool.false_ne_true hword
  have hplain : arg.all Source.isPlain = true :=
    List.all_eq_true.mpr fun d hd => Source.isPlain_of_kind (h d hd) rfl
  have htrimmed : Text.IsTrimmed arg :=
    ⟨fun d hd => hblank d (List.mem_of_mem_head? hd), fun d hd => hblank d (List.mem_of_getLast? hd)⟩
  refine ⟨⟨hne, htrimmed, Source.isSealed_of_passes (Source.passesAt_of_plain hplain 0)⟩,
    Text.not_mem_run rfl h, fun link hlink => ?_⟩
  -- a link starts with a point
  have hpoint : '.' ∈ link.toList := by
    revert link
    decide
  rw [← Bool.not_eq_true, Text.occursIn_eq_true_iff]
  intro hlinks
  exact Text.not_mem_run rfl h (hlinks.subset hpoint)

theorem isOperand_replaced (h : List.Forall₂ (Replaces x c) args replaced)
    (hargs : ∀ arg ∈ args, IsOperand arg) (hliteral : IsOperand c) :
    ∀ arg ∈ replaced, IsOperand arg := by
  induction h with
  | nil => exact hargs
  | cons hfirst _ ih =>
    obtain ⟨harg, hargs⟩ := List.forall_mem_cons.mp hargs
    refine List.forall_mem_cons.mpr ⟨?_, ih hargs⟩
    rcases hfirst with rfl | ⟨-, rfl⟩
    · exact harg
    · exact hliteral

theorem occursIn_argsText {link : String} (hlink : link ∈ [".next", ".prev"])
    (h : ∀ arg ∈ args, IsOperand arg) : Text.occursIn link.toList (argsText args) = false := by
  have hother : ',' ∉ link.toList ∧ ' ' ∉ link.toList ∧ ')' ∉ link.toList ∧
      Text.occursIn link.toList [] = false := by
    revert link
    decide
  obtain ⟨hcomma, hblank, hparen, hnil⟩ := hother
  induction args with
  | nil =>
    have hclose : argsText [] = [] ++ ')' :: [] := rfl
    rw [hclose, Text.occursIn_append_cons hparen, hnil, Bool.or_self]
  | cons arg args ih =>
    obtain ⟨harg, hargs⟩ := List.forall_mem_cons.mp h
    cases args with
    | nil =>
      have hclose : argsText [arg] = arg ++ ')' :: [] := by
        rw [argsText, List.intercalate_singleton]
      rw [hclose, Text.occursIn_append_cons hparen, harg.links _ hlink, hnil, Bool.or_self]
    | cons next args =>
      have hrest := Text.occursIn_append_cons (a := []) hblank (argsText (next :: args))
      rw [List.nil_append] at hrest
      rw [Source.argsText_cons_cons, Text.occursIn_append_cons hcomma, hrest, harg.links _ hlink,
        hnil, ih hargs, Bool.or_self, Bool.or_self]

/-- No node is made where a parenthesis comes before any equals sign. -/
theorem madeNode?_of_dotted {more inside : List Char} (h : ∀ d ∈ more, Text.isDotted d = true) :
    madeNode? (more ++ '(' :: inside) = none := by
  unfold madeNode?
  rw [Source.blanksThen?_of_dotted h]
  rfl

theorem headNode?_callText (h : ∀ d ∈ callee, Text.isDotted d = true) :
    headNode? (callText callee args) = none := by
  have hparen : ∀ head ∈ headVariables, '(' ∉ head := by decide
  refine List.findSome?_eq_none_iff.mpr fun head hhead => ?_
  cases hrest : Text.dropPrefix? head (callText callee args) with
  | none => rfl
  | some rest =>
    obtain ⟨more, rfl, rfl⟩ := Source.exists_of_callee_eq_append
      (Text.dropPrefix?_eq_some_iff.mp hrest) (hparen head hhead)
    exact madeNode?_of_dotted (List.forall_mem_append.mp h).2

theorem linkedNode?_callText (h : ∀ d ∈ callee, Text.isDotted d = true)
    (hargs : ∀ arg ∈ args, IsOperand arg) : linkedNode? (callText callee args) = none := by
  rw [Option.eq_none_iff_forall_ne_some]
  intro operand hfound
  obtain ⟨front, rest, htext, hnode⟩ := Text.exists_of_firstPlace hfound
  obtain ⟨behind, hbehind, hmade⟩ := Option.bind_eq_some_iff.mp hnode
  obtain rfl := Text.dropPrefix?_eq_some_iff.mp hbehind
  have hparts : callee ++ '(' :: argsText args = front ++ ".next".toList ++ behind := by
    rw [List.append_assoc]
    exact htext
  rcases Source.parts_of_append_cons hparts (by decide) with ⟨more, -, hinside⟩ | ⟨more, rfl⟩
  · -- the link would stand among the arguments
    have hoccurs := Text.occursIn_eq_true_iff.mpr ⟨more, behind, hinside.symm⟩
    rw [occursIn_argsText List.mem_cons_self hargs] at hoccurs
    exact Bool.false_ne_true hoccurs
  · -- behind the link comes the rest of the name
    rw [List.append_assoc] at hparts
    have hrest := List.append_cancel_left hparts
    rw [← hrest, madeNode?_of_dotted (List.forall_mem_append.mp h).2] at hmade
    exact nomatch hmade

theorem isPrefixOf_while_callText (h : ∀ d ∈ callee, Text.isDotted d = true) :
    "while ".toList.isPrefixOf (callText callee args) = false := by
  rw [← Bool.not_eq_true, List.isPrefixOf_iff_prefix]
  intro hwhile
  obtain ⟨rest, hrest⟩ := hwhile
  obtain ⟨more, rfl, -⟩ := Source.exists_of_callee_eq_append hrest.symm (by decide)
  have hblank := h ' ' (List.mem_append_left _ (by decide))
  exact absurd hblank (by decide)

/-- Where a statement is a call, its arguments may be replaced as they are written. -/
theorem LineReplaced.of_callText (hcallee : IsCallee callee receiver name)
    (hline : line.text = callText callee args) (hstands : StandsFor x c line bindings)
    (hargs : List.Forall₂ (Replaces x c) args replaced)
    (hoperands : ∀ arg ∈ args, IsOperand arg) (hliteral : IsOperand c)
    (halike : opsOfCall line bindings ⟨receiver, String.ofList name, args⟩ = [] ∨
      ReadAlike ⟨receiver, String.ofList name, args⟩ ⟨receiver, String.ofList name, replaced⟩) :
    LineReplaced x c line bindings { line with text := callText callee replaced } := by
  have hreplaced := isOperand_replaced hargs hoperands hliteral
  have hcalls : ∀ {operands}, (∀ arg ∈ operands, IsOperand arg) →
      Source.calls (callText callee operands) = [⟨receiver, String.ofList name, operands⟩] := by
    intro operands h
    rw [Source.calls_callText hcallee fun arg harg => (h arg harg).toIsArgument,
      Source.calls_argsText fun arg harg => (h arg harg).paren]
  constructor
  case standsFor => exact hstands
  case calls =>
    rw [hline, hcalls hoperands, hcalls hreplaced]
    exact .cons ⟨⟨rfl, rfl, hargs⟩, halike⟩ .nil
  case place => exact ⟨rfl, rfl, rfl, rfl, rfl, rfl⟩
  case loop =>
    intro constants
    rw [hline, Source.loopHeader?_callText hcallee.dotted,
      Source.loopHeader?_callText hcallee.dotted]
  case assignment =>
    rw [hline, Source.assignment?_callText hcallee.dotted,
      Source.assignment?_callText hcallee.dotted]
  case links =>
    rw [hline]
    refine ⟨?_, fun link hlink => ?_⟩
    · rw [isPrefixOf_while_callText hcallee.dotted, isPrefixOf_while_callText hcallee.dotted]
    · have hparen : '(' ∉ link.toList := by
        revert link
        decide
      rw [callText, callText, Text.occursIn_append_cons hparen, Text.occursIn_append_cons hparen,
        occursIn_argsText hlink hoperands, occursIn_argsText hlink hreplaced]
  case nodes =>
    rw [hline]
    refine ⟨?_, ?_⟩
    · rw [headNode?_callText hcallee.dotted, headNode?_callText hcallee.dotted]
    · rw [linkedNode?_callText hcallee.dotted hoperands, linkedNode?_callText hcallee.dotted hreplaced]

end CallStatement

/-- The line stays, or operands of its calls are replaced. -/
def Replaced (x c : List Char) (entry : Line × Bindings) (other : Line) : Prop :=
  other = entry.1 ∨ LineReplaced x c entry.1 entry.2 other

/-- A replaced line binds the same. -/
theorem LineReplaced.observe_eq {before : Bindings} (h : LineReplaced x c line bindings other) :
    before.observe other = before.observe line := by
  have hloop := h.loop before.constants
  have hassignment := h.assignment
  unfold Bindings.observe
  rw [h.place.indent, h.place.inClass, h.place.isHeader]
  generalize Source.loopHeader? other.text = otherLoop at hloop ⊢
  generalize Source.loopHeader? line.text = loop at hloop ⊢
  generalize Source.assignment? other.text = otherAssignment at hassignment ⊢
  generalize Source.assignment? line.text = assignment at hassignment ⊢
  -- a line is a loop header, an assignment or neither, and the other one is the same
  cases loop with
  | some loop =>
    obtain ⟨otherLoop, rfl, hpair⟩ := Option.map_eq_some_iff.mp hloop
    obtain ⟨hname, hvalues⟩ : otherLoop.1 = loop.1 ∧ Source.iterableValues? before.constants
        otherLoop.2 = Source.iterableValues? before.constants loop.2 := Prod.mk.inj hpair
    dsimp only
    rw [hname, hvalues]
  | none =>
    obtain rfl := Option.map_eq_none_iff.mp hloop
    cases assignment with
    | none =>
      obtain rfl := Option.map_eq_none_iff.mp hassignment
      rfl
    | some assignment =>
      obtain ⟨otherAssignment, rfl, hpair⟩ := Option.map_eq_some_iff.mp hassignment
      obtain ⟨hname, hvalue⟩ : otherAssignment.1 = assignment.1 ∧
          Literal.parse? otherAssignment.2 = Literal.parse? assignment.2 := Prod.mk.inj hpair
      dsimp only
      rw [hname, hvalue]

theorem Replaced.place {entry : Line × Bindings} (h : Replaced x c entry other) :
    SamePlace entry.1 other := by
  rcases h with rfl | h
  · exact ⟨rfl, rfl, rfl, rfl, rfl, rfl⟩
  · exact h.place

/-- A replaced line follows a link as before. -/
theorem Replaced.follows {entry : Line × Bindings} (h : Replaced x c entry other) {link : String}
    (hlink : link ∈ [".next", ".prev"]) :
    Text.occursIn link.toList other.text = Text.occursIn link.toList entry.1.text := by
  rcases h with rfl | h
  · rfl
  · exact h.links.2 link hlink

theorem Replaced.observe_eq {before : Bindings} (h : Replaced x c (line, bindings) other) :
    before.observe other = before.observe line := by
  rcases h with rfl | h
  · rfl
  · exact h.observe_eq

/-- The lines of two programs stand on the same bindings, and those of the second have their operands
replaced. -/
def AllReplaced (x c : List Char) (entries others : List (Line × Bindings)) : Prop :=
  List.Forall₂ (fun entry other => other.2 = entry.2 ∧ Replaced x c entry other.1) entries others

theorem allReplaced_boundLinesFrom {lines others : List Line}
    (h : List.Forall₂ (Replaced x c) (Source.boundLinesFrom bindings lines) others) :
    AllReplaced x c (Source.boundLinesFrom bindings lines)
      (Source.boundLinesFrom bindings others) := by
  induction lines generalizing bindings others with
  | nil =>
    cases h with
    | nil => exact .nil
  | cons line lines ih =>
    rw [Source.boundLinesFrom] at h ⊢
    cases h with
    | cons hfirst hrest =>
      rw [Source.boundLinesFrom, hfirst.observe_eq]
      exact .cons ⟨rfl, hfirst⟩ (ih hrest)

/-- The lines below a loop follow links as before. -/
theorem AllReplaced.follow {entries others : List (Line × Bindings)}
    (h : AllReplaced x c entries others) (indent : Nat) :
    ((others.takeWhile fun below => decide (indent < below.1.indent)).any fun below =>
      Text.occursIn ".next".toList below.1.text || Text.occursIn ".prev".toList below.1.text) =
    ((entries.takeWhile fun below => decide (indent < below.1.indent)).any fun below =>
      Text.occursIn ".next".toList below.1.text || Text.occursIn ".prev".toList below.1.text) := by
  induction h with
  | nil => rfl
  | @cons entry other entries others hfirst hrest ih =>
    obtain ⟨-, hfirst⟩ := hfirst
    have hnext : Text.occursIn ".next".toList other.1.text =
        Text.occursIn ".next".toList entry.1.text := hfirst.follows List.mem_cons_self
    have hprev : Text.occursIn ".prev".toList other.1.text =
        Text.occursIn ".prev".toList entry.1.text :=
      hfirst.follows (List.mem_cons_of_mem _ List.mem_cons_self)
    rw [List.takeWhile_cons, List.takeWhile_cons, hfirst.place.indent]
    split
    · rw [List.any_cons, List.any_cons, hnext, hprev, ih]
    · rfl

/-- The calls of a replaced line ask for the same. -/
theorem LineReplaced.opsOfCalls_eq (h : LineReplaced x c line bindings other) :
    opsOfCalls other bindings = opsOfCalls line bindings := by
  have hdefinition : other.isDefinition = line.isDefinition := by
    funext receiver operand
    unfold Line.isDefinition Line.isParam
    rw [h.place.isHeader, h.place.inClass, h.place.params]
  have hplace : opsOfCall other bindings = opsOfCall line bindings := by
    funext call
    unfold opsOfCall
    rw [hdefinition]
  have hcalls : ∀ {cs ds : List Call},
      List.Forall₂ (fun call called => CallReplaced x c call called ∧
        (opsOfCall line bindings call = [] ∨ ReadAlike call called)) cs ds →
      ds.flatMap (opsOfCall line bindings) = cs.flatMap (opsOfCall line bindings) := by
    intro cs ds hcalls
    induction hcalls with
    | nil => rfl
    | cons hfirst _ ih =>
      obtain ⟨hreplaced, halike⟩ := hfirst
      rw [List.flatMap_cons, List.flatMap_cons, ih,
        (opsOfCall_eq_iff hreplaced h.standsFor).mpr halike]
  unfold opsOfCalls
  rw [hplace]
  exact hcalls h.calls

/-- A replaced line is the same statement. -/
theorem statement_replaced {rest others : List (Line × Bindings)}
    (h : Replaced x c (line, bindings) other) (hrest : AllReplaced x c rest others) :
    statement other bindings others = statement line bindings rest := by
  rcases h with rfl | h
  · have hwalks : walksLinks other others = walksLinks other rest := by
      unfold walksLinks
      rw [hrest.follow]
    unfold statement
    rw [hwalks]
  · have hwalks : walksLinks other others = walksLinks line rest := by
      unfold walksLinks
      rw [hrest.follow, h.links.1, h.place.indent]
    unfold statement
    rw [hwalks, h.place.inDef, h.opsOfCalls_eq, h.nodes.1, h.nodes.2]

/-- Programs with replaced operands have the same statements. -/
theorem statements_replaced {entries others : List (Line × Bindings)}
    (h : AllReplaced x c entries others) : statements others = statements entries := by
  induction h with
  | nil => rfl
  | @cons entry other entries others hfirst hrest ih =>
    obtain ⟨line, bindings⟩ := entry
    obtain ⟨other, otherBindings⟩ := other
    obtain ⟨rfl, hfirst⟩ := hfirst
    have hplace := hfirst.place
    rw [statements, statements, hplace.inClass, hplace.isHeader, hplace.number, ih,
      statement_replaced hfirst hrest]

/-- Where a name stands for a literal, operands of calls may be replaced by the literal.  A call asks
for the same exactly when it asks for nothing, or reads the same where it reads an operand as it is
written; and where all calls do, the program has the same story. -/
theorem operands_replaced (hint : ListKind) (x c : List Char) :
    (∀ line bindings call called, StandsFor x c line bindings → CallReplaced x c call called →
      (opsOfCall line bindings called = opsOfCall line bindings call ↔
        opsOfCall line bindings call = [] ∨ ReadAlike call called)) ∧
    ∀ code other : String, kindOf other hint = kindOf code hint →
      List.Forall₂ (Replaced x c) (Source.boundLines code) (Source.scan other) →
      (simulate hint other).steps = (simulate hint code).steps := by
  refine ⟨fun line bindings call called hstands h => opsOfCall_eq_iff h hstands,
    fun code other hkind hlines => ?_⟩
  have hscript : script other = script code :=
    statements_replaced (allReplaced_boundLinesFrom hlines)
  unfold simulate
  rw [hscript, hkind]

/-- A program that deletes by a name what it has appended under it. -/
def deletingByName : String := "x = 5\nll.append(x)\nll.delete(x)\n"

/-- The same program with the literal in place of the name. -/
def deletingByLiteral : String := "x = 5\nll.append(5)\nll.delete(5)\n"

/-- What is appended under a name is deleted under it. -/
theorem operands_replaced_deleted :
    (simulate .singly deletingByLiteral).steps = (simulate .singly deletingByName).steps := by
  have hlines : Source.boundLines deletingByName =
      [(Source.lineIn [] 1 0 ['x', ' ', '=', ' ', '5'], ⟨[], [(['x'], .int 5)]⟩),
        (Source.lineIn [] 2 0 (Source.callText "ll.append".toList [['x']]), ⟨[], [(['x'], .int 5)]⟩),
        (Source.lineIn [] 3 0 (Source.callText "ll.delete".toList [['x']]),
          ⟨[], [(['x'], .int 5)]⟩)] := by
    rfl
  -- the constant stands below the first line
  have hstands : ∀ number text, StandsFor ['x'] ['5'] (Source.lineIn [] number 0 text)
      ⟨[], [(['x'], .int 5)]⟩ := by
    intro number text
    exact ⟨rfl, rfl, rfl, rfl, ⟨rfl, rfl, rfl⟩, ⟨rfl, rfl⟩⟩
  have happend : Source.IsCallee "ll.append".toList (some ['l', 'l']) "append".toList :=
    ⟨rfl, List.all_eq_true.mp rfl, rfl⟩
  have hdelete : Source.IsCallee "ll.delete".toList (some ['l', 'l']) "delete".toList :=
    ⟨rfl, List.all_eq_true.mp rfl, rfl⟩
  have hargs : List.Forall₂ (Replaces ['x'] ['5']) [['x']] [['5']] :=
    .cons (Or.inr ⟨rfl, rfl⟩) .nil
  have hoperands : ∀ arg ∈ [['x']], IsOperand arg :=
    List.forall_mem_singleton.mpr
      (isOperand_of_word (List.cons_ne_nil _ _) (List.forall_mem_singleton.mpr rfl))
  have hliteral : IsOperand ['5'] :=
    isOperand_of_word (List.cons_ne_nil _ _) (List.forall_mem_singleton.mpr rfl)
  have hkind : kindOf deletingByLiteral .singly = kindOf deletingByName .singly := by decide +kernel
  refine (operands_replaced .singly ['x'] ['5']).2 deletingByName deletingByLiteral hkind ?_
  rw [hlines]
  refine .cons (Or.inl (by rfl)) (.cons (Or.inr ?_) (.cons (Or.inr ?_) .nil))
  · exact LineReplaced.of_callText happend rfl (hstands _ _) hargs hoperands hliteral (Or.inr rfl)
  · exact LineReplaced.of_callText hdelete rfl (hstands _ _) hargs hoperands hliteral (Or.inr rfl)

/-- A program that searches by a name for what it has appended under it. -/
def searchingByName : String := "x = 5\nll.append(x)\nll.search(x)\n"

/-- A program that searches for the literal. -/
def searchingByLiteral : String := "x = 5\nll.append(x)\nll.search(5)\n"

/-- What is appended under a name is not found under it, although it is under the literal. -/
theorem name_not_found :
    (∃ entry ∈ Source.boundLines searchingByName, entry.1.number = 3 ∧
      StandsFor ['x'] ['5'] entry.1 entry.2) ∧
    (simulate .singly searchingByName).steps.map (fun step => (step.line, step.action)) =
      [(some 2, "insert"), (some 3, "visit"), (some 3, "not_found")] ∧
    (simulate .singly searchingByLiteral).steps.map (fun step => (step.line, step.action)) =
      [(some 2, "insert"), (some 3, "found")] := by
  have hlines : Source.boundLines searchingByName =
      [(Source.lineIn [] 1 0 ['x', ' ', '=', ' ', '5'], ⟨[], [(['x'], .int 5)]⟩),
        (Source.lineIn [] 2 0 (Source.callText "ll.append".toList [['x']]), ⟨[], [(['x'], .int 5)]⟩),
        (Source.lineIn [] 3 0 (Source.callText "ll.search".toList [['x']]),
          ⟨[], [(['x'], .int 5)]⟩)] := by
    rfl
  rw [hlines]
  refine ⟨⟨_, List.mem_cons_of_mem _ (List.mem_cons_of_mem _ List.mem_cons_self), rfl, ?_⟩, ?_, ?_⟩
  · exact ⟨rfl, rfl, rfl, rfl, ⟨rfl, rfl, rfl⟩, ⟨rfl, rfl⟩⟩
  · decide +kernel
  · decide +kernel

end Storyboard.LinkedList
