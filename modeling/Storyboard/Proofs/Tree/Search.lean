import Mathlib
import Storyboard.Proofs.Simulation.Answers
import Storyboard.Proofs.Tree.Shape
import Storyboard.Proofs.Tree.Walk

/-!
# Search trees under any operations

`Sound` is what every operation keeps of a search tree.  A replay gathers the values that are
inserted and those that deletions find, and the tree holds their difference (`replay_values`).  An
arena that goes through the same operations keeps the same tree (`replay_keeps`).
-/

namespace Storyboard.Tree.SearchTree

open scoped List

variable {t : SearchTree} {cue : Cue Op} {cues : List (Cue Op)} {line : Nat} {value : Literal}

/-- The value of the operation, if it has one, holds no double. -/
def Op.isFloatFree : Op → Bool
  | insert value | delete value | search value => value.isFloatFree
  | traverse _ => true

/-- A step tells that a value is not in the tree. -/
def reportsMissing (steps : List Step) : Bool := steps.any fun step => step.action == "not_found"

/-- The value that an operation takes out of a tree. -/
def removal? (t : SearchTree) (cue : Cue Op) : Option Literal :=
  match cue.op with
  | .delete value => if reportsMissing (perform t cue).2 then none else some value
  | _ => none

/-- The values that the deletions take out, each deletion from the tree it meets. -/
def removals : SearchTree → List (Cue Op) → List Literal
  | _, [] => []
  | t, cue :: rest => (removal? t cue).toList ++ removals (perform t cue).1 rest

/-- The values that are inserted. -/
def inserted (cues : List (Cue Op)) : List Literal := (cues.filterMap insertion?).map Prod.fst

theorem removals_eq_gathered (t : SearchTree) (cues : List (Cue Op)) :
    removals t cues = gathered perform (fun t cue => (removal? t cue).toList) t cues := by
  induction cues generalizing t with
  | nil => rfl
  | cons cue rest ih => rw [removals, gathered, ih]

theorem inserted_cons (cue : Cue Op) (rest : List (Cue Op)) :
    inserted (cue :: rest) = ((insertion? cue).map Prod.fst).toList ++ inserted rest := by
  rw [inserted, List.filterMap_cons]
  cases insertion? cue <;> rfl

theorem inserted_eq_flatMap (cues : List (Cue Op)) :
    inserted cues = cues.flatMap fun cue => ((insertion? cue).map Prod.fst).toList := by
  induction cues with
  | nil => rfl
  | cons cue rest ih => rw [inserted_cons, ih, List.flatMap_cons]

/-- What every operation keeps. -/
structure Sound (t : SearchTree) : Prop where
  ordered : t.tree.Ordered
  floatFree : t.tree.IsFloatFree
  distinct : t.tree.numbers.Nodup
  created : ∀ number ∈ t.tree.numbers, number ≤ t.created

theorem sound_empty : Sound {} where
  ordered := .leaf
  floatFree := nofun
  distinct := List.nodup_nil
  created := nofun

/-! ## Reports -/

theorem reportsMissing_append (steps more : List Step) :
    reportsMissing (steps ++ more) = (reportsMissing steps || reportsMissing more) :=
  List.any_append

theorem reportsMissing_probeSteps : reportsMissing (probeSteps t line value) = false := by
  rw [reportsMissing, probeSteps, List.any_map, List.any_eq_false]
  exact fun node _ => Bool.false_ne_true

/-- A search reports a value missing when it finds no node. -/
theorem reportsMissing_searchSteps :
    reportsMissing (searchSteps t line value) = (t.tree.find? value).isNone := by
  rw [searchSteps, reportsMissing_append, reportsMissing_probeSteps, Bool.false_or]
  cases t.tree.find? value with
  | none => rfl
  | some node => rfl

/-- A deletion either changes nothing and reports its value missing, or removes it. -/
theorem performDelete_cases (t : SearchTree) (line : Nat) (value : Literal) :
    (t.tree.remove? value = none ∧ (performDelete t line value).1 = t ∧
      reportsMissing (performDelete t line value).2 = true) ∨
    ∃ tree removal, t.tree.remove? value = some (tree, removal) ∧
      (performDelete t line value).1 = { t with tree } ∧
      reportsMissing (performDelete t line value).2 = false := by
  unfold performDelete
  cases t.tree.remove? value with
  | none => exact Or.inl ⟨rfl, rfl, by rw [reportsMissing_append, reportsMissing_probeSteps]; rfl⟩
  | some removed =>
    obtain ⟨tree, removal⟩ := removed
    refine Or.inr ⟨tree, removal, rfl, ?_⟩
    cases removal with
    | unlinked node => exact ⟨rfl, by rw [reportsMissing_append, reportsMissing_probeSteps]; rfl⟩
    | replaced node successor =>
      exact ⟨rfl, by rw [reportsMissing_append, reportsMissing_probeSteps]; rfl⟩

theorem reportsMissing_performDelete :
    reportsMissing (performDelete t line value).2 = (t.tree.find? value).isNone := by
  obtain ⟨hremove, -, hreport⟩ | ⟨tree, removal, hremove, -, hreport⟩ :=
    performDelete_cases t line value
  · have hfind : (t.tree.find? value).isSome = false := by
      rw [← Binary.remove?_isSome, hremove]
      rfl
    rw [hreport, Option.isSome_eq_false_iff.mp hfind]
  · have hfind : (t.tree.find? value).isSome = true := by
      rw [← Binary.remove?_isSome, hremove]
      rfl
    rw [hreport, Option.isNone_eq_false_iff.mpr hfind]

/-- A report that a value is missing is right. -/
theorem Sound.isNone_find?_iff (ht : Sound t) (hvalue : value.isFloatFree = true) :
    (t.tree.find? value).isNone = true ↔ value ∉ t.values := by
  rw [← Option.not_isSome, Bool.not_eq_true', ← Bool.not_eq_true]
  exact not_congr (ht.ordered.find?_isSome ht.floatFree hvalue)

/-! ## One operation -/

theorem Sound.insert (ht : Sound t) (hvalue : value.isFloatFree = true) :
    Sound (t.insert value) where
  ordered := ht.ordered.insert
  floatFree := ht.floatFree.insert hvalue
  distinct := by
    -- the number of the new node is above all others
    rw [SearchTree.insert, Binary.numbers_insert.nodup_iff, List.nodup_cons]
    refine ⟨fun hmem => ?_, ht.distinct⟩
    have hle : t.created + 1 ≤ t.created := ht.created _ hmem
    omega
  created := by
    intro number hnumber
    rw [SearchTree.insert, Binary.numbers_insert.mem_iff, List.mem_cons] at hnumber
    rcases hnumber with rfl | hnumber
    · exact Nat.le_refl _
    · exact Nat.le_succ_of_le (ht.created number hnumber)

theorem Sound.remove {tree : Binary} {removal : Binary.Removal} (ht : Sound t)
    (h : t.tree.remove? value = some (tree, removal)) : Sound { t with tree } where
  ordered := ht.ordered.remove? ht.floatFree h
  floatFree := ht.floatFree.remove? h
  distinct := ht.distinct.sublist (Binary.numbers_remove? h)
  created := fun number hnumber => ht.created number ((Binary.numbers_remove? h).mem hnumber)

/-- Every operation keeps a search tree sound. -/
theorem perform_sound (ht : Sound t) (hcue : cue.op.isFloatFree = true) :
    Sound (perform t cue).1 := by
  obtain ⟨line, op⟩ := cue
  cases op with
  | insert value => exact ht.insert hcue
  | delete value =>
    obtain ⟨-, hsame, -⟩ | ⟨tree, removal, hremove, hleft, -⟩ := performDelete_cases t line value
    · rwa [perform, hsame]
    · rw [perform, hleft]
      exact ht.remove hremove
  | search value => exact ht
  | traverse order => exact ht

/-- What an operation leaves in the tree and what it takes out are what was there and what it puts
in. -/
theorem perform_values (ht : Sound t) (hcue : cue.op.isFloatFree = true) :
    (perform t cue).1.values ++ (removal? t cue).toList ~
      t.values ++ ((insertion? cue).map Prod.fst).toList := by
  obtain ⟨line, op⟩ := cue
  cases op with
  | insert value =>
    calc (t.insert value).values ++ [] ~ value :: t.values := by
          rw [List.append_nil]
          exact Binary.values_insert
      _ ~ t.values ++ [value] := (List.perm_append_singleton value t.values).symm
  | delete value =>
    rw [removal?, perform]
    obtain ⟨-, hsame, hreport⟩ | ⟨tree, removal, hremove, hleft, hreport⟩ :=
      performDelete_cases t line value
    · simp only [hreport, hsame]
      exact List.Perm.refl _
    · simp only [hreport, hleft]
      obtain ⟨before, found, after, hsame, hold, hnew⟩ := Binary.values_remove? hremove
      -- without floats, what counts as the same value is the value
      have hfound : value = found := by
        refine (Literal.same_iff hcue (ht.floatFree found ?_)).mp hsame
        rw [hold]
        exact List.mem_append_right _ List.mem_cons_self
      calc tree.values ++ [value] ~ value :: tree.values := List.perm_append_singleton _ _
        _ = value :: (before ++ after) := by rw [hnew]
        _ ~ before ++ value :: after := List.perm_middle.symm
        _ = t.tree.values ++ [] := by rw [hold, hfound, List.append_nil]
  | search value => exact List.Perm.refl _
  | traverse order => exact List.Perm.refl _

/-! ## Runs -/

theorem replay_sound (ht : Sound t) (hcues : ∀ cue ∈ cues, cue.op.isFloatFree = true) :
    Sound (replay perform t cues).1 := by
  induction cues generalizing t with
  | nil => exact ht
  | cons cue rest ih =>
    rw [List.forall_mem_cons] at hcues
    exact ih (perform_sound ht hcues.1) hcues.2

/-- After any operations the values of the tree and those taken out are the values that were there
before and those inserted. -/
theorem replay_values (ht : Sound t) (hcues : ∀ cue ∈ cues, cue.op.isFloatFree = true) :
    (replay perform t cues).1.values ++ removals t cues ~
      t.values ++ inserted cues := by
  have hvalues := replay_conserves Sound values (fun t cue => (removal? t cue).toList)
    (fun cue => ((insertion? cue).map Prod.fst).toList) (fun cue hcue t ht => ⟨perform_sound ht (hcues cue hcue), perform_values ht (hcues cue hcue)⟩) t ht
  rwa [← removals_eq_gathered, ← inserted_eq_flatMap] at hvalues

/-! ## The arena of the tree -/

variable {arena : Arena}

/-- An operation on the arena of a sound tree succeeds and leaves an arena of the tree that the
operation leaves. -/
theorem perform_keeps (h : arena.Keeps t) (ht : Sound t) (cue : Cue Op) :
    ∃ after, arena.perform? cue.op = some after ∧ after.Keeps (perform t cue).1 := by
  obtain ⟨line, op⟩ := cue
  cases op with
  | insert value => exact h.insert ht.distinct value
  | delete value =>
    obtain ⟨hremove, hdelete⟩ | ⟨tree, removal, after, hremove, hdelete, hafter⟩ :=
      h.delete ht.distinct value
    · refine ⟨arena, hdelete, ?_⟩
      -- both removals agree on whether the value is there
      obtain ⟨-, hsame, -⟩ | ⟨tree, removal, hremove', -⟩ := performDelete_cases t line value
      · rwa [perform, hsame]
      · rw [hremove] at hremove'
        cases hremove'
    · refine ⟨after, hdelete, ?_⟩
      obtain ⟨hremove', -⟩ | ⟨tree', removal', hremove', hleft, -⟩ :=
        performDelete_cases t line value
      · rw [hremove] at hremove'
        cases hremove'
      · rw [hremove] at hremove'
        cases hremove'
        rwa [perform, hleft]
  | search value =>
    obtain ⟨found, hlocate⟩ := h.locate ht.distinct value
    refine ⟨arena, ?_, h⟩
    rw [Arena.perform?, hlocate.1]
    rfl
  | traverse order =>
    refine ⟨arena, ?_, h⟩
    rw [Arena.perform?, h.walk? ht.distinct order]
    rfl

/-- An arena keeps the tree through any operations. -/
theorem replay_keeps (h : arena.Keeps t) (ht : Sound t)
    (hcues : ∀ cue ∈ cues, cue.op.isFloatFree = true) :
    ∃ after, (cues.map Cue.op).foldlM Arena.perform? arena = some after ∧
      after.Keeps (replay perform t cues).1 := by
  induction cues generalizing arena t with
  | nil => exact ⟨arena, rfl, h⟩
  | cons cue rest ih =>
    rw [List.forall_mem_cons] at hcues
    obtain ⟨next, hnext, hkeeps⟩ := perform_keeps h ht cue
    obtain ⟨after, hafter, hlast⟩ := ih hkeeps (perform_sound ht hcues.1) hcues.2
    refine ⟨after, ?_, hlast⟩
    rw [List.map_cons, List.foldlM_cons, hnext]
    exact hafter

/-! ## The tree that a replay leaves -/

/-- What a program sees of a search tree. -/
structure IsSearchTree (t : SearchTree) : Prop where
  /-- The values from left to right are sorted. -/
  sorted : ((t.tree.walk .inorder).map Node.value).Pairwise fun a b => ¬ b.before a = true
  /-- Left subtrees are strictly smaller than their node and right subtrees not smaller. -/
  ordered : t.tree.Ordered
  /-- The links form a tree below the root. -/
  rooted : t.tree.IsRooted
  /-- Every walk lists each node that the links reach, and lists it once. -/
  walks : ∀ order, ((t.tree.walk order).map Node.number).Nodup ∧
    ∀ node, node ∈ t.tree.walk order ↔ t.tree.Reaches node
  /-- A search reports exactly the values that are absent. -/
  search_missing : ∀ line value, value.isFloatFree = true →
    (reportsMissing (perform t ⟨line, .search value⟩).2 = true ↔ value ∉ t.values)
  /-- A deletion reports exactly the values that are absent. -/
  delete_missing : ∀ line value, value.isFloatFree = true →
    (reportsMissing (perform t ⟨line, .delete value⟩).2 = true ↔ value ∉ t.values)
  /-- Searches leave the tree as it is. -/
  search_keeps : ∀ line value, (perform t ⟨line, .search value⟩).1 = t
  /-- Traversals leave the tree as it is. -/
  traverse_keeps : ∀ line order, (perform t ⟨line, .traverse order⟩).1 = t
  /-- Deletions of absent values leave the tree as it is. -/
  delete_keeps : ∀ line value,
    reportsMissing (perform t ⟨line, .delete value⟩).2 = true →
      (perform t ⟨line, .delete value⟩).1 = t

theorem Sound.isSearchTree (ht : Sound t) : IsSearchTree t where
  sorted := ht.ordered.pairwise ht.floatFree
  ordered := ht.ordered
  rooted := Binary.isRooted_of_nodup ht.distinct
  walks := Binary.walk_lists_reached ht.distinct
  search_missing := by
    intro line value hvalue
    rw [perform, reportsMissing_searchSteps]
    exact ht.isNone_find?_iff hvalue
  delete_missing := by
    intro line value hvalue
    rw [perform, reportsMissing_performDelete]
    exact ht.isNone_find?_iff hvalue
  search_keeps := fun _ _ => rfl
  traverse_keeps := fun _ _ => rfl
  delete_keeps := by
    intro line value hreported
    rw [perform] at hreported ⊢
    obtain ⟨-, hsame, -⟩ | ⟨tree, removal, -, -, hreport⟩ := performDelete_cases t line value
    · exact hsame
    · rw [hreport] at hreported
      nomatch hreported

/-- After any operations in any order on a tree that was empty at first, it is a search tree, and
it holds exactly what was inserted without one occurrence for every deletion that found its
value.  An arena of numbered nodes goes through the same operations without following a link to no
node or looping forever, and then serves as this tree. -/
theorem replay_isSearchTree (cues : List (Cue Op))
    (hcues : ∀ cue ∈ cues, cue.op.isFloatFree = true) :
    IsSearchTree (replay perform {} cues).1 ∧
      (replay perform {} cues).1.values ++ removals {} cues ~ inserted cues ∧
      ∃ arena, (cues.map Cue.op).foldlM Arena.perform? {} = some arena ∧
        arena.Serves (replay perform {} cues).1 := by
  have hsound := replay_sound sound_empty hcues
  obtain ⟨arena, harena, hkeeps⟩ := replay_keeps Arena.keeps_empty sound_empty hcues
  exact ⟨hsound.isSearchTree, replay_values sound_empty hcues, arena, harena,
    hkeeps.serves hsound.distinct⟩

/-- Two equal values and a smaller one; the root has two subtrees when one of the equals goes. -/
def equalsAtTheRoot : List (Cue Op) :=
  [⟨1, .insert (.int 5)⟩, ⟨2, .insert (.int 3)⟩, ⟨3, .insert (.int 5)⟩, ⟨4, .delete (.int 4)⟩,
    ⟨5, .delete (.int 5)⟩, ⟨6, .traverse .levels⟩]

theorem replay_isSearchTree_equals :
    (∀ cue ∈ equalsAtTheRoot, cue.op.isFloatFree = true) ∧
      IsSearchTree (replay perform {} equalsAtTheRoot).1 ∧
      (replay perform {} equalsAtTheRoot).1.values = [.int 3, .int 5] ∧
      [.int 3, .int 5] ++ [.int 5] ~ inserted equalsAtTheRoot ∧
      ∃ arena, (equalsAtTheRoot.map Cue.op).foldlM Arena.perform? {} = some arena ∧
        arena.walk? .levels = some [0, 1] := by
  have hcues : ∀ cue ∈ equalsAtTheRoot, cue.op.isFloatFree = true := by decide
  obtain ⟨htree, hvalues, arena, harena, hserves⟩ := replay_isSearchTree equalsAtTheRoot hcues
  have hleft : (replay perform {} equalsAtTheRoot).1.values = [.int 3, .int 5] := by rfl
  have hremoved : removals {} equalsAtTheRoot = [.int 5] := by rfl
  rw [hleft, hremoved] at hvalues
  exact ⟨hcues, htree, hleft, hvalues, arena, harena, hserves.walks .levels⟩

end Storyboard.Tree.SearchTree
