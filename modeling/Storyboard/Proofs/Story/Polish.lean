import Mathlib.Data.List.SplitBy
import Storyboard.Story.Polish

/-!
# What polishing leaves of a story

Describing steps and collapsing repeated ones keeps a step of every story that has one, and drops
nothing but repetitions.  Compressing may drop everything: of a story that only marks the rounds of
loops nothing is left.

`List.splitBy` cuts a list into its maximal runs of neighbours that are related.  Collapsing keeps
the first step of every run that tells the same (`collapse_eq_heads`), and compressing the last one
of every run of pushes that follow each other once the marks are gone (`keepLastPushes_eq_lasts`).
Compressing can be done in one pass that takes back the push it kept last when another one follows
(`foldl_compressOnto`), whatever stood between the two.
-/

namespace Storyboard.Story

/-- A step whose description starts with something is described. -/
theorem describe_eq_self {step : Step} {c : Char} {cs : List Char}
    (h : step.description.toList = c :: cs) (hc : Text.isBlank c = false) :
    describe step = step := by
  have htrim : (Text.trim step.description.toList).isEmpty = false := by
    rw [h, Text.trim, Text.trimStart, List.dropWhile_cons_of_neg (Bool.eq_false_iff.mp hc),
      Text.trimEnd, Text.dropEndWhile, List.isEmpty_reverse, List.reverse_cons, List.dropWhile_append]
    -- trimming the end stops at the first character at the latest
    split
    next => rw [List.dropWhile_cons_of_neg (Bool.eq_false_iff.mp hc), List.isEmpty_cons]
    next =>
      rw [List.isEmpty_eq_false_iff]
      exact List.append_ne_nil_of_right_ne_nil _ (List.cons_ne_nil _ _)
  rw [describe, htrim, if_neg Bool.false_ne_true]

/-- A story that has a step keeps its first one. -/
theorem collapse_eq_nil_iff {steps : List Step} : collapse steps = [] ↔ steps = [] := by
  cases steps with
  | nil => exact Iff.rfl
  | cons step rest => exact iff_of_false (List.cons_ne_nil _ _) (List.cons_ne_nil _ _)

theorem tellsSame_iff {a b : Step} :
    tellsSame a b = true ↔ a.action = b.action ∧ a.description = b.description := by
  rw [tellsSame, Bool.and_eq_true, beq_iff_eq, beq_iff_eq]

/-- Steps that tell the same let the same steps be dropped. -/
theorem collapseAfter_congr {a b : Step} (h : tellsSame a b = true) (steps : List Step) :
    collapseAfter a steps = collapseAfter b steps := by
  have hsame : ∀ step, tellsSame a step = tellsSame b step := by
    intro step
    obtain ⟨haction, hdescription⟩ := tellsSame_iff.mp h
    rw [tellsSame, tellsSame, haction, hdescription]
  cases steps with
  | nil => rfl
  | cons step rest =>
    have ih := collapseAfter_congr h rest
    rw [collapseAfter, collapseAfter, hsame, ih]

theorem collapseAfter_sublist (last : Step) (steps : List Step) :
    (collapseAfter last steps).Sublist steps := by
  induction steps generalizing last with
  | nil => exact List.Sublist.refl _
  | cons step rest ih =>
    rw [collapseAfter]
    split
    next => exact (ih last).cons step
    next => exact (ih step).cons_cons step

/-- Collapsing drops no step of a kind exactly when no step of the kind tells the same as the one
before it. -/
theorem collapseAfter_filter_iff {p : Step → Bool} {last : Step} {steps : List Step} :
    (collapseAfter last steps).filter p = steps.filter p ↔
      (last :: steps).IsChain fun a b => tellsSame a b = true → p b = false := by
  induction steps generalizing last with
  | nil => exact iff_of_true rfl (.singleton last)
  | cons step rest ih =>
    rw [List.isChain_cons_cons, collapseAfter, ← ih]
    by_cases htells : tellsSame last step = true
    · rw [if_pos htells, collapseAfter_congr htells]
      by_cases hp : p step = true
      · -- a step of the kind is dropped, and fewer are left
        refine iff_of_false (fun heq => ?_) fun h => absurd hp (Bool.eq_false_iff.mp (h.1 htells))
        have hle := ((collapseAfter_sublist step rest).filter p).length_le
        rw [heq, List.filter_cons_of_pos hp, List.length_cons] at hle
        omega
      · rw [List.filter_cons_of_neg hp, and_iff_right fun _ => Bool.eq_false_iff.mpr hp]
    · rw [if_neg htells, and_iff_right fun h => absurd h htells]
      by_cases hp : p step = true
      · rw [List.filter_cons_of_pos hp, List.filter_cons_of_pos hp, List.cons.injEq,
          and_iff_right rfl]
      · rw [List.filter_cons_of_neg hp, List.filter_cons_of_neg hp]

theorem collapse_filter_iff {p : Step → Bool} {steps : List Step} :
    (collapse steps).filter p = steps.filter p ↔
      steps.IsChain fun a b => tellsSame a b = true → p b = false := by
  cases steps with
  | nil => exact iff_of_true rfl .nil
  | cons step rest =>
    rw [collapse, ← collapseAfter_filter_iff]
    by_cases hp : p step = true
    · rw [List.filter_cons_of_pos hp, List.filter_cons_of_pos hp, List.cons.injEq,
        and_iff_right rfl]
    · rw [List.filter_cons_of_neg hp, List.filter_cons_of_neg hp]

/-- Of pushes that follow each other one is kept. -/
theorem keepLastPushes_eq_nil_iff {steps : List Step} : keepLastPushes steps = [] ↔ steps = [] := by
  fun_induction keepLastPushes steps with
  | case1 => exact Iff.rfl
  | case2 step => exact Iff.rfl
  | case3 a b rest hpush ih =>
    rw [ih]
    exact iff_of_false (List.cons_ne_nil _ _) (List.cons_ne_nil _ _)
  | case4 a b rest hpush ih => exact iff_of_false (List.cons_ne_nil _ _) (List.cons_ne_nil _ _)

/-- Nothing is left of a compressed story when all of its steps are marks. -/
theorem compress_eq_nil_iff {steps : List Step} :
    compress steps = [] ↔ ∀ step ∈ steps, isMarker step = true := by
  unfold compress
  rw [keepLastPushes_eq_nil_iff, List.filter_eq_nil_iff]
  constructor
  · intro h step hmem
    simpa using h step hmem
  · intro h step hmem
    simpa using h step hmem

/-- A mark is no note. -/
theorem isNote_of_isMarker {step : Step} (h : isMarker step = true) : step.isNote = false := by
  rw [Step.isNote, beq_eq_false_iff_ne]
  intro hnote
  rw [isMarker, hnote] at h
  exact absurd h (by decide +kernel)

/-- A story of substance has a step. -/
theorem steps_ne_nil {story : Story} (h : 0 < story.substance) : story.steps ≠ [] := by
  intro hnil
  rw [substance, hnil] at h
  exact absurd h (Nat.lt_irrefl 0)

/-- A story of marks alone has the substance of its length. -/
theorem substance_of_isMarker {story : Story} (h : ∀ step ∈ story.steps, isMarker step = true) :
    story.substance = story.steps.length := by
  have hall : (story.steps.filter fun step => !step.isNote) = story.steps := by
    rw [List.filter_eq_self]
    intro step hmem
    rw [isNote_of_isMarker (h step hmem)]
    rfl
  rw [substance, hall]

/-! ## Runs -/

section Runs

variable {α : Type} {r : α → α → Bool} {a b : α}

theorem splitBy_cons_cons_of_neg (h : r a b = false) (rest : List α) :
    (a :: b :: rest).splitBy r = [a] :: (b :: rest).splitBy r := by
  have hcut : ∀ x ∈ [a].getLast?, r x b = false := by
    rintro x ⟨⟩
    exact h
  exact List.splitBy_append_cons rest hcut

/-- An item that is related to the next one stands in its run. -/
theorem exists_splitBy_cons_cons (h : r a b = true) (rest : List α) :
    ∃ run runs, (b :: rest).splitBy r = (b :: run) :: runs ∧
      (a :: b :: rest).splitBy r = (a :: b :: run) :: runs := by
  have hne : (b :: rest).splitBy r ≠ [] := List.splitBy_ne_nil.mpr (List.cons_ne_nil b rest)
  obtain ⟨first, runs, hruns⟩ := List.exists_cons_of_ne_nil hne
  obtain ⟨hflatten, hnil, hchain, hcut⟩ := List.splitBy_eq_iff.mp hruns
  obtain ⟨c, run, rfl⟩ : ∃ c run, first = c :: run := by
    refine List.exists_cons_of_ne_nil ?_
    rintro rfl
    exact hnil List.mem_cons_self
  obtain ⟨rfl, hrest⟩ := List.cons.inj hflatten
  refine ⟨run, runs, hruns, List.splitBy_eq_iff.mpr ⟨?_, ?_, ?_, ?_⟩⟩
  · rw [hrest]
    rfl
  · exact fun hmem => hnil (List.mem_cons.mpr (Or.inr ((List.mem_cons.mp hmem).resolve_left nofun)))
  · intro part hpart
    obtain rfl | hpart := List.mem_cons.mp hpart
    · exact (hchain _ List.mem_cons_self).cons_cons h
    · exact hchain part (List.mem_cons_of_mem _ hpart)
  · rw [List.isChain_cons] at hcut ⊢
    refine ⟨fun next hnext => ?_, hcut.2⟩
    obtain ⟨_, hne, hapart⟩ := hcut.1 next hnext
    refine ⟨List.cons_ne_nil _ _, hne, ?_⟩
    rwa [List.getLast_cons (List.cons_ne_nil _ _)]

end Runs

/-! ## Collapsing -/

theorem collapse_cons_cons_of_tellsSame {a b : Step} (h : tellsSame a b = true) (rest : List Step) :
    collapse (a :: b :: rest) = a :: collapseAfter b rest := by
  rw [collapse, collapseAfter, if_pos h, collapseAfter_congr h]

theorem collapse_cons_cons_of_not_tellsSame {a b : Step} (h : tellsSame a b = false)
    (rest : List Step) : collapse (a :: b :: rest) = a :: collapse (b :: rest) := by
  rw [collapse, collapseAfter, if_neg (Bool.eq_false_iff.mp h), collapse]

/-- Of every run that tells the same the first step is kept. -/
theorem collapse_eq_heads (steps : List Step) :
    collapse steps = (steps.splitBy tellsSame).filterMap List.head? := by
  induction steps with
  | nil => rfl
  | cons a steps ih =>
    cases steps with
    | nil => rfl
    | cons b rest =>
      cases htells : tellsSame a b with
      | false =>
        rw [collapse_cons_cons_of_not_tellsSame htells, ih, splitBy_cons_cons_of_neg htells]
        rfl
      | true =>
        obtain ⟨run, runs, hb, ha⟩ := exists_splitBy_cons_cons htells rest
        rw [hb, collapse] at ih
        rw [collapse_cons_cons_of_tellsSame htells, (List.cons.inj ih).2, ha]
        rfl

theorem collapseAfter_isChain (last : Step) (steps : List Step) :
    (last :: collapseAfter last steps).IsChain fun a b => tellsSame a b = false := by
  induction steps generalizing last with
  | nil => exact .singleton last
  | cons step rest ih =>
    rw [collapseAfter]
    split
    next => exact ih last
    next htells => exact (ih step).cons_cons (Bool.eq_false_iff.mpr htells)

/-- No step that is kept tells the same as the one kept before it. -/
theorem collapse_isChain (steps : List Step) :
    (collapse steps).IsChain fun a b => tellsSame a b = false := by
  cases steps with
  | nil => exact .nil
  | cons step rest => exact collapseAfter_isChain step rest

theorem collapse_sublist (steps : List Step) : (collapse steps).Sublist steps := by
  cases steps with
  | nil => exact .slnil
  | cons step rest => exact (collapseAfter_sublist step rest).cons_cons step

theorem collapse_idem (steps : List Step) : collapse (collapse steps) = collapse steps := by
  have hapart : (collapse steps).IsChain fun a b => tellsSame a b = true → true = false := by
    refine (collapse_isChain steps).imp fun a b hfalse htells => ?_
    rw [← hfalse, htells]
  have hkept := collapse_filter_iff.mpr hapart
  rwa [List.filter_true, List.filter_true] at hkept

/-! ## Compressing -/

/-- Both steps push on a stack. -/
def bothPush (a b : Step) : Bool := isStackPush a && isStackPush b

theorem keepLastPushes_cons_cons_of_bothPush {a b : Step} (h : bothPush a b = true)
    (rest : List Step) : keepLastPushes (a :: b :: rest) = keepLastPushes (b :: rest) := by
  rw [keepLastPushes]
  exact if_pos h

theorem keepLastPushes_cons_cons_of_not_bothPush {a b : Step} (h : bothPush a b = false)
    (rest : List Step) : keepLastPushes (a :: b :: rest) = a :: keepLastPushes (b :: rest) := by
  rw [keepLastPushes]
  exact if_neg (Bool.eq_false_iff.mp h)

/-- Of every run of pushes the last one is kept. -/
theorem keepLastPushes_eq_lasts (steps : List Step) :
    keepLastPushes steps = (steps.splitBy bothPush).filterMap List.getLast? := by
  induction steps with
  | nil => rfl
  | cons a steps ih =>
    cases steps with
    | nil => rfl
    | cons b rest =>
      cases hpush : bothPush a b with
      | false =>
        rw [keepLastPushes_cons_cons_of_not_bothPush hpush, ih, splitBy_cons_cons_of_neg hpush]
        rfl
      | true =>
        obtain ⟨run, runs, hb, ha⟩ := exists_splitBy_cons_cons hpush rest
        rw [keepLastPushes_cons_cons_of_bothPush hpush, ih, hb, ha]
        rfl

theorem keepLastPushes_sublist (steps : List Step) : (keepLastPushes steps).Sublist steps := by
  fun_induction keepLastPushes steps with
  | case1 => exact .slnil
  | case2 step => exact List.Sublist.refl _
  | case3 a b rest hpush ih => exact ih.cons a
  | case4 a b rest hpush ih => exact ih.cons_cons a

/-- The first push may give way to the next one, but only to a push. -/
theorem isStackPush_of_mem_head?_keepLastPushes {step kept : Step} {rest : List Step}
    (h : kept ∈ (keepLastPushes (step :: rest)).head?) : isStackPush kept = isStackPush step := by
  induction rest generalizing step with
  | nil =>
    obtain rfl := Option.mem_some_iff.mp h
    rfl
  | cons next rest ih =>
    cases hpush : bothPush step next with
    | false =>
      rw [keepLastPushes_cons_cons_of_not_bothPush hpush] at h
      obtain rfl := Option.mem_some_iff.mp h
      rfl
    | true =>
      rw [keepLastPushes_cons_cons_of_bothPush hpush] at h
      obtain ⟨hstep, hnext⟩ := Bool.and_eq_true_iff.mp hpush
      rw [ih h, hstep, hnext]

/-- No two pushes that are kept follow each other. -/
theorem keepLastPushes_isChain (steps : List Step) :
    (keepLastPushes steps).IsChain fun a b => bothPush a b = false := by
  induction steps with
  | nil => exact .nil
  | cons a steps ih =>
    cases steps with
    | nil => exact .singleton a
    | cons b rest =>
      cases hpush : bothPush a b with
      | true => rwa [keepLastPushes_cons_cons_of_bothPush hpush]
      | false =>
        rw [keepLastPushes_cons_cons_of_not_bothPush hpush, List.isChain_cons]
        refine ⟨fun kept hkept => ?_, ih⟩
        rw [bothPush, isStackPush_of_mem_head?_keepLastPushes hkept]
        exact hpush

theorem keepLastPushes_eq_self {steps : List Step}
    (h : steps.IsChain fun a b => bothPush a b = false) : keepLastPushes steps = steps := by
  induction steps with
  | nil => rfl
  | cons a steps ih =>
    cases steps with
    | nil => rfl
    | cons b rest =>
      obtain ⟨hpush, hrest⟩ := List.isChain_cons_cons.mp h
      rw [keepLastPushes_cons_cons_of_not_bothPush hpush, ih hrest]

theorem compress_sublist (steps : List Step) : (compress steps).Sublist steps :=
  (keepLastPushes_sublist _).trans List.filter_sublist

theorem compress_idem (steps : List Step) : compress (compress steps) = compress steps := by
  have hunmarked : (compress steps).filter (fun step => !isMarker step) = compress steps := by
    rw [List.filter_eq_self]
    intro step hstep
    exact (List.mem_filter.mp ((keepLastPushes_sublist _).subset hstep)).2
  rw [compress, hunmarked]
  exact keepLastPushes_eq_self (keepLastPushes_isChain _)

/-! One pass over the steps -/

/-- Adds a step to those that are kept; a push takes the place of a push that was kept last. -/
def pushOnto (kept : List Step) (step : Step) : List Step :=
  if isStackPush step && kept.getLast?.any isStackPush then kept.dropLast ++ [step]
  else kept ++ [step]

/-- Adds a step to those that are kept, unless it is a mark. -/
def compressOnto (kept : List Step) (step : Step) : List Step :=
  if isMarker step then kept else pushOnto kept step

theorem pushOnto_cons {kept : List Step} (hkept : kept ≠ []) (first step : Step) :
    pushOnto (first :: kept) step = first :: pushOnto kept step := by
  obtain ⟨next, rest, rfl⟩ := List.exists_cons_of_ne_nil hkept
  rw [pushOnto, pushOnto, List.getLast?_cons_cons, List.dropLast_cons_cons]
  split <;> rfl

/-- One more step changes the last one kept at most. -/
theorem keepLastPushes_concat (steps : List Step) (step : Step) :
    keepLastPushes (steps ++ [step]) = pushOnto (keepLastPushes steps) step := by
  induction steps with
  | nil =>
    rw [keepLastPushes, pushOnto, List.getLast?_nil, Option.any_none, Bool.and_false,
      if_neg Bool.false_ne_true]
    rfl
  | cons a steps ih =>
    cases steps with
    | nil =>
      rw [List.singleton_append, keepLastPushes, keepLastPushes, pushOnto, List.getLast?_singleton,
        Option.any_some, Bool.and_comm]
      rfl
    | cons b rest =>
      rw [List.cons_append] at ih
      rw [List.cons_append, List.cons_append]
      -- a pushed value that is pushed over is dropped at once, whatever follows
      cases hpush : bothPush a b with
      | true =>
        rw [keepLastPushes_cons_cons_of_bothPush hpush,
          keepLastPushes_cons_cons_of_bothPush hpush, ih]
      | false =>
        have hkept : keepLastPushes (b :: rest) ≠ [] :=
          mt keepLastPushes_eq_nil_iff.mp (List.cons_ne_nil _ _)
        rw [keepLastPushes_cons_cons_of_not_bothPush hpush,
          keepLastPushes_cons_cons_of_not_bothPush hpush, ih, pushOnto_cons hkept]

theorem compress_concat (steps : List Step) (step : Step) :
    compress (steps ++ [step]) = compressOnto (compress steps) step := by
  rw [compress, compress, compressOnto, List.filter_append]
  cases hmarker : isMarker step with
  | true =>
    rw [List.filter_cons_of_neg (by simp [hmarker]), List.filter_nil, List.append_nil, if_pos rfl]
  | false =>
    rw [List.filter_cons_of_pos (by simp [hmarker]), List.filter_nil, keepLastPushes_concat,
      if_neg Bool.false_ne_true]

/-- Marks are left out and pushes are taken back in one pass: what is kept so far is always what
compressing the steps so far keeps. -/
theorem foldl_compressOnto (steps : List Step) : steps.foldl compressOnto [] = compress steps := by
  induction steps using List.reverseRecOn with
  | nil => rfl
  | append_singleton steps step ih =>
    rw [List.foldl_append, ih, compress_concat]
    rfl

/-! ## The passes -/

/-- Collapsing keeps the first step of every run of steps that tell the same.  Compressing in one
pass keeps, of what is left without the marks, the last step of every run of pushes.  Both keep some
of the steps in their order and change nothing when they are repeated; and of steps that are
described before they are collapsed, no two neighbours have the same action and description. -/
theorem passes_keep_runs (steps : List Step) :
    collapse steps = (steps.splitBy tellsSame).filterMap List.head? ∧
      compress steps = steps.foldl compressOnto [] ∧
      compress steps = ((steps.filter fun step => !isMarker step).splitBy bothPush).filterMap
        List.getLast? ∧
      (collapse steps).Sublist steps ∧ (compress steps).Sublist steps ∧
      collapse (collapse steps) = collapse steps ∧ compress (compress steps) = compress steps ∧
      (collapse (steps.map describe)).IsChain fun a b =>
        ¬(a.action = b.action ∧ a.description = b.description) := by
  have hapart := (collapse_isChain (steps.map describe)).imp
    fun _ _ hfalse hsame => Bool.eq_false_iff.mp hfalse (tellsSame_iff.mpr hsame)
  exact ⟨collapse_eq_heads steps, (foldl_compressOnto steps).symm, keepLastPushes_eq_lasts _,
    collapse_sublist steps, compress_sublist steps, collapse_idem steps, compress_idem steps, hapart⟩

-- pushes that only marks stand between are one run
example : (compress [{ action := "Stack_Push", description := "one" },
    { action := "iteration", description := "" }, { action := "LOOP_END", description := "" },
    { action := "stack_push", description := "two" },
    { action := "stack_pop", description := "three" }]).map Step.description = ["two", "three"] := by
  decide +kernel

end Storyboard.Story
