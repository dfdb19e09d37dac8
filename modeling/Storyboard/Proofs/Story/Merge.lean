import Mathlib.Data.List.Basic
import Storyboard.Story.Polish

/-!
# Merging the segments of a story

Of steps with the same description the first one is kept, wherever the segments of a story are cut.
Steps that a group of segments drops by itself would be dropped by the whole story as well
(`eachDescriptionOnce_idem`), so merging groups first and their results afterwards is merging all
segments at once (`merge?_groups`).
-/

namespace Storyboard.Story

/-- The steps before which no step has the same description. -/
def firstOccurrences (steps : List Step) : List Step :=
  (steps.zipIdx.filter fun (step, i) =>
    (steps.take i).all fun earlier => earlier.description != step.description).map Prod.fst

variable {seen seen' : List String} {steps : List Step}

theorem eachDescriptionOnce_cons_of_mem {step : Step} (h : step.description ∈ seen)
    (rest : List Step) :
    eachDescriptionOnce seen (step :: rest) = eachDescriptionOnce seen rest := by
  rw [eachDescriptionOnce, if_pos (List.contains_iff_mem.mpr h)]

theorem eachDescriptionOnce_cons_of_not_mem {step : Step} (h : step.description ∉ seen)
    (rest : List Step) : eachDescriptionOnce seen (step :: rest) =
      step :: eachDescriptionOnce (step.description :: seen) rest := by
  rw [eachDescriptionOnce, if_neg (mt List.contains_iff_mem.mp h)]

/-- Of the descriptions that have been seen only matters which they are. -/
theorem eachDescriptionOnce_congr (h : ∀ d, d ∈ seen ↔ d ∈ seen') (steps : List Step) :
    eachDescriptionOnce seen steps = eachDescriptionOnce seen' steps := by
  induction steps generalizing seen seen' with
  | nil => rfl
  | cons step rest ih =>
    by_cases hmem : step.description ∈ seen
    · rw [eachDescriptionOnce_cons_of_mem hmem, eachDescriptionOnce_cons_of_mem ((h _).mp hmem), ih h]
    · rw [eachDescriptionOnce_cons_of_not_mem hmem,
        eachDescriptionOnce_cons_of_not_mem (mt (h _).mpr hmem)]
      refine congrArg _ (ih fun d => ?_)
      rw [List.mem_cons, List.mem_cons, h]

/-- Steps are kept one part after the other; the descriptions of the first part have then been seen. -/
theorem eachDescriptionOnce_append (seen : List String) (front back : List Step) :
    eachDescriptionOnce seen (front ++ back) = eachDescriptionOnce seen front ++
      eachDescriptionOnce (front.map Step.description ++ seen) back := by
  induction front generalizing seen with
  | nil => rfl
  | cons step rest ih =>
    rw [List.cons_append, List.map_cons]
    by_cases hmem : step.description ∈ seen
    · rw [eachDescriptionOnce_cons_of_mem hmem, eachDescriptionOnce_cons_of_mem hmem, ih]
      refine congrArg _ (eachDescriptionOnce_congr (fun d => ?_) back)
      simp only [List.cons_append, List.mem_cons, List.mem_append]
      exact ⟨Or.inr, fun hor => hor.elim (fun hd => Or.inr (hd ▸ hmem)) id⟩
    · rw [eachDescriptionOnce_cons_of_not_mem hmem, eachDescriptionOnce_cons_of_not_mem hmem, ih,
        List.cons_append]
      refine congrArg _ (congrArg _ (eachDescriptionOnce_congr (fun d => ?_) back))
      simp only [List.cons_append, List.mem_cons, List.mem_append]
      exact or_left_comm

/-- What has been dropped for fewer descriptions would have been dropped anyway. -/
theorem eachDescriptionOnce_idem (h : ∀ d ∈ seen', d ∈ seen) (steps : List Step) :
    eachDescriptionOnce seen (eachDescriptionOnce seen' steps) = eachDescriptionOnce seen steps := by
  induction steps generalizing seen seen' with
  | nil => rfl
  | cons step rest ih =>
    by_cases hmem' : step.description ∈ seen'
    · rw [eachDescriptionOnce_cons_of_mem hmem', eachDescriptionOnce_cons_of_mem (h _ hmem'), ih h]
    · rw [eachDescriptionOnce_cons_of_not_mem hmem']
      by_cases hmem : step.description ∈ seen
      · rw [eachDescriptionOnce_cons_of_mem hmem, eachDescriptionOnce_cons_of_mem hmem,
          ih (List.forall_mem_cons.mpr ⟨hmem, h⟩)]
      · rw [eachDescriptionOnce_cons_of_not_mem hmem, eachDescriptionOnce_cons_of_not_mem hmem,
          ih (List.forall_mem_cons.mpr
            ⟨List.mem_cons_self, fun d hd => List.mem_cons_of_mem _ (h d hd)⟩)]

/-- The descriptions that are seen are those of the steps, whether repetitions are dropped or not. -/
theorem mem_descriptions_iff {d : String} :
    d ∈ (eachDescriptionOnce seen steps).map Step.description ∨ d ∈ seen ↔
      d ∈ steps.map Step.description ∨ d ∈ seen := by
  induction steps generalizing seen with
  | nil => exact Iff.rfl
  | cons step rest ih =>
    rw [List.map_cons, List.mem_cons]
    by_cases hmem : step.description ∈ seen
    · rw [eachDescriptionOnce_cons_of_mem hmem, ih, or_assoc]
      exact ⟨Or.inr, fun hor => hor.elim (fun hd => Or.inr (hd ▸ hmem)) id⟩
    · have hrest := @ih (step.description :: seen)
      rw [List.mem_cons] at hrest
      rw [eachDescriptionOnce_cons_of_not_mem hmem, List.map_cons, List.mem_cons, or_assoc,
        or_left_comm, hrest, or_left_comm, or_assoc]

/-- Dropping repetitions within each part first changes nothing. -/
theorem eachDescriptionOnce_flatMap (seen : List String) (parts : List (List Step)) :
    eachDescriptionOnce seen (parts.flatMap (eachDescriptionOnce [])) =
      eachDescriptionOnce seen parts.flatten := by
  induction parts generalizing seen with
  | nil => rfl
  | cons part rest ih =>
    rw [List.flatMap_cons, List.flatten_cons, eachDescriptionOnce_append, eachDescriptionOnce_append,
      eachDescriptionOnce_idem (List.forall_mem_nil _), ih]
    refine congrArg _ (eachDescriptionOnce_congr (fun d => ?_) _)
    have hsame := @mem_descriptions_iff [] part d
    simp only [List.not_mem_nil, or_false] at hsame
    rw [List.mem_append, List.mem_append, hsame]

theorem eachDescriptionOnce_sublist (seen : List String) (steps : List Step) :
    (eachDescriptionOnce seen steps).Sublist steps := by
  induction steps generalizing seen with
  | nil => exact List.Sublist.refl []
  | cons step rest ih =>
    rw [eachDescriptionOnce]
    split
    next => exact (ih seen).cons step
    next => exact (ih _).cons_cons step

/-- What is kept has descriptions of its own. -/
theorem eachDescriptionOnce_nodup (seen : List String) (steps : List Step) :
    ((eachDescriptionOnce seen steps).map Step.description).Nodup ∧
      ∀ step ∈ eachDescriptionOnce seen steps, step.description ∉ seen := by
  induction steps generalizing seen with
  | nil => exact ⟨List.nodup_nil, List.forall_mem_nil _⟩
  | cons step rest ih =>
    by_cases hmem : step.description ∈ seen
    · rw [eachDescriptionOnce_cons_of_mem hmem]
      exact ih seen
    · rw [eachDescriptionOnce_cons_of_not_mem hmem, List.map_cons, List.nodup_cons,
        List.forall_mem_cons]
      obtain ⟨hnodup, hfresh⟩ := ih (step.description :: seen)
      refine ⟨⟨fun hrepeated => ?_, hnodup⟩, hmem, fun other hother hseen =>
        hfresh other hother (List.mem_cons_of_mem _ hseen)⟩
      obtain ⟨other, hother, hsame⟩ := List.mem_map.mp hrepeated
      exact hfresh other hother (hsame ▸ List.mem_cons_self)

/-- Behind steps that have been seen, a step is kept when no earlier one has its description. -/
theorem eachDescriptionOnce_eq_filter (front back : List Step) :
    eachDescriptionOnce (front.map Step.description) back =
      ((back.zipIdx front.length).filter fun (step, i) => ((front ++ back).take i).all fun earlier =>
        earlier.description != step.description).map Prod.fst := by
  induction back generalizing front with
  | nil => rfl
  | cons step rest ih =>
    have htake : (front ++ step :: rest).take front.length = front := List.take_left
    have hnext := ih (front ++ [step])
    rw [List.append_assoc, List.singleton_append, List.length_append, List.length_singleton] at hnext
    have hseen : ∀ d, d ∈ (front ++ [step]).map Step.description ↔
        d ∈ step.description :: front.map Step.description := by
      intro d
      rw [List.map_append, List.mem_append, List.map_cons, List.map_nil, List.mem_singleton,
        List.mem_cons, or_comm]
    rw [List.zipIdx_cons]
    -- the step in front was seen before, or is the first one with its description
    by_cases hmem : step.description ∈ front.map Step.description
    · obtain ⟨earlier, hearlier, hsame⟩ := List.mem_map.mp hmem
      rw [eachDescriptionOnce_cons_of_mem hmem, List.filter_cons_of_neg, ← hnext]
      · refine eachDescriptionOnce_congr (fun d => ?_) rest
        rw [hseen, List.mem_cons]
        exact ⟨Or.inr, fun hor => hor.elim (fun hd => hd ▸ hmem) id⟩
      · dsimp only
        rw [htake, List.all_eq_true]
        exact fun hall => absurd hsame (bne_iff_ne.mp (hall earlier hearlier))
    · rw [eachDescriptionOnce_cons_of_not_mem hmem, List.filter_cons_of_pos, List.map_cons, ← hnext,
        eachDescriptionOnce_congr hseen]
      dsimp only
      rw [htake, List.all_eq_true]
      exact fun earlier hearlier =>
        bne_iff_ne.mpr fun hsame => hmem (List.mem_map.mpr ⟨earlier, hearlier, hsame⟩)

theorem eachDescriptionOnce_eq_firstOccurrences (steps : List Step) :
    eachDescriptionOnce [] steps = firstOccurrences steps :=
  eachDescriptionOnce_eq_filter [] steps

/-! ## Segments -/

theorem merge?_cons (first : Story) (rest : List Story) : merge? (first :: rest) =
    some ⟨eachDescriptionOnce [] ((first :: rest).flatMap Story.steps), first.header⟩ := rfl

/-- Every group of segments is merged by itself. -/
theorem exists_merged {groups : List (List Story)} (h : ∀ group ∈ groups, group ≠ []) :
    ∃ parts, groups.mapM merge? = some parts ∧
      parts.map Story.steps = groups.map (fun group =>
        eachDescriptionOnce [] (group.flatMap Story.steps)) ∧
      parts.head?.map Story.header = groups.flatten.head?.map Story.header := by
  induction groups with
  | nil => exact ⟨[], rfl, rfl, rfl⟩
  | cons group rest ih =>
    obtain ⟨hgroup, hrest⟩ := List.forall_mem_cons.mp h
    obtain ⟨first, others, rfl⟩ := List.exists_cons_of_ne_nil hgroup
    obtain ⟨parts, hparts, hsteps, -⟩ := ih hrest
    refine ⟨⟨eachDescriptionOnce [] ((first :: others).flatMap Story.steps), first.header⟩ :: parts,
      ?_, ?_, rfl⟩
    · rw [List.mapM_cons, merge?_cons, hparts]
      rfl
    · rw [List.map_cons, List.map_cons, hsteps]

/-- Merging groups of consecutive segments and then their results is merging all segments at once:
the first step with every description is kept, in order, under the header of the first segment. -/
theorem merge?_groups {groups : List (List Story)} (hsome : groups ≠ [])
    (hgroups : ∀ group ∈ groups, group ≠ []) :
    ∃ parts whole, groups.mapM merge? = some parts ∧ merge? parts = some whole ∧
      merge? groups.flatten = some whole ∧
      whole.steps = firstOccurrences (groups.flatten.flatMap Story.steps) ∧
      (whole.steps.map Step.description).Nodup ∧
      whole.steps.Sublist (groups.flatten.flatMap Story.steps) ∧
      some whole.header = groups.flatten.head?.map Story.header := by
  obtain ⟨parts, hparts, hsteps, hheader⟩ := exists_merged hgroups
  obtain ⟨group, rest, rfl⟩ := List.exists_cons_of_ne_nil hsome
  obtain ⟨first, others, rfl⟩ := List.exists_cons_of_ne_nil (hgroups group List.mem_cons_self)
  obtain ⟨part, parts, rfl⟩ : ∃ part others, parts = part :: others := by
    refine List.exists_cons_of_ne_nil fun hnil => ?_
    rw [hnil] at hsteps
    cases hsteps
  set segments := ((first :: others) :: rest).flatten with hsegments
  have hhead : segments.head? = some first := rfl
  -- keeping first occurrences within each group first does not change which ones are kept
  have hwhole : eachDescriptionOnce [] ((part :: parts).flatMap Story.steps) =
      eachDescriptionOnce [] (segments.flatMap Story.steps) := by
    calc eachDescriptionOnce [] ((part :: parts).flatMap Story.steps)
        = eachDescriptionOnce [] ((((first :: others) :: rest).map (List.flatMap Story.steps)).flatMap
            (eachDescriptionOnce [])) := by
          rw [List.flatMap_def, hsteps, List.flatMap_def, List.map_map]
          rfl
      _ = eachDescriptionOnce [] (segments.flatMap Story.steps) := by
          rw [eachDescriptionOnce_flatMap, hsegments, List.flatMap_def, List.map_flatten,
            List.flatten_flatten, List.map_map]
          rfl
  rw [hhead, List.head?_cons, Option.map_some, Option.map_some, Option.some.injEq] at hheader
  refine ⟨part :: parts, ⟨eachDescriptionOnce [] (segments.flatMap Story.steps), first.header⟩,
    hparts, ?_, rfl, eachDescriptionOnce_eq_firstOccurrences _, (eachDescriptionOnce_nodup _ _).1,
    eachDescriptionOnce_sublist _ _, rfl⟩
  rw [merge?_cons, hwhole, hheader]

/-- A step that a later group repeats is told once, where it stands first. -/
theorem merge?_groups_repeated : ∃ parts whole,
    [[note .stack "one"], [note .stack "two", note .stack "one"]].mapM merge? = some parts ∧
      merge? parts = some whole ∧ whole.steps = [Step.note "one", Step.note "two"] := by
  obtain ⟨parts, whole, hparts, hwhole, -, hsteps, -⟩ :=
    @merge?_groups [[note .stack "one"], [note .stack "two", note .stack "one"]]
      (List.cons_ne_nil _ _) (by simp)
  exact ⟨parts, whole, hparts, hwhole, hsteps⟩

end Storyboard.Story
