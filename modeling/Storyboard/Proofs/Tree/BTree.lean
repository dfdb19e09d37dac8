import Storyboard.Tree.BTree
import Storyboard.Proofs.Literal.Order
import Storyboard.Proofs.Simulation.Answers
import Storyboard.Proofs.Sorting.Checked

/-!
# A B-tree splits every fifth key

The keys of a program are those that it inserts, each once, in the order of their first insertions
(`keys_firsts`).  They arrive one by one (`Moves`): each fifth one splits the last five around their
median, which is promoted, and any other one is placed in the leaf (`Tells`).  So the promoted keys are
at any time the medians of the fives that have arrived (`medians`).  The window that is split is the end
of the keys so far; read from all keys by its positions it is the same, and no position is missing on
the way (`insertFrom?_eq`).  The main result is `simulate_splitsFives`.
-/

namespace Storyboard.Tree.BTree

open Sorting (minus? minus?_eq)

variable {before rest promoted soFar : List Literal} {key : Literal} {code : String}

/-! ## The keys of a program -/

/-- The keys that a program inserts, repeated ones included. -/
def collected (code : String) : List Literal :=
  (Source.boundLines code).flatMap fun (line, bindings) =>
    (Source.calls line.text).flatMap (keysOfCall line bindings)

/-- Adds a key that is not the same as one that is kept. -/
def keep (kept : List Literal) (key : Literal) : List Literal :=
  if kept.any key.same then kept else kept ++ [key]

theorem keys_eq_foldl (code : String) : keys code = (collected code).foldl keep [] := rfl

/-- No key is the same as one before it. -/
def Distinct (keys : List Literal) : Prop := keys.Pairwise fun earlier key => ¬ key.same earlier = true

/-- Keys are kept behind those that are kept already, in their order; no two of them are the same, and
each key that is not kept is the same as one that is. -/
theorem foldl_keep (kept arriving : List Literal) (h : Distinct kept) :
    ∃ new, arriving.foldl keep kept = kept ++ new ∧ new.Sublist arriving ∧ Distinct (kept ++ new) ∧
      ∀ key ∈ arriving, ∃ other ∈ kept ++ new, key.same other = true := by
  induction arriving generalizing kept with
  | nil => exact ⟨[], (List.append_nil kept).symm, .slnil, by rwa [List.append_nil], nofun⟩
  | cons key rest ih =>
    rw [List.foldl_cons, keep]
    split
    next hknown =>
      obtain ⟨new, hfold, hsublist, hdistinct, hcovered⟩ := ih kept h
      refine ⟨new, hfold, hsublist.cons key, hdistinct, List.forall_mem_cons.mpr ⟨?_, hcovered⟩⟩
      obtain ⟨other, hother, hsame⟩ := List.any_eq_true.mp hknown
      exact ⟨other, List.mem_append_left new hother, hsame⟩
    next hnew =>
      have hgrown : Distinct (kept ++ [key]) := by
        refine List.pairwise_append.mpr ⟨h, List.pairwise_singleton _ key, fun earlier hearlier => ?_⟩
        rw [List.forall_mem_singleton]
        exact fun hsame => hnew (List.any_eq_true.mpr ⟨earlier, hearlier, hsame⟩)
      obtain ⟨new, hfold, hsublist, hdistinct, hcovered⟩ := ih _ hgrown
      rw [List.append_assoc, List.singleton_append] at hfold hdistinct hcovered
      refine ⟨key :: new, hfold, hsublist.cons_cons key, hdistinct, List.forall_mem_cons.mpr ⟨?_, hcovered⟩⟩
      refine ⟨key, List.mem_append_right kept List.mem_cons_self, ?_⟩
      rw [Literal.same, Literal.cmp_self]
      rfl

/-- Whatever has been collected up to some point is represented in its order by the first keys, and what
is collected later by those behind. -/
theorem keys_firsts {before after : List Literal} (h : collected code = before ++ after) :
    ∃ known later, keys code = known ++ later ∧ known.Sublist before ∧ later.Sublist after ∧
      ∀ key ∈ before, ∃ other ∈ known, key.same other = true := by
  obtain ⟨known, hknown, hfirst, hdistinct, hcovered⟩ := foldl_keep [] before .nil
  obtain ⟨later, hlater, hsecond, -, -⟩ := foldl_keep _ after hdistinct
  rw [List.nil_append] at hknown hlater hcovered
  refine ⟨known, later, ?_, hfirst, hsecond, hcovered⟩
  rw [keys_eq_foldl, h, List.foldl_append, hknown, hlater]

theorem keys_distinct (code : String) : Distinct (keys code) := by
  obtain ⟨new, hnew, -, hdistinct, -⟩ := foldl_keep [] (collected code) .nil
  rw [keys_eq_foldl, hnew]
  exact hdistinct

/-! ## The window that is split -/

/-- The last keys are those of the split, two on each side of the median. -/
structure Split.Ends (split : Split) (earlier soFar : List Literal) : Prop where
  window : soFar = earlier ++ (split.left ++ split.median :: split.right)
  left : split.left.length = 2
  right : split.right.length = 2

variable {split : Split} {earlier : List Literal}

theorem Split.Ends.length_eq (h : split.Ends earlier soFar) : soFar.length = earlier.length + 5 := by
  rw [h.window, List.length_append, List.length_append, List.length_cons, h.left, h.right]

theorem Split.Ends.getElem?_median (h : split.Ends earlier soFar) :
    soFar[earlier.length + 2]? = some split.median := by
  rw [h.window, List.getElem?_append_right (Nat.le_add_right _ _), Nat.add_sub_cancel_left,
    List.getElem?_append_right (Nat.le_of_eq h.left), h.left]
  rfl

theorem maxKeys_eq : maxKeys = 5 := rfl

theorem degree_eq : degree = 3 := rfl

/-- Keys are split when their number is a multiple of five, around the median of the last five. -/
theorem split?_cases (hsome : soFar ≠ []) :
    (¬ 5 ∣ soFar.length ∧ split? soFar = none) ∨
      5 ∣ soFar.length ∧ ∃ split earlier, split? soFar = some split ∧ split.Ends earlier soFar := by
  have hpos := List.length_pos_iff.mpr hsome
  unfold split?
  split
  next hfull =>
    have hfive : 5 ∣ soFar.length := Nat.dvd_of_mod_eq_zero hfull
    have hmany : 5 ≤ soFar.length := Nat.le_of_dvd hpos hfive
    have hlast : (soFar.drop (soFar.length - maxKeys)).length = 5 := by
      rw [List.length_drop]
      exact Nat.sub_sub_self hmany
    generalize hwindow : soFar.drop (soFar.length - maxKeys) = window at hlast
    have hmedian : 2 < window.length := by omega
    rw [List.splitAt_eq, degree_eq, List.drop_eq_getElem_cons hmedian]
    refine Or.inr ⟨hfive, _, soFar.take (soFar.length - maxKeys), rfl, ?_, ?_, ?_⟩
    · show soFar = _ ++ (window.take 2 ++ window[2] :: window.drop 3)
      rw [← List.drop_eq_getElem_cons hmedian, List.take_append_drop, ← hwindow, List.take_append_drop]
    · exact (List.length_take_of_le (by omega))
    · show (window.drop 3).length = 2
      rw [List.length_drop, hlast]
  next hroom => exact Or.inl ⟨fun hfive => hroom (Nat.mod_eq_zero_of_dvd hfive), rfl⟩

/-! ## The medians of the fives -/

/-- The third of each five keys. -/
def medians (keys : List Literal) : List Literal :=
  List.ofFn fun five : Fin (keys.length / 5) => keys.get ⟨5 * five + 2, by omega⟩

theorem length_medians (keys : List Literal) : (medians keys).length = keys.length / 5 :=
  List.length_ofFn

theorem getElem?_medians (keys : List Literal) (five : Nat) :
    (medians keys)[five]? = if five < keys.length / 5 then keys[5 * five + 2]? else none := by
  rw [medians, List.getElem?_ofFn]
  split
  next h => exact (List.getElem?_eq_getElem (by omega)).symm
  next => rfl

/-- A key that does not complete a five leaves the medians. -/
theorem medians_of_room (h : ¬ 5 ∣ before.length + 1) (key : Literal) :
    medians (before ++ [key]) = medians before := by
  refine List.ext_getElem? fun five => ?_
  have hfives : (before ++ [key]).length / 5 = before.length / 5 := by
    rw [List.length_append, List.length_singleton]
    omega
  rw [getElem?_medians, getElem?_medians, hfives]
  split
  next hfive => exact List.getElem?_append_left (by omega)
  next => rfl

/-- A key that completes a five adds its median. -/
theorem medians_of_full (hfull : 5 ∣ before.length + 1) (h : split.Ends earlier (before ++ [key])) :
    medians (before ++ [key]) = medians before ++ [split.median] := by
  have hlength := h.length_eq
  rw [List.length_append, List.length_singleton] at hlength
  have hcount : (before ++ [key]).length / 5 = before.length / 5 + 1 := by
    rw [List.length_append, List.length_singleton]
    omega
  refine List.ext_getElem? fun five => ?_
  rw [getElem?_medians, hcount]
  rcases Nat.lt_or_ge five (before.length / 5) with hlt | hge
  · rw [if_pos (Nat.lt_succ_of_lt hlt), List.getElem?_append_left (by omega),
      List.getElem?_append_left (by rwa [length_medians]), getElem?_medians, if_pos hlt]
  · have hbehind : (medians before ++ [split.median])[five]? =
        [split.median][five - before.length / 5]? := by
      rw [List.getElem?_append_right (by rwa [length_medians]), length_medians]
    rw [hbehind]
    rcases Nat.eq_or_lt_of_le hge with heq | hgt
    · rw [if_pos (by omega), show 5 * five + 2 = earlier.length + 2 by omega, h.getElem?_median, heq,
        Nat.sub_self]
      rfl
    · rw [if_neg (by omega), List.getElem?_eq_none]
      rw [List.length_singleton]
      omega

/-! ## What the steps tell -/

/-- The step of a key that arrives, the last one so far. -/
def arrivalStep (soFar promoted : List Literal) (key : Literal) : Step :=
  (stepWith "insert" s!"Insert key {key.shown}"
    [("inserted", keysJson soFar), ("promoted", keysJson promoted)]).withValue key.toJson

/-- The promoted keys after a key that arrives, and the steps that tell of it. -/
def arrive (soFar promoted : List Literal) (key : Literal) : Option Split → List Literal × List Step
  | some split => (promoted ++ [split.median],
      arrivalStep soFar promoted key :: splitSteps split (promoted ++ [split.median]))
  | none => (promoted, [arrivalStep soFar promoted key, leafStep soFar key])

theorem insertAll_cons (before promoted : List Literal) (key : Literal) (rest : List Literal) :
    insertAll before promoted (key :: rest) =
      (let soFar := before ++ [key]
      let (promoted, part) := arrive soFar promoted key (split? soFar)
      let (last, more) := insertAll soFar promoted rest
      (last, part ++ more)) := by
  rw [insertAll]
  dsimp only
  cases split? (before ++ [key]) <;> rfl

/-- What a step does to the keys that have arrived. -/
inductive Moves : List Literal → Step → List Literal → Prop
  | insert {before : List Literal} {key : Literal} {step : Step} (action : step.action = "insert")
      (told : step.value = some key.toJson)
      (inserted : step.vars.lookup "inserted" = some (keysJson (before ++ [key])))
      (promoted : step.vars.lookup "promoted" = some (keysJson (medians before))) :
      Moves before step (before ++ [key])
  | keep {keys : List Literal} {step : Step}
      (quiet : step.action ∈ ["split_node", "promote", "insert_leaf"]) : Moves keys step keys

/-- The step tells of the split. -/
structure ShowsSplit (split : Split) (step : Step) : Prop where
  action : step.action = "split_node"
  told : step.value = some split.median.toJson
  left : step.vars.lookup "left" = some (keysJson split.left)
  right : step.vars.lookup "right" = some (keysJson split.right)
  median : step.vars.lookup "median" = some split.median.toJson

/-- The steps that tell of a key that arrives behind others: it fills a five, whose median is promoted,
or else is placed in the leaf. -/
inductive Tells (before : List Literal) (key : Literal) : List Step → Prop
  | split {arrival splitting promotion : Step} {split : Split} {earlier : List Literal}
      (full : 5 ∣ before.length + 1) (ends : split.Ends earlier (before ++ [key]))
      (arrives : arrival.action = "insert") (arrived : arrival.value = some key.toJson)
      (splits : ShowsSplit split splitting)
      (promotes : promotion.action = "promote")
      (promoted : promotion.value = some split.median.toJson)
      (medians : promotion.vars.lookup "promoted" = some (keysJson (medians (before ++ [key])))) :
      Tells before key [arrival, splitting, promotion]
  | leaf {arrival placing : Step} (room : ¬ 5 ∣ before.length + 1)
      (arrives : arrival.action = "insert") (arrived : arrival.value = some key.toJson)
      (places : placing.action = "insert_leaf") (placed : placing.value = some key.toJson)
      (inserted : placing.vars.lookup "inserted" = some (keysJson (before ++ [key]))) :
      Tells before key [arrival, placing]

/-- A key is answered, and the promoted keys are the medians again. -/
theorem arrive_answer (before : List Literal) (key : Literal) :
    ∃ part, arrive (before ++ [key]) (medians before) key (split? (before ++ [key])) =
        (medians (before ++ [key]), part) ∧ Answer Moves Tells before key part (before ++ [key]) := by
  have harrival : Moves before (arrivalStep (before ++ [key]) (medians before) key) (before ++ [key]) :=
    .insert rfl rfl rfl rfl
  have hlength : (before ++ [key]).length = before.length + 1 := List.length_append
  obtain ⟨hroom, hnone⟩ | ⟨hfull, split, earlier, hsome, hends⟩ :=
    split?_cases (List.append_ne_nil_of_right_ne_nil before (List.cons_ne_nil key []))
  · rw [hlength] at hroom
    rw [hnone, arrive, medians_of_room hroom key]
    exact ⟨_, rfl, .leaf hroom rfl rfl rfl rfl rfl,
      .cons harrival (.single (.keep (List.mem_of_elem_eq_true rfl)))⟩
  · rw [hlength] at hfull
    rw [hsome, arrive, ← medians_of_full hfull hends]
    exact ⟨_, rfl, .split hfull hends rfl rfl ⟨rfl, rfl, rfl, rfl, rfl⟩ rfl rfl rfl,
      .cons harrival (.cons (.keep (List.mem_of_elem_eq_true rfl))
        (.single (.keep (List.mem_of_elem_eq_true rfl))))⟩

/-- Keys behind others are answered one after the other, and in the end the medians of all are
promoted. -/
theorem insertAll_answers (before rest : List Literal) :
    ∃ told, insertAll before (medians before) rest = (medians (before ++ rest), told) ∧
      Answers Moves Tells before rest told (before ++ rest) := by
  induction rest generalizing before with
  | nil =>
    rw [List.append_nil]
    exact ⟨[], rfl, .nil⟩
  | cons key rest ih =>
    obtain ⟨part, harrive, hanswer⟩ := arrive_answer before key
    obtain ⟨told, hinsert, hanswers⟩ := ih (before ++ [key])
    refine ⟨part ++ told, ?_, ?_⟩
    · simp only [insertAll_cons, harrive, hinsert, List.append_assoc, List.singleton_append]
    · rw [List.append_cons before key rest]
      exact .cons hanswer hanswers

/-! ## Positions in the keys -/

/-- The keys between two positions, if both exist and the first is not behind the second. -/
def slice? (keys : List Literal) (low high : Nat) : Option (List Literal) :=
  if low ≤ high ∧ high ≤ keys.length then some ((keys.take high).drop low) else none

theorem slice?_append (before keys after : List Literal) :
    slice? (before ++ (keys ++ after)) before.length (before.length + keys.length) = some keys := by
  rw [slice?, if_pos, ← List.append_assoc, ← List.length_append, List.take_left, List.drop_left]
  rw [List.length_append, List.length_append]
  omega

/-- The window that key number `i` fills, if it fills one, cut out of all keys; the beginning of the
window may be cut off at the first key. -/
def splitAt? (keys : List Literal) (i : Nat) : Option (Option Split) :=
  if (i + 1) % maxKeys = 0 then do
    let ⟨middle, _⟩ ← minus? i 2
    let median ← keys[middle]?
    let left ← slice? keys (i - 4) middle
    let ⟨behind, _⟩ ← minus? i 1
    let right ← slice? keys behind (i + 1)
    return some ⟨left, median, right⟩
  else return none

/-- Inserts the keys from number `i` on, each with its position in all keys. -/
def insertFrom? (keys : List Literal) : Nat → List Literal → List Literal →
    Option (List Literal × List Step)
  | _, promoted, [] => some (promoted, [])
  | i, promoted, key :: rest => do
    let soFar ← slice? keys 0 (i + 1)
    let split ← splitAt? keys i
    let (promoted, part) := arrive soFar promoted key split
    let (last, more) ← insertFrom? keys (i + 1) promoted rest
    return (last, part ++ more)

theorem Split.Ends.slice?_left (h : split.Ends earlier soFar) (rest : List Literal) :
    slice? (soFar ++ rest) earlier.length (earlier.length + 2) = some split.left := by
  have hslice := slice?_append earlier split.left (split.median :: split.right ++ rest)
  rw [h.left] at hslice
  rw [h.window, ← hslice]
  simp only [List.append_assoc]

theorem Split.Ends.slice?_right (h : split.Ends earlier soFar) (rest : List Literal) :
    slice? (soFar ++ rest) (earlier.length + 3) (earlier.length + 5) = some split.right := by
  have hslice := slice?_append (earlier ++ split.left ++ [split.median]) split.right rest
  rw [List.length_append, List.length_append, h.left, h.right] at hslice
  rw [h.window, ← hslice]
  simp only [List.append_assoc, List.cons_append, List.nil_append]
  rfl

/-- All positions of a window exist, and it is the one at the end of the keys so far. -/
theorem splitAt?_eq (before rest : List Literal) (key : Literal) :
    splitAt? (before ++ [key] ++ rest) before.length = some (split? (before ++ [key])) := by
  have hlength : (before ++ [key]).length = before.length + 1 := List.length_append
  obtain ⟨hroom, hnone⟩ | ⟨hfull, split, earlier, hsome, hends⟩ :=
    split?_cases (List.append_ne_nil_of_right_ne_nil before (List.cons_ne_nil key []))
  · rw [hlength] at hroom
    rw [splitAt?, maxKeys_eq, if_neg fun hfull => hroom (Nat.dvd_of_mod_eq_zero hfull), hnone]
    rfl
  · -- the key that fills the window has number `earlier.length + 4`
    have hbefore : before.length = earlier.length + 4 := by
      have hends := hends.length_eq
      omega
    have hmedian : (before ++ [key] ++ rest)[earlier.length + 2]? = some split.median := by
      rw [List.getElem?_append_left (by omega)]
      exact hends.getElem?_median
    rw [hlength, hbefore] at hfull
    rw [hsome, hbefore, splitAt?, maxKeys_eq, if_pos (Nat.mod_eq_zero_of_dvd hfull),
      minus?_eq (by omega), minus?_eq (by omega)]
    show (do
      let median ← (before ++ [key] ++ rest)[earlier.length + 2]?
      let left ← slice? (before ++ [key] ++ rest) earlier.length (earlier.length + 2)
      let right ← slice? (before ++ [key] ++ rest) (earlier.length + 3) (earlier.length + 5)
      return some ⟨left, median, right⟩) = some (some split)
    rw [hmedian, hends.slice?_left, hends.slice?_right]
    rfl

/-- The run with positions succeeds, and it is the run itself. -/
theorem insertFrom?_eq (before promoted rest : List Literal) :
    insertFrom? (before ++ rest) before.length promoted rest = some (insertAll before promoted rest) := by
  induction rest generalizing before promoted with
  | nil => rfl
  | cons key rest ih =>
    have hsoFar : slice? (before ++ [key] ++ rest) 0 (before.length + 1) = some (before ++ [key]) := by
      have hslice := slice?_append [] (before ++ [key]) rest
      rw [List.length_append] at hslice
      simpa using hslice
    have hsplit := splitAt?_eq before rest key
    have hrest := ih (before ++ [key]) (arrive (before ++ [key]) promoted key (split? (before ++ [key]))).1
    rw [List.length_append, List.length_singleton] at hrest
    rw [List.append_cons before key rest, insertFrom?, insertAll_cons]
    simp only [hsoFar, hsplit, Option.bind_eq_bind, Option.bind_some, hrest]
    rfl

/-! ## The story of a program -/

/-- The last step. -/
def finishStep (keys promoted : List Literal) : Step :=
  stepWith "finish" s!"B-Tree holds {Decimal.intText keys.length} keys"
    [("keys", keysJson keys), ("promoted", keysJson promoted)]

/-- The steps of a run with positions. -/
def stepsOf? (keys : List Literal) : Option (List Step) := do
  let (promoted, told) ← insertFrom? keys 0 [] keys
  return openingSteps keys ++ told ++ [finishStep keys promoted]

theorem stepsOf?_eq (keys : List Literal) : stepsOf? keys = some (stepsOf keys) := by
  have hinsert := insertFrom?_eq [] [] keys
  rw [List.nil_append, List.length_nil] at hinsert
  rw [stepsOf?, hinsert]
  rfl

theorem steps_simulate (h : 0 < (keys code).length) : (simulate code).steps = stepsOf (keys code) := by
  unfold simulate
  cases hkeys : keys code with
  | nil =>
    rw [hkeys] at h
    nomatch h
  | cons key rest => rfl

/-- What is told of a B-tree in a program. -/
structure SplitsFives (code : String) : Prop where
  /-- No key is the same as one before it. -/
  distinct : Distinct (keys code)
  /-- The keys are what the program inserts, in the order of their first insertions. -/
  firsts : ∀ before after, collected code = before ++ after →
    ∃ known later, keys code = known ++ later ∧ known.Sublist before ∧ later.Sublist after ∧
      ∀ key ∈ before, ∃ other ∈ known, key.same other = true
  /-- All positions in the keys exist. -/
  inRange : stepsOf? (keys code) = some (simulate code).steps
  /-- The keys are told one after the other, and then the medians of all. -/
  told : ∃ told finish, (simulate code).steps = openingSteps (keys code) ++ told ++ [finish] ∧
    Answers Moves Tells [] (keys code) told (keys code) ∧ finish.action = "finish" ∧
    finish.vars.lookup "promoted" = some (keysJson (medians (keys code)))
  /-- There is a median for each full five. -/
  count : (medians (keys code)).length = (keys code).length / 5
  /-- It is the third of its five. -/
  thirds : ∀ five < (keys code).length / 5, (medians (keys code))[five]? = (keys code)[5 * five + 2]?

/-- A program that inserts keys into a B-tree is told five by five. -/
theorem simulate_splitsFives (code : String) (hkeys : 0 < (keys code).length) : SplitsFives code where
  distinct := keys_distinct code
  firsts _ _ h := keys_firsts h
  inRange := by rw [steps_simulate hkeys, stepsOf?_eq]
  told := by
    obtain ⟨told, hinsert, hanswers⟩ := insertAll_answers [] (keys code)
    refine ⟨told, finishStep (keys code) (medians (keys code)), ?_, hanswers, rfl, rfl⟩
    rw [steps_simulate hkeys, stepsOf, show insertAll [] [] (keys code) = _ from hinsert]
    rfl
  count := length_medians (keys code)
  thirds five hfive := by rw [getElem?_medians, if_pos hfive]

/-- Eleven keys, two of which come twice. -/
def twiceSplitCode : String :=
  "bt = BTree(3)\nfor k in [10, 20, 5, 6, 12, 30, 20, 7, 17, 3, 1, 10, 8]:\n    bt.insert(k)\n"

theorem simulate_splitsFives_twice :
    0 < (keys twiceSplitCode).length ∧
      ((simulate twiceSplitCode).steps.filter fun step => step.action == "promote").map
          Step.description =
        ["Promote 5 to the parent node", "Promote 17 to the parent node"] ∧
      SplitsFives twiceSplitCode := by
  have hkeys : 0 < (keys twiceSplitCode).length := by decide +kernel
  exact ⟨hkeys, by decide +kernel, simulate_splitsFives twiceSplitCode hkeys⟩

end Storyboard.Tree.BTree
