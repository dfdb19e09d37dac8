import Mathlib
import Storyboard.Proofs.Json.Canonical
import Storyboard.Proofs.Json.Written
import Storyboard.Proofs.Memory.Learned
import Storyboard.Proofs.Memory.Log

/-!
# The file of actions

A directory keeps the actions of all labels in one file.  What is written there is read back under
every label, so that a directory learns as a shelf and a table do.  When the file cannot be read, every
call fails, and none of them changes it.
-/

namespace Storyboard.Memory

namespace Directory

/-! ## Files of actions -/

theorem mapM_eq_some {α β : Type} {f : α → Option β} {g : α → β} {items : List α}
    (h : ∀ item ∈ items, f item = some (g item)) : items.mapM f = some (items.map g) := by
  induction items with
  | nil => rfl
  | cons item rest ih =>
    rw [List.forall_mem_cons] at h
    rw [List.mapM_cons, h.1, ih h.2]
    rfl

theorem texts?_arr (actions : List String) :
    texts? (.arr (actions.map Json.str)) = some actions := by
  induction actions with
  | nil => rfl
  | cons action rest ih =>
    rw [texts?] at ih ⊢
    rw [List.map_cons, List.mapM_cons, ih]
    rfl

/-- The member of a file for the actions of a label. -/
def member (entry : String × List String) : String × Json :=
  (entry.1, .arr (entry.2.map Json.str))

theorem areExact_texts (actions : List String) : Json.areExact (actions.map Json.str) = true := by
  induction actions with
  | nil => rfl
  | cons action rest ih =>
    rw [List.map_cons, Json.areExact, ih]
    rfl

theorem itemsDepth_texts (actions : List String) :
    Json.itemsDepth (actions.map Json.str) = 0 := by
  induction actions with
  | nil => rfl
  | cons action rest ih =>
    rw [List.map_cons, Json.itemsDepth, ih]
    rfl

theorem member_injective : Function.Injective member := by
  rintro ⟨label, actions⟩ ⟨other, others⟩ h
  obtain ⟨hlabel, hactions⟩ := Prod.mk.inj h
  obtain rfl : label = other := hlabel
  obtain rfl : actions = others :=
    List.map_injective_iff.mpr (fun _ _ => Json.str.inj) (Json.arr.inj hactions)
  rfl

/-- A file of actions holds no numbers. -/
theorem membersAreExact_members (entries : List (String × List String)) :
    Json.membersAreExact (entries.map member) = true := by
  induction entries with
  | nil => rfl
  | cons entry rest ih =>
    rw [List.map_cons, member, Json.membersAreExact, Json.isExact, areExact_texts, ih]
    rfl

theorem membersDepth_members (entries : List (String × List String)) :
    Json.membersDepth (entries.map member) ≤ 1 := by
  induction entries with
  | nil => exact Nat.zero_le 1
  | cons entry rest ih =>
    rw [List.map_cons, member, Json.membersDepth, Json.depth, itemsDepth_texts]
    omega

theorem parseAsWritten?_actionsText {entries sorted : List (String × List String)}
    (h : Json.sortMembers (entries.map member) = sorted.map member) :
    Json.parseAsWritten? (actionsText entries) = some (.obj (sorted.map member)) := by
  have hexact : (Json.obj (sorted.map member)).isExact = true := membersAreExact_members sorted
  have hdepth : (Json.obj (sorted.map member)).depth ≤ Json.depthLimit :=
    Nat.le_trans (Nat.succ_le_succ (membersDepth_members sorted)) (by decide)
  show Json.parseAsWritten? (Json.pretty (.obj (Json.sortMembers (entries.map member)))) = _
  rw [h, Json.pretty, Json.parseAsWritten?_of_writes hexact (Json.writes_pretty 0 _ hexact),
    if_pos hdepth]

/-- What is written to a file of actions is read back, in the order of the labels. -/
theorem actionsOfText?_actionsText {entries : List (String × List String)}
    (h : KeysOnce entries) : ∃ sorted : List (String × List String), sorted.Perm entries ∧
      actionsOfText? (actionsText entries) =
        some (sorted.map fun entry => (entry.1, sortActions entry.2)) := by
  have hmembers : KeysOnce (entries.map member) := by
    rw [KeysOnce, List.map_map]
    exact h
  have hperm := Json.sortMembers_perm hmembers
  -- the sorted members are those of sorted entries, since a member keeps its label
  obtain ⟨sorted, hsorted⟩ : Json.sortMembers (entries.map member) ∈ Set.range (List.map member) := by
    rw [Set.range_list_map]
    intro m hm
    obtain ⟨entry, -, rfl⟩ := List.mem_map.mp (hperm.mem_iff.mp hm)
    exact ⟨entry, rfl⟩
  rw [← hsorted, List.map_perm_map_iff member_injective] at hperm
  refine ⟨sorted, hperm, ?_⟩
  have hread : ((sorted.map member).mapM fun m => (texts? m.2).map fun actions => (m.1, actions)) =
      some sorted := by
    have hmember : ∀ entry ∈ sorted, (texts? (member entry).2).map
        (fun actions => ((member entry).1, actions)) = some (id entry) := by
      intro entry _
      rw [member, texts?_arr]
      rfl
    rw [List.mapM_map]
    exact (mapM_eq_some hmember).trans (congrArg some (List.map_id sorted))
  have honce : KeysOnce (sorted.map fun entry => (entry.1, sortActions entry.2)) := by
    rw [KeysOnce, List.map_map]
    exact h.perm hperm
  rw [actionsOfText?, parseAsWritten?_actionsText hsorted.symm]
  dsimp only
  rw [hread]
  show some _ = some _
  rw [← honce.ofList_eq, Ordered.ofList, List.foldl_map]

theorem find?_map_sortActions (label : String) (entries : List (String × List String)) :
    Ordered.find? label (entries.map fun entry => (entry.1, sortActions entry.2)) =
      (Ordered.find? label entries).map sortActions := by
  induction entries with
  | nil => rfl
  | cons entry rest ih =>
    rw [List.map_cons, Ordered.find?, Ordered.find?, ih]
    split <;> rfl

/-- The actions of all labels are kept apart by their labels. -/
theorem keysOnce_of_actionsOfText? {text : String} {entries : List (String × List String)}
    (h : actionsOfText? text = some entries) : KeysOnce entries := by
  have hfold : ∀ (sets entries : List (String × List String)), KeysOnce entries →
      KeysOnce (sets.foldl (fun entries set =>
        Ordered.put set.1 (sortActions set.2) entries) entries) := by
    intro sets
    induction sets with
    | nil => exact fun _ h => h
    | cons set rest ih => exact fun entries h => ih _ (h.put set.1 (sortActions set.2))
  rw [actionsOfText?] at h
  split at h
  next members _ =>
    rw [Option.bind_eq_bind, Option.bind_eq_some_iff] at h
    obtain ⟨sets, -, hsets⟩ := h
    rw [← Option.some.inj hsets]
    exact hfold sets [] List.nodup_nil
  next => cases h

/-! ## Directories -/

variable {directory : Directory} {known : String → Finset String}

theorem keysOnce_of_actions {entries : List (String × List String)}
    (h : directory.actions = .ok entries) : KeysOnce entries := by
  rw [actions] at h
  split at h
  next => cases h
  next =>
    rw [← Except.ok.inj h]
    exact List.nodup_nil
  next text _ =>
    split at h
    next found hfound =>
      rw [← Except.ok.inj h]
      exact keysOnce_of_actionsOfText? hfound
    next => cases h

theorem actions_write_ne {name : String} (h : actionsName ≠ name) (text : String) :
    (directory.write name text).actions = directory.actions := by
  rw [actions, actions, read?_write_ne h]

/-- Written actions are read again under every label. -/
theorem actions_write_actionsText (directory : Directory) {entries : List (String × List String)}
    (h : KeysOnce entries) :
    ∃ found, (directory.write actionsName (actionsText entries)).actions = .ok found ∧
      ∀ label, Ordered.find? label found = (Ordered.find? label entries).map sortActions := by
  obtain ⟨sorted, hperm, hread⟩ := actionsOfText?_actionsText h
  refine ⟨sorted.map fun entry => (entry.1, sortActions entry.2), ?_, fun label => ?_⟩
  · rw [actions, read?_write_self (by decide)]
    dsimp only
    rw [hread]
  · rw [find?_map_sortActions, Ordered.find?_eq_lookup, Ordered.find?_eq_lookup, h.lookup_perm hperm]

theorem locked_of_closed {α : Type} {closed : Failure}
    (hlock : directory.read? lockName = .error closed) (operation : Operation Directory α) :
    locked operation directory = (.error closed, directory) := by
  rw [locked, hlock]

theorem learned_eq_locked (label : String) (directory : Directory) :
    cache.learned label directory = locked (fun directory => (directory.actions.map fun entries =>
      (Ordered.find? label entries).getD [], directory)) directory :=
  rfl

/-- Under an open lock the file of actions is read as if there was none. -/
theorem learned_eq {lock : Option String} (hlock : directory.read? lockName = .ok lock)
    (label : String) : cache.learned label directory =
      (directory.actions.map fun entries => (Ordered.find? label entries).getD [],
        directory.write lockName (lock.getD "")) := by
  rw [learned_eq_locked, locked, hlock]
  show (Except.map _ (directory.write lockName (lock.getD "")).actions, _) = _
  rw [actions_write_ne (by decide)]

theorem learn_eq {lock : Option String} (hlock : directory.read? lockName = .ok lock)
    (label : String) (new : List String) :
    cache.learn label new directory =
      learnActions label new (directory.write lockName (lock.getD "")) := by
  show locked (learnActions label new) directory = _
  rw [locked, hlock]

/-- A directory knows what its file of actions holds, if its lock can be opened. -/
theorem knows_iff : cache.Knows directory known ↔ directory.IsOpen ∧
    ∃ entries, directory.actions = .ok entries ∧
      ∀ label, (Ordered.find? label entries).getD [] = (known label).sort := by
  constructor
  · intro h
    cases hlock : directory.read? lockName with
    | error failure =>
      -- an answer to any label shows that the lock was opened
      have hclosed := h ""
      rw [learned_eq_locked, locked_of_closed hlock] at hclosed
      cases hclosed
    | ok lock =>
      have hlabel : ∀ label, (directory.actions.map fun entries =>
          (Ordered.find? label entries).getD []) = .ok (known label).sort := by
        intro label
        have hanswer := h label
        rwa [learned_eq hlock] at hanswer
      cases hactions : directory.actions with
      | error failure =>
        rw [hactions] at hlabel
        cases hlabel ""
      | ok entries =>
        rw [hactions] at hlabel
        exact ⟨⟨lock, hlock⟩, entries, rfl, fun label => Except.ok.inj (hlabel label)⟩
  · rintro ⟨⟨lock, hlock⟩, entries, hactions, hentries⟩ label
    rw [learned_eq hlock, hactions]
    exact congrArg Except.ok (hentries label)

theorem Knows.write_lock (h : cache.Knows directory known) (text : String) :
    cache.Knows (directory.write lockName text) known := by
  obtain ⟨-, entries, hactions, hentries⟩ := Iff.mp knows_iff h
  refine Iff.mpr knows_iff ⟨isOpen_write_lock directory text, entries, ?_, hentries⟩
  rw [actions_write_ne (by decide), hactions]

/-- An entry for the union of what is known and what is new grows the entries, sorted as they are
when they are read again. -/
theorem sort_grow_eq {entries : List (String × List String)}
    (hentries : ∀ label, (Ordered.find? label entries).getD [] = (known label).sort)
    (label : String) (new : List String) (other : String) :
    ((Ordered.find? other (Ordered.put label
      (sortActions ((known label).sort ++ (new.toFinset \ known label).sort)) entries)).map
        sortActions).getD [] = (Actions.grow known (.learn label new) other).sort := by
  by_cases hlabel : label = other
  · subst hlabel
    rw [Ordered.find?_put_self, Actions.grow_learn_self, Option.map_some, Option.getD_some,
      sortActions_eq, sortActions_eq, Finset.sort_toFinset, List.toFinset_append,
      Finset.sort_toFinset, Finset.sort_toFinset, Finset.union_sdiff_self_eq_union]
  · have hother := hentries other
    rw [Ordered.find?_put_ne (Ne.symm hlabel), Actions.grow_learn_ne known hlabel]
    cases hentry : Ordered.find? other entries with
    | none =>
      rw [hentry] at hother
      exact hother
    | some actions =>
      rw [hentry] at hother
      rw [Option.map_some, Option.getD_some, sortActions_eq, ← Option.getD_some (a := actions),
        hother, Finset.sort_toFinset]

/-- Learning answers with the new actions, and then the file of actions holds them too. -/
theorem learnActions_of_knows (h : cache.Knows directory known) (label : String)
    (new : List String) :
    (learnActions label new directory).1 = .ok (new.toFinset \ known label).sort ∧
      cache.Knows (learnActions label new directory).2
        (Actions.grow known (.learn label new)) := by
  obtain ⟨hopen, entries, hactions, hentries⟩ := Iff.mp knows_iff h
  have hadded : unknownAmong ((Ordered.find? label entries).getD []) new =
      (new.toFinset \ known label).sort := by
    rw [unknownAmong_eq, hentries, Finset.sort_toFinset]
  rw [learnActions, hactions]
  dsimp only
  rw [hadded, hentries]
  split
  next hempty =>
    -- nothing is written when nothing is new
    have hsubset := congrArg List.toFinset (List.isEmpty_iff.mp hempty)
    rw [Finset.sort_toFinset, List.toFinset_nil, Finset.sdiff_eq_empty_iff_subset] at hsubset
    rw [Actions.grow_learn_of_subset hsubset]
    exact ⟨by rw [List.isEmpty_iff.mp hempty], h⟩
  next =>
    have honce := keysOnce_of_actions hactions
    obtain ⟨found, hfound, hfind⟩ := actions_write_actionsText directory
      (honce.put label (sortActions ((known label).sort ++ (new.toFinset \ known label).sort)))
    refine ⟨rfl, Iff.mpr knows_iff
      ⟨hopen.write (by decide) _, found, hfound, fun other => ?_⟩⟩
    rw [hfind, sort_grow_eq hentries]

theorem isFaithful_cache : cache.IsFaithful where
  learn := by
    intro directory known h label actions
    obtain ⟨⟨lock, hlock⟩, -⟩ := Iff.mp knows_iff h
    rw [learn_eq hlock]
    exact (learnActions_of_knows (Knows.write_lock h _) label actions).1
  knows := by
    intro directory known h call
    obtain ⟨⟨lock, hlock⟩, -⟩ := Iff.mp knows_iff h
    cases call with
    | learned label =>
      intro other
      show (cache.learned other (cache.learned label directory).2).1 = _
      rw [learned_eq hlock, Actions.grow_learned]
      exact Knows.write_lock h _ other
    | learn label actions =>
      show cache.Knows (cache.learn label actions directory).2 _
      rw [learn_eq hlock]
      exact (learnActions_of_knows (Knows.write_lock h _) label actions).2

theorem knows_empty : cache.Knows {} fun _ => ∅ :=
  Iff.mpr knows_iff ⟨⟨none, rfl⟩, [], rfl, fun _ => (Finset.sort_empty _).symm⟩

/-! ## Files that cannot be read -/

/-- Without a readable file of actions a call fails, and the file stays as it is. -/
theorem answer_of_unreadable {failure : Failure} (h : directory.actions = .error failure)
    (call : Call) : (∃ failure, (cache.answer call directory).1 = .error failure) ∧
      (cache.answer call directory).2.read? actionsName = directory.read? actionsName := by
  have hne : actionsName ≠ lockName := by decide
  cases hlock : directory.read? lockName with
  | error closed =>
    have hclosed : cache.answer call directory = (.error closed, directory) := by
      cases call with
      | learn label actions => exact locked_of_closed hlock _
      | learned label => exact (learned_eq_locked label directory).trans (locked_of_closed hlock _)
    rw [hclosed]
    exact ⟨⟨closed, rfl⟩, rfl⟩
  | ok lock =>
    -- with the lock open the call comes to the file, and writes nothing but the lock
    have hopened : cache.answer call directory =
        (.error failure, directory.write lockName (lock.getD "")) := by
      cases call with
      | learn label actions =>
        show cache.learn label actions directory = _
        rw [learn_eq hlock, learnActions, actions_write_ne hne, h]
      | learned label =>
        show cache.learned label directory = _
        rw [learned_eq hlock, h]
        rfl
    rw [hopened]
    exact ⟨⟨failure, rfl⟩, read?_write_ne hne _⟩

/-- No run of calls changes a file of actions that cannot be read. -/
theorem transcript_of_unreadable {failure : Failure} (h : directory.actions = .error failure)
    (calls : List Call) :
    (∀ made ∈ cache.transcript directory calls, ∃ failure, made.2 = .error failure) ∧
      (cache.after directory calls).read? actionsName = directory.read? actionsName := by
  induction calls generalizing directory with
  | nil => exact ⟨List.forall_mem_nil _, rfl⟩
  | cons call rest ih =>
    obtain ⟨hanswer, hread⟩ := answer_of_unreadable h call
    -- what is not changed cannot be read afterwards either
    have hactions : (cache.answer call directory).2.actions = .error failure := by
      rw [actions, hread, ← h, actions]
    obtain ⟨hrest, hafter⟩ := ih hactions
    rw [Actions.transcript_cons, List.forall_mem_cons]
    exact ⟨⟨hanswer, hrest⟩, hafter.trans hread⟩

theorem actions_of_unparsed {text : String} (hfile : directory.read? actionsName = .ok (some text))
    (htext : actionsOfText? text = none) : directory.actions = .error .undecodable := by
  rw [actions, hfile]
  dsimp only
  rw [htext]

end Directory

/-- Over any calls an empty shelf, an empty directory and an empty table learn the same, and give the
same answers.  A directory whose file of actions does not parse answers every call with a failure, and
the file keeps its text. -/
theorem caches_learn (calls : List Call) :
    Shelf.cache.Learns {} calls ∧ Directory.cache.Learns {} calls ∧ Table.cache.Learns {} calls ∧
    Directory.cache.transcript {} calls = Shelf.cache.transcript {} calls ∧
    Table.cache.transcript {} calls = Shelf.cache.transcript {} calls ∧
    ∀ (directory : Directory) (text : String),
      directory.read? Directory.actionsName = .ok (some text) →
      Directory.actionsOfText? text = none →
      (∀ made ∈ Directory.cache.transcript directory calls, ∃ failure, made.2 = .error failure) ∧
        (Directory.cache.after directory calls).read? Directory.actionsName = .ok (some text) := by
  have hshelf := Shelf.isFaithful_cache
  have hdirectory := Directory.isFaithful_cache
  have htable := Table.isFaithful_cache
  refine ⟨hshelf.learns Shelf.knows_empty calls, hdirectory.learns Directory.knows_empty calls,
    htable.learns Table.knows_empty calls,
    hdirectory.transcript_eq hshelf Directory.knows_empty Shelf.knows_empty calls,
    htable.transcript_eq hshelf Table.knows_empty Shelf.knows_empty calls, ?_⟩
  intro directory text hfile htext
  rw [← hfile]
  exact Directory.transcript_of_unreadable (Directory.actions_of_unparsed hfile htext) calls

/-- Calls that teach under one label twice and under another one once. -/
def lessons : List Call :=
  [.learn "stack" ["push", "pop"], .learn "queue" ["pop"], .learn "stack" ["pop", "peek"],
    .learned "stack"]

/-- A directory whose file of actions was cut off. -/
def cutOff : Directory := ⟨[(Directory.actionsName, .file "\x7b\"stack\": [\"pu")]⟩

theorem caches_learn_lessons : Directory.cache.Learns {} lessons ∧
    (∀ made ∈ Directory.cache.transcript cutOff lessons, ∃ failure, made.2 = .error failure) ∧
    (Directory.cache.after cutOff lessons).read? Directory.actionsName =
      .ok (some "\x7b\"stack\": [\"pu") := by
  obtain ⟨-, hlearns, -, -, -, hcutOff⟩ := caches_learn lessons
  exact ⟨hlearns, hcutOff cutOff _ (by rfl) (by decide +kernel)⟩

example : (Shelf.cache.transcript {} lessons).map Prod.snd =
    [.ok ["pop", "push"], .ok ["pop"], .ok ["peek"], .ok ["peek", "pop", "push"]] := by
  decide +kernel

end Storyboard.Memory
