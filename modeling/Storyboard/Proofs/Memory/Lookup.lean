import Mathlib
import Storyboard.Memory.Backend
import Storyboard.Memory.Lookup
import Storyboard.Proofs.Decimal.FloatOrder
import Storyboard.Proofs.Memory.Partition

/-!
# What a lookup finds

The exact lookup finds the first record of the program, whether a store scans its records for it or
asks for it as a table does.  The lookup by similarity keeps the best record so far and gives it up
only for a strictly better one, so that it ends with the oldest of the records that are most similar.
-/

namespace Storyboard.Memory

/-! ## The most similar record -/

/-- The record counts for a lookup by similarity. -/
def Qualifies (code : String) (minRating : Nat) (floor : Float) (record : Record) : Prop :=
  minRating ≤ record.rating ∧ floor ≤ Similarity.ratio code record.code

/-- The record is the oldest of those that are most similar among the ones that count: the older ones
are less similar, and the newer ones not more. -/
structure IsClosest (code : String) (minRating : Nat) (floor : Float) (records : List Record)
    (record : Record) : Prop where
  qualifies : Qualifies code minRating floor record
  oldest : ∃ older newer, records = older ++ record :: newer ∧
    (∀ r ∈ older, Qualifies code minRating floor r →
      Similarity.ratio code r.code < Similarity.ratio code record.code) ∧
    ∀ r ∈ newer, Qualifies code minRating floor r →
      Similarity.ratio code r.code ≤ Similarity.ratio code record.code

/-- What a lookup by similarity is to find among records. -/
def FindsClosest (code : String) (minRating : Nat) (floor : Float) (records : List Record) :
    Option (Record × Float) → Prop
  | none => ∀ record ∈ records, ¬ Qualifies code minRating floor record
  | some (record, ratio) =>
    IsClosest code minRating floor records record ∧ ratio = Similarity.ratio code record.code

section

variable {code : String} {minRating : Nat} {floor : Float} {records : List Record}
  {best : Option (Record × Float)} {record : Record}

/-- A newer record that is not more similar changes nothing. -/
theorem FindsClosest.keep (h : FindsClosest code minRating floor records best)
    (hnew : Qualifies code minRating floor record → ∃ found ∈ best,
      Similarity.ratio code record.code ≤ found.2) :
    FindsClosest code minRating floor (records ++ [record]) best := by
  cases best with
  | none =>
    intro r hr hqualifies
    rcases List.mem_append.mp hr with hold | hlast
    · exact h r hold hqualifies
    · obtain rfl := List.mem_singleton.mp hlast
      obtain ⟨found, hfound, -⟩ := hnew hqualifies
      cases hfound
  | some found =>
    obtain ⟨kept, ratio⟩ := found
    obtain ⟨⟨hqualifies, older, newer, rfl, holder, hnewer⟩, rfl⟩ := h
    refine ⟨⟨hqualifies, older, newer ++ [record], by simp, holder, fun r hr hr' => ?_⟩, rfl⟩
    rcases List.mem_append.mp hr with hold | hlast
    · exact hnewer r hold hr'
    · obtain rfl := List.mem_singleton.mp hlast
      obtain ⟨found, hfound, hle⟩ := hnew hr'
      obtain rfl := Option.mem_some_iff.mp hfound
      exact hle

/-- A newer record that is more similar than the best one takes its place. -/
theorem FindsClosest.replace (h : FindsClosest code minRating floor records best)
    (hqualifies : Qualifies code minRating floor record)
    (hbetter : ∀ found ∈ best, found.2 < Similarity.ratio code record.code) :
    FindsClosest code minRating floor (records ++ [record])
      (some (record, Similarity.ratio code record.code)) := by
  refine ⟨⟨hqualifies, records, [], rfl, fun r hr hr' => ?_, List.forall_mem_nil _⟩, rfl⟩
  cases best with
  | none => exact absurd hr' (h r hr)
  | some found =>
    obtain ⟨kept, ratio⟩ := found
    obtain ⟨⟨hkept, older, newer, rfl, holder, hnewer⟩, rfl⟩ := h
    have hlt := hbetter _ (Option.mem_some_self _)
    -- every record that counts is at most as similar as the best one so far
    have hle : Similarity.ratio code r.code ≤ Similarity.ratio code kept.code := by
      rcases List.mem_append.mp hr with hold | hrest
      · exact Decimal.le_of_lt (holder r hold hr')
      · rcases List.mem_cons.mp hrest with rfl | hnew
        · exact Decimal.le_self_of_le hr'.2
        · exact hnewer r hnew hr'
    exact Decimal.lt_of_le_of_lt hle hlt

/-- One step of the scan. -/
theorem FindsClosest.step (h : FindsClosest code minRating floor records best)
    (hrated : minRating ≤ record.rating) :
    FindsClosest code minRating floor (records ++ [record])
      (if decide (floor ≤ Similarity.ratio code record.code) &&
          best.all fun found => decide (found.2 < Similarity.ratio code record.code) then
        some (record, Similarity.ratio code record.code) else best) := by
  split
  next hbetter =>
    rw [Bool.and_eq_true, decide_eq_true_iff, Option.all_eq_true] at hbetter
    exact h.replace ⟨hrated, hbetter.1⟩ fun found hfound =>
      of_decide_eq_true (hbetter.2 found hfound)
  next hbetter =>
    refine h.keep fun hqualifies => ?_
    cases best with
    | none => exact absurd (by simp [hqualifies.2]) hbetter
    | some found =>
      obtain ⟨kept, ratio⟩ := found
      obtain ⟨⟨hkept, -⟩, rfl⟩ := h
      refine ⟨_, Option.mem_some_self _, ?_⟩
      have hnumbers := Decimal.lt_or_le (Decimal.le_self_of_le hkept.2)
        (Decimal.le_self_of_le hqualifies.2)
      exact hnumbers.resolve_left fun hlt => hbetter (by simp [hqualifies.2, hlt])

/-- The scan finds what is most similar, whatever it has passed before. -/
theorem findsClosest_mostSimilar (h : FindsClosest code minRating floor records best)
    (rest : List Record) :
    FindsClosest code minRating floor (records ++ rest)
      (mostSimilar code floor best (rest.filter fun r => decide (minRating ≤ r.rating))) := by
  induction rest generalizing records best with
  | nil =>
    rw [List.append_nil]
    exact h
  | cons record rest ih =>
    rw [List.append_cons]
    by_cases hrated : minRating ≤ record.rating
    · rw [List.filter_cons_of_pos (by simpa using hrated), mostSimilar]
      exact ih (h.step hrated)
    · rw [List.filter_cons_of_neg (by simpa using hrated)]
      exact ih (h.keep fun hqualifies => absurd hqualifies.1 hrated)

end

/-! ## Lookups in a store that scans -/

/-- In this state the exact query agrees with a scan of the records, and does not change them. -/
structure Records.Scans {σ : Type} (store : Records σ) (label : String) (state : σ) : Prop where
  finds : ∀ digest rating records, (store.records label state).1 = .ok records →
    (store.findExact label digest rating state).1 = .ok (records.find? (isExact digest rating))
  rereads : ∀ digest rating, (store.records label (store.findExact label digest rating state).2).1 =
    (store.records label state).1

/-- What the lookups find when the records under the label of a concept are read. -/
structure Recalled {σ : Type} (store : Records σ) (minRating : Nat) (concept : Concept)
    (code : String) (floor : Float) (state : σ) (records : List Record) : Prop where
  /-- The exact query of the store agrees with a scan. -/
  query : ∀ digest rating, (store.findExact concept.label digest rating state).1 =
    .ok (records.find? fun r => r.digest == digest && decide (rating ≤ r.rating))
  /-- The exact lookup finds the first record of the program that is rated high enough. -/
  exact : (lookupExact store minRating concept code state).1 =
    .ok ((records.find? fun r => r.digest == Blake3.digest code && decide (minRating ≤ r.rating)).map
      fun record => ⟨record, .exact⟩)
  /-- The lookup by similarity finds the oldest of the most similar records. -/
  similar : ∃ best, FindsClosest code minRating floor records best ∧
    (lookupSimilar store minRating concept code floor state).1 =
      .ok (best.map fun found => ⟨found.1, .similar found.2⟩)
  /-- It finds nothing exactly when no record counts. -/
  nothing : (lookupSimilar store minRating concept code floor state).1 = .ok none ↔
    ∀ record ∈ records, ¬ Qualifies code minRating floor record

section

variable {σ : Type} {store : Records σ} {minRating : Nat} {concept : Concept} {code : String}
  {state : σ}

theorem lookupExact_fst (store : Records σ) (minRating : Nat) (concept : Concept) (code : String)
    (state : σ) : (lookupExact store minRating concept code state).1 =
      (store.findExact concept.label (Blake3.digest code) minRating state).1.map
        fun record? => record?.map fun record => ⟨record, .exact⟩ :=
  rfl

theorem lookupSimilar_fst (store : Records σ) (minRating : Nat) (concept : Concept) (code : String)
    (floor : Float) (state : σ) : (lookupSimilar store minRating concept code floor state).1 =
      (store.records concept.label state).1.map fun records =>
        (mostSimilar code floor none
          (records.filter fun record => decide (minRating ≤ record.rating))).map
            fun found => ⟨found.1, .similar found.2⟩ :=
  rfl

theorem Records.Scans.recalled (h : store.Scans concept.label state) (floor : Float)
    {records : List Record} (hrecords : (store.records concept.label state).1 = .ok records) :
    Recalled store minRating concept code floor state records := by
  have hclosest : FindsClosest code minRating floor records
      (mostSimilar code floor none (records.filter fun r => decide (minRating ≤ r.rating))) := by
    have hempty : FindsClosest code minRating floor [] none := List.forall_mem_nil _
    exact findsClosest_mostSimilar hempty records
  have hsimilar := lookupSimilar_fst store minRating concept code floor state
  rw [hrecords, Except.map] at hsimilar
  refine ⟨fun digest rating => h.finds digest rating records hrecords, ?_,
    ⟨_, hclosest, hsimilar⟩, ?_⟩
  · rw [lookupExact_fst, h.finds _ _ records hrecords]
    rfl
  · rw [hsimilar]
    cases hbest : mostSimilar code floor none
        (records.filter fun r => decide (minRating ≤ r.rating)) with
    | none =>
      rw [hbest] at hclosest
      exact iff_of_true rfl hclosest
    | some found =>
      obtain ⟨record, ratio⟩ := found
      rw [hbest] at hclosest
      obtain ⟨⟨hqualifies, older, newer, rfl, -, -⟩, -⟩ := hclosest
      -- the record that was found qualifies
      refine iff_of_false (by simp) fun hnone => ?_
      exact hnone record (by simp) hqualifies

/-- Similar programs are looked up only when there is no exact record. -/
theorem Records.Scans.lookup_fst (h : store.Scans concept.label state) :
    (lookup store minRating concept code state).1 =
      match (lookupExact store minRating concept code state).1 with
      | .ok none => (lookupSimilar store minRating concept code 0.0 state).1
      | found => found := by
  have hafter : (lookupExact store minRating concept code state).2 =
    (store.findExact concept.label (Blake3.digest code) minRating state).2 := rfl
  rw [lookup]
  rcases hexact : lookupExact store minRating concept code state with ⟨_ | _ | hit, after⟩
  · rfl
  · rw [hexact] at hafter
    obtain rfl := hafter
    show (lookupSimilar store minRating concept code 0.0 _).1 = _
    rw [lookupSimilar_fst, h.rereads]
    rfl
  · rfl

end

/-! ## The stores -/

theorem Shelf.scans (label : String) (shelf : Shelf) : store.Scans label shelf where
  finds := by
    intro digest rating records hrecords
    obtain rfl : shelf.recordsOf label = records := Except.ok.inj hrecords
    rfl
  rereads := fun _ _ => rfl

/-- A row keeps the digest and the rating of its record. -/
theorem Row.of_record? {row : Row} {record : Record} (h : row.record? = some record) :
    record.digest = row.digest ∧ record.rating = row.rating := by
  rw [record?, Option.bind_eq_bind, Option.bind_eq_some_iff] at h
  obtain ⟨steps, -, hrecord⟩ := h
  obtain rfl := Option.some.inj hrecord
  exact ⟨rfl, rfl⟩

/-- The row that has a digest and a rating. -/
def Row.isExact (digest : String) (rating : Nat) (row : Row) : Bool :=
  row.digest == digest && decide (rating ≤ row.rating)

/-- Where all rows can be read, the first row that a query asks for is that of the first record. -/
theorem Row.find?_mapM {rows : List Row} {records : List Record}
    (h : rows.mapM Row.record? = some records) (digest : String) (rating : Nat) :
    (rows.find? (Row.isExact digest rating)).map Row.record? =
      (records.find? (Memory.isExact digest rating)).map some := by
  induction rows generalizing records with
  | nil =>
    obtain rfl := Option.some.inj h
    rfl
  | cons row rest ih =>
    rw [List.mapM_cons, Option.bind_eq_bind, Option.bind_eq_some_iff] at h
    obtain ⟨record, hrecord, h⟩ := h
    rw [Option.bind_eq_bind, Option.bind_eq_some_iff] at h
    obtain ⟨others, hothers, h⟩ := h
    obtain rfl := Option.some.inj h
    have hsame : Row.isExact digest rating row = Memory.isExact digest rating record := by
      obtain ⟨hdigest, hrating⟩ := Row.of_record? hrecord
      rw [Row.isExact, Memory.isExact, hdigest, hrating]
    rw [List.find?_cons, List.find?_cons, hsame]
    split
    next => rw [Option.map_some, hrecord, Option.map_some]
    next => exact ih hothers

/-- The query of a table looks at the rows under the label. -/
theorem Table.findExact_eq (table : Table) (label digest : String) (rating : Nat) :
    (store.findExact label digest rating table).1 =
      match (table.rows.filter fun row => row.label == label).find? (Row.isExact digest rating) with
      | none => .ok none
      | some row => decoded (row.record?.map some) := by
  have hquery : (table.rows.find? fun row =>
      row.label == label && row.digest == digest && decide (rating ≤ row.rating)) =
        (table.rows.filter fun row => row.label == label).find? (Row.isExact digest rating) := by
    rw [List.find?_filter]
    congr 1
    funext row
    rw [Bool.eq_iff_iff]
    simp [Row.isExact, and_assoc]
  show (match table.rows.find? _ with
    | none => (Except.ok none, table)
    | some row => (decoded (row.record?.map some), table)).1 = _
  rw [hquery]
  split <;> rfl

theorem Table.scans (label : String) (table : Table) : store.Scans label table where
  finds := by
    intro digest rating records hrecords
    -- all rows of the label are records, since they could be read
    have hrows : (table.rows.filter fun row => row.label == label).mapM Row.record? =
        some records := by
      have hdecoded : decoded _ = Except.ok records := hrecords
      unfold decoded at hdecoded
      split at hdecoded
      next found hfound => rw [hfound, Except.ok.inj hdecoded]
      next => cases hdecoded
    have hfind := Row.find?_mapM hrows digest rating
    rw [findExact_eq]
    split
    next hnone =>
      rw [hnone, Option.map_none, eq_comm, Option.map_eq_none_iff] at hfind
      rw [hfind]
    next row hrow =>
      rw [hrow, Option.map_some, eq_comm, Option.map_eq_some_iff] at hfind
      obtain ⟨record, hrecord, hread⟩ := hfind
      rw [hrecord, ← hread]
      rfl
  rereads := by
    intro digest rating
    -- a query leaves the table as it is
    have hkept : (store.findExact label digest rating table).2 = table := by
      show (match table.rows.find? _ with
        | none => (Except.ok none, table)
        | some row => (decoded (row.record?.map some), table)).2 = table
      split <;> rfl
    rw [hkept]

namespace Directory

/-- The query of a directory scans what is read of the log. -/
theorem findExact_eq (directory : Directory) (label digest : String) (rating : Nat) :
    store.findExact label digest rating directory =
      ((store.records label directory).1.map fun records => records.find? (isExact digest rating),
        (store.records label directory).2) := by
  show locked (fun directory => ((directory.recordsOf label).map fun records =>
      records.find? (isExact digest rating), directory)) directory =
    ((locked (fun directory => (directory.recordsOf label, directory)) directory).1.map _,
      (locked (fun directory => (directory.recordsOf label, directory)) directory).2)
  rw [locked, locked]
  cases directory.read? lockName <;> rfl

/-- Reading the records of a directory does not change them. -/
theorem records_twice (directory : Directory) (label : String) :
    (store.records label (store.records label directory).2).1 =
      (store.records label directory).1 := by
  cases hlock : directory.read? lockName with
  | error closed =>
    have hclosed : store.records label directory = (.error closed, directory) := by
      show locked (fun directory => (directory.recordsOf label, directory)) directory = _
      rw [locked, hlock]
    rw [hclosed, hclosed]
  | ok lock =>
    have hafter : (store.records label directory).2 =
        directory.write lockName (lock.getD "") := by
      show (locked (fun directory => (directory.recordsOf label, directory)) directory).2 = _
      rw [locked, hlock]
    have hopen : directory.IsOpen := ⟨lock, hlock⟩
    rw [hafter, (isOpen_write_lock directory _).records, hopen.records, recordsOf_eq,
      textOf_write_ne (logName_ne_lockName label), ← recordsOf_eq]

theorem scans (label : String) (directory : Directory) : store.Scans label directory where
  finds := by
    intro digest rating records hrecords
    rw [findExact_eq, hrecords]
    rfl
  rereads := by
    intro digest rating
    rw [findExact_eq, records_twice]

end Directory

/-- Every store scans, whatever it keeps. -/
theorem Store.scans (label : String) (kept : Store) : Store.records.Scans label kept := by
  cases kept with
  | shelf kept =>
    have h := Shelf.scans label kept
    exact ⟨h.finds, h.rereads⟩
  | directory kept =>
    have h := Directory.scans label kept
    exact ⟨h.finds, h.rereads⟩
  | table kept =>
    have h := Table.scans label kept
    exact ⟨h.finds, h.rereads⟩

/-! ## Histories -/

/-- After any appends the query of a table finds the first record that was appended with the label,
the digest and the rating, as far as its row can be read. -/
theorem Table.findExact_appendAll (log : List Record) (label digest : String) (rating : Nat) :
    (store.findExact label digest rating (store.appendAll {} log)).1 =
      match (labelled log label).find? (Memory.isExact digest rating) with
      | none => .ok none
      | some record => decoded ((Row.ofRecord record).record?.map some) := by
  have hrows : ((store.appendAll {} log).rows.filter fun row => row.label == label) =
      (labelled log label).map Row.ofRecord := by
    rw [rows_appendAll, List.nil_append, List.filter_map]
    rfl
  rw [findExact_eq, hrows, List.find?_map]
  show (match ((labelled log label).find? (Memory.isExact digest rating)).map Row.ofRecord with
    | none => Except.ok none
    | some row => decoded (row.record?.map some)) = _
  cases (labelled log label).find? (Memory.isExact digest rating) <;> rfl

/-- What is read under a label after records were appended: on a shelf always the records with the
label, in a table if these can be read, and in a directory if their log can have its name. -/
theorem answers_after (log : List Record) (label : String) :
    Shelf.store.after {} log label = .ok (labelled log label) ∧
      ((∀ record ∈ labelled log label, record.isReadable) →
        ∃ found, Table.store.after {} log label = .ok found ∧
          found.map Record.key = (labelled log label).map Record.key) ∧
      ((Directory.logName label).utf8ByteSize ≤ Files.maxNameBytes →
        Directory.store.after {} log label = .ok ((Directory.sharing log label).filterMap
          fun record => Record.parse? record.line)) := by
  refine ⟨?_, fun hreadable => ?_, fun hfits => ?_⟩
  · have hall := Shelf.recordsOf_appendAll {} log label
    show Except.ok _ = Except.ok _
    rw [hall]
    rfl
  · have htable := Table.partitions hreadable
    rw [Partitions, keysOf] at htable
    cases hafter : Table.store.after {} log label with
    | error failure =>
      rw [hafter] at htable
      cases htable
    | ok found =>
      rw [hafter] at htable
      exact ⟨found, rfl, Except.ok.inj htable⟩
  · rw [Directory.after_eq, if_neg (by omega)]

/-- Whatever a store keeps, the exact lookup finds the first of its records that is of the program and
rated high enough, also where a table has a query of its own for it; the lookup by similarity finds the
oldest of the most similar records, and nothing exactly when none counts; and a lookup turns to
similarity only when there is no exact record.  After any appends the records are read, as far as the
store can keep them, and otherwise lookups fail as reading does. -/
theorem lookups_find (kept : Store) (minRating : Nat) (concept : Concept) (code : String)
    (floor : Float) :
    (∀ records, (Store.records.records concept.label kept).1 = .ok records →
      Recalled Store.records minRating concept code floor kept records) ∧
    (∀ failure, (Store.records.records concept.label kept).1 = .error failure →
      (lookupSimilar Store.records minRating concept code floor kept).1 = .error failure) ∧
    (lookup Store.records minRating concept code kept).1 =
      (match (lookupExact Store.records minRating concept code kept).1 with
      | .ok none => (lookupSimilar Store.records minRating concept code 0.0 kept).1
      | found => found) ∧
    ∀ log : List Record,
      Shelf.store.after {} log concept.label = .ok (labelled log concept.label) ∧
      ((∀ record ∈ labelled log concept.label, record.isReadable) →
        ∃ found, Table.store.after {} log concept.label = .ok found ∧
          found.map Record.key = (labelled log concept.label).map Record.key) ∧
      ((Directory.logName concept.label).utf8ByteSize ≤ Files.maxNameBytes →
        Directory.store.after {} log concept.label =
          .ok ((Directory.sharing log concept.label).filterMap fun record =>
            Record.parse? record.line)) ∧
      ∀ digest rating,
        (Table.store.findExact concept.label digest rating (Table.store.appendAll {} log)).1 =
          match (labelled log concept.label).find? (isExact digest rating) with
          | none => .ok none
          | some record => Table.decoded ((Row.ofRecord record).record?.map some) := by
  have hscans := Store.scans concept.label kept
  refine ⟨fun records => hscans.recalled floor, fun failure hfailure => ?_, hscans.lookup_fst,
    fun log => ?_⟩
  · rw [lookupSimilar_fst, hfailure]
    rfl
  · obtain ⟨hshelf, htable, hdirectory⟩ := answers_after log concept.label
    exact ⟨hshelf, htable, hdirectory, Table.findExact_appendAll log concept.label⟩

/-- Two records of a stack, which are equally similar to any program, and one of a tree. -/
def stackNotes : List Record := [noted "a1" "stack", noted "b2" "tree", noted "c3" "stack"]

theorem lookups_find_stackNotes :
    Recalled Store.records 3 .stack "" 0.5 (.shelf (Shelf.store.appendAll {} stackNotes))
      [noted "a1" "stack", noted "c3" "stack"] ∧
    ∃ found, found.map Record.key = [noted "a1" "stack", noted "c3" "stack"].map Record.key ∧
      Recalled Store.records 3 .stack "" 0.5 (.table (Table.store.appendAll {} stackNotes)) found := by
  obtain ⟨hshelf, -, -, hafter⟩ :=
    lookups_find (.shelf (Shelf.store.appendAll {} stackNotes)) 3 .stack "" 0.5
  obtain ⟨htable, -⟩ := lookups_find (.table (Table.store.appendAll {} stackNotes)) 3 .stack "" 0.5
  obtain ⟨hkept, hread, -⟩ := hafter stackNotes
  have hreadable : ∀ record ∈ labelled stackNotes "stack", record.isReadable := by
    intro record hrecord
    have hmem := List.mem_of_mem_filter hrecord
    simp only [stackNotes, List.mem_cons, List.not_mem_nil, or_false] at hmem
    obtain rfl | rfl | rfl := hmem <;> exact (writable_noted _ _).isReadable
  obtain ⟨found, hfound, hkeys⟩ := hread hreadable
  exact ⟨hshelf _ hkept, found, hkeys, htable found hfound⟩

end Storyboard.Memory
