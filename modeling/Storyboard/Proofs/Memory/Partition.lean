import Mathlib
import Storyboard.Memory.Shelf
import Storyboard.Memory.Table
import Storyboard.Proofs.Json.Limits
import Storyboard.Proofs.Memory.Log

/-!
# Stores as logs by label

Records that are appended to a store one after the other are to be read again by their labels: each
label has its own log, in the order of the appends.  A shelf and a table do so.  A directory keeps
labels apart only as far as the names of their logs do, and characters that stand in no name are all
written alike.
-/

namespace Storyboard.Memory

variable {log : List Record} {record : Record} {label : String}

/-- The state after records were appended one after the other. -/
def Records.appendAll {σ : Type} (records : Records σ) (state : σ) (log : List Record) : σ :=
  log.foldl (fun state record => (records.append record state).2) state

/-- What is read under a label after records were appended. -/
def Records.after {σ : Type} (records : Records σ) (state : σ) (log : List Record)
    (label : String) : Except Failure (List Record) :=
  (records.records label (records.appendAll state log)).1

/-- The records with a label. -/
def labelled (log : List Record) (label : String) : List Record :=
  log.filter fun record => record.label == label

/-- What a store has read, by the keys of the records. -/
def keysOf (result : Except Failure (List Record)) :
    Except Failure (List (String × Nat × String)) :=
  result.map (List.map Record.key)

/-- What was read are the records with the label, in the order in which they were appended. -/
def Partitions (result : Except Failure (List Record)) (log : List Record) (label : String) :
    Prop :=
  keysOf result = .ok ((labelled log label).map Record.key)

/-- The line of the record is one that can be read. -/
def Record.isReadable (record : Record) : Bool := (Record.parse? record.line).isSome

/-- The records that are fit to be written can be read. -/
theorem Record.Writable.isReadable (h : record.Writable) : record.isReadable := by
  rw [Record.isReadable, h.parse?_line]
  rfl

/-! ## Shelves -/

theorem Shelf.recordsOf_appendAll (shelf : Shelf) (log : List Record) (label : String) :
    (Shelf.store.appendAll shelf log).recordsOf label =
      shelf.recordsOf label ++ labelled log label := by
  induction log generalizing shelf with
  | nil => rw [labelled, List.filter_nil, List.append_nil]; rfl
  | cons record rest ih =>
    have hrest := ih (shelf.add record)
    by_cases h : record.label = label
    · subst h
      have hhead : labelled (record :: rest) record.label =
          record :: labelled rest record.label := List.filter_cons_of_pos (by simp)
      rw [hhead, List.append_cons, ← Shelf.recordsOf_add_self, ← hrest]
      rfl
    · rw [labelled, List.filter_cons_of_neg (by simpa using h), ← labelled,
        ← shelf.recordsOf_add_ne (Ne.symm h), ← hrest]
      rfl

/-- A shelf keeps labels apart. -/
theorem Shelf.partitions (log : List Record) (label : String) :
    Partitions (Shelf.store.after {} log label) log label := by
  have hall := Shelf.recordsOf_appendAll {} log label
  show Except.ok _ = Except.ok _
  rw [hall]
  rfl

/-! ## Tables -/

theorem Table.rows_appendAll (table : Table) (log : List Record) :
    (Table.store.appendAll table log).rows = table.rows ++ log.map Row.ofRecord := by
  induction log generalizing table with
  | nil => rw [List.map_nil, List.append_nil]; rfl
  | cons record rest ih =>
    have hrest := ih { table with rows := table.rows ++ [Row.ofRecord record] }
    rw [List.map_cons, List.append_cons, ← hrest]
    rfl

/-- Where the line of a record can be read, its row can. -/
theorem Row.record?_ofRecord (h : record.isReadable) :
    ∃ found, (Row.ofRecord record).record? = some found ∧ found.key = record.key := by
  obtain ⟨found, hfound⟩ := Option.isSome_iff_exists.mp h
  obtain ⟨-, -, steps, hvalue, hsteps⟩ := Record.of_parse?_line hfound
  have hread : Json.parseAsWritten? (Step.listToJson record.steps).compact = some steps := by
    have htree := Json.read?_of_writes Json.isGap_nil
      (Json.writes_compact (Step.listToJson record.steps))
    rw [List.nil_append] at htree
    rw [Json.parseAsWritten?, Json.compact, htree, Option.bind_some]
    exact Json.value?_succ hvalue
  rw [record?, ofRecord]
  dsimp only
  rw [hread, Option.bind_some, hsteps]
  exact ⟨_, rfl, rfl⟩

theorem Row.mapM_record? (h : ∀ record ∈ log, record.isReadable) :
    ∃ found, (log.map Row.ofRecord).mapM Row.record? = some found ∧
      found.map Record.key = log.map Record.key := by
  induction log with
  | nil => exact ⟨[], rfl, rfl⟩
  | cons record rest ih =>
    rw [List.forall_mem_cons] at h
    obtain ⟨first, hfirst, hkey⟩ := Row.record?_ofRecord h.1
    obtain ⟨others, hothers, hkeys⟩ := ih h.2
    refine ⟨first :: others, ?_, ?_⟩
    · rw [List.map_cons, List.mapM_cons, hfirst, hothers]
      rfl
    · rw [List.map_cons, List.map_cons, hkey, hkeys]

/-- A table keeps labels apart. -/
theorem Table.partitions (h : ∀ record ∈ labelled log label, record.isReadable) :
    Partitions (Table.store.after {} log label) log label := by
  have hrows := Table.rows_appendAll {} log
  have hlabelled : ((Table.store.appendAll {} log).rows.filter fun row => row.label == label) =
      (labelled log label).map Row.ofRecord := by
    rw [hrows, List.nil_append, List.filter_map]
    rfl
  obtain ⟨found, hfound, hkeys⟩ := Row.mapM_record? h
  show keysOf (Table.decoded (List.mapM Row.record? (List.filter _ _))) = _
  rw [hlabelled, hfound]
  exact congrArg Except.ok hkeys

/-! ## Directories -/

namespace Directory

variable {directory : Directory}

/-- The records whose log has the same name as that of a label. -/
def sharing (log : List Record) (label : String) : List Record :=
  log.filter fun record => logName record.label == logName label

/-- What a directory holds after records were appended to an empty one. -/
structure Keeps (log : List Record) (directory : Directory) : Prop where
  isOpen : directory.IsOpen
  logs : ∀ label, (logName label).utf8ByteSize ≤ Files.maxNameBytes →
    ∃ text, directory.textOf (logName label) = .ok text ∧ openPart text = "" ∧
      recordsOfLog text = (sharing log label).filterMap fun record => Record.parse? record.line

theorem keeps_empty : Keeps [] {} where
  isOpen := ⟨none, rfl⟩
  logs := by
    intro label hlength
    refine ⟨"", ?_, rfl, rfl⟩
    rw [textOf, read?, if_neg (by omega)]
    rfl

theorem openPart_append_newline (text : String) : openPart (text ++ "\n") = "" := by
  have hchars : (text ++ "\n").toList = text.toList ++ ['\n'] := String.toList_append
  rw [openPart, hchars, Text.unfinished_append_newline]

theorem sharing_append_of_eq {record : Record} (h : logName record.label = logName label) :
    sharing (log ++ [record]) label = sharing log label ++ [record] := by
  simp [sharing, h]

theorem sharing_append_of_ne {record : Record} (h : logName label ≠ logName record.label) :
    sharing (log ++ [record]) label = sharing log label := by
  simp [sharing, Ne.symm h]

/-- The log of another name holds the same records when it is left as it was. -/
theorem Keeps.log_of_ne (h : Keeps log directory) {record : Record}
    (hlength : (logName label).utf8ByteSize ≤ Files.maxNameBytes)
    (hne : logName label ≠ logName record.label) {written : Directory}
    (hkept : written.textOf (logName label) = directory.textOf (logName label)) :
    ∃ text, written.textOf (logName label) = .ok text ∧ openPart text = "" ∧
      recordsOfLog text =
        (sharing (log ++ [record]) label).filterMap fun record => Record.parse? record.line := by
  obtain ⟨text, hread, hopen, hrecords⟩ := h.logs label hlength
  exact ⟨text, hkept.trans hread, hopen, by rw [sharing_append_of_ne hne, hrecords]⟩

/-- The log of that name holds one record more when the line of the record is added to it. -/
theorem Keeps.log_of_eq (h : Keeps log directory) {record : Record}
    (hlength : (logName label).utf8ByteSize ≤ Files.maxNameBytes)
    (heq : logName record.label = logName label) {text : String}
    (htext : directory.textOf (logName label) = .ok text) :
    openPart (text ++ (record.line ++ "\n")) = "" ∧
      recordsOfLog (text ++ (record.line ++ "\n")) =
        (sharing (log ++ [record]) label).filterMap fun record => Record.parse? record.line := by
  obtain ⟨text', hread, hopen, hrecords⟩ := h.logs label hlength
  obtain rfl : text = text' := Except.ok.inj (htext.symm.trans hread)
  refine ⟨?_, ?_⟩
  · rw [← String.append_assoc]
    exact openPart_append_newline _
  · -- every line is closed, so that the new one is read on its own
    have hclosed := closedPart_append_openPart text
    rw [hopen, String.append_empty] at hclosed
    rw [recordsOfLog_append_line, hclosed, hopen, String.empty_append, hrecords,
      sharing_append_of_eq heq, List.filterMap_append, List.filterMap_cons, List.filterMap_nil]
    cases Record.parse? record.line <;> rfl

/-- An append adds to the logs that share the name, and changes no other. -/
theorem Keeps.append (h : Keeps log directory) (record : Record) :
    Keeps (log ++ [record]) (store.append record directory).2 := by
  obtain ⟨lock, hlock⟩ := h.isOpen
  rw [append_eq hlock]
  cases htext : directory.textOf (logName record.label) with
  | error failure =>
    refine ⟨isOpen_write_lock directory _, fun label hlength => ?_⟩
    -- a log that cannot be read is none of those that the directory keeps
    have hne : logName label ≠ logName record.label := by
      intro heq
      obtain ⟨text, hread, -, -⟩ := h.logs label hlength
      rw [heq, htext] at hread
      cases hread
    exact h.log_of_ne hlength hne (textOf_write_ne (logName_ne_lockName label) _)
  | ok text =>
    refine ⟨(isOpen_write_lock directory _).write (logName_ne_lockName record.label) _,
      fun label hlength => ?_⟩
    dsimp only
    by_cases heq : logName record.label = logName label
    · obtain ⟨hopen, hrecords⟩ := h.log_of_eq hlength heq (heq ▸ htext)
      refine ⟨_, ?_, hopen, hrecords⟩
      rw [← heq, textOf_write_self (length_le_of_textOf htext)]
    · refine h.log_of_ne hlength (Ne.symm heq) ?_
      rw [textOf_write_ne (Ne.symm heq), textOf_write_ne (logName_ne_lockName label)]

theorem keeps_appendAll (log : List Record) : Keeps log (store.appendAll {} log) := by
  induction log using List.reverseRecOn with
  | nil => exact keeps_empty
  | append_singleton rest record ih =>
    have hall : store.appendAll {} (rest ++ [record]) =
        (store.append record (store.appendAll {} rest)).2 := by
      rw [Records.appendAll, List.foldl_append]
      rfl
    rw [hall]
    exact ih.append record

/-- A directory has the records of all labels whose logs share one name, as far as they can be
read. -/
theorem after_eq (log : List Record) (label : String) : store.after {} log label =
    if Files.maxNameBytes < (logName label).utf8ByteSize then .error (.file .nameTooLong)
    else .ok ((sharing log label).filterMap fun record => Record.parse? record.line) := by
  have hkeeps := keeps_appendAll log
  rw [Records.after]
  split
  next hlong =>
    rw [hkeeps.isOpen.records, recordsOf, read?_long hlong]
    rfl
  next hfits =>
    obtain ⟨text, htext, -, hrecords⟩ := hkeeps.logs label (by omega)
    rw [records_of_textOf hkeeps.isOpen htext, hrecords]

theorem keys_filterMap (log : List Record) :
    (log.filterMap fun record => Record.parse? record.line).map Record.key =
      (log.filter Record.isReadable).map Record.key := by
  induction log with
  | nil => rfl
  | cons record rest ih =>
    cases hline : Record.parse? record.line with
    | none =>
      have hunreadable : ¬ record.isReadable := by
        rw [Record.isReadable, hline]
        nofun
      rw [List.filterMap_cons, hline, List.filter_cons_of_neg hunreadable, ih]
    | some found =>
      have hreadable : record.isReadable := by
        rw [Record.isReadable, hline]
        rfl
      rw [List.filterMap_cons, hline, List.filter_cons_of_pos hreadable, List.map_cons,
        List.map_cons, ih, (Record.of_parse?_line hline).1]

/-- The records that are read are those with the label when no other that can be read shares the
name of its log. -/
theorem keys_sharing_iff (h : ∀ record ∈ labelled log label, record.isReadable) :
    ((sharing log label).filter Record.isReadable).map Record.key =
        (labelled log label).map Record.key ↔
      ∀ record ∈ log, logName record.label = logName label → record.isReadable →
        record.label = label := by
  have hlabelled : labelled log label =
      ((sharing log label).filter Record.isReadable).filter fun record => record.label == label := by
    rw [sharing, List.filter_filter, List.filter_filter, labelled]
    refine List.filter_congr fun record hrecord => ?_
    by_cases hlabel : record.label = label
    · have hreadable := h record (List.mem_filter.mpr ⟨hrecord, beq_iff_eq.mpr hlabel⟩)
      simp [hlabel, hreadable]
    · rw [beq_false_of_ne hlabel, Bool.false_and, Bool.false_and]
  constructor
  · intro hkeys record hrecord hname hreadable
    -- as many keys are only left when the filter for the label drops nothing
    have hlength := congrArg List.length hkeys.symm
    rw [List.length_map, List.length_map, hlabelled, List.length_filter_eq_length_iff] at hlength
    have hsharing : record ∈ (sharing log label).filter Record.isReadable :=
      List.mem_filter.mpr ⟨List.mem_filter.mpr ⟨hrecord, beq_iff_eq.mpr hname⟩, hreadable⟩
    exact beq_iff_eq.mp (hlength record hsharing)
  · intro hown
    have hself : ∀ record ∈ (sharing log label).filter Record.isReadable,
        (record.label == label) = true := by
      intro record hrecord
      obtain ⟨hsharing, hreadable⟩ := List.mem_filter.mp hrecord
      obtain ⟨hmem, hname⟩ := List.mem_filter.mp hsharing
      exact beq_iff_eq.mpr (hown record hmem (beq_iff_eq.mp hname) hreadable)
    rw [hlabelled, List.filter_eq_self.mpr hself]

/-- A directory keeps a label apart when its log can have its name and no record with another label
shares it. -/
theorem partitions_iff (h : ∀ record ∈ labelled log label, record.isReadable) :
    Partitions (store.after {} log label) log label ↔
      (logName label).utf8ByteSize ≤ Files.maxNameBytes ∧
        ∀ record ∈ log, logName record.label = logName label → record.isReadable →
          record.label = label := by
  rw [Partitions, after_eq, ← keys_sharing_iff h]
  split
  next hlong =>
    constructor
    · nofun
    · rintro ⟨hfits, -⟩
      omega
  next hfits =>
    show Except.ok _ = Except.ok _ ↔ _
    rw [Except.ok.injEq, keys_filterMap]
    exact (and_iff_right (by omega)).symm

end Directory

/-- After any appends a shelf has for every label exactly its records, in their order, and so has a
table if these can be read.  A directory then has them exactly when the label's log can have its
name and no record with another label was appended whose log has the same name. -/
theorem stores_partition (log : List Record) (label : String)
    (hreadable : ∀ record ∈ labelled log label, record.isReadable) :
    Partitions (Shelf.store.after {} log label) log label ∧
      Partitions (Table.store.after {} log label) log label ∧
      (Partitions (Directory.store.after {} log label) log label ↔
        (Directory.logName label).utf8ByteSize ≤ Files.maxNameBytes ∧
          ∀ record ∈ log, Directory.logName record.label = Directory.logName label →
            record.isReadable → record.label = label) :=
  ⟨Shelf.partitions log label, Table.partitions hreadable, Directory.partitions_iff hreadable⟩

/-- Labels that are written alike have logs of one name. -/
theorem Directory.logName_congr {label other : String}
    (h : (label.toList.map fun c => if isNameChar c then c else '_') =
      other.toList.map fun c => if isNameChar c then c else '_') :
    logName label = logName other := by
  have hname : (label.map fun c => if isNameChar c then c else '_') =
      other.map fun c => if isNameChar c then c else '_' := by
    rw [← String.toList_inj, String.toList_map, String.toList_map, h]
  rw [logName, hname, logName]

/-- A record without steps. -/
def noted (digest label : String) : Record :=
  { digest, label, steps := [], header := none, rating := 4, code := "", learnedAt := .epoch }

theorem writable_noted (digest label : String) : (noted digest label).Writable where
  steps := List.forall_mem_nil _
  header := fun _ h => absurd h.symm (Option.some_ne_none _)
  rating := Nat.lt_of_sub_eq_succ rfl
  time := Record.read?_epoch
  exact := by
    simp only [noted, Record.toJson, Step.listToJson, List.map_nil, Option.elim_none, Json.ofNat,
      Json.isExact, Json.areExact, Json.membersAreExact]
    decide
  depth := Nat.le_of_ble_eq_true rfl

/-- Records of three labels, two of which are written alike. -/
def interleaved : List Record :=
  [noted "a1" "queue", noted "b2" "hash map", noted "c3" "queue", noted "d4" "hash_map"]

theorem isReadable_of_mem_labelled :
    ∀ record ∈ labelled interleaved label, record.isReadable := by
  intro record hrecord
  have hmem := List.mem_of_mem_filter hrecord
  simp only [interleaved, List.mem_cons, List.not_mem_nil, or_false] at hmem
  obtain rfl | rfl | rfl | rfl := hmem <;> exact (writable_noted _ _).isReadable

theorem stores_partition_interleaved :
    Partitions (Shelf.store.after {} interleaved "queue") interleaved "queue" ∧
      Partitions (Table.store.after {} interleaved "queue") interleaved "queue" ∧
      Partitions (Directory.store.after {} interleaved "queue") interleaved "queue" := by
  obtain ⟨hshelf, htable, hdirectory⟩ :=
    stores_partition interleaved "queue" isReadable_of_mem_labelled
  refine ⟨hshelf, htable, hdirectory.mpr ⟨by decide +kernel, ?_⟩⟩
  intro record hmem hname _
  simp only [interleaved, List.mem_cons, List.not_mem_nil, or_false] at hmem
  obtain rfl | rfl | rfl | rfl := hmem
  · rfl
  · exact absurd hname (by decide +kernel)
  · rfl
  · exact absurd hname (by decide +kernel)

/-- Two labels that are written alike have one log in a directory. -/
theorem directory_mixes_interleaved :
    ¬ Partitions (Directory.store.after {} interleaved "hash map") interleaved "hash map" := by
  rw [Directory.partitions_iff isReadable_of_mem_labelled]
  rintro ⟨-, hown⟩
  have hmem : noted "d4" "hash_map" ∈ interleaved := by simp [interleaved]
  have hname : Directory.logName "hash_map" = Directory.logName "hash map" :=
    Directory.logName_congr (by decide +kernel)
  have hlabel := hown _ hmem hname (writable_noted _ _).isReadable
  exact absurd hlabel (by decide +kernel)

end Storyboard.Memory
