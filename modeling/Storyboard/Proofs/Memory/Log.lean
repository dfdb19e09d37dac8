import Mathlib
import Storyboard.Proofs.Memory.Line
import Storyboard.Proofs.Text.Lines

/-!
# Logs that grow

A record is appended behind the last character of a log, while a log is read line by line.  Behind a
line end the record gets a line of its own.  Behind a line that no line end closes, as a write that
was cut off leaves it, the record becomes a part of that line: with it goes what the line said, and
with the line goes the record.
-/

namespace Storyboard.Memory.Directory

variable {directory after : Directory} {name other label text : String} {record : Record}

/-! ## Files -/

theorem read?_write_self (h : name.utf8ByteSize ≤ Files.maxNameBytes) (text : String) :
    (directory.write name text).read? name = .ok (some text) := by
  rw [read?, if_neg (by omega), write, Ordered.find?_put_self]

theorem read?_write_ne (h : name ≠ other) (text : String) :
    (directory.write other text).read? name = directory.read? name := by
  rw [read?, read?, write, Ordered.find?_put_ne h]

theorem read?_long (h : Files.maxNameBytes < name.utf8ByteSize) :
    directory.read? name = .error (.file .nameTooLong) := if_pos h

/-- No label has the lock file as its log. -/
theorem logName_ne_lockName (label : String) : logName label ≠ lockName := by
  intro h
  have hlast : (logName label).toList.getLast? = some 'l' := by
    rw [logName, String.toList_append]
    simp
  rw [h] at hlast
  exact absurd hlast (by decide)

/-- The text of a file, empty where there is none. -/
def textOf (directory : Directory) (name : String) : Except Failure String :=
  (directory.read? name).map fun text? => text?.getD ""

theorem recordsOf_eq (directory : Directory) (label : String) :
    directory.recordsOf label = (directory.textOf (logName label)).map recordsOfLog := by
  rw [recordsOf, textOf]
  cases directory.read? (logName label) with
  | error failure => rfl
  | ok text? => cases text? <;> rfl

theorem textOf_write_self (h : name.utf8ByteSize ≤ Files.maxNameBytes) (text : String) :
    (directory.write name text).textOf name = .ok text := by
  rw [textOf, read?_write_self h]
  rfl

theorem textOf_write_ne (h : name ≠ other) (text : String) :
    (directory.write other text).textOf name = directory.textOf name := by
  rw [textOf, textOf, read?_write_ne h]

theorem length_le_of_textOf (h : directory.textOf name = .ok text) :
    name.utf8ByteSize ≤ Files.maxNameBytes := by
  by_contra hlong
  rw [textOf, read?_long (by omega)] at h
  cases h

/-! ## The lock -/

/-- The lock file can be opened. -/
def IsOpen (directory : Directory) : Prop := ∃ text?, directory.read? lockName = .ok text?

theorem isOpen_write_lock (directory : Directory) (text : String) :
    (directory.write lockName text).IsOpen :=
  ⟨some text, read?_write_self (by decide) text⟩

theorem IsOpen.write (h : directory.IsOpen) (hname : name ≠ lockName) (text : String) :
    (directory.write name text).IsOpen := by
  rw [IsOpen, read?_write_ne hname.symm]
  exact h

/-- Under an open lock records are read as if there was none. -/
theorem IsOpen.records (h : directory.IsOpen) (label : String) :
    (store.records label directory).1 = directory.recordsOf label := by
  obtain ⟨text?, htext⟩ := h
  show (locked (fun directory => (directory.recordsOf label, directory)) directory).1 = _
  rw [locked, htext]
  show (directory.write lockName _).recordsOf label = _
  rw [recordsOf_eq, textOf_write_ne (logName_ne_lockName label), ← recordsOf_eq]

/-! ## Appending -/

/-- Under an open lock, appending writes the lock file and adds a line to the log, if that can be
read. -/
theorem append_eq {lock : Option String} (hlock : directory.read? lockName = .ok lock)
    (record : Record) : store.append record directory =
      match directory.textOf (logName record.label) with
      | .error failure => (.error failure, directory.write lockName (lock.getD ""))
      | .ok text =>
        (.ok (), (directory.write lockName (lock.getD "")).write (logName record.label)
          (text ++ (record.line ++ "\n"))) := by
  show locked (appendRecord record) directory = _
  rw [locked, hlock]
  show appendRecord record (directory.write lockName (lock.getD "")) = _
  rw [appendRecord, read?_write_ne (logName_ne_lockName record.label), textOf]
  cases directory.read? (logName record.label) with
  | error failure => rfl
  | ok text? => rfl

/-- An append that succeeds has found the lock open and the log readable. -/
theorem append_eq_ok (h : store.append record directory = (.ok (), after)) :
    ∃ lock text, directory.read? lockName = .ok lock ∧
      directory.textOf (logName record.label) = .ok text ∧
      after = (directory.write lockName (lock.getD "")).write (logName record.label)
        (text ++ (record.line ++ "\n")) := by
  cases hlock : directory.read? lockName with
  | error failure =>
    have hclosed : locked (appendRecord record) directory = (.ok (), after) := h
    rw [locked, hlock] at hclosed
    cases hclosed
  | ok lock =>
    rw [append_eq hlock] at h
    cases htext : directory.textOf (logName record.label) with
    | error failure =>
      rw [htext] at h
      cases h
    | ok text =>
      rw [htext] at h
      exact ⟨lock, text, rfl, rfl, (congrArg Prod.snd h).symm⟩

/-! ## Lines -/

/-- What a log says up to its last line end. -/
def closedPart (text : String) : String := String.ofList (Text.finished text.toList)

/-- What stands behind the last line end of a log. -/
def openPart (text : String) : String := String.ofList (Text.unfinished text.toList)

theorem closedPart_append_openPart (text : String) : closedPart text ++ openPart text = text := by
  rw [closedPart, openPart, ← String.ofList_append, Text.finished_append_unfinished,
    String.ofList_toList]

theorem newline_not_mem_openPart (text : String) : '\n' ∉ (openPart text).toList := by
  rw [openPart, String.toList_ofList]
  exact Text.newline_not_mem_unfinished _

theorem openPart_closedPart (text : String) : openPart (closedPart text) = "" := by
  rw [openPart, closedPart, String.toList_ofList]
  obtain hnil | ⟨front, hfront⟩ := Text.finished_cases text.toList
  · rw [hnil]
    rfl
  · rw [hfront, Text.unfinished_append_newline]

/-- Behind a line end a log goes on with records of its own. -/
theorem recordsOfLog_append (h : openPart text = "") (more : String) :
    recordsOfLog (text ++ more) = recordsOfLog text ++ recordsOfLog more := by
  have hnil : Text.unfinished text.toList = [] := by
    have hchars := congrArg String.toList h
    rwa [openPart, String.toList_ofList, String.toList_empty] at hchars
  rw [recordsOfLog, recordsOfLog, recordsOfLog, String.toList_append, Text.lines_append hnil,
    List.filterMap_append]

theorem parse?_empty : Record.parse? "" = none := by
  rfl

/-- A text without a line end holds one record at most. -/
theorem recordsOfLog_of_not_mem (h : '\n' ∉ text.toList) :
    recordsOfLog text = (Record.parse? text).toList := by
  rw [recordsOfLog, Text.lines_of_not_mem h]
  split
  next hempty =>
    obtain rfl : text = "" := String.toList_eq_nil_iff.mp (List.isEmpty_iff.mp hempty)
    rw [parse?_empty]
    rfl
  next =>
    rw [List.filterMap_cons, List.filterMap_nil, String.ofList_toList]
    cases Record.parse? text <;> rfl

/-- A line that ends as a record does is read without its line end. -/
theorem recordsOfLog_line (h : '\n' ∉ text.toList) (hlast : text.toList.getLast? ≠ some '\r') :
    recordsOfLog (text ++ "\n") = (Record.parse? text).toList := by
  have hchars : (text ++ "\n").toList = text.toList ++ ['\n'] := String.toList_append
  rw [recordsOfLog, hchars, Text.lines_newline h, Text.dropReturn_of_getLast hlast,
    List.filterMap_cons, List.filterMap_nil, String.ofList_toList]
  cases Record.parse? text <;> rfl

/-- A log holds the records of its closed lines, and the record of its open line if that is one. -/
theorem recordsOfLog_eq (text : String) : recordsOfLog text =
    recordsOfLog (closedPart text) ++ (Record.parse? (openPart text)).toList := by
  have happend := recordsOfLog_append (openPart_closedPart text) (openPart text)
  rwa [closedPart_append_openPart, recordsOfLog_of_not_mem (newline_not_mem_openPart text)]
    at happend

/-- A record that is appended goes on with the open line. -/
theorem recordsOfLog_append_line (text : String) (record : Record) :
    recordsOfLog (text ++ (record.line ++ "\n")) =
      recordsOfLog (closedPart text) ++ (Record.parse? (openPart text ++ record.line)).toList := by
  have hline : '\n' ∉ (openPart text ++ record.line).toList := by
    rw [String.toList_append, List.mem_append, not_or]
    exact ⟨newline_not_mem_openPart text, record.newline_not_mem_line⟩
  have hlast : (openPart text ++ record.line).toList.getLast? ≠ some '\r' := by
    rw [String.toList_append, List.getLast?_append, record.getLast?_line]
    nofun
  have happend := recordsOfLog_append (openPart_closedPart text)
    (openPart text ++ record.line ++ "\n")
  rw [recordsOfLog_line hline hlast, String.append_assoc, ← String.append_assoc,
    closedPart_append_openPart] at happend
  exact happend

/-! ## Records after an append -/

theorem parse?_blank (h : Json.IsGap text.toList) : Record.parse? text = none := by
  have hskip : Json.skip text.toList = [] := List.dropWhile_eq_nil_iff.mpr h
  rw [Record.parse?, Json.Tree.read?, Json.valueAt, hskip]

/-- Behind the last line end stand blanks at most. -/
def endsLine (text : String) : Bool := (openPart text).toList.all Json.isSpace

/-- An appended record is read together with the closed lines of the log; if more than blanks stand
behind these, neither that nor the record is. -/
theorem recordsOfLog_append_line_eq (text : String) (record : Record) :
    recordsOfLog (text ++ (record.line ++ "\n")) =
      recordsOfLog (closedPart text) ++
        if endsLine text then (Record.parse? record.line).toList else [] := by
  rw [recordsOfLog_append_line, ← String.ofList_toList (s := openPart text)]
  split
  next hends =>
    rw [Record.parse?_gap_line (List.all_eq_true.mp hends)]
  next hends =>
    rw [Record.parse?_swallowed_line fun hgap => hends (List.all_eq_true.mpr hgap)]
    rfl

/-- A log that can be opened is read line by line. -/
theorem records_of_textOf (hopen : directory.IsOpen)
    (htext : directory.textOf (logName label) = .ok text) :
    (store.records label directory).1 = .ok (recordsOfLog text) := by
  rw [hopen.records, recordsOf_eq, htext]
  rfl

/-- The records of a log before and after an append. -/
theorem records_append (htext : directory.textOf (logName record.label) = .ok text)
    (happend : store.append record directory = (.ok (), after)) :
    (store.records record.label directory).1 = .ok (recordsOfLog text) ∧
      (store.records record.label after).1 =
        .ok (recordsOfLog (text ++ (record.line ++ "\n"))) := by
  obtain ⟨lock, text', hlock, htext', rfl⟩ := append_eq_ok happend
  obtain rfl : text = text' := by
    rw [htext] at htext'
    exact Except.ok.inj htext'
  have hopen := (isOpen_write_lock directory (lock.getD "")).write
    (logName_ne_lockName record.label) (text ++ (record.line ++ "\n"))
  exact ⟨records_of_textOf ⟨lock, hlock⟩ htext,
    records_of_textOf hopen (textOf_write_self (length_le_of_textOf htext) _)⟩

/-- Behind a line end, blanks apart, a log goes on with what is read of an appended line. -/
theorem recordsOfLog_extends {found : Record} (hends : endsLine text = true)
    (hline : Record.parse? record.line = some found) :
    recordsOfLog (text ++ (record.line ++ "\n")) = recordsOfLog text ++ [found] := by
  rw [recordsOfLog_append_line_eq, recordsOfLog_eq text, if_pos hends, hline,
    parse?_blank (List.all_eq_true.mp hends), Option.toList_none, List.append_nil]
  rfl

/-- A log goes on with an appended record exactly when it ended with a line end, blanks apart, and
the line of the record is one that can be read. -/
theorem recordsOfLog_extends_iff (text : String) (record : Record) :
    (∃ found : Record, found.key = record.key ∧ found.label = record.label ∧
        recordsOfLog (text ++ (record.line ++ "\n")) = recordsOfLog text ++ [found]) ↔
      endsLine text = true ∧ (Record.parse? record.line).isSome = true := by
  constructor
  · rintro ⟨found, -, -, heq⟩
    rw [recordsOfLog_append_line_eq, recordsOfLog_eq text, List.append_assoc,
      List.append_cancel_left_eq] at heq
    by_cases hends : endsLine text = true
    · rw [if_pos hends, parse?_blank (List.all_eq_true.mp hends)] at heq
      refine ⟨hends, ?_⟩
      cases hline : Record.parse? record.line with
      | none =>
        rw [hline] at heq
        cases heq
      | some found => rfl
    · rw [if_neg hends] at heq
      exact absurd heq.symm (List.append_ne_nil_of_right_ne_nil _ (List.cons_ne_nil _ _))
  · rintro ⟨hends, hreadable⟩
    obtain ⟨found, hline⟩ := Option.isSome_iff_exists.mp hreadable
    obtain ⟨hkey, hlabel, -⟩ := Record.of_parse?_line hline
    exact ⟨found, hkey, hlabel, recordsOfLog_extends hends hline⟩

/-- After an append a store reads what it has read before and then the new record exactly when the
log ended with a line end, blanks apart, and the line of the record is one that can be read.  A
record that is fit to be written is then read back whole. -/
theorem append_extends_iff (htext : directory.textOf (logName record.label) = .ok text)
    (happend : store.append record directory = (.ok (), after)) :
    ((∃ found : Record, found.key = record.key ∧ found.label = record.label ∧
        (store.records record.label after).1 =
          (store.records record.label directory).1.map (· ++ [found])) ↔
      endsLine text = true ∧ (Record.parse? record.line).isSome = true) ∧
    (record.Writable → endsLine text = true → (store.records record.label after).1 =
      (store.records record.label directory).1.map (· ++ [record.reread])) := by
  obtain ⟨hbefore, hafter⟩ := records_append htext happend
  rw [hbefore, hafter]
  constructor
  · rw [← recordsOfLog_extends_iff]
    refine exists_congr fun found => and_congr_right fun _ => and_congr_right fun _ => ?_
    exact ⟨Except.ok.inj, congrArg Except.ok⟩
  · intro hwritable hends
    exact congrArg Except.ok (recordsOfLog_extends hends hwritable.parse?_line)

/-- A record of a stack. -/
def pushed : Record :=
  { digest := "a1", label := "stack", steps := [], header := none, rating := 4, code := "s.push(1)"
    learnedAt := .epoch }

theorem writable_pushed : pushed.Writable where
  steps := List.forall_mem_nil _
  header := fun _ h => absurd h.symm (Option.some_ne_none _)
  rating := by decide
  time := Record.read?_epoch
  exact := by decide
  depth := by decide

/-- The directory in which the log of stacks has the given text. -/
def logOf (text : String) : Directory := ⟨[("stack.jsonl", .file text)]⟩

theorem textOf_logOf (text : String) :
    (logOf text).textOf (logName pushed.label) = .ok text := by
  have hname : logName pushed.label = "stack.jsonl" := by decide +kernel
  rw [hname]
  rfl

theorem append_logOf (text : String) :
    ∃ after, store.append pushed (logOf text) = (.ok (), after) := by
  have hlock : (logOf text).read? lockName = .ok none := by rfl
  rw [append_eq hlock, textOf_logOf]
  exact ⟨_, rfl⟩

theorem append_extends_iff_empty : ∃ after, store.append pushed (logOf "\n") = (.ok (), after) ∧
    (∃ found : Record, found.key = pushed.key ∧ found.label = pushed.label ∧
      (store.records pushed.label after).1 =
        (store.records pushed.label (logOf "\n")).1.map (· ++ [found])) ∧
    (store.records pushed.label after).1 =
      (store.records pushed.label (logOf "\n")).1.map (· ++ [pushed.reread]) := by
  obtain ⟨after, happend⟩ := append_logOf "\n"
  obtain ⟨hextends, hwhole⟩ := append_extends_iff (textOf_logOf "\n") happend
  have hends : endsLine "\n" = true := by decide +kernel
  have hreadable : (Record.parse? pushed.line).isSome = true := by
    rw [writable_pushed.parse?_line]
    rfl
  exact ⟨after, happend, hextends.mpr ⟨hends, hreadable⟩, hwhole writable_pushed hends⟩

/-- A line that was cut off takes the next record with it. -/
theorem append_cutOff : ∃ after,
    store.append pushed (logOf "\x7b\"pattern_hash\":\"ab") = (.ok (), after) ∧
      ¬ ∃ found : Record, found.key = pushed.key ∧ found.label = pushed.label ∧
        (store.records pushed.label after).1 =
          (store.records pushed.label (logOf "\x7b\"pattern_hash\":\"ab")).1.map
            (· ++ [found]) := by
  obtain ⟨after, happend⟩ := append_logOf "\x7b\"pattern_hash\":\"ab"
  refine ⟨after, happend, fun ⟨found, hkey, hlabel, heq⟩ => ?_⟩
  obtain ⟨hbefore, hafter⟩ := records_append (textOf_logOf _) happend
  rw [hbefore, hafter] at heq
  have hends := ((recordsOfLog_extends_iff _ _).mp ⟨found, hkey, hlabel, Except.ok.inj heq⟩).1
  revert hends
  decide +kernel

end Storyboard.Memory.Directory
