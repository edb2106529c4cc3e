import EuleDB.Audit.Operation
import EuleDB.Lib.Effect

/-!
# The audit log's file

`AuditLog` reads and writes one file.  Every operation is a computation over that file: what it
holds, if it is there, and what the filesystem says when it cannot be used.

* `AuditLog.append_ok_iff` — what an append needs of any file, and what it leaves behind.
* `AuditLog.append_run` — one append to a file that holds records.
* `log_round_trip_iff` — a log is read back as it was written exactly when no plan ends with a
  carriage return, and only such a plan makes a log stop verifying.
* `reanchor_verifies` — a re-anchor that succeeds leaves a log that verifies.
-/

set_option autoImplicit false

namespace EuleDB.Audit

open Crypto Lines Effect

/-- The log's file. -/
structure LogFile where
  /-- What it holds, `none` where there is no file. -/
  content : Option Bytes
  /-- Why it cannot be opened, locked, read or written. -/
  fault : Option Text
  deriving DecidableEq

/-- No file yet. -/
def LogFile.fresh : LogFile := ⟨none, none⟩

/-- The file's name, beside the tables. -/
def LOG_FILE : Text := ".euledb-audit.log".toList

/-- What reading bytes that are no text says. -/
def NOT_UTF8 : Text := "stream did not contain valid UTF-8".toList

structure AuditLog where
  path : Text
  deriving DecidableEq

abbrev AuditM := EStateM AuditError LogFile

namespace AuditLog

variable (sha256 : Bytes → Hash) (log : AuditLog)

/-- Opens the file for appending and takes its lock, creating it where there is none. -/
def openLocked : AuditM PUnit := do
  let file ← get
  match file.fault with
  | some cause => throw (.unavailable log.path cause)
  | none => set { file with content := some (file.content.getD []) }

def readToString : AuditM Text := do
  let file ← get
  match utf8Decode (file.content.getD []) with
  | some raw => pure raw
  | none => throw (.unavailable log.path NOT_UTF8)

def writeAll (bytes : Bytes) : AuditM PUnit :=
  modify fun file => { file with content := some (file.content.getD [] ++ bytes) }

/-- Append one record, under the lock. -/
def append (e : Entry) : AuditM PUnit := do
  log.openLocked
  let raw ← log.readToString
  let existing ← ofExcept (parse raw)
  let record ← ofExcept (nextRecord sha256 existing e)
  writeAll (utf8 record.toLine)

/-- Append one record that is already sealed. -/
def write (record : AuditRecord) : AuditM PUnit := do
  log.openLocked
  writeAll (utf8 record.toLine)

/-- Every record, in the order they were appended. -/
def records : AuditM (List AuditRecord) := do
  let file ← get
  match file.fault, file.content with
  | some cause, _ => throw (.unavailable log.path cause)
  | none, none => pure []
  | none, some _ => do
    let raw ← log.readToString
    ofExcept (parse raw)

/-- Walk the chain and report the first link that does not hold. -/
def verify : AuditM PUnit := do
  let records ← log.records
  match firstBreak sha256 records with
  | some link => throw (.brokenChain link)
  | none => pure ⟨⟩

/-- Start a new chain after a break. -/
def reanchor : AuditM PUnit := do
  let records ← log.records
  match firstBreak sha256 records with
  | none => throw .nothingToReanchor
  | some link =>
    log.write (.sealed sha256 (nextLink records).1 ANCHOR (REANCHOR ++ decimal link) [] 0)

/-- Appends one after the other, up to the first that is refused. -/
def appendEach : List Entry → AuditM PUnit
  | [] => pure ⟨⟩
  | e :: entries => do
    log.append sha256 e
    appendEach entries

end AuditLog

/-! ## What an append does to any file -/

theorem AuditLog.openLocked_run (log : AuditLog) (file : LogFile) :
    log.openLocked.run file =
      match file.fault with
      | some cause => .error (.unavailable log.path cause) file
      | none => .ok ⟨⟩ { file with content := some (file.content.getD []) } := by
  unfold openLocked
  rw [EStateM.run_bind, run_get]
  dsimp only
  cases file.fault <;> rfl

theorem AuditLog.readToString_ok {log : AuditLog} {file file' : LogFile} {raw : Text} :
    log.readToString.run file = .ok raw file' ↔
      utf8Decode (file.content.getD []) = some raw ∧ file' = file := by
  unfold readToString
  rw [EStateM.run_bind, run_get]
  dsimp only
  cases utf8Decode (file.content.getD []) with
  | none => simp
  | some text =>
    rw [run_pure]
    simp [eq_comm]

section Append

variable {sha256 : Bytes → Hash} {log : AuditLog} {file file' : LogFile} {e : Entry} {u : PUnit}

theorem AuditLog.openLocked_ok :
    log.openLocked.run file = .ok u file' ↔
      file.fault = none ∧ file' = { file with content := some (file.content.getD []) } := by
  rw [openLocked_run]
  split
  · rename_i cause hcause
    rw [hcause]
    simp
  · rename_i hnone
    rw [hnone]
    simp [eq_comm]

/-- The file with one more line at its end. -/
def LogFile.put (file : LogFile) (r : AuditRecord) : LogFile :=
  { file with content := some (file.content.getD [] ++ utf8 r.toLine) }

/-- The file is text, and its lines are these records. -/
def LogFile.Reads (file : LogFile) (records : List AuditRecord) : Prop :=
  ∃ raw, file.content.getD [] = utf8 raw ∧ parse raw = .ok records

theorem AuditLog.write_ok {r : AuditRecord} :
    (log.write r).run file = .ok u file' ↔ file.fault = none ∧ file' = file.put r := by
  unfold write
  constructor
  · intro h
    obtain ⟨_, opened, hopen, hwrite⟩ := bind_ok.1 h
    obtain ⟨hfault, rfl⟩ := openLocked_ok.1 hopen
    cases hwrite
    exact ⟨hfault, rfl⟩
  · rintro ⟨hfault, rfl⟩
    exact bind_ok.2 ⟨⟨⟩, _, openLocked_ok.2 ⟨hfault, rfl⟩, rfl⟩

/-- **What an append needs, and what it leaves behind**: a text whose lines are records, and one
line behind them. -/
theorem AuditLog.append_ok_iff :
    (log.append sha256 e).run file = .ok u file' ↔ file.fault = none ∧ ∃ records r,
      file.Reads records ∧ nextRecord sha256 records e = .ok r ∧ file' = file.put r := by
  unfold append
  constructor
  · intro h
    obtain ⟨_, opened, hopen, h1⟩ := bind_ok.1 h
    obtain ⟨raw, read, hread, h2⟩ := bind_ok.1 h1
    obtain ⟨existing, parsed, hparse, h3⟩ := bind_ok.1 h2
    obtain ⟨r, sealed, hrecord, hwrite⟩ := bind_ok.1 h3
    obtain ⟨hfault, rfl⟩ := openLocked_ok.1 hopen
    obtain ⟨hraw, rfl⟩ := readToString_ok.1 hread
    obtain ⟨hparsed, rfl⟩ := ofExcept_ok.1 hparse
    obtain ⟨hnext, rfl⟩ := ofExcept_ok.1 hrecord
    cases hwrite
    exact ⟨hfault, existing, r, ⟨raw, utf8Decode_eq_some.1 hraw, hparsed⟩, hnext, rfl⟩
  · rintro ⟨hfault, existing, r, ⟨raw, hraw, hparse⟩, hnext, rfl⟩
    let opened : LogFile := { file with content := some (file.content.getD []) }
    exact bind_ok.2 ⟨⟨⟩, opened, openLocked_ok.2 ⟨hfault, rfl⟩,
      bind_ok.2 ⟨raw, opened, readToString_ok.2 ⟨utf8Decode_eq_some.2 hraw, rfl⟩,
        bind_ok.2 ⟨existing, opened, ofExcept_ok.2 ⟨hparse, rfl⟩,
          bind_ok.2 ⟨r, opened, ofExcept_ok.2 ⟨hnext, rfl⟩, rfl⟩⟩⟩⟩

end Append

/-- The file takes a record: it can be used, it is text, and its records are one unbroken chain. -/
def LogFile.Accepts (sha256 : Bytes → Hash) (file : LogFile) : Prop :=
  file.fault = none ∧ ∃ raw records, utf8Decode (file.content.getD []) = some raw ∧
    parse raw = .ok records ∧ firstBreak sha256 records = none

/-- An append is accepted whatever the entry is. -/
theorem AuditLog.append_accepts {sha256 : Bytes → Hash} {log : AuditLog} {e : Entry}
    {file : LogFile} :
    (∃ u file', (log.append sha256 e).run file = .ok u file') ↔ file.Accepts sha256 := by
  constructor
  · rintro ⟨u, file', hrun⟩
    obtain ⟨hfault, records, r, ⟨raw, hraw, hparse⟩, hnext, -⟩ := append_ok_iff.1 hrun
    have hunbroken : firstBreak sha256 records = none := ((nextRecord_ok sha256).1 hnext).1
    exact ⟨hfault, raw, records, utf8Decode_eq_some.2 hraw, hparse, hunbroken⟩
  · rintro ⟨hfault, raw, records, hraw, hparse, hunbroken⟩
    have hreads : file.Reads records := ⟨raw, utf8Decode_eq_some.1 hraw, hparse⟩
    have hnext := (nextRecord_ok sha256 (e := e)).2 ⟨hunbroken, rfl⟩
    exact ⟨⟨⟩, _, append_ok_iff.2 ⟨hfault, records, _, hreads, hnext, rfl⟩⟩

/-- The file holds what it held; it may have been created. -/
def SameText (file file' : LogFile) : Prop := file'.content.getD [] = file.content.getD []

instance : Std.Refl SameText := ⟨fun _ => rfl⟩

instance : IsTrans LogFile SameText := ⟨fun _ _ _ h h' => h'.trans h⟩

theorem AuditLog.openLocked_keeps (log : AuditLog) : Keeps SameText log.openLocked := by
  intro file
  rw [openLocked_run]
  cases file.fault <;> rfl

theorem AuditLog.readToString_keeps (log : AuditLog) : Keeps SameText log.readToString := by
  refine Keeps.get.bind fun file => ?_
  split
  · exact Keeps.pure _
  · exact Keeps.throw _

/-- One that was refused added nothing. -/
theorem AuditLog.append_error (sha256 : Bytes → Hash) (log : AuditLog) (e : Entry) :
    Fails SameText (log.append sha256 e) := by
  refine Fails.bind log.openLocked_keeps fun _ =>
    Fails.bind log.readToString_keeps fun raw => ?_
  refine Fails.bind (Keeps.ofExcept _) fun existing => Fails.bind (Keeps.ofExcept _) fun r => ?_
  intro file error file' hwrite
  cases hwrite

theorem AuditLog.write_error (log : AuditLog) (r : AuditRecord) :
    Fails SameText (log.write r) := by
  refine Fails.bind log.openLocked_keeps fun _ => ?_
  intro file error file' hwrite
  cases hwrite

theorem AuditLog.records_keeps (log : AuditLog) : Keeps SameText log.records := by
  refine Keeps.get.bind fun file => ?_
  split
  · exact Keeps.throw _
  · exact Keeps.pure _
  · exact log.readToString_keeps.bind fun raw => Keeps.ofExcept _

/-! ## A file that holds records -/

/-- The file can be used and holds the lines of `records`. -/
structure LogFile.Holds (file : LogFile) (records : List AuditRecord) : Prop where
  usable : file.fault = none
  lines : file.content.getD [] = utf8 (records.flatMap AuditRecord.toLine)

theorem LogFile.fresh_holds : LogFile.fresh.Holds [] := ⟨rfl, rfl⟩

/-- The records as they are read back. -/
def readBack (records : List AuditRecord) : List AuditRecord :=
  records.map AuditRecord.dropCarriageReturn

theorem nextLink_readBack (records : List AuditRecord) :
    nextLink (readBack records) = nextLink records := by
  unfold nextLink readBack
  rw [List.getLast?_map]
  cases records.getLast? <;> rfl

/-- The record that an entry becomes after `records`. -/
def sealedAfter (sha256 : Bytes → Hash) (records : List AuditRecord) (e : Entry) : AuditRecord :=
  .sealed sha256 (nextLink records).1 (nextLink records).2 e.query e.plan e.rows

variable {sha256 : Bytes → Hash} {log : AuditLog} {file : LogFile} {records : List AuditRecord}

theorem AuditLog.readToString_run (h : file.Holds records) :
    log.readToString.run file = .ok (records.flatMap AuditRecord.toLine) file := by
  unfold readToString
  rw [EStateM.run_bind, run_get]
  dsimp only
  rw [h.lines, utf8Decode_utf8]
  rfl

theorem AuditLog.records_run (h : file.Holds records) :
    log.records.run file = .ok (readBack records) file := by
  unfold AuditLog.records
  rw [EStateM.run_bind, run_get]
  dsimp only
  rw [h.usable]
  cases hcontent : file.content with
  | none =>
    have hlines := h.lines
    rw [hcontent] at hlines
    have hparse := parse_toLines records
    have hempty : records.flatMap AuditRecord.toLine = [] := by
      have := utf8Decode_utf8 (records.flatMap AuditRecord.toLine)
      rw [← hlines] at this
      exact (Option.some.inj this).symm
    rw [hempty] at hparse
    have hnil := Except.ok.inj hparse
    unfold readBack
    rw [← hnil]
    rfl
  | some content =>
    dsimp only
    rw [EStateM.run_bind, readToString_run h]
    dsimp only
    rw [parse_toLines]
    rfl

/-- **One append to a file that holds records**: refused where their chain is broken, and
otherwise one more line. -/
theorem AuditLog.append_run (h : file.Holds records) (e : Entry) :
    (log.append sha256 e).run file =
      match firstBreak sha256 (readBack records) with
      | some link => .error (.brokenChain link) { file with content := some (file.content.getD []) }
      | none => .ok ⟨⟩ { file with
          content := some (file.content.getD [] ++ utf8 (sealedAfter sha256 records e).toLine) } := by
  have hopen : log.openLocked.run file =
      .ok ⟨⟩ { file with content := some (file.content.getD []) } :=
    openLocked_ok.2 ⟨h.usable, rfl⟩
  have hopened : LogFile.Holds { file with content := some (file.content.getD []) } records :=
    ⟨h.usable, h.lines⟩
  unfold append
  rw [EStateM.run_bind, hopen]
  dsimp only
  rw [EStateM.run_bind, readToString_run hopened]
  dsimp only
  rw [parse_toLines, EStateM.run_bind, run_ofExcept_ok, ← readBack]
  dsimp only
  unfold nextRecord
  cases firstBreak sha256 (readBack records) with
  | some link => rfl
  | none =>
    rw [nextLink_readBack]
    rfl

theorem LogFile.Holds.append (h : file.Holds records) (r : AuditRecord) :
    LogFile.Holds { file with content := some (file.content.getD [] ++ utf8 r.toLine) }
      (records ++ [r]) := by
  refine ⟨h.usable, ?_⟩
  rw [Option.getD_some, h.lines, List.flatMap_append, utf8_append, List.flatMap_singleton]

theorem AuditLog.verify_run (h : file.Holds records) :
    (log.verify sha256).run file =
      match firstBreak sha256 (readBack records) with
      | some link => .error (.brokenChain link) file
      | none => .ok ⟨⟩ file := by
  unfold verify
  rw [EStateM.run_bind, records_run h]
  dsimp only
  cases firstBreak sha256 (readBack records) <;> rfl

theorem AuditLog.write_run (h : file.Holds records) (r : AuditRecord) :
    ∃ file', (log.write r).run file = .ok ⟨⟩ file' ∧ file'.Holds (records ++ [r]) := by
  refine ⟨_, ?_, h.append r⟩
  exact write_ok.2 ⟨h.usable, rfl⟩

theorem readBack_append (records : List AuditRecord) (r : AuditRecord) :
    readBack (records ++ [r]) = readBack records ++ [r.dropCarriageReturn] :=
  List.map_append

/-- **A re-anchor that succeeds leaves a log that verifies.** -/
theorem reanchor_verifies {file' : LogFile} {u : PUnit} (h : file.Holds records)
    (hrun : (log.reanchor sha256).run file = .ok u file') :
    (log.verify sha256).run file' = .ok ⟨⟩ file' := by
  unfold AuditLog.reanchor at hrun
  rw [EStateM.run_bind, AuditLog.records_run h] at hrun
  dsimp only at hrun
  cases hbreak : firstBreak sha256 (readBack records) with
  | none =>
    rw [hbreak] at hrun
    cases hrun
  | some link =>
    rw [hbreak] at hrun
    dsimp only at hrun
    generalize hanchor : AuditRecord.sealed sha256 (nextLink (readBack records)).1 ANCHOR
      (REANCHOR ++ decimal link) [] 0 = anchor at hrun
    have hwritten : ∃ written, (log.write anchor).run file = .ok ⟨⟩ written ∧
        written.Holds (records ++ [anchor]) := AuditLog.write_run h anchor
    obtain ⟨written, hwrite, hholds⟩ := hwritten
    rw [hwrite] at hrun
    cases hrun
    rw [AuditLog.verify_run hholds, readBack_append]
    have hplain : anchor.dropCarriageReturn = anchor := by rw [← hanchor]; rfl
    rw [hplain, ← hanchor, firstBreak_reanchored]

/-! ## Runs of recorded operations -/

/-- The records that entries become, each sealed after the one before. -/
def sealAll (sha256 : Bytes → Hash) (entries : List Entry) : List AuditRecord :=
  entries.foldl (fun records e => records ++ [sealedAfter sha256 records e]) []

theorem sealAll_append (entries : List Entry) (e : Entry) :
    sealAll sha256 (entries ++ [e]) =
      sealAll sha256 entries ++ [sealedAfter sha256 (sealAll sha256 entries) e] := by
  unfold sealAll
  rw [List.foldl_append]
  rfl

/-- As they were sealed, the records follow one another. -/
theorem breakFrom_sealAll (entries : List Entry) :
    breakFrom sha256 ANCHOR (sealAll sha256 entries) = none := by
  induction entries using List.reverseRecOn with
  | nil => rfl
  | append_singleton entries e ih =>
    rw [sealAll_append, breakFrom_append]
    exact ⟨ih, nextLink_hash _, rfl⟩

theorem sealAll_entries (entries : List Entry) :
    (sealAll sha256 entries).map AuditRecord.entry = entries := by
  induction entries using List.reverseRecOn with
  | nil => rfl
  | append_singleton entries e ih =>
    rw [sealAll_append, List.map_append, ih]
    rfl

/-- As they are read back they still do where each one's hash is still its own. -/
theorem breakFrom_readBack {expectedPrevious : Hash}
    (h : breakFrom sha256 expectedPrevious records = none) :
    breakFrom sha256 expectedPrevious (readBack records) = none ↔
      ∀ r ∈ records, r.plan.getLast? ≠ some '\r' ∨
        sha256 r.dropCarriageReturn.preimage = sha256 r.preimage := by
  induction records generalizing expectedPrevious with
  | nil => exact iff_of_true rfl (by simp)
  | cons r records ih =>
    unfold breakFrom at h
    split at h
    · cases h
    · rename_i hr
      rw [not_or, not_not, not_not] at hr
      have hkept : r.dropCarriageReturn.hash = r.dropCarriageReturn.recompute sha256 ↔
          r.plan.getLast? ≠ some '\r' ∨
            sha256 r.dropCarriageReturn.preimage = sha256 r.preimage := by
        have hhash : r.dropCarriageReturn.hash = sha256 r.preimage := hr.2
        rw [hhash]
        constructor
        · intro hsame
          exact .inr hsame.symm
        · rintro (hplain | hsame)
          · have hself : r.dropCarriageReturn = r := by
              unfold AuditRecord.dropCarriageReturn
              rw [dropCarriageReturn_eq_self.2 hplain]
            rw [hself]
            rfl
          · exact hsame.symm
      rw [List.forall_mem_cons, ← hkept, ← ih h]
      have hcons : readBack (r :: records) = r.dropCarriageReturn :: readBack records := rfl
      rw [hcons, breakFrom]
      split_ifs with hbreak
      · refine iff_of_false (by simp) ?_
        rintro ⟨hhash, -⟩
        exact hbreak.elim (fun hprevious => hprevious hr.1) (fun hne => hne hhash)
      · rw [not_or, not_not, not_not] at hbreak
        exact ⟨fun hrest => ⟨hbreak.2, hrest⟩, fun hboth => hboth.2⟩

/-- What a database's operations record, each with its number of rows. -/
def recorded (debug : Text → Text) (calls : List (Operation × UInt64)) : List Entry :=
  calls.map fun call => call.1.entry debug call.2

/-- No entry of a database's starts a new chain. -/
theorem firstBreak_recorded (debug : Text → Text) (calls : List (Operation × UInt64)) :
    firstBreak sha256 (readBack (sealAll sha256 (recorded debug calls))) = none ↔
      ∀ r ∈ sealAll sha256 (recorded debug calls), r.plan.getLast? ≠ some '\r' ∨
        sha256 r.dropCarriageReturn.preimage = sha256 r.preimage := by
  have hone : currentChain (readBack (sealAll sha256 (recorded debug calls))) =
      readBack (sealAll sha256 (recorded debug calls)) := by
    refine currentChain_eq_self.2 fun r hr => ?_
    obtain ⟨r', hr', rfl⟩ := List.mem_map.1 (List.mem_of_mem_tail hr)
    have hentry := List.mem_map_of_mem (f := AuditRecord.entry) hr'
    rw [sealAll_entries] at hentry
    obtain ⟨call, -, hcall⟩ := List.mem_map.1 hentry
    have hquery : call.1.query debug = r'.query := congrArg Entry.query hcall
    have hnot := call.1.not_reanchor debug
    rw [hquery] at hnot
    exact hnot
  unfold firstBreak
  rw [hone, breakFrom_readBack (breakFrom_sealAll _)]

theorem AuditLog.appendEach_append (entries : List Entry) (e : Entry) :
    log.appendEach sha256 (entries ++ [e]) = (do
      log.appendEach sha256 entries
      log.append sha256 e) := by
  induction entries with
  | nil =>
    rw [List.nil_append]
    unfold appendEach appendEach
    rw [pure_bind]
    exact bind_pure _
  | cons first entries ih =>
    rw [List.cons_append]
    unfold appendEach
    rw [ih, bind_assoc]

/-- Where every append is accepted the file holds the sealed records. -/
theorem AuditLog.appendEach_holds {entries : List Entry} {u : PUnit}
    (hrun : (log.appendEach sha256 entries).run .fresh = .ok u file) :
    file.Holds (sealAll sha256 entries) := by
  induction entries using List.reverseRecOn generalizing file with
  | nil =>
    cases hrun
    exact LogFile.fresh_holds
  | append_singleton entries e ih =>
    rw [appendEach_append] at hrun
    obtain ⟨_, before, hbefore, happend⟩ := bind_ok.1 hrun
    have hholds := ih hbefore
    rw [append_run hholds] at happend
    split at happend
    · cases happend
    · cases happend
      rw [sealAll_append]
      exact hholds.append _

/-- Where the sealed records are read back as they were, every append is accepted. -/
theorem AuditLog.appendEach_recorded {debug : Text → Text} {calls : List (Operation × UInt64)}
    (h : ∀ r ∈ sealAll sha256 (recorded debug calls), r.plan.getLast? ≠ some '\r' ∨
      sha256 r.dropCarriageReturn.preimage = sha256 r.preimage) :
    ∃ file, (log.appendEach sha256 (recorded debug calls)).run .fresh = .ok ⟨⟩ file := by
  induction calls using List.reverseRecOn with
  | nil => exact ⟨_, rfl⟩
  | append_singleton calls call ih =>
    have hsplit : recorded debug (calls ++ [call]) =
        recorded debug calls ++ [call.1.entry debug call.2] := List.map_append
    rw [hsplit, sealAll_append] at h
    have hbefore := fun r hr => h r (List.mem_append_left _ hr)
    obtain ⟨before, hrun⟩ := ih hbefore
    have hunbroken := (firstBreak_recorded debug calls).2 hbefore
    have happend : (log.append sha256 (call.1.entry debug call.2)).run before = _ :=
      append_run (appendEach_holds hrun) _
    rw [hunbroken] at happend
    exact ⟨_, by rw [hsplit, appendEach_append]; exact bind_ok.2 ⟨_, _, hrun, happend⟩⟩

/-- **A log is read back as it was written exactly when no plan ends with a carriage return.  Of
what a database records, only such a plan can make its log stop verifying**, and it does unless
the hash function gives the record and the record read back one hash. -/
theorem log_round_trip_iff (sha256 : Bytes → Hash) (debug : Text → Text) (log : AuditLog) :
    (∀ records : List AuditRecord, parse (records.flatMap AuditRecord.toLine) = .ok records ↔
        ∀ r ∈ records, r.plan.getLast? ≠ some '\r') ∧
      ∀ calls : List (Operation × UInt64),
        (∃ file, (log.appendEach sha256 (recorded debug calls)).run .fresh = .ok ⟨⟩ file ∧
            (log.verify sha256).run file = .ok ⟨⟩ file) ↔
          ∀ r ∈ sealAll sha256 (recorded debug calls), r.plan.getLast? ≠ some '\r' ∨
            sha256 r.dropCarriageReturn.preimage = sha256 r.preimage := by
  refine ⟨fun records => ?_, fun calls => ⟨?_, fun h => ?_⟩⟩
  · rw [parse_toLines]
    have hsame : ∀ r : AuditRecord,
        r.dropCarriageReturn = r ↔ r.plan.getLast? ≠ some '\r' := by
      intro r
      rw [← dropCarriageReturn_eq_self]
      constructor
      · intro h
        exact congrArg AuditRecord.plan h
      · intro h
        unfold AuditRecord.dropCarriageReturn
        rw [h]
    rw [Except.ok.injEq]
    nth_rewrite 2 [← List.map_id records]
    simp only [List.map_inj_left, id_eq, hsame]
  · rintro ⟨file, hrun, hverify⟩
    rw [AuditLog.verify_run (AuditLog.appendEach_holds hrun)] at hverify
    refine (firstBreak_recorded debug calls).1 ?_
    split at hverify
    · cases hverify
    · assumption
  · have hrecorded : ∃ file, (log.appendEach sha256 (recorded debug calls)).run .fresh =
        .ok ⟨⟩ file := AuditLog.appendEach_recorded h
    obtain ⟨file, hrun⟩ := hrecorded
    refine ⟨file, hrun, ?_⟩
    rw [AuditLog.verify_run (AuditLog.appendEach_holds hrun),
      (firstBreak_recorded debug calls).2 h]

/-- A text query that ends with a carriage return: the record loses it, and the log no longer
verifies. -/
theorem carriage_return_breaks_the_log :
    let search := (Operation.searchText "docs".toList "body".toList "owl\r".toList).entry id 1
    let record := AuditRecord.sealed digest 0 ANCHOR search.query search.plan search.rows
    parse record.toLine = .ok [{ record with plan := "owl".toList }] ∧
      ∃ file, ((AuditLog.mk LOG_FILE).append digest search).run .fresh = .ok ⟨⟩ file ∧
        ((AuditLog.mk LOG_FILE).verify digest).run file = .error (.brokenChain 0) file := by
  intro search record
  have hparse := parse_toLines [record]
  rw [List.flatMap_singleton] at hparse
  refine ⟨hparse, _, AuditLog.append_run LogFile.fresh_holds search, ?_⟩
  have hholds := LogFile.fresh_holds.append (sealedAfter digest [] search)
  rw [AuditLog.verify_run hholds]
  have hbroken : firstBreak digest (readBack [sealedAfter digest [] search]) = some 0 := by
    decide +kernel
  rw [List.nil_append, hbroken]

end EuleDB.Audit
