import EuleDB.Audit.Tail
import EuleDB.Audit.Head

/-!
# A log that was cut

A writer that is killed leaves a prefix of the file behind, which can end anywhere in a line.

* `appended_iff`, `reanchored_iff` — for any file: when an append or a re-anchor that returns `Ok`
  did what it says.
* `Produced` — the files that appends and re-anchors make.
* `Survives` — what is wanted of the log after the cut.
* `log_survives_crash_iff` — the log survives exactly the cuts between two lines.
-/

set_option autoImplicit false

namespace EuleDB.Audit

open Crypto Lines Effect

/-! ## What a call that returns `Ok` did -/

/-- The records are the previous ones and one for the entry, and the log verifies. -/
def Appended (sha256 : Bytes → Hash) (log : AuditLog) (file : LogFile) (e : Entry)
    (file' : LogFile) : Prop :=
  ∃ found r, log.records.run file = .ok found file ∧ r.entry = e ∧
    log.records.run file' = .ok (found ++ [r]) file' ∧ (log.verify sha256).run file' = .ok ⟨⟩ file'

/-- The records are the previous ones and an anchor, the log verifies, and appends succeed. -/
def Reanchored (sha256 : Bytes → Hash) (log : AuditLog) (file file' : LogFile) : Prop :=
  ∃ found r, log.records.run file = .ok found file ∧ r.isReanchor ∧
    log.records.run file' = .ok (found ++ [r]) file' ∧
    (log.verify sha256).run file' = .ok ⟨⟩ file' ∧
    ∀ e, ∃ file'', (log.append sha256 e).run file' = .ok ⟨⟩ file''

section Calls

variable {sha256 : Bytes → Hash} {log : AuditLog} {file file' : LogFile}

theorem lastHash_currentChain (records : List AuditRecord) :
    lastHash ANCHOR (currentChain records) = (nextLink records).2 := by
  rw [nextLink_hash]
  unfold lastHash
  rw [currentChain_getLast?]

/-- When the chain holds with the next record behind it. -/
theorem firstBreak_next {records : List AuditRecord} {e : Entry} {r : AuditRecord}
    (hnext : nextRecord sha256 records e = .ok r) :
    firstBreak sha256 (records ++ [r]) = none ↔
      (REANCHOR.isPrefixOf e.query → (nextLink records).2 = ANCHOR) := by
  obtain ⟨hunbroken, hr⟩ := (nextRecord_ok sha256).1 hnext
  have hmarker : r.isReanchor = REANCHOR.isPrefixOf e.query := by rw [hr]; rfl
  have hprevious : r.previous = (nextLink records).2 := by rw [hr]; rfl
  have hhash : r.hash = r.recompute sha256 := by rw [hr]; rfl
  unfold firstBreak at hunbroken ⊢
  rw [currentChain_append, hmarker]
  split_ifs with hquery
  · rw [← hprevious]
    unfold breakFrom breakFrom
    split_ifs with hbreak
    · refine iff_of_false (by simp) fun hanchor => ?_
      exact hbreak.elim (fun hne => hne (hanchor hquery)) (fun hne => hne hhash)
    · rw [not_or, not_not] at hbreak
      exact iff_of_true rfl fun _ => hbreak.1
  · refine iff_of_true ?_ fun h => absurd h hquery
    refine (breakFrom_append sha256 ANCHOR _ r).2 ⟨hunbroken, ?_, hhash⟩
    rw [lastHash_currentChain, hprevious]

theorem AuditRecord.dropCarriageReturn_eq_self {r : AuditRecord} :
    r.dropCarriageReturn = r ↔ r.plan.getLast? ≠ some '\r' := by
  rw [← Lines.dropCarriageReturn_eq_self]
  unfold AuditRecord.dropCarriageReturn
  constructor
  · intro h
    exact congrArg AuditRecord.plan h
  · intro h
    rw [h]

/-- **When an append that returned `Ok` did what it says**: the file's last line was ended, the
plan does not end with a carriage return, and the query begins no chain in the middle. -/
theorem appended_iff {e : Entry} (hrun : (log.append sha256 e).run file = .ok ⟨⟩ file') :
    Appended sha256 log file e file' ↔ file.Ended ∧ e.plan.getLast? ≠ some '\r' ∧
      (REANCHOR.isPrefixOf e.query → ∀ found, file.Reads found → (nextLink found).2 = ANCHOR) := by
  obtain ⟨hfault, found, r, hreads, hnext, rfl⟩ := AuditLog.append_ok_iff.1 hrun
  obtain ⟨-, hr⟩ := (nextRecord_ok sha256).1 hnext
  have hplan : r.plan = e.plan := by rw [hr]; rfl
  have hentry : r.entry = e := by rw [hr]; rfl
  constructor
  · rintro ⟨found', r', hfound, hentry', hfound', hverify⟩
    obtain ⟨-, hreads', -⟩ := AuditLog.records_ok.1 hfound
    obtain ⟨-, hafter, -⟩ := AuditLog.records_ok.1 hfound'
    obtain rfl := hreads.unique hreads'
    have hended : file.Ended := by
      by_contra hnot
      have hle := hreads.put_glued hnot hafter
      rw [List.length_append, List.length_singleton] at hle
      omega
    have hlast := (List.append_cancel_left ((hreads.put hended r).unique hafter))
    have hsame : r.dropCarriageReturn = r' := by
      rw [List.cons.injEq] at hlast
      exact hlast.1
    have hplain : e.plan.getLast? ≠ some '\r' := by
      have hdrop : r.dropCarriageReturn.entry.plan = r.plan := by
        rw [hsame, hentry', hplan]
      have hself : Lines.dropCarriageReturn r.plan = r.plan := hdrop
      rw [← hplan]
      exact Lines.dropCarriageReturn_eq_self.1 hself
    refine ⟨hended, hplain, fun hquery found' hfound' => ?_⟩
    obtain rfl := hreads.unique hfound'
    obtain ⟨-, -, all, hall, hnone⟩ := AuditLog.verify_ok.1 hverify
    have hself : r.dropCarriageReturn = r :=
      AuditRecord.dropCarriageReturn_eq_self.2 (by rw [hplan]; exact hplain)
    have hput := hreads.put hended r
    rw [hself] at hput
    rw [hall.unique hput] at hnone
    exact (firstBreak_next hnext).1 hnone hquery
  · rintro ⟨hended, hplain, hquery⟩
    have hself : r.dropCarriageReturn = r :=
      AuditRecord.dropCarriageReturn_eq_self.2 (by rw [hplan]; exact hplain)
    have hput := hreads.put hended r
    rw [hself] at hput
    exact ⟨found, r, AuditLog.records_ok.2 ⟨hfault, hreads, rfl⟩, hentry,
      AuditLog.records_ok.2 ⟨hfault, hput, rfl⟩, AuditLog.verify_ok.2 ⟨hfault, rfl, _, hput,
        (firstBreak_next hnext).2 fun hmarker => hquery hmarker found hreads⟩⟩

/-- **When a re-anchor that returned `Ok` did what it says**: the file's last line was ended. -/
theorem reanchored_iff (hrun : (log.reanchor sha256).run file = .ok ⟨⟩ file') :
    Reanchored sha256 log file file' ↔ file.Ended := by
  obtain ⟨hfault, found, link, hreads, hbreak, rfl⟩ := AuditLog.reanchor_ok_iff.1 hrun
  constructor
  · rintro ⟨found', r, hfound, -, hfound', -⟩
    obtain ⟨-, hreads', -⟩ := AuditLog.records_ok.1 hfound
    obtain ⟨-, hafter, -⟩ := AuditLog.records_ok.1 hfound'
    obtain rfl := hreads.unique hreads'
    by_contra hnot
    have hle := hreads.put_glued hnot hafter
    rw [List.length_append, List.length_singleton] at hle
    omega
  · intro hended
    have hput := hreads.put hended (anchorAfter sha256 found link)
    have hself : (anchorAfter sha256 found link).dropCarriageReturn =
        anchorAfter sha256 found link := rfl
    rw [hself] at hput
    have hnone := firstBreak_reanchored sha256 found (nextLink found).1 (decimal link)
    refine ⟨found, anchorAfter sha256 found link, AuditLog.records_ok.2 ⟨hfault, hreads, rfl⟩,
      anchorAfter_isReanchor _ _ _,
      AuditLog.records_ok.2 ⟨hfault, hput, rfl⟩,
      AuditLog.verify_ok.2 ⟨hfault, rfl, _, hput, hnone⟩, fun e => ?_⟩
    exact ⟨_, AuditLog.append_ok_iff.2 ⟨hfault, _, _, hput,
      (nextRecord_ok sha256).2 ⟨hnone, rfl⟩, rfl⟩⟩

end Calls

/-! ## Files that are made, and cut -/

/-- What appends and re-anchors make of no file, with the records that were written. -/
inductive Produced (sha256 : Bytes → Hash) (log : AuditLog) :
    LogFile → List AuditRecord → Prop where
  | fresh : Produced sha256 log .fresh []
  | append {file : LogFile} {records : List AuditRecord} {e : Entry} {r : AuditRecord}
      (h : Produced sha256 log file records)
      (hrun : (log.append sha256 e).run file = .ok ⟨⟩ (file.put r)) :
      Produced sha256 log (file.put r) (records ++ [r])
  | reanchor {file : LogFile} {records : List AuditRecord} {r : AuditRecord}
      (h : Produced sha256 log file records)
      (hrun : (log.reanchor sha256).run file = .ok ⟨⟩ (file.put r)) :
      Produced sha256 log (file.put r) (records ++ [r])

/-- The file after a cut behind its first `n` bytes. -/
def LogFile.cut (file : LogFile) (n : Nat) : LogFile :=
  { file with content := file.content.map (List.take n) }

/-- What is wanted of a log of `records` that was cut after `n` bytes, and of the next append. -/
structure Survives (sha256 : Bytes → Hash) (log : AuditLog) (records : List AuditRecord) (n : Nat)
    (file : LogFile) (e : Entry) : Prop where
  complete : ∀ k, (utf8 ((records.take k).flatMap AuditRecord.toLine)).length ≤ n →
    ∃ found, log.records.run file = .ok found file ∧ records.take k <+: found
  append : ∀ file', (log.append sha256 e).run file = .ok ⟨⟩ file' →
    Appended sha256 log file e file'
  reanchor : ∀ error file1, (log.append sha256 e).run file = .error error file1 →
    ∃ file', (log.reanchor sha256).run file1 = .ok ⟨⟩ file' ∧ Reanchored sha256 log file1 file'

section Cuts

variable {sha256 : Bytes → Hash} {log : AuditLog} {file : LogFile} {records : List AuditRecord}

theorem Produced.holds (h : Produced sha256 log file records) : file.Holds records := by
  induction h with
  | fresh => exact LogFile.fresh_holds
  | append _ _ ih => exact ih.append _
  | reanchor _ _ ih => exact ih.append _

theorem LogFile.cut_content (file : LogFile) (n : Nat) :
    (file.cut n).content.getD [] = (file.content.getD []).take n := by
  unfold LogFile.cut
  cases file.content with
  | none => exact List.take_nil.symm
  | some content => rfl

theorem utf8_newline : utf8 ['\n'] = [10] := rfl

theorem utf8_toLine (r : AuditRecord) : utf8 r.toLine = utf8 r.line ++ [10] := by
  unfold AuditRecord.toLine
  rw [utf8_append, utf8_newline]

/-- The last byte of a file whose last line is ended. -/
theorem LogFile.Ended.last_byte (h : file.Ended) :
    file.content.getD [] = [] ∨ (file.content.getD []).getLast? = some 10 := by
  obtain ⟨raw, hraw, hended⟩ := h
  rw [hraw]
  rcases hended with rfl | hlast
  · exact .inl rfl
  · obtain ⟨front, rfl⟩ := List.getLast?_eq_some_iff.1 hlast
    rw [utf8_append, utf8_newline]
    exact .inr List.getLast?_concat

/-- **A prefix of lines that ends with a newline is whole lines.** -/
theorem whole_lines (records : List AuditRecord) {n : Nat} {bytes : Bytes}
    (hcut : bytes = (utf8 (records.flatMap AuditRecord.toLine)).take n)
    (hlast : bytes = [] ∨ bytes.getLast? = some 10) :
    ∃ k, bytes = utf8 ((records.take k).flatMap AuditRecord.toLine) := by
  induction records generalizing n bytes with
  | nil => exact ⟨0, hcut.trans List.take_nil⟩
  | cons r records ih =>
    rw [List.flatMap_cons, utf8_append, utf8_toLine, List.append_assoc] at hcut
    by_cases hn : n ≤ (utf8 r.line).length
    · -- the cut is in the first line, which holds no newline
      refine ⟨0, ?_⟩
      rw [List.take_append_of_le_length hn] at hcut
      rcases hlast with hnil | hten
      · exact hnil
      · have hmem : (10 : UInt8) ∈ utf8 r.line :=
          List.mem_of_mem_take (hcut ▸ List.mem_of_getLast? hten)
        exact absurd (newline_of_mem_utf8 hmem) r.newline_not_mem_line
    · have hsplit : bytes = utf8 r.toLine ++
          (utf8 (records.flatMap AuditRecord.toLine)).take (n - (utf8 r.toLine).length) := by
        rw [hcut, utf8_toLine, ← List.append_assoc, List.take_append, List.take_of_length_le]
        rw [List.length_append, List.length_singleton]
        omega
      obtain ⟨k, hk⟩ := ih (n := n - (utf8 r.toLine).length) rfl (by
        rcases List.eq_nil_or_concat ((utf8 (records.flatMap AuditRecord.toLine)).take
          (n - (utf8 r.toLine).length)) with hnil | ⟨front, b, hconcat⟩
        · exact .inl hnil
        · refine .inr ?_
          rw [hconcat, List.concat_eq_append] at hsplit ⊢
          rcases hlast with hnil | hten
          · rw [hnil] at hsplit
            simp at hsplit
          · rw [hsplit, ← List.append_assoc, List.getLast?_concat] at hten
            rw [List.getLast?_concat]
            exact hten)
      refine ⟨k + 1, ?_⟩
      rw [hsplit, hk, List.take_succ_cons, List.flatMap_cons, utf8_append]

/-- Records whose lines take no more room are no more records. -/
theorem take_prefix_of_length {k k' : Nat}
    (h : (utf8 ((records.take k').flatMap AuditRecord.toLine)).length ≤
      (utf8 ((records.take k).flatMap AuditRecord.toLine)).length) :
    records.take k' <+: records.take k := by
  rcases Nat.le_total k' k with hle | hle
  · exact List.take_prefix_take_left hle
  · obtain ⟨more, hmore⟩ := List.take_prefix_take_left (l := records) hle
    rw [← hmore, List.flatMap_append, utf8_append, List.length_append] at h
    have hnil : more = [] := by
      cases more with
      | nil => rfl
      | cons r more =>
        rw [List.flatMap_cons, utf8_append, utf8_toLine] at h
        simp only [List.length_append, List.length_singleton] at h
        omega
    rw [← hmore, hnil, List.append_nil]

/-- The cut falls between two lines, and no plan before it ends with a carriage return; and where
the log takes the entry, that is no such entry either, and begins no chain in the middle. -/
def CutBetween (sha256 : Bytes → Hash) (records : List AuditRecord) (file : LogFile)
    (e : Entry) : Prop :=
  ∃ k, file.content.getD [] = utf8 ((records.take k).flatMap AuditRecord.toLine) ∧
    (∀ r ∈ records.take k, r.plan.getLast? ≠ some '\r') ∧
    (firstBreak sha256 (records.take k) = none → e.plan.getLast? ≠ some '\r' ∧
      (REANCHOR.isPrefixOf e.query → (nextLink (records.take k)).2 = ANCHOR))

theorem readBack_eq_self {records : List AuditRecord} :
    readBack records = records ↔ ∀ r ∈ records, r.plan.getLast? ≠ some '\r' := by
  unfold readBack
  have hid : records.map AuditRecord.dropCarriageReturn = records ↔
      records.map AuditRecord.dropCarriageReturn = records.map id := by
    rw [List.map_id]
  rw [hid, List.map_inj_left]
  simp only [id, AuditRecord.dropCarriageReturn_eq_self]

theorem LogFile.Ended.sameText {file file' : LogFile} (h : SameText file file')
    (hended : file.Ended) : file'.Ended := by
  obtain ⟨raw, hraw, hlast⟩ := hended
  exact ⟨raw, h.trans hraw, hlast⟩

/-- A log that survives was cut between two lines. -/
theorem Survives.ended {n : Nat} {e : Entry} (h : Survives sha256 log records n file e) :
    file.Ended := by
  cases hrun : (log.append sha256 e).run file with
  | ok u file' => exact ((appended_iff hrun).1 (h.append file' hrun)).1
  | error error file1 =>
    obtain ⟨file', hreanchor, hdone⟩ := h.reanchor error file1 hrun
    have hsame : SameText file file1 := log.append_error sha256 e _ _ _ hrun
    exact ((reanchored_iff hreanchor).1 hdone).sameText hsame.symm

/-- **A log that was made survives exactly the cuts between two lines.** -/
theorem survives_iff (h : Produced sha256 log file records) (n : Nat) (e : Entry) :
    Survives sha256 log records n (file.cut n) e ↔ CutBetween sha256 records (file.cut n) e := by
  have hlines := h.holds.lines
  have hfault : (file.cut n).fault = none := h.holds.usable
  have hcontent := file.cut_content n
  rw [hlines] at hcontent
  constructor
  · intro hsurvives
    obtain ⟨k, hk⟩ := whole_lines records hcontent hsurvives.ended.last_byte
    have hholds : (file.cut n).Holds (records.take k) := ⟨hfault, hk⟩
    have hfits : (utf8 ((records.take k).flatMap AuditRecord.toLine)).length ≤ n := by
      rw [← hk, hcontent]
      exact List.length_take_le _ _
    obtain ⟨found, hfound, hprefix⟩ := hsurvives.complete k hfits
    obtain ⟨-, hreads, -⟩ := AuditLog.records_ok.1 hfound
    obtain rfl := hreads.unique hholds.reads
    have hself : readBack (records.take k) = records.take k := by
      refine (List.IsPrefix.eq_of_length hprefix ?_).symm
      unfold readBack
      rw [List.length_map]
    refine ⟨k, hk, readBack_eq_self.1 hself, fun hunbroken => ?_⟩
    rw [hself] at hreads
    have hrun : (log.append sha256 e).run (file.cut n) = .ok ⟨⟩ _ :=
      AuditLog.append_ok_iff.2 ⟨hfault, _, _, hreads,
        (nextRecord_ok sha256).2 ⟨hunbroken, rfl⟩, rfl⟩
    obtain ⟨-, hplain, hmarker⟩ := (appended_iff hrun).1 (hsurvives.append _ hrun)
    exact ⟨hplain, fun hquery => hmarker hquery _ hreads⟩
  · rintro ⟨k, hk, hplain, hentry⟩
    have hholds : (file.cut n).Holds (records.take k) := ⟨hfault, hk⟩
    have hreads := hholds.reads
    rw [readBack_eq_self.2 hplain] at hreads
    refine ⟨fun k' hk' => ?_, fun file' hrun => ?_, fun error file1 hrun => ?_⟩
    · refine ⟨_, AuditLog.records_ok.2 ⟨hfault, hreads, rfl⟩, take_prefix_of_length ?_⟩
      rw [← hk, hcontent, List.length_take]
      refine Nat.le_min.2 ⟨hk', ?_⟩
      obtain ⟨rest, hrest⟩ := List.take_prefix k' records
      have hall := congrArg (fun l => (utf8 (l.flatMap AuditRecord.toLine)).length) hrest
      rw [List.flatMap_append, utf8_append, List.length_append] at hall
      omega
    · refine (appended_iff hrun).2 ⟨hholds.ended, ?_⟩
      obtain ⟨-, found, r, hfound, hnext, -⟩ := AuditLog.append_ok_iff.1 hrun
      obtain rfl := hreads.unique hfound
      obtain ⟨hplan, hmarker⟩ := hentry ((nextRecord_ok sha256).1 hnext).1
      refine ⟨hplan, fun hquery found' hfound' => ?_⟩
      obtain rfl := hreads.unique hfound'
      exact hmarker hquery
    · have hsame : SameText (file.cut n) file1 := log.append_error sha256 e _ _ _ hrun
      rw [AuditLog.append_run hholds, readBack_eq_self.2 hplain] at hrun
      cases hbreak : firstBreak sha256 (records.take k) with
      | none =>
        rw [hbreak] at hrun
        cases hrun
      | some link =>
        rw [hbreak] at hrun
        cases hrun
        have hreads1 := hreads.sameText hsame
        have hreanchor : (log.reanchor sha256).run
            { file.cut n with content := some ((file.cut n).content.getD []) } = .ok ⟨⟩ _ :=
          AuditLog.reanchor_ok_iff.2 ⟨hfault, _, _, hreads1, hbreak, rfl⟩
        exact ⟨_, hreanchor, (reanchored_iff hreanchor).2 (hholds.ended.sameText hsame)⟩

/-- **Exactly when the audit log survives a crash**, and exactly when a call that returns `Ok`, on
any file, did what it says. -/
theorem log_survives_crash_iff (sha256 : Bytes → Hash) (log : AuditLog) :
    (∀ (file : LogFile) (records : List AuditRecord), Produced sha256 log file records →
      ∀ (n : Nat) (e : Entry), Survives sha256 log records n (file.cut n) e ↔
        CutBetween sha256 records (file.cut n) e) ∧
      (∀ (file file' : LogFile) (e : Entry), (log.append sha256 e).run file = .ok ⟨⟩ file' →
        (Appended sha256 log file e file' ↔ file.Ended ∧ e.plan.getLast? ≠ some '\r' ∧
          (REANCHOR.isPrefixOf e.query →
            ∀ found, file.Reads found → (nextLink found).2 = ANCHOR))) ∧
      ∀ file file' : LogFile, (log.reanchor sha256).run file = .ok ⟨⟩ file' →
        (Reanchored sha256 log file file' ↔ file.Ended) :=
  ⟨fun _ _ h n e => survives_iff h n e, fun _ _ _ hrun => appended_iff hrun,
    fun _ _ hrun => reanchored_iff hrun⟩

end Cuts

/-! ## One record -/

/-- What a first append writes. -/
def firstRecord : AuditRecord := .sealed digest 0 ANCHOR "scan `docs`".toList [] 0

def firstLog : LogFile := LogFile.fresh.put firstRecord

theorem firstLog_produced : Produced digest ⟨LOG_FILE⟩ firstLog [firstRecord] :=
  .append (e := ⟨"scan `docs`".toList, [], 0⟩) .fresh
    (AuditLog.append_ok_iff.2 ⟨rfl, [], firstRecord, ⟨[], rfl, rfl⟩, rfl, rfl⟩)

theorem firstLog_content : firstLog.content.getD [] = utf8 firstRecord.line ++ [10] := by
  rw [← utf8_toLine]
  rfl

theorem firstRecord_verifies : firstBreak digest [firstRecord] = none :=
  firstBreak_sealed digest 0 _ _ _

/-- What an append behind it writes. -/
def secondRecord : AuditRecord := .sealed digest 1 firstRecord.hash "scan `docs`".toList [] 0

theorem secondLog_produced :
    Produced digest ⟨LOG_FILE⟩ (firstLog.put secondRecord) ([firstRecord] ++ [secondRecord]) :=
  .append (e := ⟨"scan `docs`".toList, [], 0⟩) firstLog_produced
    (AuditLog.append_ok_iff.2 ⟨rfl, [firstRecord], secondRecord, firstLog_produced.holds.reads,
      (nextRecord_ok digest).2 ⟨firstRecord_verifies, rfl⟩, rfl⟩)

/-- A log of two records that was cut behind the first survives. -/
theorem log_cut_between_survives : Survives digest ⟨LOG_FILE⟩ ([firstRecord] ++ [secondRecord])
    (utf8 firstRecord.toLine).length
    ((firstLog.put secondRecord).cut (utf8 firstRecord.toLine).length)
    ⟨"scan `docs`".toList, [], 0⟩ := by
  refine ((log_survives_crash_iff digest ⟨LOG_FILE⟩).1 _ _ secondLog_produced _ _).2
    ⟨1, ?_, ?_, ?_⟩
  · rw [LogFile.cut_content, secondLog_produced.holds.lines, List.flatMap_append, utf8_append,
      List.flatMap_singleton, List.take_left]
    exact congrArg utf8 (List.flatMap_singleton _ _).symm
  · intro r hr
    rw [List.mem_singleton.1 hr]
    exact nofun
  · exact fun _ => ⟨nofun, nofun⟩

/-- The log without the newline at its end. -/
def tornLog : LogFile := firstLog.cut (utf8 firstRecord.line).length

theorem tornLog_content : tornLog.content.getD [] = utf8 firstRecord.line := by
  unfold tornLog
  rw [LogFile.cut_content, firstLog_content, List.take_left]

theorem firstRecord_line_plain : firstRecord.line.getLast? ≠ some '\r' := by
  have htab : ∃ front, firstRecord.line = front ++ ['\t'] := by
    refine ⟨decimal 0 ++ '\t' :: (hex firstRecord.previous.1 ++ '\t' ::
      (hex firstRecord.hash.1 ++ '\t' :: (decimal 0 ++ '\t' :: escape firstRecord.query))), ?_⟩
    have hplan : escape firstRecord.plan = [] := rfl
    unfold AuditRecord.line
    rw [hplan]
    simp only [List.append_assoc, List.cons_append]
    rfl
  obtain ⟨front, hfront⟩ := htab
  rw [hfront, List.getLast?_concat]
  decide

theorem tornLog_reads : tornLog.Reads [firstRecord] := by
  refine ⟨firstRecord.line, tornLog_content, ?_⟩
  have hself := Lines.dropCarriageReturn_eq_self.2 firstRecord_line_plain
  have hne := firstRecord.line_ne_nil
  have hread := firstRecord.fromLine_line
  rw [hself] at hne hread
  have hline : firstRecord.line ≠ [] := by
    intro hnil
    rw [hnil] at hne
    cases hne
  unfold parse
  rw [lines_of_not_mem firstRecord.newline_not_mem_line hline,
    List.filter_cons_of_pos (by rw [hne]; rfl)]
  simp only [List.filter_nil, List.mapM_cons, List.mapM_nil, hread]
  rfl

theorem tornLog_not_ended : ¬ tornLog.Ended := by
  intro hended
  have hne : firstRecord.line ≠ [] := by
    intro hnil
    have hline := firstRecord.line_ne_nil
    rw [hnil] at hline
    cases hline
  rcases hended.last_byte with hnil | hten
  · rw [tornLog_content] at hnil
    exact hne (utf8_inj hnil)
  · rw [tornLog_content] at hten
    exact firstRecord.newline_not_mem_line (newline_of_mem_utf8 (List.mem_of_getLast? hten))

/-- **The newline is missing**: the next append returns `Ok`, and there is no record more. -/
theorem torn_log_swallows_record :
    Produced digest ⟨LOG_FILE⟩ firstLog [firstRecord] ∧
      (∃ file', (AuditLog.append digest ⟨LOG_FILE⟩ ⟨"scan `docs`".toList, [], 0⟩).run tornLog =
          .ok ⟨⟩ file' ∧
        ∀ found, (AuditLog.records ⟨LOG_FILE⟩).run file' = .ok found file' → found.length ≤ 1) ∧
      ¬ Survives digest ⟨LOG_FILE⟩ [firstRecord] (utf8 firstRecord.line).length tornLog
        ⟨"scan `docs`".toList, [], 0⟩ := by
  refine ⟨firstLog_produced, ⟨_, AuditLog.append_ok_iff.2 ⟨rfl, _, _, tornLog_reads,
    (nextRecord_ok digest).2 ⟨firstRecord_verifies, rfl⟩, rfl⟩, fun found hfound => ?_⟩,
    fun hsurvives => ?_⟩
  · obtain ⟨-, hreads, -⟩ := AuditLog.records_ok.1 hfound
    exact tornLog_reads.put_glued tornLog_not_ended hreads
  · exact tornLog_not_ended hsurvives.ended

end EuleDB.Audit
