import EuleDB.Audit.Log

/-!
# Lines behind whatever a file holds

Both writers put their line at the end of the file, whatever stands there.

* `AuditLog.reanchor_ok_iff` — what a re-anchor needs of any file, and what it leaves behind.
* `LogFile.Reads.put` — behind a newline the line is one more record.
* `LogFile.Reads.put_glued` — behind anything else it is no further record: it becomes the end of
  the line that stands there.
-/

set_option autoImplicit false

namespace EuleDB.Audit

open Crypto Lines Effect

/-! ## Texts -/

theorem mapM_length {α β ε : Type} {f : α → Except ε β} {a : List α} {b : List β}
    (h : a.mapM f = .ok b) : b.length = a.length := by
  induction a generalizing b with
  | nil =>
    cases h
    rfl
  | cons x a ih =>
    rw [List.mapM_cons] at h
    cases hx : f x with
    | error e =>
      rw [hx] at h
      cases h
    | ok y =>
      cases hrest : a.mapM f with
      | error e =>
        rw [hx, hrest] at h
        cases h
      | ok ys =>
        rw [hx, hrest] at h
        cases h
        rw [List.length_cons, List.length_cons, ih hrest]

/-- **Behind a newline a text is read on its own.** -/
theorem parse_append {a : Text} (h : Ended a) (b : Text) :
    parse (a ++ b) = (do
      let x ← parse a
      let y ← parse b
      pure (x ++ y)) := by
  unfold parse
  rw [lines_append h, List.filter_append, List.mapM_append]

theorem parse_toLine (r : AuditRecord) : parse r.toLine = .ok [r.dropCarriageReturn] := by
  have h := parse_toLines [r]
  rwa [List.flatMap_singleton] at h

theorem parse_append_toLine {raw : Text} (h : Ended raw) {records : List AuditRecord}
    (hparse : parse raw = .ok records) (r : AuditRecord) :
    parse (raw ++ r.toLine) = .ok (records ++ [r.dropCarriageReturn]) := by
  rw [parse_append h, hparse, parse_toLine]
  rfl

/-- What two texts are read as together. -/
theorem parse_append_ok {a b : Text} (h : Ended a) {records : List AuditRecord}
    (hparse : parse (a ++ b) = .ok records) :
    ∃ x y, parse a = .ok x ∧ parse b = .ok y ∧ records = x ++ y := by
  rw [parse_append h] at hparse
  cases hx : parse a with
  | error e =>
    rw [hx] at hparse
    cases hparse
  | ok x =>
    cases hy : parse b with
    | error e =>
      rw [hx, hy] at hparse
      cases hparse
    | ok y =>
      rw [hx, hy] at hparse
      cases hparse
      exact ⟨x, y, rfl, rfl, rfl⟩

/-- **Behind anything else a line is no further record.** -/
theorem parse_glued {raw : Text} (h : ¬ Ended raw) {records records' : List AuditRecord}
    (hparse : parse raw = .ok records) (r : AuditRecord)
    (hglued : parse (raw ++ r.toLine) = .ok records') : records'.length ≤ records.length := by
  obtain ⟨front, last, rfl, hended, hlast⟩ := exists_last_line raw
  have hne : last ≠ [] := by
    rintro rfl
    rw [List.append_nil] at h
    exact h hended
  obtain ⟨x, y, hx, hy, rfl⟩ := parse_append_ok hended hparse
  rw [List.append_assoc] at hglued
  obtain ⟨x', y', hx', hy', rfl⟩ := parse_append_ok hended hglued
  rw [hx] at hx'
  cases hx'
  have hone : y.length = 1 := by
    unfold parse at hy
    rw [lines_of_not_mem hlast hne, List.filter_cons_of_pos (by simp [hne])] at hy
    exact mapM_length hy
  have hatmost : y'.length ≤ 1 := by
    have hline : '\n' ∉ last ++ r.line := by
      rw [List.mem_append, not_or]
      exact ⟨hlast, r.newline_not_mem_line⟩
    unfold parse AuditRecord.toLine at hy'
    rw [← List.append_assoc, lines_line hline] at hy'
    rw [mapM_length hy']
    exact List.length_filter_le _ _
  rw [List.length_append, List.length_append]
  omega

/-- A line is the line of one record. -/
theorem AuditRecord.toLine_inj {r r' : AuditRecord} (h : r.toLine = r'.toLine) : r = r' := by
  have hline : r.line = r'.line := List.append_cancel_right h
  have hfields := congrArg (List.splitOn '\t') hline
  unfold AuditRecord.line at hfields
  rw [splitOn_line r (not_mem_escape (.inl rfl) _), splitOn_line r' (not_mem_escape (.inl rfl) _)]
    at hfields
  simp only [List.cons.injEq, and_true] at hfields
  obtain ⟨hsequence, hprevious, hhash, hrows, hquery, hplan⟩ := hfields
  have hnumber : ∀ {n m : UInt64}, decimal n = decimal m → n = m := by
    intro n m heq
    have hread := congrArg parseU64 heq
    rw [parseU64_decimal, parseU64_decimal] at hread
    exact Option.some.inj hread
  have hbytes : ∀ {a b : Hash}, hex a.1 = hex b.1 → a = b := by
    intro a b heq
    have hread := congrArg unhex heq
    rw [unhex_hex, unhex_hex] at hread
    exact Option.some.inj hread
  have htext : ∀ {a b : Text}, escape a = escape b → a = b := by
    intro a b heq
    have hread := congrArg unescape heq
    rwa [unescape_escape, unescape_escape] at hread
  obtain ⟨_, _, _, _, _, _⟩ := r
  obtain ⟨_, _, _, _, _, _⟩ := r'
  cases hnumber hsequence
  cases hbytes hprevious
  cases hbytes hhash
  cases hnumber hrows
  cases htext hquery
  cases htext hplan
  rfl

/-! ## Files -/

/-- The file holds nothing, or its last line is ended. -/
def LogFile.Ended (file : LogFile) : Prop :=
  ∃ raw, file.content.getD [] = utf8 raw ∧ Lines.Ended raw

section Files

variable {sha256 : Bytes → Hash} {log : AuditLog} {file file' : LogFile}
  {records : List AuditRecord}

theorem LogFile.put_inj {r r' : AuditRecord} (h : file.put r = file.put r') : r = r' := by
  have hcontent := congrArg (fun f : LogFile => f.content.getD []) h
  exact AuditRecord.toLine_inj (utf8_inj (List.append_cancel_left hcontent))

theorem LogFile.Reads.unique (h : file.Reads records) {records' : List AuditRecord}
    (h' : file.Reads records') : records = records' := by
  obtain ⟨raw, hraw, hparse⟩ := h
  obtain ⟨raw', hraw', hparse'⟩ := h'
  rw [hraw] at hraw'
  rw [← utf8_inj hraw', hparse] at hparse'
  exact Except.ok.inj hparse'

theorem LogFile.Reads.sameText (h : SameText file file') (hreads : file.Reads records) :
    file'.Reads records := by
  obtain ⟨raw, hraw, hparse⟩ := hreads
  exact ⟨raw, h.trans hraw, hparse⟩

theorem LogFile.Holds.reads (h : file.Holds records) : file.Reads (readBack records) :=
  ⟨_, h.lines, parse_toLines records⟩

theorem LogFile.Holds.ended (h : file.Holds records) : file.Ended := by
  refine ⟨_, h.lines, ?_⟩
  rcases List.eq_nil_or_concat records with rfl | ⟨front, r, rfl⟩
  · exact .inl rfl
  · rw [List.concat_eq_append, List.flatMap_append, List.flatMap_singleton]
    unfold AuditRecord.toLine
    rw [← List.append_assoc]
    exact ended_append_newline _

theorem LogFile.put_ended (h : file.Reads records) (r : AuditRecord) : (file.put r).Ended := by
  obtain ⟨raw, hraw, -⟩ := h
  refine ⟨raw ++ r.toLine, ?_, ?_⟩
  · rw [utf8_append, ← hraw]
    rfl
  · unfold AuditRecord.toLine
    rw [← List.append_assoc]
    exact ended_append_newline _

/-- **Behind a newline a line is one more record.** -/
theorem LogFile.Reads.put (h : file.Reads records) (hended : file.Ended) (r : AuditRecord) :
    (file.put r).Reads (records ++ [r.dropCarriageReturn]) := by
  obtain ⟨raw, hraw, hparse⟩ := h
  obtain ⟨raw', hraw', hlast⟩ := hended
  rw [hraw] at hraw'
  obtain rfl := utf8_inj hraw'
  refine ⟨raw ++ r.toLine, ?_, parse_append_toLine hlast hparse r⟩
  rw [utf8_append, ← hraw]
  rfl

/-- **Behind anything else it is none.** -/
theorem LogFile.Reads.put_glued (h : file.Reads records) (hended : ¬ file.Ended)
    {r : AuditRecord} {records' : List AuditRecord} (h' : (file.put r).Reads records') :
    records'.length ≤ records.length := by
  obtain ⟨raw, hraw, hparse⟩ := h
  obtain ⟨raw', hraw', hparse'⟩ := h'
  have hsame : utf8 raw' = utf8 (raw ++ r.toLine) := by
    rw [utf8_append, ← hraw, ← hraw']
    rfl
  obtain rfl := utf8_inj hsame
  exact parse_glued (fun hlast => hended ⟨raw, hraw, hlast⟩) hparse r hparse'

/-! ## Calls -/

theorem AuditLog.records_ok {found : List AuditRecord} :
    log.records.run file = .ok found file' ↔
      file.fault = none ∧ file.Reads found ∧ file' = file := by
  unfold records
  rw [EStateM.run_bind, run_get]
  dsimp only
  split
  · rename_i cause _ hcause
    rw [hcause]
    simp
  · rename_i hfault hcontent
    rw [run_pure, hfault]
    constructor
    · intro h
      cases h
      refine ⟨rfl, ⟨[], ?_, rfl⟩, rfl⟩
      rw [hcontent]
      rfl
    · rintro ⟨-, ⟨raw, hraw, hparse⟩, rfl⟩
      rw [hcontent, Option.getD_none] at hraw
      rw [← utf8_inj (show utf8 [] = utf8 raw from hraw)] at hparse
      cases hparse
      rfl
  · rename_i hfault hcontent
    rw [hfault]
    constructor
    · intro h
      obtain ⟨raw, read, hread, hparse⟩ := bind_ok.1 h
      obtain ⟨hraw, rfl⟩ := readToString_ok.1 hread
      obtain ⟨hparsed, rfl⟩ := ofExcept_ok.1 hparse
      exact ⟨rfl, ⟨raw, utf8Decode_eq_some.1 hraw, hparsed⟩, rfl⟩
    · rintro ⟨-, ⟨raw, hraw, hparse⟩, rfl⟩
      exact bind_ok.2 ⟨raw, file', readToString_ok.2 ⟨utf8Decode_eq_some.2 hraw, rfl⟩,
        ofExcept_ok.2 ⟨hparse, rfl⟩⟩

theorem AuditLog.verify_ok {u : PUnit} :
    (log.verify sha256).run file = .ok u file' ↔ file.fault = none ∧ file' = file ∧
      ∃ found, file.Reads found ∧ firstBreak sha256 found = none := by
  unfold verify
  constructor
  · intro h
    obtain ⟨found, read, hread, hrest⟩ := bind_ok.1 h
    obtain ⟨hfault, hreads, rfl⟩ := records_ok.1 hread
    split at hrest
    · cases hrest
    · rename_i hnone
      cases hrest
      exact ⟨hfault, rfl, found, hreads, hnone⟩
  · rintro ⟨hfault, rfl, found, hreads, hnone⟩
    refine bind_ok.2 ⟨found, file', records_ok.2 ⟨hfault, hreads, rfl⟩, ?_⟩
    rw [hnone]
    rfl

/-- The record a re-anchor writes after `records`, whose chain is broken at `link`. -/
def anchorAfter (sha256 : Bytes → Hash) (records : List AuditRecord) (link : UInt64) :
    AuditRecord :=
  .sealed sha256 (nextLink records).1 ANCHOR (REANCHOR ++ decimal link) [] 0

theorem anchorAfter_isReanchor (sha256 : Bytes → Hash) (records : List AuditRecord)
    (link : UInt64) : (anchorAfter sha256 records link).isReanchor :=
  List.isPrefixOf_iff_prefix.2 (List.prefix_append _ _)

theorem AuditLog.reanchor_ok_iff {u : PUnit} :
    (log.reanchor sha256).run file = .ok u file' ↔ file.fault = none ∧ ∃ records link,
      file.Reads records ∧ firstBreak sha256 records = some link ∧
        file' = file.put (anchorAfter sha256 records link) := by
  unfold reanchor
  constructor
  · intro h
    obtain ⟨found, read, hread, hwrite⟩ := bind_ok.1 h
    obtain ⟨hfault, hreads, rfl⟩ := records_ok.1 hread
    split at hwrite
    · cases hwrite
    · rename_i link hbreak
      obtain ⟨-, rfl⟩ := write_ok.1 hwrite
      exact ⟨hfault, found, link, hreads, hbreak, rfl⟩
  · rintro ⟨hfault, found, link, hreads, hbreak, rfl⟩
    refine bind_ok.2 ⟨found, file, records_ok.2 ⟨hfault, hreads, rfl⟩, ?_⟩
    rw [hbreak]
    exact write_ok.2 ⟨hfault, rfl⟩

end Files

end EuleDB.Audit
