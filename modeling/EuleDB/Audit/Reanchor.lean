import EuleDB.Audit.Tail

/-!
# Several handles on one log

An append reads, checks and writes under the file's lock: it is one step.  A re-anchor reads the
log without the lock and takes it only to write: it is two, and other handles' steps can fall
between them.

* `AuditLog.reanchor_eq` — a re-anchor is its two halves.
* `Shared.Step`, `Shared.Run` — what any number of handles can do, in any order.
* `Shared.Safe` — what is wanted of the lines that were written.
* `reanchoring_safe` — runs in which every re-anchor writes to the log as it read it are safe.
* `two_handles_reanchor` — without that two handles write the same anchor twice.
-/

set_option autoImplicit false

namespace EuleDB.Audit

open Crypto Lines Effect

/-! ## The two halves -/

/-- What a re-anchor does before it takes the lock: the record it is going to write. -/
def AuditLog.reanchorRead (sha256 : Bytes → Hash) (log : AuditLog) : AuditM AuditRecord := do
  let records ← log.records
  match firstBreak sha256 records with
  | none => throw .nothingToReanchor
  | some link => pure (anchorAfter sha256 records link)

theorem AuditLog.reanchor_eq (sha256 : Bytes → Hash) (log : AuditLog) :
    log.reanchor sha256 = log.reanchorRead sha256 >>= log.write := by
  unfold reanchor reanchorRead
  rw [bind_assoc]
  congr 1
  funext records
  cases firstBreak sha256 records <;> rfl

/-! ## Handles -/

/-- A re-anchor between its halves: the log as it read it, and the record it is going to write. -/
structure Waiting where
  seen : LogFile
  record : AuditRecord

/-- A line that was written, and the log as it was then. -/
structure Written where
  before : LogFile
  record : AuditRecord

/-- One log and the handles on it. -/
structure Shared (H : Type) where
  file : LogFile
  waiting : H → Option Waiting
  /-- What was written since the start, in the order of the file. -/
  written : List Written

inductive Move (H : Type) where
  | append (handle : H) (e : Entry)
  | read (handle : H)
  | write (handle : H)

/-- A log that nobody uses yet. -/
def Shared.start {H : Type} (file : LogFile) : Shared H := ⟨file, fun _ => none, []⟩

section Handles

variable {H : Type}

/-- One step of one handle. -/
inductive Shared.Step [DecidableEq H] (sha256 : Bytes → Hash) (log : AuditLog) (s : Shared H) :
    Move H → Shared H → Prop where
  | append {h : H} {e : Entry} {r : AuditRecord} (idle : s.waiting h = none)
      (hrun : (log.append sha256 e).run s.file = .ok ⟨⟩ (s.file.put r)) :
      Step sha256 log s (.append h e)
        { s with file := s.file.put r, written := s.written ++ [⟨s.file, r⟩] }
  | appendRefused {h : H} {e : Entry} {error : AuditError} {file : LogFile}
      (idle : s.waiting h = none) (hrun : (log.append sha256 e).run s.file = .error error file) :
      Step sha256 log s (.append h e) { s with file := file }
  | read {h : H} {r : AuditRecord} {file : LogFile} (idle : s.waiting h = none)
      (hrun : (log.reanchorRead sha256).run s.file = .ok r file) :
      Step sha256 log s (.read h)
        { s with file := file, waiting := Function.update s.waiting h (some ⟨s.file, r⟩) }
  | readRefused {h : H} {error : AuditError} {file : LogFile} (idle : s.waiting h = none)
      (hrun : (log.reanchorRead sha256).run s.file = .error error file) :
      Step sha256 log s (.read h) { s with file := file }
  | write {h : H} {p : Waiting} {file : LogFile} (hwaiting : s.waiting h = some p)
      (hrun : (log.write p.record).run s.file = .ok ⟨⟩ file) :
      Step sha256 log s (.write h)
        ⟨file, Function.update s.waiting h none, s.written ++ [⟨s.file, p.record⟩]⟩
  | writeRefused {h : H} {p : Waiting} {error : AuditError} {file : LogFile}
      (hwaiting : s.waiting h = some p)
      (hrun : (log.write p.record).run s.file = .error error file) :
      Step sha256 log s (.write h)
        { s with file := file, waiting := Function.update s.waiting h none }

/-- Any number of steps of any handles, each of which meets `C` in the state before it. -/
inductive Shared.Run [DecidableEq H] (sha256 : Bytes → Hash) (log : AuditLog)
    (C : Shared H → Move H → Prop) (s : Shared H) : Shared H → Prop where
  | refl : Run sha256 log C s s
  | step {s' s'' : Shared H} {move : Move H} (h : Run sha256 log C s s') (hC : C s' move)
      (hstep : Shared.Step sha256 log s' move s'') : Run sha256 log C s s''

/-- What is wanted of a run from `s` to `s'`: what was written stands in the file in order, its
numbers increase, and every re-anchor was written where the chain was broken at the link it
names. -/
structure Shared.Safe (sha256 : Bytes → Hash) (s s' : Shared H) : Prop where
  order : s'.file.content.getD [] =
    s.file.content.getD [] ++ utf8 (s'.written.flatMap fun w => w.record.toLine)
  increasing : s'.written.Pairwise fun a b => a.record.sequence < b.record.sequence
  anchors : ∀ w ∈ s'.written, w.record.isReanchor → ∃ records link, w.before.Reads records ∧
    firstBreak sha256 records = some link ∧ w.record.query = REANCHOR ++ decimal link

/-! ## When it is safe -/

/-- The last record's number is not the largest one. -/
def LogFile.Numbered (file : LogFile) : Prop :=
  ∀ records, file.Reads records → ∀ last, records.getLast? = some last →
    last.sequence.toNat + 1 < UInt64.size

/-- A writer finds the last line ended and a number left; an append asks for no re-anchor; and a
re-anchor finds the log as it read it. -/
def Shared.Meets (s : Shared H) : Move H → Prop
  | .append _ e => s.file.Ended ∧ s.file.Numbered ∧ REANCHOR.isPrefixOf e.query = false
  | .read _ => True
  | .write h => s.file.Ended ∧ s.file.Numbered ∧
      ∀ p, s.waiting h = some p → SameText p.seen s.file

variable {sha256 : Bytes → Hash} {log : AuditLog}

theorem AuditLog.reanchorRead_ok {file file' : LogFile} {r : AuditRecord} :
    (log.reanchorRead sha256).run file = .ok r file' ↔
      file.fault = none ∧ file' = file ∧ ∃ records link, file.Reads records ∧
        firstBreak sha256 records = some link ∧ r = anchorAfter sha256 records link := by
  unfold reanchorRead
  constructor
  · intro h
    obtain ⟨found, read, hread, hrest⟩ := bind_ok.1 h
    obtain ⟨hfault, hreads, rfl⟩ := records_ok.1 hread
    split at hrest
    · cases hrest
    · rename_i link hbreak
      cases hrest
      exact ⟨hfault, rfl, found, link, hreads, hbreak, rfl⟩
  · rintro ⟨hfault, rfl, found, link, hreads, hbreak, rfl⟩
    refine bind_ok.2 ⟨found, file', records_ok.2 ⟨hfault, hreads, rfl⟩, ?_⟩
    rw [hbreak]
    rfl

theorem AuditLog.reanchorRead_keeps (log : AuditLog) (sha256 : Bytes → Hash) :
    Keeps SameText (log.reanchorRead sha256) := by
  refine log.records_keeps.bind fun records => ?_
  split
  · exact Keeps.throw _
  · exact Keeps.pure _

/-- The record a handle is going to write is the re-anchor of the log it read. -/
def Waiting.Sound (sha256 : Bytes → Hash) (p : Waiting) : Prop :=
  ∃ records link, p.seen.Reads records ∧ firstBreak sha256 records = some link ∧
    p.record = anchorAfter sha256 records link

/-- What holds in every state of a run that meets the condition. -/
structure Shared.Inv (sha256 : Bytes → Hash) (s s' : Shared H) : Prop where
  safe : Shared.Safe sha256 s s'
  /-- Every number that was written is at most the last one that is read. -/
  latest : ∀ w ∈ s'.written, ∀ records, s'.file.Reads records →
    ∃ last, records.getLast? = some last ∧ w.record.sequence ≤ last.sequence
  waiting : ∀ h p, s'.waiting h = some p → p.Sound sha256

theorem Shared.Inv.start (sha256 : Bytes → Hash) (file : LogFile) :
    Shared.Inv sha256 (Shared.start file) (Shared.start file : Shared H) := by
  refine ⟨⟨?_, List.Pairwise.nil, ?_⟩, ?_, ?_⟩
  · exact (List.append_nil _).symm
  · intro w hw
    cases hw
  · intro w hw
    cases hw
  · intro h p hp
    cases hp

/-- A step that leaves the text of the log alone. -/
theorem Shared.Inv.keep {s s' : Shared H} (h : Shared.Inv sha256 s s') {file : LogFile}
    {waiting : H → Option Waiting} (hfile : SameText s'.file file)
    (hwaiting : ∀ h p, waiting h = some p → p.Sound sha256) :
    Shared.Inv sha256 s { s' with file := file, waiting := waiting } := by
  refine ⟨⟨hfile.trans h.safe.order, h.safe.increasing, h.safe.anchors⟩, ?_, hwaiting⟩
  intro w hw records hreads
  exact h.latest w hw records (hreads.sameText hfile.symm)

/-- **One more line**: its number is the next one, and if it is a re-anchor it names the link at
which the chain is broken. -/
theorem Shared.Inv.line {s s' : Shared H} (h : Shared.Inv sha256 s s')
    {waiting : H → Option Waiting} {records : List AuditRecord} {r : AuditRecord}
    (hreads : s'.file.Reads records) (hended : s'.file.Ended) (hnumbered : s'.file.Numbered)
    (hnext : r.sequence = (nextLink records).1)
    (hanchor : r.isReanchor → ∃ link, firstBreak sha256 records = some link ∧
      r.query = REANCHOR ++ decimal link)
    (hwaiting : ∀ h p, waiting h = some p → p.Sound sha256) :
    Shared.Inv sha256 s ⟨s'.file.put r, waiting, s'.written ++ [⟨s'.file, r⟩]⟩ := by
  -- every number so far is below the new one
  have hbelow : ∀ w ∈ s'.written, w.record.sequence < r.sequence := by
    intro w hw
    obtain ⟨last, hlast, hle⟩ := h.latest w hw records hreads
    have hroom := hnumbered records hreads last hlast
    rw [hnext]
    unfold nextLink
    rw [hlast]
    dsimp only
    rw [UInt64.le_iff_toNat_le] at hle
    rw [UInt64.lt_iff_toNat_lt, UInt64.toNat_add]
    change w.record.sequence.toNat < (last.sequence.toNat + 1) % 2 ^ 64
    rw [Nat.mod_eq_of_lt hroom]
    omega
  refine ⟨⟨?_, ?_, ?_⟩, ?_, hwaiting⟩
  · rw [List.flatMap_append, List.flatMap_singleton, utf8_append, ← List.append_assoc,
      ← h.safe.order]
    rfl
  · rw [List.pairwise_append]
    refine ⟨h.safe.increasing, List.pairwise_singleton _ _, ?_⟩
    intro w hw w' hw'
    rw [List.mem_singleton] at hw'
    rw [hw']
    exact hbelow w hw
  · intro w hw hmarker
    rw [List.mem_append, List.mem_singleton] at hw
    rcases hw with hw | rfl
    · exact h.safe.anchors w hw hmarker
    · obtain ⟨link, hbreak, hquery⟩ := hanchor hmarker
      exact ⟨records, link, hreads, hbreak, hquery⟩
  · intro w hw records' hreads'
    rw [hreads'.unique (hreads.put hended r)]
    refine ⟨r.dropCarriageReturn, List.getLast?_concat, ?_⟩
    rw [List.mem_append, List.mem_singleton] at hw
    rcases hw with hw | rfl
    · exact UInt64.le_of_lt (hbelow w hw)
    · exact UInt64.le_refl _

/-- A handle starts or ends waiting. -/
theorem update_sound [DecidableEq H] {waiting : H → Option Waiting}
    (h : ∀ h p, waiting h = some p → p.Sound sha256) (handle : H) {q : Option Waiting}
    (hq : ∀ p, q = some p → p.Sound sha256) :
    ∀ h p, Function.update waiting handle q h = some p → p.Sound sha256 := by
  intro h' p hp
  rw [Function.update_apply] at hp
  split_ifs at hp
  · exact hq p hp
  · exact h h' p hp

/-- **One step that meets the condition keeps the invariant.** -/
theorem Shared.Inv.step [DecidableEq H] {s s' s'' : Shared H} (h : Shared.Inv sha256 s s')
    {move : Move H}
    (hmeets : s'.Meets move) (hstep : Shared.Step sha256 log s' move s'') :
    Shared.Inv sha256 s s'' := by
  cases hstep with
  | @append handle e r idle hrun =>
    obtain ⟨hended, hnumbered, hplain⟩ := hmeets
    obtain ⟨-, records, r', hreads, hnext, hput⟩ := AuditLog.append_ok_iff.1 hrun
    obtain rfl := LogFile.put_inj hput
    obtain ⟨-, hrecord⟩ := (nextRecord_ok sha256).1 hnext
    refine h.line hreads hended hnumbered (by rw [hrecord]; rfl) ?_ h.waiting
    intro hmarker
    have hquery : r.isReanchor = REANCHOR.isPrefixOf e.query := by rw [hrecord]; rfl
    rw [hquery, hplain] at hmarker
    cases hmarker
  | appendRefused idle hrun =>
    exact h.keep (AuditLog.append_error sha256 log _ _ _ _ hrun) h.waiting
  | read idle hrun =>
    obtain ⟨-, rfl, records, link, hreads, hbreak, hrecord⟩ := AuditLog.reanchorRead_ok.1 hrun
    refine h.keep rfl (update_sound h.waiting _ ?_)
    rintro p hp
    cases hp
    exact ⟨records, link, hreads, hbreak, hrecord⟩
  | @readRefused handle error file idle hrun =>
    have hsame : SameText s'.file file := by
      have hkeeps := log.reanchorRead_keeps sha256 s'.file
      rw [hrun] at hkeeps
      exact hkeeps
    exact h.keep hsame h.waiting
  | @write handle p file hwaiting hrun =>
    obtain ⟨hended, hnumbered, hfresh⟩ := hmeets
    obtain ⟨-, rfl⟩ := AuditLog.write_ok.1 hrun
    obtain ⟨records, link, hseen, hbreak, hrecord⟩ := h.waiting handle p hwaiting
    have hreads := hseen.sameText (hfresh p hwaiting)
    refine h.line hreads hended hnumbered (by rw [hrecord]; rfl) ?_
      (update_sound h.waiting _ (by rintro _ ⟨⟩))
    intro _
    exact ⟨link, hbreak, by rw [hrecord]; rfl⟩
  | @writeRefused handle p error file hwaiting hrun =>
    have hsame : SameText s'.file file := log.write_error p.record _ _ _ hrun
    exact h.keep hsame (update_sound h.waiting _ (by rintro _ ⟨⟩))

/-- **Runs in which every re-anchor writes to the log as it read it are safe.** -/
theorem reanchoring_safe [DecidableEq H] {file : LogFile} {s : Shared H}
    (hrun : Shared.Run sha256 log Shared.Meets (.start file) s) :
    Shared.Safe sha256 (.start file) s := by
  have hinv : Shared.Inv sha256 (.start file) s := by
    induction hrun with
    | refl => exact Shared.Inv.start sha256 file
    | step _ hmeets hstep ih => exact ih.step hmeets hstep
  exact hinv.safe

end Handles

/-! ## Two handles -/

/-- A record that does not follow the anchor. -/
def strayRecord : AuditRecord :=
  ⟨0, ⟨List.replicate HASH_LEN 1, List.length_replicate⟩, "scan `docs`".toList, [], 0, ANCHOR⟩

/-- A log whose one record does not follow the anchor. -/
def strayLog : LogFile := ⟨some (utf8 strayRecord.toLine), none⟩

theorem strayLog_holds : strayLog.Holds [strayRecord] := ⟨rfl, rfl⟩

theorem strayLog_reads : strayLog.Reads [strayRecord] := strayLog_holds.reads

theorem strayLog_breaks : firstBreak digest [strayRecord] = some 0 := rfl

/-- The anchor that a handle writes once it has read that log. -/
def strayAnchor : AuditRecord := anchorAfter digest [strayRecord] 0

/-- With the anchor behind it the log verifies. -/
theorem anchored_reads : (strayLog.put strayAnchor).Reads [strayRecord, strayAnchor] :=
  strayLog_reads.put strayLog_holds.ended strayAnchor

theorem anchored_verifies : firstBreak digest [strayRecord, strayAnchor] = none :=
  firstBreak_reanchored digest [strayRecord] _ _

def plainLog : AuditLog := ⟨LOG_FILE⟩

theorem strayLog_read :
    (plainLog.reanchorRead digest).run strayLog = .ok strayAnchor strayLog :=
  AuditLog.reanchorRead_ok.2 ⟨rfl, rfl, _, _, strayLog_reads, strayLog_breaks, rfl⟩

theorem LogFile.Reads.numbered {file : LogFile} {records : List AuditRecord}
    (h : file.Reads records) {last : AuditRecord} (hlast : records.getLast? = some last)
    (hroom : last.sequence.toNat + 1 < UInt64.size) : file.Numbered := by
  intro records' hreads last' hlast'
  rw [hreads.unique h, hlast] at hlast'
  cases hlast'
  exact hroom

/-- A run and one more step. -/
theorem Shared.Run.move {H : Type} [DecidableEq H] {sha256 : Bytes → Hash} {log : AuditLog}
    {C : Shared H → Move H → Prop} {s s' s'' : Shared H} (h : Shared.Run sha256 log C s s')
    (move : Move H) (hC : C s' move) (hstep : Shared.Step sha256 log s' move s'') :
    Shared.Run sha256 log C s s'' :=
  h.step hC hstep

/-- A handle that finds the log as it read it, and an append after it: both lines are as they
should be. -/
theorem one_handle_reanchors : ∃ s : Shared Bool,
    Shared.Run digest plainLog Shared.Meets (.start strayLog) s ∧
      s.written.map (fun w => w.record.sequence) = [1, 2] ∧
      Shared.Safe digest (.start strayLog) s := by
  let e : Entry := ⟨"scan `docs`".toList, [], 0⟩
  have happend : (plainLog.append digest e).run (strayLog.put strayAnchor) =
      .ok ⟨⟩ ((strayLog.put strayAnchor).put (.sealed digest 2 strayAnchor.hash e.query [] 0)) :=
    AuditLog.append_ok_iff.2 ⟨rfl, _, _, anchored_reads,
      (nextRecord_ok digest).2 ⟨anchored_verifies, rfl⟩, rfl⟩
  have hread : Shared.Run digest plainLog Shared.Meets (.start strayLog) _ :=
    Shared.Run.refl.move (.read true) trivial (.read rfl strayLog_read)
  have hwrite := hread.move (.write true)
    ⟨strayLog_holds.ended, strayLog_reads.numbered rfl (by decide), by rintro _ ⟨⟩; rfl⟩
    (.write rfl (AuditLog.write_ok.2 ⟨rfl, rfl⟩))
  have hrun := hwrite.move (.append false e)
    ⟨LogFile.put_ended strayLog_reads _, anchored_reads.numbered rfl (by decide), rfl⟩
    (.append rfl happend)
  exact ⟨_, hrun, rfl, reanchoring_safe hrun⟩

/-- **Two handles read the log before either writes**: the second writes the same anchor again,
behind a chain that verifies. -/
theorem two_handles_reanchor : ∃ s : Shared Bool,
    Shared.Run digest plainLog (fun _ _ => True) (.start strayLog) s ∧
      s.written.map (fun w => w.record.sequence) = [1, 1] ∧
      (∃ w ∈ s.written, w.record.isReanchor ∧ ∃ records, w.before.Reads records ∧
        firstBreak digest records = none) ∧
      ¬ Shared.Safe digest (.start strayLog) s := by
  have hfirst : Shared.Run digest plainLog (fun _ _ => True) (.start strayLog) _ :=
    Shared.Run.refl.move (.read true) trivial (.read rfl strayLog_read)
  have hsecond := hfirst.move (.read false) trivial (.read rfl strayLog_read)
  have hwrite := hsecond.move (.write true) trivial
    (.write rfl (AuditLog.write_ok.2 ⟨rfl, rfl⟩))
  have hrun := hwrite.move (.write false) trivial
    (.write rfl (AuditLog.write_ok.2 ⟨rfl, rfl⟩))
  refine ⟨_, hrun, rfl, ?_, ?_⟩
  · exact ⟨⟨strayLog.put strayAnchor, strayAnchor⟩, List.mem_cons_of_mem _ List.mem_cons_self,
      anchorAfter_isReanchor _ _ _, _, anchored_reads, anchored_verifies⟩
  · intro hsafe
    have hless := hsafe.increasing
    rw [List.pairwise_iff_getElem] at hless
    exact absurd (hless 0 1 (by decide) (by decide) (by decide)) (by decide)

end EuleDB.Audit
