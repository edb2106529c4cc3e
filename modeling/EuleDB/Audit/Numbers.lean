import Mathlib.Data.List.Chain
import EuleDB.Audit.Tail

/-!
# The numbers of a log

A record's number is hashed, and nothing compares it with the number before.  An append and a
re-anchor add one to the last number, in 64 bits.

* `Gapless` — numbers that grow by exactly one.
* `AsAppended` — a chain that appends would write behind its first record.
* `gapless_iff_asAppended` — of a chain that holds, these are the same.
* `numbers_iff` — when a log that verifies is gapless, and when what is written next is numbered
  one more than the last record.
-/

set_option autoImplicit false

namespace EuleDB.Audit

open Crypto Lines Effect

/-- The numbers grow by exactly one from record to record. -/
def Gapless (chain : List AuditRecord) : Prop :=
  chain.IsChain fun r next => next.sequence.toNat = r.sequence.toNat + 1

instance (chain : List AuditRecord) : Decidable (Gapless chain) :=
  inferInstanceAs (Decidable (List.IsChain _ chain))

/-- A number is left behind the last record. -/
def NumberLeft (records : List AuditRecord) : Prop :=
  ∀ last, records.getLast? = some last → last.sequence.toNat + 1 < UInt64.size

/-- The record is numbered one more than the last, or zero in an empty log. -/
def NumberedNext (records : List AuditRecord) (r : AuditRecord) : Prop :=
  r.sequence.toNat = (records.getLast?.map fun last => last.sequence.toNat + 1).getD 0

theorem numberedNext_iff {records : List AuditRecord} {r : AuditRecord}
    (hr : r.sequence = (nextLink records).1) :
    NumberedNext records r ↔ NumberLeft records := by
  unfold NumberedNext NumberLeft
  rw [hr]
  unfold nextLink
  cases hlast : records.getLast? with
  | none => exact iff_of_true rfl (by simp)
  | some last =>
    have hlt := last.sequence.toNat_lt_size
    have hsum : (last.sequence + 1).toNat = (last.sequence.toNat + 1) % UInt64.size := rfl
    simp only [Option.map_some, Option.getD_some, Option.some.injEq, forall_eq', hsum]
    constructor
    · intro hsame
      rw [← hsame]
      exact Nat.mod_lt _ (by decide)
    · exact Nat.mod_eq_of_lt

/-- Where the next number is the natural one, it is what an append gives. -/
theorem NumberedNext.sequence {records : List AuditRecord} {r : AuditRecord}
    (h : NumberedNext records r) : r.sequence = (nextLink records).1 := by
  have hlt := r.sequence.toNat_lt_size
  unfold NumberedNext at h
  unfold nextLink
  apply UInt64.toNat_inj.1
  cases hlast : records.getLast? with
  | none =>
    rw [hlast] at h
    exact h
  | some last =>
    rw [hlast, Option.map_some, Option.getD_some] at h
    have hsum : (last.sequence + 1).toNat = (last.sequence.toNat + 1) % UInt64.size := rfl
    show r.sequence.toNat = (last.sequence + 1).toNat
    rw [hsum, ← h, Nat.mod_eq_of_lt hlt]

theorem gapless_append {chain : List AuditRecord} {r : AuditRecord} (hne : chain ≠ []) :
    Gapless (chain ++ [r]) ↔ Gapless chain ∧ NumberedNext chain r := by
  obtain ⟨last, hlast⟩ : ∃ last, chain.getLast? = some last :=
    ⟨_, List.getLast?_eq_some_getLast hne⟩
  unfold Gapless NumberedNext
  rw [List.isChain_append, hlast]
  simp

/-- The last number of a gapless chain. -/
theorem Gapless.last_number {first : AuditRecord} {rest : List AuditRecord}
    (h : Gapless (first :: rest)) {last : AuditRecord}
    (hlast : (first :: rest).getLast? = some last) :
    last.sequence.toNat = first.sequence.toNat + rest.length := by
  induction rest using List.reverseRecOn generalizing last with
  | nil =>
    cases hlast
    rfl
  | append_singleton rest r ih =>
    rw [← List.cons_append, gapless_append (List.cons_ne_nil _ _)] at h
    rw [← List.cons_append, List.getLast?_concat] at hlast
    cases hlast
    obtain ⟨before, hbefore⟩ : ∃ before, (first :: rest).getLast? = some before :=
      ⟨_, List.getLast?_eq_some_getLast (List.cons_ne_nil _ _)⟩
    have hnext := h.2
    unfold NumberedNext at hnext
    rw [hbefore, Option.map_some, Option.getD_some, ih h.1 hbefore] at hnext
    rw [hnext, List.length_append, List.length_singleton]
    omega

section Numbers

variable (sha256 : Bytes → Hash)

/-- The chain is what appends write behind its first record, and the numbers do not run out. -/
def AsAppended : List AuditRecord → Prop
  | [] => True
  | first :: rest =>
    (rest.map AuditRecord.entry).foldlM (appendEntry sha256) [first] = .ok (first :: rest) ∧
      first.sequence.toNat + rest.length < UInt64.size

/-- One more record behind what appends wrote. -/
theorem foldlM_append_record {first r : AuditRecord} {rest : List AuditRecord} :
    ((rest ++ [r]).map AuditRecord.entry).foldlM (appendEntry sha256) [first] =
        .ok (first :: (rest ++ [r])) ↔
      (rest.map AuditRecord.entry).foldlM (appendEntry sha256) [first] = .ok (first :: rest) ∧
        appendEntry sha256 (first :: rest) r.entry = .ok (first :: rest ++ [r]) := by
  rw [List.map_append, List.map_singleton, List.foldlM_append]
  simp only [List.foldlM_cons, List.foldlM_nil, bind, Except.bind, pure, Except.pure]
  cases hrun : (rest.map AuditRecord.entry).foldlM (appendEntry sha256) [first] with
  | error _ => exact iff_of_false nofun (by rintro ⟨⟨⟩, -⟩)
  | ok written =>
    dsimp only
    cases happend : appendEntry sha256 written r.entry with
    | error _ =>
      refine iff_of_false nofun ?_
      rintro ⟨⟨⟩, hok⟩
      rw [hok] at happend
      cases happend
    | ok written' =>
      constructor
      · rintro ⟨⟩
        obtain ⟨-, hwritten⟩ := (appendEntry_ok sha256).1 happend
        rw [← List.cons_append] at hwritten
        obtain ⟨rfl, -⟩ := List.append_inj' hwritten rfl
        exact ⟨rfl, happend⟩
      · rintro ⟨⟨⟩, hok⟩
        rw [hok] at happend
        cases happend
        rfl

/-- A record with its own hash is the one sealed with its fields. -/
theorem AuditRecord.eq_sealed {r : AuditRecord} (h : r.hash = r.recompute sha256) :
    r = .sealed sha256 r.sequence r.previous r.query r.plan r.rows := by
  obtain ⟨sequence, previous, query, plan, rows, hash⟩ := r
  exact congrArg (AuditRecord.mk sequence previous query plan rows) h

/-- **A chain that holds is gapless exactly when it is what appends write.** -/
theorem gapless_iff_asAppended {chain : List AuditRecord}
    (hunbroken : breakFrom sha256 ANCHOR chain = none)
    (hmarkers : ∀ r ∈ chain.tail, r.isReanchor = false) :
    Gapless chain ↔ AsAppended sha256 chain := by
  cases chain with
  | nil => exact iff_of_true .nil trivial
  | cons first rest =>
    induction rest using List.reverseRecOn with
    | nil =>
      have hlt := first.sequence.toNat_lt_size
      exact iff_of_true (.singleton _) ⟨rfl, hlt⟩
    | append_singleton rest r ih =>
      rw [← List.cons_append, breakFrom_append] at hunbroken
      obtain ⟨hbefore, hprevious, hhash⟩ := hunbroken
      rw [List.tail_cons] at hmarkers
      have hmarkers' : ∀ r' ∈ (first :: rest).tail, r'.isReanchor = false := fun r' hr' =>
        hmarkers r' (List.mem_append_left _ hr')
      have hwhole : firstBreak sha256 (first :: rest) = none := by
        unfold firstBreak
        rw [currentChain_eq_self.2 hmarkers', hbefore]
      have hsealed : appendEntry sha256 (first :: rest) r.entry = .ok (first :: rest ++ [r]) ↔
          r.sequence = (nextLink (first :: rest)).1 := by
        rw [appendEntry_ok, List.append_right_inj, List.cons.injEq, nextLink_hash, ← hprevious]
        constructor
        · rintro ⟨-, hr, -⟩
          rw [hr]
          rfl
        · intro hsequence
          refine ⟨hwhole, ?_, rfl⟩
          rw [← hsequence]
          exact AuditRecord.eq_sealed sha256 hhash
      rw [← List.cons_append, gapless_append (List.cons_ne_nil _ _), ih hbefore hmarkers']
      simp only [List.cons_append, AsAppended, foldlM_append_record]
      rw [← List.cons_append, hsealed, List.length_append, List.length_singleton]
      constructor
      · rintro ⟨⟨hrun, hroom⟩, hnext⟩
        have hgapless := (ih hbefore hmarkers').2 ⟨hrun, hroom⟩
        have hall : Gapless (first :: (rest ++ [r])) := by
          rw [← List.cons_append, gapless_append (List.cons_ne_nil _ _)]
          exact ⟨hgapless, hnext⟩
        have hlast : r.sequence.toNat = first.sequence.toNat + (rest ++ [r]).length :=
          hall.last_number (by rw [← List.cons_append, List.getLast?_concat])
        have hlt := r.sequence.toNat_lt_size
        rw [List.length_append, List.length_singleton] at hlast
        exact ⟨⟨hrun, hnext.sequence⟩, by omega⟩
      · rintro ⟨⟨hrun, hsequence⟩, hroom⟩
        have hroom' : first.sequence.toNat + rest.length < UInt64.size := by omega
        refine ⟨⟨hrun, hroom'⟩, (numberedNext_iff hsequence).2 ?_⟩
        intro last hlast
        rw [((ih hbefore hmarkers').2 ⟨hrun, hroom'⟩).last_number hlast]
        omega

end Numbers

/-- **When numbers are gapless and cannot wrap.**  Of a log that verifies, the current chain
exactly when appends would have written it; of what an append or a re-anchor writes, exactly when
the last record is not numbered with the largest number. -/
theorem numbers_iff (sha256 : Bytes → Hash) (log : AuditLog) (file : LogFile) :
    ((log.verify sha256).run file = .ok ⟨⟩ file → ∃ records,
        log.records.run file = .ok records file ∧
          (Gapless (currentChain records) ↔ AsAppended sha256 (currentChain records))) ∧
      (∀ e file', (log.append sha256 e).run file = .ok ⟨⟩ file' → ∃ records r,
        log.records.run file = .ok records file ∧ file' = file.put r ∧
          (NumberedNext records r ↔ NumberLeft records)) ∧
      ∀ file', (log.reanchor sha256).run file = .ok ⟨⟩ file' → ∃ records r,
        log.records.run file = .ok records file ∧ file' = file.put r ∧
          (NumberedNext records r ↔ NumberLeft records) := by
  refine ⟨fun hverify => ?_, fun e file' happend => ?_, fun file' hreanchor => ?_⟩
  · obtain ⟨hfault, -, records, hreads, hunbroken⟩ := AuditLog.verify_ok.1 hverify
    exact ⟨records, AuditLog.records_ok.2 ⟨hfault, hreads, rfl⟩,
      gapless_iff_asAppended sha256 hunbroken (currentChain_tail records)⟩
  · obtain ⟨hfault, records, r, hreads, hnext, rfl⟩ := AuditLog.append_ok_iff.1 happend
    have hsequence : r.sequence = (nextLink records).1 := by
      obtain ⟨-, rfl⟩ := (nextRecord_ok sha256).1 hnext
      rfl
    exact ⟨records, r, AuditLog.records_ok.2 ⟨hfault, hreads, rfl⟩, rfl,
      numberedNext_iff hsequence⟩
  · obtain ⟨hfault, records, link, hreads, -, rfl⟩ := AuditLog.reanchor_ok_iff.1 hreanchor
    exact ⟨records, anchorAfter sha256 records link,
      AuditLog.records_ok.2 ⟨hfault, hreads, rfl⟩, rfl, numberedNext_iff rfl⟩

/-- A log whose second record has the largest number: it verifies, and the next is number zero. -/
theorem number_wraps :
    let first := AuditRecord.sealed digest 0 ANCHOR "scan `docs`".toList [] 0
    let last := AuditRecord.sealed digest 18446744073709551615 first.hash "scan `docs`".toList [] 0
    let file := (LogFile.fresh.put first).put last
    ((AuditLog.mk LOG_FILE).verify digest).run file = .ok ⟨⟩ file ∧
      (AuditLog.mk LOG_FILE).records.run file = .ok [first, last] file ∧
      ¬ Gapless (currentChain [first, last]) ∧
      ∃ r, ((AuditLog.mk LOG_FILE).append digest ⟨"scan `docs`".toList, [], 0⟩).run file =
        .ok ⟨⟩ (file.put r) ∧ r.sequence = 0 := by
  intro first last file
  have hholds : file.Holds [first, last] := (LogFile.fresh_holds.append first).append last
  have hreads : file.Reads [first, last] := hholds.reads
  have hunbroken : firstBreak digest ([first] ++ [last]) = none :=
    (firstBreak_append digest rfl (by decide)).2 ⟨firstBreak_sealed digest _ _ _ _, rfl, rfl⟩
  have hone : currentChain [first, last] = [first, last] := currentChain_eq_self.2 (by decide)
  refine ⟨AuditLog.verify_ok.2 ⟨rfl, rfl, _, hreads, hunbroken⟩,
    AuditLog.records_ok.2 ⟨rfl, hreads, rfl⟩, ?_, ?_⟩
  · rw [hone]
    intro hgapless
    have hnext : last.sequence.toNat = first.sequence.toNat + 1 :=
      (List.isChain_cons_cons.1 hgapless).1
    exact absurd hnext (by decide)
  · have hnext := (nextRecord_ok digest (e := ⟨"scan `docs`".toList, [], 0⟩)).2 ⟨hunbroken, rfl⟩
    refine ⟨_, AuditLog.append_ok_iff.2 ⟨rfl, _, _, hreads, hnext, rfl⟩, ?_⟩
    show (18446744073709551615 : UInt64) + 1 = 0
    decide

/-- Two records, and another appended behind them. -/
theorem numbers_two :
    let first := AuditRecord.sealed digest 0 ANCHOR "scan `docs`".toList [] 0
    let second := AuditRecord.sealed digest 1 first.hash "drop the table `docs`".toList [] 0
    let file := (LogFile.fresh.put first).put second
    (∃ records, (AuditLog.mk LOG_FILE).records.run file = .ok records file ∧
        (Gapless (currentChain records) ↔ AsAppended digest (currentChain records))) ∧
      ∃ records r file', (AuditLog.mk LOG_FILE).records.run file = .ok records file ∧
        file' = file.put r ∧ (NumberedNext records r ↔ NumberLeft records) := by
  intro first second file
  have hreads : file.Reads [first, second] :=
    ((LogFile.fresh_holds.append first).append second).reads
  have hunbroken : firstBreak digest ([first] ++ [second]) = none :=
    (firstBreak_append digest rfl (by decide)).2 ⟨firstBreak_sealed digest _ _ _ _, rfl, rfl⟩
  have hverify : ((AuditLog.mk LOG_FILE).verify digest).run file = .ok ⟨⟩ file :=
    AuditLog.verify_ok.2 ⟨rfl, rfl, _, hreads, hunbroken⟩
  have hnext := (nextRecord_ok digest (e := ⟨"scan `docs`".toList, [], 0⟩)).2 ⟨hunbroken, rfl⟩
  have happend : ((AuditLog.mk LOG_FILE).append digest ⟨"scan `docs`".toList, [], 0⟩).run file =
      .ok ⟨⟩ _ := AuditLog.append_ok_iff.2 ⟨rfl, _, _, hreads, hnext, rfl⟩
  have hboth := numbers_iff digest (AuditLog.mk LOG_FILE) file
  obtain ⟨records, r, hfile⟩ := hboth.2.1 _ _ happend
  exact ⟨hboth.1 hverify, records, r, _, hfile⟩

end EuleDB.Audit
