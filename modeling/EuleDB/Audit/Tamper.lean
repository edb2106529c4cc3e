import EuleDB.Audit.Chain

/-!
# One record of a log changed or removed

What `firstBreak` reports of a log that appends wrote and somebody changed afterwards.

* `breakFrom_append_cons` — a chain that holds up to some record is walked from there on.
* `firstBreak_set` — of a record that was changed, the number the changed record carries.
* `firstBreak_eraseIdx` — of a record that was removed, the number of its successor, unless the
  removed record has its predecessor's hash.
* `firstBreak_tampered_iff` — when that is the number of the first record that no longer holds.
-/

set_option autoImplicit false

namespace EuleDB.Audit

open Crypto

/-- A later marker starts the chain, whatever stands before it. -/
theorem currentChain_append_marker {r : AuditRecord} (hr : r.isReanchor = true)
    (before : List AuditRecord) {after : List AuditRecord}
    (hafter : ∀ r' ∈ after, r'.isReanchor = false) :
    currentChain (before ++ r :: after) = r :: after := by
  induction after using List.reverseRecOn with
  | nil => rw [currentChain_append, if_pos hr]
  | append_singleton after last ih =>
    have hlast := hafter last (List.mem_append_right _ (List.mem_singleton_self last))
    have hcut : before ++ r :: (after ++ [last]) = before ++ r :: after ++ [last] := by simp
    rw [hcut, currentChain_append, if_neg (by rw [hlast]; exact Bool.false_ne_true),
      ih fun r' hr' => hafter r' (List.mem_append_left _ hr')]
    rfl

section Tamper

variable (sha256 : Bytes → Hash)

/-- **A chain that holds up to some record is walked from there on.** -/
theorem breakFrom_append_cons {expectedPrevious : Hash} {before : List AuditRecord}
    (hbefore : breakFrom sha256 expectedPrevious before = none) (r : AuditRecord)
    (after : List AuditRecord) :
    breakFrom sha256 expectedPrevious (before ++ r :: after) =
      if r.previous ≠ lastHash expectedPrevious before ∨ r.hash ≠ r.recompute sha256 then
        some r.sequence
      else breakFrom sha256 r.hash after := by
  induction before generalizing expectedPrevious with
  | nil => rfl
  | cons first before ih =>
    have hlast : lastHash expectedPrevious (first :: before) = lastHash first.hash before := by
      unfold lastHash
      rw [List.getLast?_cons]
      cases before.getLast? <;> rfl
    rw [breakFrom] at hbefore
    split_ifs at hbefore with hfirst
    rw [List.cons_append, breakFrom, if_neg hfirst, ih hbefore, hlast]

/-- A chain that holds, cut at one of its records. -/
theorem breakFrom_cut {expectedPrevious : Hash} {before after : List AuditRecord}
    {r : AuditRecord} (h : breakFrom sha256 expectedPrevious (before ++ r :: after) = none) :
    breakFrom sha256 expectedPrevious before = none ∧
      r.previous = lastHash expectedPrevious before ∧ r.hash = r.recompute sha256 ∧
        breakFrom sha256 r.hash after = none := by
  have hbefore : breakFrom sha256 expectedPrevious before = none := by
    induction before generalizing expectedPrevious with
    | nil => rfl
    | cons first before ih =>
      rw [List.cons_append, breakFrom] at h
      split_ifs at h with hfirst
      rw [breakFrom, if_neg hfirst]
      exact ih h
  rw [breakFrom_append_cons sha256 hbefore] at h
  split_ifs at h with hr
  rw [not_or, not_not, not_not] at hr
  exact ⟨hbefore, hr.1, hr.2, h⟩

variable {records : List AuditRecord}

/-- One chain without a marker, and it holds. -/
structure Plain (records : List AuditRecord) : Prop where
  unmarked : ∀ r ∈ records, r.isReanchor = false
  unbroken : breakFrom sha256 ANCHOR records = none

theorem currentChain_unmarked (h : ∀ r ∈ records, r.isReanchor = false) :
    currentChain records = records :=
  currentChain_eq_self.2 fun r hr => h r (List.mem_of_mem_tail hr)

/-- **A changed record is reported under the number it now carries**, also where its query now
begins with the marker. -/
theorem firstBreak_set (h : Plain sha256 records) {k : Nat} {r r' : AuditRecord}
    (hr : records[k]? = some r) (hr' : r'.hash ≠ r'.recompute sha256) :
    firstBreak sha256 (records.set k r') = some r'.sequence := by
  obtain ⟨hk, hget⟩ := List.getElem?_eq_some_iff.1 hr
  have hcut : records = records.take k ++ r :: records.drop (k + 1) := by
    rw [← hget, List.getElem_cons_drop, List.take_append_drop]
  have hset : records.set k r' = records.take k ++ r' :: records.drop (k + 1) :=
    List.set_eq_take_append_cons_drop.trans (if_pos hk)
  have hbefore : breakFrom sha256 ANCHOR (records.take k) = none := by
    have hunbroken := h.unbroken
    rw [hcut] at hunbroken
    exact (breakFrom_cut sha256 hunbroken).1
  have hafter : ∀ x ∈ records.drop (k + 1), x.isReanchor = false := fun x hx =>
    h.unmarked x (List.mem_of_mem_drop hx)
  unfold firstBreak
  rw [hset]
  by_cases hmarker : r'.isReanchor = true
  · rw [currentChain_append_marker hmarker _ hafter, breakFrom, if_pos (.inr hr')]
  · have hone : ∀ x ∈ records.take k ++ r' :: records.drop (k + 1), x.isReanchor = false := by
      rw [List.forall_mem_append, List.forall_mem_cons]
      rw [Bool.not_eq_true] at hmarker
      exact ⟨fun x hx => h.unmarked x (List.mem_of_mem_take hx), hmarker, hafter⟩
    rw [currentChain_unmarked hone, breakFrom_append_cons sha256 hbefore, if_pos (.inr hr')]

/-- **A removed record is reported under its successor's number**, and not at all where it has
the hash it names as its predecessor's. -/
theorem firstBreak_eraseIdx (h : Plain sha256 records) {k : Nat} {r next : AuditRecord}
    (hr : records[k]? = some r) (hnext : records[k + 1]? = some next) :
    firstBreak sha256 (records.eraseIdx k) =
      if r.hash ≠ r.previous then some next.sequence else none := by
  obtain ⟨hk, hget⟩ := List.getElem?_eq_some_iff.1 hr
  obtain ⟨hk', hget'⟩ := List.getElem?_eq_some_iff.1 hnext
  have hdrop : records.drop (k + 1) = next :: records.drop (k + 2) := by
    rw [← hget', List.getElem_cons_drop]
  have hcut : records = records.take k ++ r :: next :: records.drop (k + 2) := by
    rw [← hdrop, ← hget, List.getElem_cons_drop, List.take_append_drop]
  have herase : records.eraseIdx k = records.take k ++ next :: records.drop (k + 2) := by
    rw [List.eraseIdx_eq_take_drop_succ, hdrop]
  have hunbroken := h.unbroken
  rw [hcut] at hunbroken
  obtain ⟨hbefore, hprevious, -, hrest⟩ := breakFrom_cut sha256 hunbroken
  rw [breakFrom] at hrest
  split_ifs at hrest with hfollows
  rw [not_or, not_not, not_not] at hfollows
  have hone : ∀ x ∈ records.take k ++ next :: records.drop (k + 2), x.isReanchor = false := by
    intro x hx
    rw [← herase] at hx
    exact h.unmarked x (List.mem_of_mem_eraseIdx hx)
  unfold firstBreak
  rw [herase, currentChain_unmarked hone, breakFrom_append_cons sha256 hbefore, ← hprevious,
    hfollows.1, hrest]
  by_cases hsame : r.hash = r.previous
  · rw [if_neg (not_or.2 ⟨not_not.2 hsame, not_not.2 hfollows.2⟩), if_neg (not_not.2 hsame)]
  · rw [if_pos (.inl hsame), if_pos hsame]

/-- A run of appends without a marker writes one chain, and it holds. -/
theorem appendAll_plain {entries : List Entry}
    (hrun : appendAll sha256 entries = .ok records)
    (hqueries : ∀ e ∈ entries, REANCHOR.isPrefixOf e.query = false) : Plain sha256 records := by
  induction entries using List.reverseRecOn generalizing records with
  | nil =>
    cases hrun
    exact ⟨by simp, rfl⟩
  | append_singleton entries e ih =>
    obtain ⟨before, hbefore, happend⟩ := (appendAll_append_ok sha256).1 hrun
    obtain ⟨-, rfl⟩ := (appendEntry_ok sha256).1 happend
    have hplain := ih hbefore fun e' he' => hqueries e' (List.mem_append_left _ he')
    refine ⟨?_, ?_⟩
    · rw [List.forall_mem_append, List.forall_mem_singleton]
      exact ⟨hplain.unmarked, hqueries e (List.mem_append_right _ (List.mem_singleton_self e))⟩
    · rw [breakFrom_append, nextLink_hash]
      exact ⟨hplain.unbroken, rfl, rfl⟩

/-- **The number reported is the one of the first record that no longer holds** exactly when a
changed record kept its number, and a removed one had another hash than the record before it. -/
theorem firstBreak_tampered_iff {entries : List Entry}
    (hrun : appendAll sha256 entries = .ok records)
    (hqueries : ∀ e ∈ entries, REANCHOR.isPrefixOf e.query = false) {k : Nat} {r : AuditRecord}
    (hr : records[k]? = some r) :
    (∀ r' : AuditRecord, r'.hash ≠ r'.recompute sha256 →
        (firstBreak sha256 (records.set k r') = some r.sequence ↔ r'.sequence = r.sequence)) ∧
      ∀ next, records[k + 1]? = some next →
        (firstBreak sha256 (records.eraseIdx k) = some next.sequence ↔ r.hash ≠ r.previous) := by
  have hplain := appendAll_plain sha256 hrun hqueries
  refine ⟨fun r' hr' => ?_, fun next hnext => ?_⟩
  · rw [firstBreak_set sha256 hplain hr hr', Option.some.injEq]
  · rw [firstBreak_eraseIdx sha256 hplain hr hnext]
    by_cases hsame : r.hash = r.previous
    · simp [hsame]
    · simp [hsame]

end Tamper

/-- A number that was changed is the number that is reported. -/
theorem changed_number_is_reported :
    let r := AuditRecord.sealed digest 0 ANCHOR "scan `docs`".toList [] 0
    let r' := { r with sequence := 7 }
    appendAll digest [⟨"scan `docs`".toList, [], 0⟩] = .ok [r] ∧
      r'.hash ≠ r'.recompute digest ∧ firstBreak digest ([r].set 0 r') = some 7 ∧
        firstBreak digest ([r].set 0 r') ≠ some r.sequence := by
  intro r r'
  have hrun : appendAll digest [⟨"scan `docs`".toList, [], 0⟩] = .ok [r] := rfl
  have hplain : Plain digest [r] := appendAll_plain digest hrun (by decide)
  have hbroken : r'.hash ≠ r'.recompute digest := by decide +kernel
  have hreport := firstBreak_set digest hplain (k := 0) rfl hbroken
  refine ⟨hrun, hbroken, hreport, ?_⟩
  rw [hreport]
  decide

/-- Two records, of which the first has its rows changed or is removed. -/
theorem firstBreak_tampered_two :
    let first := AuditRecord.sealed digest 0 ANCHOR "scan `docs`".toList [] 3
    let second := AuditRecord.sealed digest 1 first.hash "scan `notes`".toList [] 5
    firstBreak digest ([first, second].set 0 { first with rows := 9 }) = some 0 ∧
      firstBreak digest ([first, second].eraseIdx 0) = some 1 := by
  intro first second
  have hone : appendAll digest ([] ++ [⟨"scan `docs`".toList, [], 3⟩]) = .ok [first] := rfl
  have hunbroken : firstBreak digest [first] = none := firstBreak_sealed digest _ _ _ _
  have hrun : appendAll digest
      ([⟨"scan `docs`".toList, [], 3⟩] ++ [⟨"scan `notes`".toList, [], 5⟩]) =
        .ok [first, second] :=
    (appendAll_append_ok digest).2 ⟨[first], hone, (appendEntry_ok digest).2 ⟨hunbroken, rfl⟩⟩
  have hboth := firstBreak_tampered_iff digest hrun (by decide) (k := 0) (r := first) rfl
  refine ⟨(hboth.1 _ ?_).2 rfl, (hboth.2 second rfl).2 ?_⟩
  · decide +kernel
  · decide +kernel

end EuleDB.Audit
