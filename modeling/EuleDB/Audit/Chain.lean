import EuleDB.Audit.Record

/-!
# The chain of an audit log

A log is a sequence of chains: a re-anchor starts a new one and leaves everything before it in the
file.  `firstBreak` walks the current chain, which starts at the last record whose query begins
with the re-anchor marker.

* `firstBreak_append` — what a further record does to a chain that holds.
* `Sound` — the invariant: one chain, which holds, numbered from zero without gaps.
* `appends_sound_iff` — a run of appends keeps the log sound exactly when no later query begins
  with the marker and the numbers do not run out.
* `firstBreak_reanchored` — after a re-anchor the chain holds again.
-/

set_option autoImplicit false

namespace EuleDB.Audit

open Crypto

/-- The position of the last element that satisfies `p`. -/
def rposition {α : Type} (p : α → Bool) (l : List α) : Option Nat :=
  (l.reverse.findIdx? p).map fun i => l.length - 1 - i

theorem rposition_append {α : Type} (p : α → Bool) (l : List α) (x : α) :
    rposition p (l ++ [x]) = if p x then some l.length else rposition p l := by
  unfold rposition
  rw [List.reverse_append, List.reverse_singleton, List.singleton_append, List.findIdx?_cons]
  split
  · simp
  · rw [Option.map_map]
    congr 1
    funext i
    simp only [Function.comp_apply, List.length_append, List.length_singleton]
    omega

theorem rposition_lt {α : Type} {p : α → Bool} {l : List α} {i : Nat}
    (h : rposition p l = some i) : i < l.length := by
  unfold rposition at h
  obtain ⟨j, hj, rfl⟩ := Option.map_eq_some_iff.1 h
  have hlt := (List.findIdx?_eq_some_iff_findIdx_eq.1 hj).1
  rw [List.length_reverse] at hlt
  omega

/-- A record that says it is a re-anchor. -/
def AuditRecord.isReanchor (r : AuditRecord) : Bool := REANCHOR.isPrefixOf r.query

/-- The records of the chain currently being appended to. -/
def currentChain (records : List AuditRecord) : List AuditRecord :=
  match rposition AuditRecord.isReanchor records with
  | none => records
  | some anchor => records.drop anchor

theorem currentChain_append (records : List AuditRecord) (r : AuditRecord) :
    currentChain (records ++ [r]) =
      if r.isReanchor then [r] else currentChain records ++ [r] := by
  unfold currentChain
  rw [rposition_append]
  split_ifs with hmarker
  · simp
  · cases hpos : rposition AuditRecord.isReanchor records with
    | none => rfl
    | some anchor =>
      have hlt := rposition_lt hpos
      exact List.drop_append_of_le_length (by omega)

/-- A log is one chain exactly when its later records are no re-anchors. -/
theorem currentChain_eq_self {records : List AuditRecord} :
    currentChain records = records ↔ ∀ r ∈ records.tail, r.isReanchor = false := by
  induction records using List.reverseRecOn with
  | nil => exact iff_of_true rfl (by simp)
  | append_singleton records r ih =>
    rw [currentChain_append]
    cases records with
    | nil => exact iff_of_true (ite_self _) (by simp)
    | cons first records =>
      rw [List.cons_append, List.tail_cons]
      split_ifs with hmarker
      · refine iff_of_false ?_ fun hall => ?_
        · intro h
          have := congrArg List.length h
          simp at this
        · have hr := hall r (List.mem_append_right _ (List.mem_singleton_self r))
          rw [hmarker] at hr
          cases hr
      · rw [← List.cons_append, List.append_left_inj, ih, List.tail_cons]
        rw [Bool.not_eq_true] at hmarker
        simp only [List.forall_mem_append, List.forall_mem_singleton, hmarker, and_true]

/-- A later record of the current chain is no re-anchor. -/
theorem currentChain_tail (records : List AuditRecord) :
    ∀ r ∈ (currentChain records).tail, r.isReanchor = false := by
  induction records using List.reverseRecOn with
  | nil => nofun
  | append_singleton records r ih =>
    rw [currentChain_append]
    split_ifs with hmarker
    · nofun
    · rw [Bool.not_eq_true] at hmarker
      cases hchain : currentChain records with
      | nil => nofun
      | cons first chain =>
        rw [hchain, List.tail_cons] at ih
        rw [List.cons_append, List.tail_cons, List.forall_mem_append, List.forall_mem_singleton]
        exact ⟨ih, hmarker⟩

section Chain

variable (sha256 : Bytes → Hash)

/-- The number of the first record that does not follow the one before, from a predecessor's
hash on. -/
def breakFrom (expectedPrevious : Hash) : List AuditRecord → Option UInt64
  | [] => none
  | r :: chain =>
    if r.previous ≠ expectedPrevious ∨ r.hash ≠ r.recompute sha256 then some r.sequence
    else breakFrom r.hash chain

/-- The sequence number of the first record of the current chain that does not follow the one
before.  The chain's own first record follows the anchor. -/
def firstBreak (records : List AuditRecord) : Option UInt64 :=
  breakFrom sha256 ANCHOR (currentChain records)

/-- The sequence number and the predecessor of the next record. -/
def nextLink (records : List AuditRecord) : UInt64 × Hash :=
  match records.getLast? with
  | none => (0, ANCHOR)
  | some last => (last.sequence + 1, last.hash)

/-- What an append is called with. -/
structure Entry where
  query : Text
  plan : Text
  rows : UInt64
  deriving DecidableEq

def AuditRecord.entry (r : AuditRecord) : Entry := ⟨r.query, r.plan, r.rows⟩

/-- The record an entry becomes after `records`, unless their chain is broken. -/
def nextRecord (records : List AuditRecord) (e : Entry) : Except AuditError AuditRecord :=
  match firstBreak sha256 records with
  | some link => .error (.brokenChain link)
  | none =>
    let (sequence, previous) := nextLink records
    .ok (AuditRecord.sealed sha256 sequence previous e.query e.plan e.rows)

/-- `AuditLog::append` on the list of records. -/
def appendEntry (records : List AuditRecord) (e : Entry) :
    Except AuditError (List AuditRecord) := do
  let record ← nextRecord sha256 records e
  pure (records ++ [record])

/-- Appends one after the other on a fresh log. -/
def appendAll (entries : List Entry) : Except AuditError (List AuditRecord) :=
  entries.foldlM (appendEntry sha256) []

/-! ## One append -/

/-- The hash the record after a chain has to name. -/
def lastHash (expectedPrevious : Hash) (chain : List AuditRecord) : Hash :=
  (chain.getLast?.map AuditRecord.hash).getD expectedPrevious

theorem breakFrom_append (expectedPrevious : Hash) (chain : List AuditRecord) (r : AuditRecord) :
    breakFrom sha256 expectedPrevious (chain ++ [r]) = none ↔
      breakFrom sha256 expectedPrevious chain = none ∧
        r.previous = lastHash expectedPrevious chain ∧ r.hash = r.recompute sha256 := by
  induction chain generalizing expectedPrevious with
  | nil =>
    simp only [List.nil_append, breakFrom, lastHash, List.getLast?_nil, Option.map_none,
      Option.getD_none]
    split_ifs with h
    · refine iff_of_false (by simp) ?_
      rintro ⟨-, hprevious, hhash⟩
      exact h.elim (fun h => h hprevious) (fun h => h hhash)
    · rw [not_or, not_not, not_not] at h
      exact iff_of_true rfl ⟨trivial, h⟩
  | cons first chain ih =>
    have hlast : lastHash expectedPrevious (first :: chain) = lastHash first.hash chain := by
      unfold lastHash
      rw [List.getLast?_cons]
      cases chain.getLast? <;> rfl
    simp only [List.cons_append, breakFrom]
    split_ifs with h
    · simp
    · rw [ih, hlast]

theorem nextLink_hash (records : List AuditRecord) :
    (nextLink records).2 = lastHash ANCHOR records := by
  unfold nextLink lastHash
  cases records.getLast? <;> rfl

theorem nextRecord_ok {records : List AuditRecord} {e : Entry} {r : AuditRecord} :
    nextRecord sha256 records e = .ok r ↔
      firstBreak sha256 records = none ∧
        r = .sealed sha256 (nextLink records).1 (nextLink records).2 e.query e.plan e.rows := by
  unfold nextRecord
  cases firstBreak sha256 records with
  | some link => simp
  | none =>
    simp only [Except.ok.injEq, true_and]
    exact eq_comm

theorem appendEntry_ok {records records' : List AuditRecord} {e : Entry} :
    appendEntry sha256 records e = .ok records' ↔
      firstBreak sha256 records = none ∧ records' = records ++
        [.sealed sha256 (nextLink records).1 (nextLink records).2 e.query e.plan e.rows] := by
  unfold appendEntry
  cases hnext : nextRecord sha256 records e with
  | error _ =>
    refine iff_of_false (by rintro ⟨⟩) ?_
    rintro ⟨hunbroken, -⟩
    have hrecord : nextRecord sha256 records e = _ := (nextRecord_ok sha256).2 ⟨hunbroken, rfl⟩
    rw [hnext] at hrecord
    cases hrecord
  | ok r =>
    obtain ⟨hunbroken, rfl⟩ := (nextRecord_ok sha256).1 hnext
    simp only [bind, Except.bind, pure, Except.pure, Except.ok.injEq, hunbroken, true_and]
    exact eq_comm

/-- A further record of a log that is one chain. -/
theorem firstBreak_append {records : List AuditRecord} {r : AuditRecord}
    (hchain : currentChain records = records) (hr : r.isReanchor = false) :
    firstBreak sha256 (records ++ [r]) = none ↔
      firstBreak sha256 records = none ∧ r.previous = (nextLink records).2 ∧
        r.hash = r.recompute sha256 := by
  unfold firstBreak
  rw [currentChain_append, if_neg (by rw [hr]; exact Bool.false_ne_true), hchain,
    breakFrom_append, nextLink_hash]

/-- **After a re-anchor the chain holds again**, whatever stands before it. -/
theorem firstBreak_reanchored (records : List AuditRecord) (sequence : UInt64) (link : Text) :
    firstBreak sha256 (records ++ [.sealed sha256 sequence ANCHOR (REANCHOR ++ link) [] 0]) =
      none := by
  have hmarker : (AuditRecord.sealed sha256 sequence ANCHOR (REANCHOR ++ link) [] 0).isReanchor :=
    List.isPrefixOf_iff_prefix.2 (List.prefix_append _ _)
  unfold firstBreak
  rw [currentChain_append, if_pos hmarker]
  exact if_neg (not_or.2 ⟨not_not.2 rfl, not_not.2 rfl⟩)

/-- One record that names the anchor is a chain that holds. -/
theorem firstBreak_sealed (sequence : UInt64) (query plan : Text) (rows : UInt64) :
    firstBreak sha256 [.sealed sha256 sequence ANCHOR query plan rows] = none := by
  have hone : currentChain [AuditRecord.sealed sha256 sequence ANCHOR query plan rows] =
      [.sealed sha256 sequence ANCHOR query plan rows] := currentChain_eq_self.2 (by simp)
  unfold firstBreak
  rw [hone, breakFrom]
  exact if_neg (not_or.2 ⟨not_not.2 rfl, not_not.2 rfl⟩)

/-! ## Runs of appends -/

/-- One chain that holds, numbered from zero without gaps, each record naming the one before. -/
structure Sound (records : List AuditRecord) : Prop where
  unbroken : firstBreak sha256 records = none
  one_chain : currentChain records = records
  numbered : ∀ (i : Nat) r, records[i]? = some r → r.sequence.toNat = i
  linked : ∀ (i : Nat) r next, records[i]? = some r → records[i + 1]? = some next →
    next.previous = r.hash

theorem Sound.nil : Sound sha256 [] where
  unbroken := rfl
  one_chain := rfl
  numbered := by simp
  linked := by simp

theorem getElem?_append_singleton {α : Type} {l : List α} {a b : α} {i : Nat}
    (h : (l ++ [a])[i]? = some b) : l[i]? = some b ∨ i = l.length ∧ b = a := by
  rcases Nat.lt_or_ge i l.length with hlt | hge
  · rw [List.getElem?_append_left hlt] at h
    exact .inl h
  · rw [List.getElem?_append_right hge, List.getElem?_singleton] at h
    split at h
    · cases h
      exact .inr ⟨by omega, rfl⟩
    · cases h

/-- The number that is next is how many records there are. -/
theorem Sound.next_number {records : List AuditRecord} (h : Sound sha256 records)
    (hroom : records.length < UInt64.size) : (nextLink records).1.toNat = records.length := by
  unfold nextLink
  cases hlast : records.getLast? with
  | none =>
    rw [List.getLast?_eq_none_iff] at hlast
    subst hlast
    rfl
  | some last =>
    have hindex : records[records.length - 1]? = some last := by
      rw [← List.getLast?_eq_getElem?, hlast]
    have hnumber := h.numbered _ _ hindex
    have hpos : 0 < records.length := by
      rw [List.length_pos_iff]
      rintro rfl
      cases hlast
    have hsum : (last.sequence + 1).toNat = (last.sequence.toNat + 1) % UInt64.size := rfl
    show (last.sequence + 1).toNat = records.length
    rw [hsum, Nat.mod_eq_of_lt (by omega)]
    omega

/-- What is next names the last record. -/
theorem nextLink_previous {records : List AuditRecord} {i : Nat} {r : AuditRecord}
    (hr : records[i]? = some r) (hlast : i + 1 = records.length) :
    (nextLink records).2 = r.hash := by
  have hgetLast : records.getLast? = some r := by
    rw [List.getLast?_eq_getElem?, ← hlast]
    exact hr
  unfold nextLink
  rw [hgetLast]

/-- **One append keeps a log sound** when its query is no later re-anchor and a number is left. -/
theorem Sound.append {records : List AuditRecord} (h : Sound sha256 records) {e : Entry}
    (hquery : records ≠ [] → REANCHOR.isPrefixOf e.query = false)
    (hroom : records.length < UInt64.size) :
    ∃ r, appendEntry sha256 records e = .ok (records ++ [r]) ∧ r.entry = e ∧
      Sound sha256 (records ++ [r]) := by
  have hnext : appendEntry sha256 records e = _ := (appendEntry_ok sha256).2 ⟨h.unbroken, rfl⟩
  refine ⟨_, hnext, rfl, ?_⟩
  generalize hrecord : AuditRecord.sealed sha256 (nextLink records).1 (nextLink records).2 e.query
    e.plan e.rows = r
  have hhash : r.hash = r.recompute sha256 := by rw [← hrecord]; rfl
  have hsequence : r.sequence = (nextLink records).1 := by rw [← hrecord]; rfl
  have hprevious : r.previous = (nextLink records).2 := by rw [← hrecord]; rfl
  have hmarker : r.isReanchor = REANCHOR.isPrefixOf e.query := by rw [← hrecord]; rfl
  have hfollows := (breakFrom_append sha256 ANCHOR records r).2
    ⟨by have := h.unbroken; unfold firstBreak at this; rwa [h.one_chain] at this,
      by rw [hprevious, nextLink_hash], hhash⟩
  have hone : currentChain (records ++ [r]) = records ++ [r] := by
    rw [currentChain_append, h.one_chain]
    split_ifs with hr
    · cases records with
      | nil => rfl
      | cons first records =>
        rw [hmarker, hquery (List.cons_ne_nil _ _)] at hr
        cases hr
    · rfl
  refine ⟨?_, hone, ?_, ?_⟩
  · unfold firstBreak
    rw [hone]
    exact hfollows
  · intro i r' hi
    rcases getElem?_append_singleton hi with hi | ⟨rfl, rfl⟩
    · exact h.numbered i r' hi
    · rw [hsequence]
      exact h.next_number sha256 hroom
  · intro i r' next hi hi'
    rcases getElem?_append_singleton hi' with hi' | ⟨hlast, rfl⟩
    · have hlt := (List.getElem?_eq_some_iff.1 hi').1
      rw [List.getElem?_append_left (by omega)] at hi
      exact h.linked i r' next hi hi'
    · rw [List.getElem?_append_left (by omega)] at hi
      rw [hprevious]
      exact nextLink_previous hi hlast

theorem appendAll_append_ok {entries : List Entry} {e : Entry} {records' : List AuditRecord} :
    appendAll sha256 (entries ++ [e]) = .ok records' ↔ ∃ records,
      appendAll sha256 entries = .ok records ∧ appendEntry sha256 records e = .ok records' := by
  unfold appendAll
  rw [List.foldlM_append]
  simp only [List.foldlM_cons, List.foldlM_nil, bind, Except.bind, pure, Except.pure]
  cases entries.foldlM (appendEntry sha256) [] with
  | error _ =>
    refine iff_of_false nofun ?_
    rintro ⟨records, ⟨⟩, -⟩
  | ok records =>
    simp only [Except.ok.injEq, exists_eq_left']
    cases appendEntry sha256 records e <;> rfl

/-- A run that was not refused recorded what was asked for. -/
theorem appendAll_entries {entries : List Entry} {records : List AuditRecord}
    (h : appendAll sha256 entries = .ok records) :
    records.map AuditRecord.entry = entries := by
  induction entries using List.reverseRecOn generalizing records with
  | nil =>
    cases h
    rfl
  | append_singleton entries e ih =>
    obtain ⟨before, hbefore, happend⟩ := (appendAll_append_ok sha256).1 h
    obtain ⟨-, rfl⟩ := (appendEntry_ok sha256).1 happend
    rw [List.map_append, ih hbefore]
    rfl

/-- A run keeps the log sound while no later query begins with the marker. -/
theorem appendAll_sound {entries : List Entry}
    (hqueries : ∀ e ∈ entries.tail, REANCHOR.isPrefixOf e.query = false)
    (hroom : entries.length ≤ UInt64.size) :
    ∃ records, appendAll sha256 entries = .ok records ∧ Sound sha256 records := by
  induction entries using List.reverseRecOn with
  | nil => exact ⟨[], rfl, Sound.nil sha256⟩
  | append_singleton entries e ih =>
    rw [List.length_append, List.length_singleton] at hroom
    obtain ⟨records, hrun, hsound⟩ := ih
      (fun e' he' => hqueries e' (by
        cases entries with
        | nil => cases he'
        | cons first entries => exact List.mem_append_left _ he'))
      (by omega)
    have hentries := appendAll_entries sha256 hrun
    have hlength : records.length = entries.length := by
      rw [← hentries, List.length_map]
    obtain ⟨r, happend, -, hsound'⟩ := hsound.append sha256 (e := e)
      (fun hne => hqueries e (by
        cases entries with
        | nil =>
          rw [List.length_nil, List.length_eq_zero_iff] at hlength
          exact absurd hlength hne
        | cons first entries => exact List.mem_append_right _ (List.mem_singleton_self e)))
      (by omega)
    exact ⟨_, (appendAll_append_ok sha256).2 ⟨records, hrun, happend⟩, hsound'⟩

/-- **Appends keep the log sound exactly when no later query begins with the re-anchor marker
and the numbers do not run out.** -/
theorem appends_sound_iff (entries : List Entry) :
    (∀ k ≤ entries.length, ∃ records, appendAll sha256 (entries.take k) = .ok records ∧
        records.map AuditRecord.entry = entries.take k ∧ Sound sha256 records) ↔
      (∀ e ∈ entries.tail, REANCHOR.isPrefixOf e.query = false) ∧
        entries.length ≤ UInt64.size := by
  constructor
  · intro hall
    obtain ⟨records, -, hentries, hsound⟩ := hall entries.length le_rfl
    rw [List.take_length] at hentries
    subst hentries
    refine ⟨?_, ?_⟩
    · intro e he
      rw [← List.map_tail] at he
      obtain ⟨r, hr, rfl⟩ := List.mem_map.1 he
      exact currentChain_eq_self.1 hsound.one_chain r hr
    · by_contra hmany
      rw [List.length_map] at hmany
      obtain ⟨r, hr⟩ : ∃ r, records[UInt64.size]? = some r :=
        ⟨_, List.getElem?_eq_getElem (by omega)⟩
      have hnumber := hsound.numbered _ _ hr
      have := r.sequence.toNat_lt_size
      omega
  · rintro ⟨hqueries, hroom⟩ k hk
    have htail : ∀ e ∈ (entries.take k).tail, REANCHOR.isPrefixOf e.query = false := by
      intro e he
      refine hqueries e ?_
      rw [← List.drop_one] at he ⊢
      rw [List.drop_take] at he
      exact List.mem_of_mem_take he
    have hlength : (entries.take k).length ≤ UInt64.size := by
      rw [List.length_take]
      omega
    obtain ⟨records, hrun, hsound⟩ := appendAll_sound sha256 htail hlength
    exact ⟨records, hrun, appendAll_entries sha256 hrun, hsound⟩

end Chain

/-- A second query that is the marker: the log breaks, and nothing more is accepted. -/
theorem marker_query_breaks_the_log : ∃ records,
    appendAll digest [⟨"scan `docs`".toList, [], 0⟩, ⟨REANCHOR, [], 0⟩] = .ok records ∧
      firstBreak digest records = some 1 ∧
      appendEntry digest records ⟨"scan `docs`".toList, [], 0⟩ = .error (.brokenChain 1) := by
  let first := AuditRecord.sealed digest 0 ANCHOR "scan `docs`".toList [] 0
  let marker := AuditRecord.sealed digest 1 first.hash REANCHOR [] 0
  have hfirst : firstBreak digest [first] = none := firstBreak_sealed digest _ _ _ _
  have hone : appendEntry digest [] ⟨"scan `docs`".toList, [], 0⟩ = .ok [first] :=
    (appendEntry_ok digest).2 ⟨rfl, rfl⟩
  have htwo : appendEntry digest [first] ⟨REANCHOR, [], 0⟩ = .ok [first, marker] :=
    (appendEntry_ok digest).2 ⟨hfirst, rfl⟩
  -- the chain is the marker alone, and the marker names the record before it
  have hnamed : first.hash ≠ ANCHOR := by decide +kernel
  have hmarker : marker.isReanchor = true := by decide
  have hbreak : firstBreak digest ([first] ++ [marker]) = some 1 := by
    unfold firstBreak
    rw [currentChain_append, if_pos hmarker, breakFrom, if_pos (.inl hnamed)]
    rfl
  have hall : appendAll digest ([] ++ [⟨"scan `docs`".toList, [], 0⟩]) = .ok [first] :=
    (appendAll_append_ok digest).2 ⟨[], rfl, hone⟩
  have hboth : appendAll digest ([⟨"scan `docs`".toList, [], 0⟩] ++ [⟨REANCHOR, [], 0⟩]) =
      .ok [first, marker] := (appendAll_append_ok digest).2 ⟨[first], hall, htwo⟩
  refine ⟨[first] ++ [marker], hboth, hbreak, ?_⟩
  unfold appendEntry nextRecord
  rw [hbreak]
  rfl

end EuleDB.Audit
