import EuleDB.Audit.Chain

/-!
# What a head hash commits to

The last record's hash is a function of its content, which names the hash of the record before it,
and so on back to the record that follows the anchor.

* `preimage_inj` — the bytes a link is the hash of have one reading.
* `breakFrom_head` — two chains that hold and end in one hash are one chain.
* `head_commits_to_chain` — the same of the current chains of two logs.
-/

set_option autoImplicit false

namespace EuleDB.Audit

open Crypto Endian Lines

/-- The two free-form texts are no longer than a process can hold. -/
structure AuditRecord.Fits (r : AuditRecord) : Prop where
  query : (utf8 r.query).length ≤ MAX_BYTES
  plan : (utf8 r.plan).length ≤ MAX_BYTES

theorem beBytes_u64_inj {a b : UInt64} (h : beBytes 8 a.toNat = beBytes 8 b.toNat) : a = b :=
  UInt64.toNat_inj.1 (beBytes_inj a.toNat_lt b.toNat_lt h)

/-- A text behind its length is read back, and so is what follows it. -/
theorem lengthField_inj {a b rest rest' : Bytes} (ha : a.length ≤ MAX_BYTES)
    (hb : b.length ≤ MAX_BYTES)
    (h : lengthField a ++ (a ++ rest) = lengthField b ++ (b ++ rest')) : a = b ∧ rest = rest' := by
  have hfield : (lengthField a).length = (lengthField b).length := by
    unfold lengthField
    rw [length_beBytes, length_beBytes]
  obtain ⟨hlengths, hbodies⟩ := List.append_inj h hfield
  unfold lengthField at hlengths
  have hsize : UInt64.size = 256 ^ 8 := rfl
  have hmax : MAX_BYTES < UInt64.size - 1 := by decide
  have hlength := beBytes_inj (by omega) (by omega) hlengths
  exact List.append_inj hbodies (by omega)

/-- **The bytes a link is the hash of have exactly one reading.** -/
theorem preimage_inj {r r' : AuditRecord} (hr : r.Fits) (hr' : r'.Fits)
    (h : r.preimage = r'.preimage) :
    r.previous = r'.previous ∧ r.sequence = r'.sequence ∧ r.query = r'.query ∧ r.plan = r'.plan ∧
      r.rows = r'.rows := by
  unfold AuditRecord.preimage at h
  simp only [List.append_assoc] at h
  obtain ⟨hprevious, h⟩ := List.append_inj h (r.previous.2.trans r'.previous.2.symm)
  obtain ⟨hsequence, h⟩ := List.append_inj h (by rw [length_beBytes, length_beBytes])
  obtain ⟨hquery, h⟩ := lengthField_inj hr.query hr'.query h
  obtain ⟨hplan, hrows⟩ := lengthField_inj hr.plan hr'.plan h
  exact ⟨Subtype.ext hprevious, beBytes_u64_inj hsequence, utf8_inj hquery, utf8_inj hplan,
    beBytes_u64_inj hrows⟩

section Head

variable {sha256 : Bytes → Hash}

/-- What is asked of the hash function on some records: it tells their contents apart, and gives
none of them the anchor. -/
structure Separates (sha256 : Bytes → Hash) (records : List AuditRecord) : Prop where
  injective : ∀ r ∈ records, ∀ r' ∈ records, r.recompute sha256 = r'.recompute sha256 →
    r.preimage = r'.preimage
  anchor : ∀ r ∈ records, r.recompute sha256 ≠ ANCHOR

/-- Records of one hash, each the hash of its content, are one record. -/
theorem record_of_hash {records : List AuditRecord} (hsha : Separates sha256 records)
    (hfits : ∀ r ∈ records, r.Fits) {r r' : AuditRecord} (hr : r ∈ records) (hr' : r' ∈ records)
    (hown : r.hash = r.recompute sha256) (hown' : r'.hash = r'.recompute sha256)
    (hhash : r.hash = r'.hash) : r = r' := by
  rw [hown, hown'] at hhash
  have hpreimage := hsha.injective r hr r' hr' hhash
  obtain ⟨hprevious, hsequence, hquery, hplan, hrows⟩ :=
    preimage_inj (hfits r hr) (hfits r' hr') hpreimage
  have hsame : r.hash = r'.hash := by rw [hown, hown', hhash]
  obtain ⟨_, _, _, _, _, _⟩ := r
  obtain ⟨_, _, _, _, _, _⟩ := r'
  cases hprevious
  cases hsequence
  cases hquery
  cases hplan
  cases hrows
  cases hsame
  rfl

/-- The last record of a chain that holds carries the hash of its content. -/
theorem lastHash_ne_anchor {records : List AuditRecord} (hsha : Separates sha256 records)
    {chain : List AuditRecord} {r : AuditRecord} (hr : r ∈ records)
    (hholds : breakFrom sha256 ANCHOR (chain ++ [r]) = none) :
    lastHash ANCHOR (chain ++ [r]) ≠ ANCHOR := by
  obtain ⟨-, -, hown⟩ := (breakFrom_append sha256 ANCHOR chain r).1 hholds
  unfold lastHash
  rw [List.getLast?_concat, Option.map_some, Option.getD_some, hown]
  exact hsha.anchor r hr

/-- **Two chains that hold and end in one hash are one chain.** -/
theorem breakFrom_head {records chain chain' : List AuditRecord} (hsha : Separates sha256 records)
    (hfits : ∀ r ∈ records, r.Fits) (hchain : ∀ r ∈ chain, r ∈ records)
    (hchain' : ∀ r ∈ chain', r ∈ records) (hholds : breakFrom sha256 ANCHOR chain = none)
    (hholds' : breakFrom sha256 ANCHOR chain' = none)
    (hhead : lastHash ANCHOR chain = lastHash ANCHOR chain') : chain = chain' := by
  induction chain using List.reverseRecOn generalizing chain' with
  | nil =>
    cases chain' using List.reverseRecOn with
    | nil => rfl
    | append_singleton chain' r' =>
      have hr' := hchain' r' (by simp)
      exact absurd hhead.symm (lastHash_ne_anchor hsha hr' hholds')
  | append_singleton chain r ih =>
    have hr := hchain r (by simp)
    cases chain' using List.reverseRecOn with
    | nil => exact absurd hhead (lastHash_ne_anchor hsha hr hholds)
    | append_singleton chain' r' =>
      have hr' := hchain' r' (by simp)
      obtain ⟨hbefore, hprevious, hown⟩ := (breakFrom_append sha256 ANCHOR chain r).1 hholds
      obtain ⟨hbefore', hprevious', hown'⟩ := (breakFrom_append sha256 ANCHOR chain' r').1 hholds'
      have hhash : r.hash = r'.hash := by
        unfold lastHash at hhead
        rwa [List.getLast?_concat, List.getLast?_concat] at hhead
      obtain rfl := record_of_hash hsha hfits hr hr' hown hown' hhash
      rw [ih (fun r hmem => hchain r (List.mem_append_left _ hmem))
        (fun r hmem => hchain' r (List.mem_append_left _ hmem)) hbefore hbefore'
        (hprevious.symm.trans hprevious')]

theorem currentChain_suffix (records : List AuditRecord) : currentChain records <:+ records := by
  unfold currentChain
  cases rposition AuditRecord.isReanchor records with
  | none => exact List.suffix_rfl
  | some anchor => exact List.drop_suffix _ _

/-- The current chain of a log that has records ends where the log ends. -/
theorem currentChain_getLast? (records : List AuditRecord) :
    (currentChain records).getLast? = records.getLast? := by
  induction records using List.reverseRecOn with
  | nil => rfl
  | append_singleton records r _ =>
    rw [currentChain_append]
    split_ifs
    · rw [List.getLast?_concat]
      rfl
    · rw [List.getLast?_concat, List.getLast?_concat]

/-- **The head hash commits to the current chain.**  Where the hash function tells the records at
hand apart and gives none of them the anchor, two logs that hold and end in one hash have the same
current chain, record by record. -/
theorem head_commits_to_chain {records records' : List AuditRecord}
    (hsha : Separates sha256 (records ++ records')) (hfits : ∀ r ∈ records ++ records', r.Fits)
    (hholds : firstBreak sha256 records = none) (hholds' : firstBreak sha256 records' = none)
    {last last' : AuditRecord} (hlast : records.getLast? = some last)
    (hlast' : records'.getLast? = some last') (hhead : last.hash = last'.hash) :
    currentChain records = currentChain records' := by
  refine breakFrom_head hsha hfits (fun r hr => ?_) (fun r hr => ?_) hholds hholds' ?_
  · exact List.mem_append_left _ ((currentChain_suffix records).subset hr)
  · exact List.mem_append_right _ ((currentChain_suffix records').subset hr)
  · unfold lastHash
    rw [currentChain_getLast?, currentChain_getLast?, hlast, hlast', Option.map_some,
      Option.map_some, hhead]

end Head

/-- A record that was tampered with, and the re-anchor after it. -/
def damaged : AuditRecord := ⟨0, ANCHOR, "scan `docs`".toList, [], 0, ANCHOR⟩

def anchored : AuditRecord :=
  .sealed digest 1 ANCHOR (REANCHOR ++ "0".toList) [] 0

/-- The log behind the damage and the log without it have one head and one current chain. -/
theorem damaged_log_has_one_chain :
    currentChain [damaged, anchored] = currentChain [anchored] := by
  have hknown : ∀ r ∈ [damaged, anchored] ++ [anchored], r = damaged ∨ r = anchored := by simp
  have hdiffer : damaged.recompute digest ≠ anchored.recompute digest := by decide +kernel
  have hsha : Separates digest ([damaged, anchored] ++ [anchored]) := by
    constructor
    · intro r hr r' hr' hhash
      rcases hknown r hr with rfl | rfl <;> rcases hknown r' hr' with rfl | rfl
      · rfl
      · exact absurd hhash hdiffer
      · exact absurd hhash.symm hdiffer
      · rfl
    · intro r hr
      rcases hknown r hr with rfl | rfl
      · decide +kernel
      · decide +kernel
  have hlast : [damaged, anchored].getLast? = some anchored := rfl
  have hlast' : [anchored].getLast? = some anchored := rfl
  have hunbroken : firstBreak digest ([damaged] ++ [anchored]) = none :=
    firstBreak_reanchored digest [damaged] 1 "0".toList
  have hunbroken' : firstBreak digest ([] ++ [anchored]) = none :=
    firstBreak_reanchored digest [] 1 "0".toList
  refine head_commits_to_chain hsha ?_ hunbroken hunbroken' hlast hlast' rfl
  intro r hr
  rcases hknown r hr with rfl | rfl
  · exact ⟨by decide, by decide⟩
  · exact ⟨by decide, by decide⟩

end EuleDB.Audit
