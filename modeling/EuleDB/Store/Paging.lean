import EuleDB.Store.FusedOrder
import EuleDB.Store.Searches
import EuleDB.Store.VectorRuns

/-!
# Whether hybrid results can be paged

A hybrid search asks each side for twice as many candidates as it returns.  With a larger limit the
two lists go on, and a row can get another place: a better score and another rank.

* `standing_above` — a row's score does not fall when the lists go on.
* `fuseWith_prefix_iff` — the hits of two lists are the first hits of two longer lists exactly where
  every row with a new place has enough rows without one ahead of it.
* `hybrid_pages_iff` — that is when the hits for one limit are the first hits for a larger one.
-/

set_option autoImplicit false

namespace EuleDB.Store

open Crypto Audit Effect LanceStore Ranked

/-! ## Lists that go on -/

section Longer

variable {α : Type} {A : Scoring α} {k : UInt32}

/-- The places of a row in the rest of a list. -/
def laterRanks (list more : List RowId) (row : RowId) : List Nat :=
  ((more.zipIdx list.length).filter fun entry => entry.1 = row).map fun entry => entry.2 + 1

theorem ranks_append (list more : List RowId) (row : RowId) :
    ranks (list ++ more) row = ranks list row ++ laterRanks list more row := by
  unfold ranks laterRanks
  rw [List.zipIdx_append, List.filter_append, List.map_append, Nat.zero_add]

theorem laterRanks_eq_nil {list more : List RowId} {row : RowId} :
    laterRanks list more row = [] ↔ row ∉ more := by
  unfold laterRanks
  rw [List.map_eq_nil_iff, List.filter_eq_nil_iff]
  constructor
  · intro hnone hmem
    rw [← List.zipIdx_map_fst list.length more] at hmem
    obtain ⟨entry, hentry, rfl⟩ := List.mem_map.1 hmem
    exact hnone entry hentry (by simp)
  · rintro hnot entry hentry
    have := List.fst_mem_of_mem_zipIdx hentry
    simp only [decide_eq_true_eq]
    rintro rfl
    exact hnot this

theorem standingIn_append (lexicalSide : Bool) (row : RowId) (found : Option (ScoredHit α))
    (places later : List Nat) : standingIn A k lexicalSide row found (places ++ later) =
      standingIn A k lexicalSide row (standingIn A k lexicalSide row found places) later :=
  List.foldl_append

/-- A row without a new place has what it had. -/
theorem standing_append {vector lexical moreVector moreLexical : List RowId} {row : RowId}
    (h : row ∉ moreVector ++ moreLexical) :
    standing A k (vector ++ moreVector) (lexical ++ moreLexical) row =
      standing A k vector lexical row := by
  rw [List.mem_append, not_or] at h
  unfold standing
  rw [ranks_append, ranks_append, laterRanks_eq_nil.2 h.1, laterRanks_eq_nil.2 h.2,
    List.append_nil, List.append_nil]

/-- The scores a fusion can give, where a row was found at all. -/
def AllReached (A : Scoring α) (k : UInt32) (found : Option (ScoredHit α)) : Prop :=
  ∀ hit ∈ found, A.Reached k hit.score

/-- Where the first has a score, the second has one that is not below it. -/
def AtMost (A : Scoring α) (found better : Option (ScoredHit α)) : Prop :=
  ∀ hit ∈ found, ∃ other ∈ better, ¬A.less other.score hit.score

theorem score_again (lexicalSide : Bool) (rank : Nat) (hit : ScoredHit α) :
    (hit.again A k lexicalSide rank).score = A.add hit.score (A.share k rank) := by
  cases lexicalSide <;> rfl

theorem seen_reached (lexicalSide : Bool) (row : RowId) {found : Option (ScoredHit α)}
    (h : AllReached A k found) (rank : Nat) :
    AllReached A k (some (.seen A k lexicalSide row found rank)) :=
  standingIn_reached lexicalSide row [rank] h

theorem atMost_seen (hA : A.Lawful) {lexicalSide : Bool} {row : RowId}
    {found : Option (ScoredHit α)} (h : AllReached A k found) (rank : Nat) :
    AtMost A found (some (.seen A k lexicalSide row found rank)) := by
  rintro hit ⟨⟩
  refine ⟨_, rfl, ?_⟩
  show ¬A.less (hit.again A k lexicalSide rank).score hit.score
  rw [score_again]
  exact hA.grows rank (h hit rfl)

theorem seen_mono (hA : A.Lawful) {lexicalSide : Bool} {row : RowId}
    {found better : Option (ScoredHit α)} (hfound : AllReached A k found)
    (hbetter : AllReached A k better) (h : AtMost A found better) (rank : Nat) :
    AtMost A (some (.seen A k lexicalSide row found rank))
      (some (.seen A k lexicalSide row better rank)) := by
  rintro _ ⟨⟩
  refine ⟨_, rfl, ?_⟩
  cases found with
  | none =>
    cases better with
    | none => exact fun hless => hA.asymm (.share rank) (.share rank) hless hless
    | some other =>
      show ¬A.less (other.again A k lexicalSide rank).score (A.share k rank)
      rw [score_again]
      exact hA.covers rank (hbetter other rfl)
  | some hit =>
    obtain ⟨other, rfl, hle⟩ := h hit rfl
    show ¬A.less (other.again A k lexicalSide rank).score (hit.again A k lexicalSide rank).score
    rw [score_again, score_again]
    exact hA.mono rank (hbetter other rfl) (hfound hit rfl) hle

theorem AtMost.refl (hA : A.Lawful) {found : Option (ScoredHit α)} (h : AllReached A k found) :
    AtMost A found found :=
  fun hit hmem => ⟨hit, hmem, fun hless => hA.asymm (h hit hmem) (h hit hmem) hless hless⟩

theorem AtMost.trans (hA : A.Lawful) {a b c : Option (ScoredHit α)} (ha : AllReached A k a)
    (hb : AllReached A k b) (hc : AllReached A k c) (hab : AtMost A a b) (hbc : AtMost A b c) :
    AtMost A a c := by
  intro hit hmem
  obtain ⟨middle, hmiddle, hle⟩ := hab hit hmem
  obtain ⟨other, hother, hle'⟩ := hbc middle hmiddle
  exact ⟨other, hother, hA.trans (hc other hother) (hb middle hmiddle) (ha hit hmem) hle' hle⟩

theorem standingIn_grows (hA : A.Lawful) {lexicalSide : Bool} {row : RowId} {places : List Nat}
    {found : Option (ScoredHit α)} (h : AllReached A k found) :
    AtMost A found (standingIn A k lexicalSide row found places) := by
  induction places generalizing found with
  | nil => exact .refl hA h
  | cons rank places ih =>
    have hseen := seen_reached lexicalSide row h rank
    show AtMost A found (standingIn A k lexicalSide row
      (some (.seen A k lexicalSide row found rank)) places)
    exact AtMost.trans hA h hseen (standingIn_reached _ _ _ hseen) (atMost_seen hA h rank) (ih hseen)

theorem standingIn_mono (hA : A.Lawful) {lexicalSide : Bool} {row : RowId} {places : List Nat}
    {found better : Option (ScoredHit α)} (hfound : AllReached A k found)
    (hbetter : AllReached A k better) (h : AtMost A found better) :
    AtMost A (standingIn A k lexicalSide row found places)
      (standingIn A k lexicalSide row better places) := by
  induction places generalizing found better with
  | nil => exact h
  | cons rank places ih =>
    exact ih (seen_reached _ _ hfound rank) (seen_reached _ _ hbetter rank)
      (seen_mono hA hfound hbetter h rank)

/-- **A row's score does not fall when the lists go on.** -/
theorem standing_above (hA : A.Lawful) (vector lexical moreVector moreLexical : List RowId)
    (row : RowId) : AtMost A (standing A k vector lexical row)
      (standing A k (vector ++ moreVector) (lexical ++ moreLexical) row) := by
  have hnone : AllReached A k (none : Option (ScoredHit α)) := by
    rintro _ ⟨⟩
  unfold standing
  rw [ranks_append, ranks_append, standingIn_append, standingIn_append]
  have hvector := standingIn_reached false row (ranks vector row) hnone
  have hlonger := standingIn_reached false row (laterRanks vector moreVector row) hvector
  have hlexical := standingIn_reached true row (ranks lexical row) hlonger
  apply AtMost.trans hA (standingIn_reached _ _ _ hvector) hlexical
    (standingIn_reached _ _ _ hlexical)
  · exact standingIn_mono hA hvector hlonger (standingIn_grows hA hvector)
  · exact standingIn_grows hA hlexical

/-- A row with a new place has another rank on the side that found it there. -/
theorem getLast?_ranks_append {list more : List RowId} {row : RowId} (h : row ∈ more) :
    (ranks (list ++ more) row).getLast? ≠ (ranks list row).getLast? := by
  have hrising := pairwise_ranks (list ++ more) row
  rw [ranks_append] at hrising ⊢
  obtain ⟨others, last, hlater⟩ := (List.eq_nil_or_concat (laterRanks list more row)).resolve_left
    fun hnil => laterRanks_eq_nil.1 hnil h
  rw [hlater, List.concat_eq_append, ← List.append_assoc] at hrising ⊢
  rw [List.getLast?_concat]
  intro hsame
  have hmem := List.mem_of_getLast? hsame.symm
  exact absurd ((List.pairwise_append.1 hrising).2.2 last (List.mem_append_left _ hmem) last
    List.mem_cons_self) (lt_irrefl _)

theorem standingIn_ranks (lexicalSide : Bool) (row : RowId) (places : List Nat)
    (found : Option (ScoredHit α)) :
    (standingIn A k lexicalSide row found places).bind ScoredHit.vectorRank =
        (if lexicalSide then found.bind ScoredHit.vectorRank
          else places.getLast?.or (found.bind ScoredHit.vectorRank)) ∧
      (standingIn A k lexicalSide row found places).bind ScoredHit.lexicalRank =
        (if lexicalSide then places.getLast?.or (found.bind ScoredHit.lexicalRank)
          else found.bind ScoredHit.lexicalRank) := by
  induction places generalizing found with
  | nil => cases lexicalSide <;> exact ⟨rfl, rfl⟩
  | cons rank places ih =>
    have hrest := ih (some (.seen A k lexicalSide row found rank))
    rw [List.getLast?_cons]
    cases lexicalSide <;> cases found <;> cases hlast : places.getLast? <;>
      simp_all [standingIn, ScoredHit.seen, ScoredHit.again, ScoredHit.first]

theorem standing_ranks (vector lexical : List RowId) (row : RowId) :
    (standing A k vector lexical row).bind ScoredHit.vectorRank = (ranks vector row).getLast? ∧
      (standing A k vector lexical row).bind ScoredHit.lexicalRank =
        (ranks lexical row).getLast? := by
  unfold standing
  obtain ⟨hvector, hlexical⟩ := standingIn_ranks (A := A) (k := k) true row (ranks lexical row)
    (standingIn A k false row none (ranks vector row))
  obtain ⟨hvector', hlexical'⟩ := standingIn_ranks (A := A) (k := k) false row (ranks vector row)
    none
  rw [hvector, hlexical, if_pos rfl, if_pos rfl, hvector', hlexical']
  simp

/-- A row that has what it had has no new place. -/
theorem not_mem_of_standing {vector lexical moreVector moreLexical : List RowId} {row : RowId}
    (h : standing A k (vector ++ moreVector) (lexical ++ moreLexical) row =
      standing A k vector lexical row) : row ∉ moreVector ++ moreLexical := by
  obtain ⟨hvector, hlexical⟩ := standing_ranks (A := A) (k := k) vector lexical row
  obtain ⟨hvector', hlexical'⟩ := standing_ranks (A := A) (k := k) (vector ++ moreVector)
    (lexical ++ moreLexical) row
  rw [h, hvector] at hvector'
  rw [h, hlexical] at hlexical'
  rw [List.mem_append]
  rintro (hmem | hmem)
  · exact getLast?_ranks_append hmem hvector'.symm
  · exact getLast?_ranks_append hmem hlexical'.symm

end Longer

/-! ## The first hits of longer lists -/

section Prefix

variable {α : Type} (A : Scoring α) (k : UInt32)

/-- Whether what two lists give to a row comes before what they give to another. -/
def outranks (vector lexical : List RowId) (row other : RowId) : Bool :=
  match standing A k vector lexical row, standing A k vector lexical other with
  | some a, some b => a.before A b
  | _, _ => false

/-- The rows of two lists that two longer lists have at no new place, and put ahead of a row. -/
def steadyAhead (vector lexical moreVector moreLexical : List RowId) (row : RowId) : List RowId :=
  (vector ++ lexical).dedup.filter fun other => other ∉ moreVector ++ moreLexical ∧
    outranks A k (vector ++ moreVector) (lexical ++ moreLexical) other row

/-- Every row with a new place has a page of rows without one ahead of it, or as many as there
are. -/
def KeepsPage (vector lexical moreVector moreLexical : List RowId) (limit : Nat) : Prop :=
  ∀ row ∈ moreVector ++ moreLexical, min limit (vector ++ lexical).dedup.length ≤
    (steadyAhead A k vector lexical moreVector moreLexical row).length

instance (vector lexical moreVector moreLexical : List RowId) (limit : Nat) :
    Decidable (KeepsPage A k vector lexical moreVector moreLexical limit) :=
  inferInstanceAs (Decidable (∀ row ∈ _, _ ≤ _))

variable {A k}

theorem ScoredHit.before_of_above (hA : A.Lawful) {a b b' : ScoredHit α}
    (ha : A.Reached k a.score) (hb : A.Reached k b.score) (hb' : A.Reached k b'.score)
    (hrow : b.row = b'.row) (hle : ¬A.less b'.score b.score) (h : a.before A b') :
    a.before A b := by
  rw [ScoredHit.before_iff] at h ⊢
  have hnot : ¬A.less a.score b'.score := h.elim (hA.asymm hb' ha) And.left
  have hbelow := hA.trans ha hb' hb hnot hle
  by_cases hless : A.less b.score a.score
  · exact .inl hless
  · refine .inr ⟨hbelow, ?_⟩
    rw [hrow]
    exact (h.resolve_left (hA.trans hb' hb ha hle hless)).2

theorem row_of_standing {vector lexical : List RowId} {row : RowId} {hit : ScoredHit α}
    (h : standing A k vector lexical row = some hit) : hit.row = row := by
  rw [← find?_scanned] at h
  simpa using List.find?_some h

theorem standing_of_mem (vector lexical : List RowId) {row : RowId}
    (h : row ∈ vector ++ lexical) : ∃ hit, standing A k vector lexical row = some hit ∧
      hit ∈ scanned A k vector lexical := by
  obtain ⟨hit, hmem, rfl⟩ := List.mem_map.1 (mem_row_scanned (A := A) (k := k).2
    (List.mem_append.1 h))
  exact ⟨hit, mem_scanned.1 hmem, hmem⟩

section Longer

variable (A k) (vector lexical moreVector moreLexical : List RowId)

/-- The hits of the longer lists. -/
def broader : List (ScoredHit α) :=
  scanned A k (vector ++ moreVector) (lexical ++ moreLexical)

/-- Whether the row of a hit has no new place. -/
def steady (hit : ScoredHit α) : Bool := hit.row ∉ moreVector ++ moreLexical

variable {A k vector lexical moreVector moreLexical}

theorem filter_and {β : Type} (l : List β) (p q : β → Bool) :
    l.filter (fun b => p b && q b) = (l.filter p).filter q := by
  rw [List.filter_filter]
  apply List.filter_congr
  intro b _
  exact Bool.and_comm _ _

theorem filter_steady_perm : ((scanned A k vector lexical).filter
      (steady moreVector moreLexical)).Perm
    ((broader A k vector lexical moreVector moreLexical).filter
      (steady moreVector moreLexical)) := by
  have hnarrow := (nodup_scanned A k vector lexical).of_map
  have hbroad := (nodup_scanned A k (vector ++ moreVector) (lexical ++ moreLexical)).of_map
  unfold broader
  rw [List.perm_ext_iff_of_nodup (hnarrow.filter _) (hbroad.filter _)]
  intro hit
  rw [List.mem_filter, List.mem_filter, and_congr_left_iff]
  intro hsteady
  unfold steady at hsteady
  rw [mem_scanned, mem_scanned, standing_append (of_decide_eq_true hsteady)]

theorem length_steadyAhead {hit : ScoredHit α}
    (hmem : hit ∈ broader A k vector lexical moreVector moreLexical) :
    ((broader A k vector lexical moreVector moreLexical).filter fun other =>
        steady moreVector moreLexical other && other.before A hit).length =
      (steadyAhead A k vector lexical moreVector moreLexical hit.row).length := by
  have hnodup := nodup_scanned A k (vector ++ moreVector) (lexical ++ moreLexical)
  unfold broader at hmem ⊢
  rw [← List.length_map (f := ScoredHit.row)]
  apply List.Perm.length_eq
  unfold steadyAhead
  rw [List.perm_ext_iff_of_nodup (hnodup.sublist (List.filter_sublist.map _))
    ((List.nodup_dedup _).filter _)]
  intro row
  have hstanding := mem_scanned.1 hmem
  constructor
  · intro hrow
    obtain ⟨other, hother, rfl⟩ := List.mem_map.1 hrow
    obtain ⟨hmem', hahead⟩ := List.mem_filter.1 hother
    rw [Bool.and_eq_true] at hahead
    have hsteady : other.row ∉ moreVector ++ moreLexical := of_decide_eq_true hahead.1
    have hfound := mem_scanned.1 hmem'
    rw [List.mem_filter, List.mem_dedup]
    refine ⟨?_, ?_⟩
    · rw [standing_append hsteady] at hfound
      exact List.mem_append.2 (mem_row_scanned.1 (List.mem_map_of_mem (mem_scanned.2 hfound)))
    · rw [decide_eq_true_eq]
      refine ⟨hsteady, ?_⟩
      unfold outranks
      rw [hfound, hstanding]
      exact hahead.2
  · intro hrow
    rw [List.mem_filter, decide_eq_true_eq] at hrow
    obtain ⟨-, hsteady, houtranks⟩ := hrow
    unfold outranks at houtranks
    rw [hstanding] at houtranks
    cases hother : standing A k (vector ++ moreVector) (lexical ++ moreLexical) row with
    | none =>
      rw [hother] at houtranks
      cases houtranks
    | some other =>
      rw [hother] at houtranks
      have hsame := row_of_standing hother
      subst hsame
      apply List.mem_map_of_mem
      rw [List.mem_filter, Bool.and_eq_true]
      exact ⟨mem_scanned.2 hother, decide_eq_true hsteady, houtranks⟩

/-- What is ahead of a row in the longer lists was ahead of it before. -/
theorem steadyAhead_le (hA : A.Lawful) {hit hit' : ScoredHit α}
    (hmem : hit ∈ scanned A k vector lexical)
    (hmem' : hit' ∈ broader A k vector lexical moreVector moreLexical) (hrow : hit.row = hit'.row) :
    (steadyAhead A k vector lexical moreVector moreLexical hit'.row).length ≤
      ((scanned A k vector lexical).filter fun other =>
        steady moreVector moreLexical other && other.before A hit).length := by
  have hstanding := mem_scanned.1 hmem
  have hstanding' := mem_scanned.1 hmem'
  obtain ⟨better, hbetter, hle⟩ :=
    standing_above hA vector lexical moreVector moreLexical hit.row hit hstanding
  rw [hrow, hstanding'] at hbetter
  cases hbetter
  rw [← length_steadyAhead hmem', filter_and, filter_and,
    ← (filter_steady_perm.filter _).length_eq, ← List.countP_eq_length_filter,
    ← List.countP_eq_length_filter]
  apply List.countP_mono_left
  intro other hother hahead
  have hreached := standing_reached (mem_scanned.1 (List.mem_filter.1 hother).1)
  exact ScoredHit.before_of_above hA hreached (standing_reached hstanding)
    (standing_reached hstanding') hrow hle hahead

theorem take_mergeSort_steady (hA : A.Lawful) {n : Nat}
    (h : ∀ row ∈ moreVector ++ moreLexical,
      n ≤ (steadyAhead A k vector lexical moreVector moreLexical row).length) :
    ((scanned A k vector lexical).mergeSort (ScoredHit.before A)).take n =
      ((broader A k vector lexical moreVector moreLexical).mergeSort
        (ScoredHit.before A)).take n := by
  have hnarrow := ordersOn_scanned (k := k) hA vector lexical
  have hbroad : OrdersOn (ScoredHit.before A) (broader A k vector lexical moreVector moreLexical) :=
    ordersOn_scanned hA _ _
  have hlate : ∀ hit : ScoredHit α, ¬steady moreVector moreLexical hit →
      hit.row ∈ moreVector ++ moreLexical := by
    intro hit hnot
    unfold steady at hnot
    rwa [decide_eq_true_eq, not_not] at hnot
  have hmore : ∀ {row}, row ∈ moreVector ++ moreLexical →
      row ∈ (vector ++ moreVector) ++ (lexical ++ moreLexical) := by
    intro row hmem
    simp only [List.mem_append] at hmem ⊢
    tauto
  rw [← hnarrow.take_mergeSort_filter (steady moreVector moreLexical) ?_,
    ← hbroad.take_mergeSort_filter (steady moreVector moreLexical) ?_]
  · rw [(hnarrow.mono fun a ha => (List.mem_filter.1 ha).1).mergeSort_congr
      filter_steady_perm.symm]
  · intro hit hmem hnot
    exact (h _ (hlate hit hnot)).trans (length_steadyAhead hmem).ge
  · intro hit hmem hnot
    obtain ⟨hit', hfound, hmem'⟩ := standing_of_mem (A := A) (k := k) _ _ (hmore (hlate hit hnot))
    have hrow := row_of_standing hfound
    apply le_trans _ (steadyAhead_le hA hmem hmem' hrow.symm)
    exact h _ (hrow ▸ hlate hit hnot)

theorem le_steadyAhead (hA : A.Lawful) {n : Nat} (hn : n ≤ (scanned A k vector lexical).length)
    (h : ((scanned A k vector lexical).mergeSort (ScoredHit.before A)).take n =
      ((broader A k vector lexical moreVector moreLexical).mergeSort
        (ScoredHit.before A)).take n) :
    ∀ row ∈ moreVector ++ moreLexical,
      n ≤ (steadyAhead A k vector lexical moreVector moreLexical row).length := by
  have hbroad := ordersOn_scanned (k := k) hA (vector ++ moreVector) (lexical ++ moreLexical)
  intro row hrow
  have hfound : row ∈ (vector ++ moreVector) ++ (lexical ++ moreLexical) := by
    simp only [List.mem_append] at hrow ⊢
    tauto
  obtain ⟨late, hlate, hmem⟩ := standing_of_mem (A := A) (k := k) _ _ hfound
  have hsame := row_of_standing hlate
  subst hsame
  let first := ((broader A k vector lexical moreVector moreLexical).mergeSort
    (ScoredHit.before A)).take n
  -- a hit of both rankings is the same in both, so its row has no new place
  have hsteady : ∀ hit ∈ first, hit.row ∉ moreVector ++ moreLexical := by
    intro hit hhit
    have hin : hit ∈ scanned A k vector lexical := by
      have hboth : hit ∈ ((scanned A k vector lexical).mergeSort (ScoredHit.before A)).take n :=
        h ▸ hhit
      exact List.mem_mergeSort.1 (List.mem_of_mem_take hboth)
    have hin' : hit ∈ broader A k vector lexical moreVector moreLexical :=
      List.mem_mergeSort.1 (List.mem_of_mem_take hhit)
    exact not_mem_of_standing ((mem_scanned.1 hin').trans (mem_scanned.1 hin).symm)
  have hlength : first.length = n := by
    have := congrArg List.length h
    rw [List.length_take, List.length_mergeSort, Nat.min_eq_left hn] at this
    exact this.symm
  rw [← length_steadyAhead hmem, ← hlength]
  apply List.Subperm.length_le
  apply List.subperm_of_subset
  · apply List.Nodup.sublist (List.take_sublist _ _)
    exact (List.mergeSort_perm _ _).nodup_iff.2 (nodup_scanned A k _ _).of_map
  · intro hit hhit
    rw [List.mem_filter, Bool.and_eq_true]
    refine ⟨List.mem_mergeSort.1 (List.mem_of_mem_take hhit), ?_, ?_⟩
    · exact decide_eq_true (hsteady hit hhit)
    · exact hbroad.ahead_of_mem_take hhit hmem fun hfirst => hsteady late hfirst hrow

/-- **The hits of two lists are the first hits of two longer ones** exactly where every row with a
new place has enough rows without one ahead of it. -/
theorem fuseWith_prefix_iff (hA : A.Lawful) (documents : Nat)
    (vector lexical moreVector moreLexical : List RowId) {limit larger : Nat}
    (hlarger : limit ≤ larger) :
    fuseWith A vector lexical documents limit <+:
        fuseWith A (vector ++ moreVector) (lexical ++ moreLexical) documents larger ↔
      KeepsPage A (effectiveK documents) vector lexical moreVector moreLexical limit := by
  let narrow := scanned A (effectiveK documents) vector lexical
  let n := min limit narrow.length
  have hlength : (vector ++ lexical).dedup.length = narrow.length :=
    (length_scanned vector lexical).symm
  have hfew : fuseWith A vector lexical documents limit =
      (narrow.mergeSort (ScoredHit.before A)).take n := by
    unfold fuseWith
    rw [List.take_eq_take_min, List.length_mergeSort]
  have hfewLength : (fuseWith A vector lexical documents limit).length = n := by
    rw [hfew, List.length_take, List.length_mergeSort, Nat.min_eq_left (Nat.min_le_right _ _)]
  have hmany : (fuseWith A (vector ++ moreVector) (lexical ++ moreLexical) documents larger).take n =
      ((broader A (effectiveK documents) vector lexical moreVector moreLexical).mergeSort
        (ScoredHit.before A)).take n := by
    unfold fuseWith
    rw [List.take_take, Nat.min_eq_left ((Nat.min_le_left _ _).trans hlarger)]
    rfl
  rw [List.prefix_iff_eq_take, hfewLength, hmany, hfew]
  unfold KeepsPage
  rw [hlength]
  constructor
  · exact le_steadyAhead hA (Nat.min_le_right _ _)
  · exact take_mergeSort_steady hA

end Longer

end Prefix

/-! ## The search -/

section Search

variable {α : Type} (A : Scoring α) (W : World) (h : LanceStore)

/-- `hybridSearch` with scores of any kind. -/
def LanceStore.hybridSearchWith (table column text : Text) (vector : List UInt32) (limit : Nat) :
    StoreM (List (ScoredHit α)) := do
  h.requireScope W .read table
  let breadth := max (limit * 2) limit
  let semantic ← h.nearest W table column vector breadth
  let lexical ← h.searchText W table column text breadth
  let d ← h.open W table
  ask W "count the rows of" table (h.call table (.count none)) (some d)
  let hits := fuseWith A (semantic.map RowVector.row) lexical d.rows.length limit
  h.record W (.hybridSearch table column text (effectiveK d.rows.length)) (count64 hits.length)
  pure hits

/-- **Over single floats it is the search of the store.** -/
theorem LanceStore.hybridSearchWith_single (table column text : Text) (vector : List UInt32)
    (limit : Nat) : h.hybridSearchWith .single W table column text vector limit =
      (fun fused => fused.hits.map FusedHit.scored) <$>
        h.hybridSearch W table column text vector limit := by
  unfold hybridSearchWith hybridSearch
  simp only [← (fuse_eq _ _ _ _).1, List.length_map, map_bind, map_pure]
  rfl

/-- How many candidates each side is asked for. -/
def breadth (limit : Nat) : Nat := max (limit * 2) limit

theorem breadth_mono {limit larger : Nat} (h : limit ≤ larger) :
    breadth limit ≤ breadth larger := by
  unfold breadth
  omega

variable {W}
variable (R : W.format.Ranked) (disk : Disk) (table column text : Text) (vector : List UInt32)

/-- The rows of the one ranking of a column's vectors. -/
def semanticRanking : List RowId :=
  (disk.datasets (h.place W (vectorTable table column))).elim [] fun d =>
    (R.vectors d vector).map (ownerOf d.schema)

/-- The one ranking of a table's text. -/
def lexicalRanking : List RowId :=
  (disk.datasets (h.place W table)).elim [] fun d => R.texts d text

/-- How many rows a table has. -/
def documents (W : World) (h : LanceStore) (disk : Disk) (table : Text) : Nat :=
  (disk.datasets (h.place W table)).elim 0 fun d => d.rows.length

/-- The rows that either ranking has only past the breadth of `limit` leave its page as it is. -/
def Pageable (limit larger : Nat) : Prop :=
  let semantic := (semanticRanking h R disk table column vector).take (breadth larger)
  let lexical := (lexicalRanking h R disk table text).take (breadth larger)
  KeepsPage A (effectiveK (documents W h disk table)) (semantic.take (breadth limit))
    (lexical.take (breadth limit)) (semantic.drop (breadth limit)) (lexical.drop (breadth limit))
    limit

variable {A h R disk table column text vector}

theorem semantic_of_nearest {limit : Nat} {found : List RowVector}
    (hfinds : FindsNearest W h disk.datasets table column vector limit found) :
    found.map RowVector.row = (semanticRanking h R disk table column vector).take limit := by
  obtain ⟨-, -, d, ⟨hplace, -⟩, -, hvectors⟩ := hfinds
  unfold semanticRanking
  rw [rows_of_nearest hvectors, hplace, R.nearest_eq, List.map_take]
  rfl

theorem lexical_of_searchText {limit : Nat} {hits : List RowId}
    (hfinds : FindsText W h disk.datasets table text limit hits) :
    hits = (lexicalRanking h R disk table text).take limit := by
  obtain ⟨-, d, ⟨hplace, -⟩, -, rfl⟩ := hfinds
  unfold lexicalRanking
  rw [hplace, R.fullText_eq]
  rfl

/-- A search that answers fuses the first entries of both rankings. -/
theorem LanceStore.hybridSearchWith_ok {limit : Nat} {hits : List (ScoredHit α)} {disk' : Disk}
    (hrun : (h.hybridSearchWith A W table column text vector limit).run disk = .ok hits disk') :
    hits = fuseWith A ((semanticRanking h R disk table column vector).take (breadth limit))
      ((lexicalRanking h R disk table text).take (breadth limit)) (documents W h disk table)
      limit := by
  unfold hybridSearchWith at hrun
  obtain ⟨found, words, d, later, hsemantic, hlexical, ⟨hplace, -⟩, hrest⟩ := gathered hrun
  obtain ⟨_, recorded, -, hfused⟩ := bind_ok.1 hrest
  cases hfused
  have hdocuments : documents W h disk table = d.rows.length := by
    unfold documents
    rw [hplace]
    rfl
  rw [semantic_of_nearest (R := R) hsemantic, lexical_of_searchText (R := R) hlexical, hdocuments]
  rfl

variable (R)

/-- **When hybrid results can be paged**: the hits for a limit are the first hits for a larger one
exactly where every row that gets a new place has a page of rows ahead of it that get none. -/
theorem hybrid_pages_iff (hA : A.Lawful) {limit larger : Nat} (hlarger : limit ≤ larger)
    {few many : List (ScoredHit α)} {disk₁ disk₂ : Disk}
    (hfew : (h.hybridSearchWith A W table column text vector limit).run disk = .ok few disk₁)
    (hmany : (h.hybridSearchWith A W table column text vector larger).run disk = .ok many disk₂) :
    few <+: many ↔ Pageable A h R disk table column text vector limit larger := by
  let semantic := (semanticRanking h R disk table column vector).take (breadth larger)
  let lexical := (lexicalRanking h R disk table text).take (breadth larger)
  have hnarrow : ∀ list : List RowId,
      (list.take (breadth larger)).take (breadth limit) = list.take (breadth limit) := by
    intro list
    rw [List.take_take, Nat.min_eq_left (breadth_mono hlarger)]
  have hiff := fuseWith_prefix_iff hA (documents W h disk table) (semantic.take (breadth limit))
    (lexical.take (breadth limit)) (semantic.drop (breadth limit))
    (lexical.drop (breadth limit)) hlarger
  rw [List.take_append_drop, List.take_append_drop] at hiff
  rw [hybridSearchWith_ok (R := R) hfew, hybridSearchWith_ok (R := R) hmany]
  unfold Pageable
  rw [← hiff]
  simp only [semantic, lexical, hnarrow]

end Search

/-! ## A page that changes -/

/-- One vector for each letter of a text. -/
def letters : Embedder where
  embedPassage := fun text =>
    .ok (text.map fun c => List.replicate VECTOR_WIDTH (UInt32.ofNat c.toNat))
  embedQuery := fun text => .ok (List.replicate VECTOR_WIDTH (UInt32.ofNat text.length))

def letterer : LanceStore := (LanceStore.openForWriting "db".toList).embedding letters

/-- A table with one row for each text. -/
def tableOf (texts : List Text) : Disk :=
  final ((letterer.perform .plain (.append "docs".toList
    ⟨embeddedText, texts.map fun text => [.utf8 text]⟩)).run
      (final ((letterer.createTable .plain "docs".toList ⟨embeddedText, .none⟩).run Disk.empty)))

/-- Both rankings of the plain format are in the order of the rows. -/
def plainRanked : Format.plain.Ranked where
  vectors := fun d _ => d.rows
  texts := fun d _ => d.rows.map Row.id
  nearest_eq := fun _ _ _ => rfl
  fullText_eq := fun _ _ _ => rfl

/-- The query of the examples. -/
def someQuery : List UInt32 := List.replicate VECTOR_WIDTH 0

set_option maxRecDepth 8000 in
/-- A third row comes behind the first page. -/
theorem third_row_keeps_the_page :
    fuseWith .exact [0, 1] [0, 1] 3 1 <+: fuseWith .exact [0, 1, 2] [0, 1, 2] 3 2 := by
  let disk := tableOf ["a".toList, "b".toList, "c".toList]
  have hfew : (letterer.hybridSearchWith .exact .plain "docs".toList "text".toList "a".toList
      someQuery 1).run disk = .ok (fuseWith .exact [0, 1] [0, 1] 3 1) disk := rfl
  have hmany : (letterer.hybridSearchWith .exact .plain "docs".toList "text".toList "a".toList
      someQuery 2).run disk = .ok (fuseWith .exact [0, 1, 2] [0, 1, 2] 3 2) disk := rfl
  apply (hybrid_pages_iff plainRanked Scoring.exact_lawful (by decide) hfew hmany).2
  show KeepsPage .exact 15 [0, 1] [0, 1] [2] [2] 1
  decide +kernel

set_option maxRecDepth 8000 in
/-- A row of four chunks has its second rank on the first page, and its fourth on a larger one. -/
theorem larger_limit_changes_the_page :
    ¬ ∀ (W : World) (_ : W.format.Ranked) (h : LanceStore) (table column text : Text)
      (vector : List UInt32) (limit larger : Nat) (disk disk₁ disk₂ : Disk) (few many : Fused),
      limit ≤ larger →
      (h.hybridSearch W table column text vector limit).run disk = .ok few disk₁ →
      (h.hybridSearch W table column text vector larger).run disk = .ok many disk₂ →
      few.hits <+: many.hits := by
  intro hall
  let disk := tableOf ["aaaa".toList]
  have hfew : (letterer.hybridSearch .plain "docs".toList "text".toList "a".toList
      someQuery 1).run disk = .ok (fuse [0, 0] [0] 1 1) disk := rfl
  have hmany : (letterer.hybridSearch .plain "docs".toList "text".toList "a".toList
      someQuery 2).run disk = .ok (fuse [0, 0, 0, 0] [0] 1 2) disk := rfl
  have hprefix := hall .plain plainRanked letterer _ _ _ _ 1 2 disk disk disk _ _ (by decide) hfew
    hmany
  have hranks := hprefix.map FusedHit.vectorRank
  rw [show (fuse [0, 0] [0] 1 1).hits.map FusedHit.vectorRank = [some 2] from
      congrArg (fun hits => (List.take 1 hits).map FusedHit.vectorRank)
        (List.mergeSort_singleton _),
    show (fuse [0, 0, 0, 0] [0] 1 2).hits.map FusedHit.vectorRank = [some 4] from
      congrArg (fun hits => (List.take 2 hits).map FusedHit.vectorRank)
        (List.mergeSort_singleton _)] at hranks
  exact absurd hranks (by decide)

/-- A row that both sides have third passes the first of either. -/
example : fuseWith .exact [1, 2] [3, 4] 40 1 = [⟨1, 1 / 16, some 1, none⟩] ∧
    ¬KeepsPage .exact 15 [1, 2] [3, 4] [5] [5] 1 := by
  refine ⟨?_, by decide +kernel⟩
  unfold fuseWith
  rw [(ordersOn_scanned Scoring.exact_lawful _ _).mergeSort_eq
    (s := [⟨1, 1 / 16, some 1, none⟩, ⟨3, 1 / 16, none, some 1⟩, ⟨2, 1 / 17, some 2, none⟩,
      ⟨4, 1 / 17, none, some 2⟩]) (by decide +kernel) (by decide +kernel)]
  rfl

end EuleDB.Store
