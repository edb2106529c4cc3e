import EuleDB.Lib.Ranked
import EuleDB.Store.Ranking

/-!
# The order of a fused ranking

The hits are sorted after both lists were scanned.  A row has one hit, so the row number decides
every tie.

* `Scoring.Lawful` — scores that compare and add up as numbers do, rounded or not.
* `mem_scanned` — a hit is what both lists give to its row.
* `ordersOn_scanned` — the comparison orders the hits strictly.
* `fused_ranking` — over exact rationals: the order, the rows, the first entries of a larger limit,
  and what an exchange of the two lists does.
-/

set_option autoImplicit false

namespace EuleDB.Store

open Ranked

/-! ## Scores -/

section Scores

variable {α : Type}

/-- What a fusion can give a row as its score. -/
inductive Scoring.Reached (A : Scoring α) (k : UInt32) : α → Prop where
  | share (rank : Nat) : A.Reached k (A.share k rank)
  | add {a : α} (rank : Nat) : A.Reached k a → A.Reached k (A.add a (A.share k rank))

/-- Scores that compare and add up as numbers do, rounded or not. -/
structure Scoring.Lawful (A : Scoring α) : Prop where
  asymm : ∀ {k a b}, A.Reached k a → A.Reached k b → A.less a b → ¬A.less b a
  /-- Not below is transitive. -/
  trans : ∀ {k a b c}, A.Reached k a → A.Reached k b → A.Reached k c →
    ¬A.less a b → ¬A.less b c → ¬A.less a c
  grows : ∀ {k a} rank, A.Reached k a → ¬A.less (A.add a (A.share k rank)) a
  /-- A sum is not below the share that was added. -/
  covers : ∀ {k a} rank, A.Reached k a → ¬A.less (A.add a (A.share k rank)) (A.share k rank)
  mono : ∀ {k a b} rank, A.Reached k a → A.Reached k b → ¬A.less a b →
    ¬A.less (A.add a (A.share k rank)) (A.add b (A.share k rank))

theorem Scoring.exact_share_nonneg (k : UInt32) (rank : Nat) : 0 ≤ Scoring.exact.share k rank := by
  show (0 : ℚ) ≤ 1 / (k.toNat + rank)
  exact div_nonneg zero_le_one (add_nonneg k.toNat.cast_nonneg rank.cast_nonneg)

theorem Scoring.Reached.nonneg {k : UInt32} {a : ℚ} (h : Scoring.exact.Reached k a) : 0 ≤ a := by
  induction h with
  | share rank => exact Scoring.exact_share_nonneg k rank
  | add rank _ ih => exact add_nonneg ih (Scoring.exact_share_nonneg k rank)

@[simp] theorem Scoring.exact_less (a b : ℚ) : Scoring.exact.less a b = decide (a < b) := rfl

@[simp] theorem Scoring.exact_add (a b : ℚ) : Scoring.exact.add a b = a + b := rfl

theorem Scoring.exact_lawful : Scoring.exact.Lawful where
  asymm _ _ := by simpa using fun h => le_of_lt h
  trans _ _ _ := by simpa using fun hab hbc => le_trans hbc hab
  grows {k} _ rank _ := by simpa using Scoring.exact_share_nonneg k rank
  covers _ h := by simpa using h.nonneg
  mono _ _ _ := by simp

variable {A : Scoring α}

theorem ScoredHit.before_iff {a b : ScoredHit α} : a.before A b ↔
    A.less b.score a.score ∨ ¬A.less a.score b.score ∧ a.row ≤ b.row := by
  unfold ScoredHit.before
  split_ifs <;> simp_all

/-- Scores a fusion can give are ordered, and a row that has one hit breaks a tie. -/
theorem ordersOn_before {k : UInt32} {hits : List (ScoredHit α)} (hA : A.Lawful)
    (hreached : ∀ hit ∈ hits, A.Reached k hit.score) (hnodup : (hits.map ScoredHit.row).Nodup) :
    OrdersOn (ScoredHit.before A) hits where
  total a _ b _ := by
    simp only [Bool.or_eq_true, ScoredHit.before_iff]
    have := Nat.le_total a.row b.row
    by_cases hab : A.less a.score b.score <;> by_cases hba : A.less b.score a.score <;>
      simp_all
  trans a ha b hb c hc := by
    have hra := hreached a ha
    have hrb := hreached b hb
    have hrc := hreached c hc
    simp only [ScoredHit.before_iff]
    intro hab hbc
    -- Neither score before it is below the one after it.
    have h1 : ¬A.less a.score b.score := hab.elim (hA.asymm hrb hra) And.left
    have h2 : ¬A.less b.score c.score := hbc.elim (hA.asymm hrc hrb) And.left
    have h3 := hA.trans hra hrb hrc h1 h2
    by_cases hca : A.less c.score a.score
    · exact .inl hca
    -- All three scores are level, so the rows decide.
    · have h4 := hA.trans hrc hra hrb hca h1
      have h5 := hA.trans hrb hrc hra h2 hca
      exact .inr ⟨h3, Nat.le_trans (hab.resolve_left h5).2 (hbc.resolve_left h4).2⟩
  antisymm a ha b hb := by
    simp only [ScoredHit.before_iff]
    intro hab hba
    have h1 : ¬A.less a.score b.score :=
      hab.elim (hA.asymm (hreached b hb) (hreached a ha)) And.left
    have h2 : ¬A.less b.score a.score :=
      hba.elim (hA.asymm (hreached a ha) (hreached b hb)) And.left
    have hrow := Nat.le_antisymm (hab.resolve_left h2).2 (hba.resolve_left h1).2
    exact List.inj_on_of_nodup_map hnodup ha hb hrow

end Scores

/-! ## What both lists give to a row -/

section Standing

variable {α : Type} (A : Scoring α) (k : UInt32)

/-- A row found once more, or for the first time. -/
def ScoredHit.seen (lexicalSide : Bool) (row : RowId) (found : Option (ScoredHit α)) (rank : Nat) :
    ScoredHit α :=
  found.elim (.first A k lexicalSide row rank) (.again A k lexicalSide rank)

/-- What a list gives to a row, its places one after the other. -/
def standingIn (lexicalSide : Bool) (row : RowId) (found : Option (ScoredHit α))
    (places : List Nat) : Option (ScoredHit α) :=
  places.foldl (fun found rank => some (.seen A k lexicalSide row found rank)) found

/-- What both lists give to a row. -/
def standing (vector lexical : List RowId) (row : RowId) : Option (ScoredHit α) :=
  standingIn A k true row (standingIn A k false row none (ranks vector row)) (ranks lexical row)

theorem find?_touch (lexicalSide : Bool) (row found : RowId) (rank : Nat)
    (hits : List (ScoredHit α)) :
    (touch A k lexicalSide found rank hits).find? (fun hit => hit.row = row) =
      if found = row then some (.seen A k lexicalSide row (hits.find? fun hit => hit.row = row) rank)
      else hits.find? fun hit => hit.row = row := by
  induction hits with
  | nil =>
    have hrow : (ScoredHit.first A k lexicalSide found rank).row = found := rfl
    rw [touch, List.find?_singleton, hrow]
    by_cases hfound : found = row
    · subst hfound
      simp [ScoredHit.seen]
    · simp [hfound]
  | cons hit hits ih =>
    rw [touch]
    by_cases hfound : hit.row = found
    · rw [if_pos hfound, List.find?_cons, List.find?_cons, row_again, hfound]
      by_cases hrow : found = row
      · simp [hrow, ScoredHit.seen]
      · simp [hrow]
    · rw [if_neg hfound, List.find?_cons, List.find?_cons, ih]
      by_cases hrow : hit.row = row
      · simp only [hrow, decide_true]
        rw [if_neg fun h => hfound (hrow.trans h.symm)]
      · simp only [hrow, decide_false]

theorem find?_foldl (lexicalSide : Bool) (row : RowId) (entries : List (RowId × Nat))
    (hits : List (ScoredHit α)) :
    (entries.foldl (contributeWith A k lexicalSide) hits).find? (fun hit => hit.row = row) =
      standingIn A k lexicalSide row (hits.find? fun hit => hit.row = row)
        ((entries.filter fun entry => entry.1 = row).map fun entry => entry.2 + 1) := by
  induction entries generalizing hits with
  | nil => rfl
  | cons entry entries ih =>
    rw [List.foldl_cons, ih, contributeWith_eq, find?_touch]
    by_cases hrow : entry.1 = row
    · rw [if_pos hrow, List.filter_cons_of_pos (by simp [hrow])]
      rfl
    · rw [if_neg hrow, List.filter_cons_of_neg (by simp [hrow])]

theorem find?_scanned (vector lexical : List RowId) (row : RowId) :
    (scanned A k vector lexical).find? (fun hit => hit.row = row) =
      standing A k vector lexical row := by
  unfold scanned standing
  rw [find?_foldl, find?_foldl, List.find?_nil]
  rfl

variable {A k}

/-- **A hit is what both lists give to its row.** -/
theorem mem_scanned {vector lexical : List RowId} {hit : ScoredHit α} :
    hit ∈ scanned A k vector lexical ↔ standing A k vector lexical hit.row = some hit := by
  rw [← find?_scanned]
  constructor
  · intro hmem
    cases hfind : (scanned A k vector lexical).find? fun h => h.row = hit.row with
    | none => simpa using List.find?_eq_none.1 hfind hit hmem
    | some other =>
      have hrow : other.row = hit.row := by simpa using List.find?_some hfind
      rw [List.inj_on_of_nodup_map (nodup_scanned A k vector lexical)
        (List.mem_of_find?_eq_some hfind) hmem hrow]
  · exact List.mem_of_find?_eq_some

theorem standingIn_reached (lexicalSide : Bool) (row : RowId) {found : Option (ScoredHit α)}
    (places : List Nat) (hfound : ∀ hit ∈ found, A.Reached k hit.score) :
    ∀ hit ∈ standingIn A k lexicalSide row found places, A.Reached k hit.score := by
  induction places generalizing found with
  | nil => exact hfound
  | cons rank places ih =>
    apply ih
    intro hit hmem
    cases hmem
    cases found with
    | none => exact .share rank
    | some hit =>
      have := Scoring.Reached.add rank (hfound hit rfl)
      cases lexicalSide <;> exact this

theorem standing_reached {vector lexical : List RowId} {row : RowId} {hit : ScoredHit α}
    (h : standing A k vector lexical row = some hit) : A.Reached k hit.score := by
  apply standingIn_reached true row _ _ hit h
  apply standingIn_reached
  rintro _ ⟨⟩

/-- **The comparison orders the hits strictly.** -/
theorem ordersOn_scanned (hA : A.Lawful) (vector lexical : List RowId) :
    OrdersOn (ScoredHit.before A) (scanned A k vector lexical) :=
  ordersOn_before hA (fun _ hmem => standing_reached (mem_scanned.1 hmem))
    (nodup_scanned A k vector lexical)

/-! ## The rows of a ranking -/

theorem mem_row_foldl {lexicalSide : Bool} {row : RowId} {entries : List (RowId × Nat)}
    {hits : List (ScoredHit α)} :
    row ∈ (entries.foldl (contributeWith A k lexicalSide) hits).map ScoredHit.row ↔
      row ∈ hits.map ScoredHit.row ∨ row ∈ entries.map Prod.fst := by
  induction entries generalizing hits with
  | nil => simp
  | cons entry entries ih =>
    rw [List.foldl_cons, ih, contributeWith_eq, map_row_touch, List.map_cons, List.mem_cons]
    split_ifs with hmem
    · constructor
      · rintro (hrow | hrow)
        · exact .inl hrow
        · exact .inr (.inr hrow)
      · rintro (hrow | rfl | hrow)
        · exact .inl hrow
        · exact .inl hmem
        · exact .inr hrow
    · rw [List.mem_append, List.mem_singleton, or_assoc]

theorem mem_row_scanned {vector lexical : List RowId} {row : RowId} :
    row ∈ (scanned A k vector lexical).map ScoredHit.row ↔ row ∈ vector ∨ row ∈ lexical := by
  unfold scanned
  rw [mem_row_foldl, mem_row_foldl, List.zipIdx_map_fst, List.zipIdx_map_fst]
  simp

theorem length_scanned (vector lexical : List RowId) :
    (scanned A k vector lexical).length = (vector ++ lexical).dedup.length := by
  rw [← List.length_map (f := ScoredHit.row)]
  apply List.Perm.length_eq
  rw [List.perm_ext_iff_of_nodup (nodup_scanned A k vector lexical) (List.nodup_dedup _)]
  intro row
  rw [mem_row_scanned, List.mem_dedup, List.mem_append]

theorem fuseWith_prefix (vector lexical : List RowId) (documents : Nat) {limit larger : Nat}
    (h : limit ≤ larger) :
    fuseWith A vector lexical documents limit <+: fuseWith A vector lexical documents larger :=
  List.take_prefix_take_left h

end Standing

/-! ## Over exact rationals -/

/-- A better score, or the same and a lower row. -/
def ScoredHit.Ahead (a b : ScoredHit ℚ) : Prop :=
  b.score < a.score ∨ a.score = b.score ∧ a.row < b.row

/-- The hit with its two ranks exchanged. -/
def ScoredHit.exchanged (hit : ScoredHit ℚ) : ScoredHit ℚ :=
  { hit with vectorRank := hit.lexicalRank, lexicalRank := hit.vectorRank }

theorem pairwise_ahead (vector lexical : List RowId) (documents limit : Nat) :
    (fuseWith .exact vector lexical documents limit).Pairwise ScoredHit.Ahead := by
  let hits := scanned .exact (effectiveK documents) vector lexical
  have hord : OrdersOn (ScoredHit.before .exact) hits := ordersOn_scanned Scoring.exact_lawful _ _
  have hrows : ((hits.mergeSort (ScoredHit.before .exact)).map ScoredHit.row).Nodup :=
    ((List.mergeSort_perm _ _).map _).nodup_iff.2 (nodup_scanned _ _ _ _)
  unfold fuseWith
  apply List.Pairwise.sublist (List.take_sublist _ _)
  apply (hord.pairwise_mergeSort.and (List.pairwise_map.1 hrows)).imp
  rintro a b ⟨hbefore, hrow⟩
  simp only [ScoredHit.before_iff, Scoring.exact_less, decide_eq_true_eq, not_lt] at hbefore
  rcases hbefore with hscore | ⟨hscore, hle⟩
  · exact .inl hscore
  · rcases lt_or_eq_of_le hscore with hlt | heq
    · exact .inl hlt
    · exact .inr ⟨heq.symm, Nat.lt_of_le_of_ne hle hrow⟩

theorem nodup_row_fuseWith {α : Type} (A : Scoring α) (vector lexical : List RowId)
    (documents limit : Nat) :
    ((fuseWith A vector lexical documents limit).map ScoredHit.row).Nodup := by
  unfold fuseWith
  rw [List.map_take]
  apply List.Nodup.sublist (List.take_sublist _ _)
  exact ((List.mergeSort_perm _ _).map _).nodup_iff.2 (nodup_scanned _ _ _ _)

theorem mem_row_fuseWith {α : Type} {A : Scoring α} {vector lexical : List RowId}
    {documents limit : Nat} (hlimit : (vector ++ lexical).dedup.length ≤ limit) (row : RowId) :
    row ∈ (fuseWith A vector lexical documents limit).map ScoredHit.row ↔
      row ∈ vector ∨ row ∈ lexical := by
  unfold fuseWith
  rw [List.take_of_length_le (by rwa [List.length_mergeSort, length_scanned])]
  rw [((List.mergeSort_perm _ _).map _).mem_iff, mem_row_scanned]

/-- The other way round, the two scans find the same hits with their ranks exchanged. -/
theorem scanned_exchanged (k : UInt32) (vector lexical : List RowId) :
    (scanned .exact k lexical vector).Perm
      ((scanned .exact k vector lexical).map ScoredHit.exchanged) := by
  have hvalue : ∀ row, valueOf row (scanned .exact k lexical vector) =
      (valueOf row (scanned .exact k vector lexical)).exchanged := by
    intro row
    rw [valueOf_scanned, valueOf_scanned, add_comm]
    rfl
  have hrows : ((scanned .exact k vector lexical).map ScoredHit.exchanged).map ScoredHit.row =
      (scanned .exact k vector lexical).map ScoredHit.row := by
    rw [List.map_map]
    rfl
  have hnodup : (((scanned .exact k vector lexical).map ScoredHit.exchanged).map
      ScoredHit.row).Nodup := hrows ▸ nodup_scanned _ _ _ _
  have hother := nodup_scanned .exact k lexical vector
  rw [List.perm_ext_iff_of_nodup hother.of_map hnodup.of_map]
  intro hit
  constructor
  · intro hmem
    have hrow : hit.row ∈ (scanned .exact k vector lexical).map ScoredHit.row :=
      mem_row_scanned.2 (mem_row_scanned.1 (List.mem_map_of_mem hmem)).symm
    obtain ⟨found, hfound, hsame⟩ := List.mem_map.1 hrow
    rw [← eq_valueOf hother hmem, hvalue, ← hsame, eq_valueOf (nodup_scanned _ _ _ _) hfound]
    exact List.mem_map_of_mem hfound
  · intro hmem
    obtain ⟨found, hfound, rfl⟩ := List.mem_map.1 hmem
    have hrow : found.row ∈ (scanned .exact k lexical vector).map ScoredHit.row :=
      mem_row_scanned.2 (mem_row_scanned.1 (List.mem_map_of_mem hfound)).symm
    obtain ⟨other, hmemOther, hsame⟩ := List.mem_map.1 hrow
    rw [← eq_valueOf (nodup_scanned _ _ _ _) hfound, ← hvalue, ← hsame,
      eq_valueOf hother hmemOther]
    exact hmemOther

theorem fuseWith_exchanged (vector lexical : List RowId) (documents limit : Nat) :
    fuseWith .exact lexical vector documents limit =
      (fuseWith .exact vector lexical documents limit).map ScoredHit.exchanged := by
  have hmap := List.map_mergeSort (r := ScoredHit.before .exact) (s := ScoredHit.before .exact)
    (f := ScoredHit.exchanged) (l := scanned .exact (effectiveK documents) vector lexical)
    fun _ _ _ _ => rfl
  unfold fuseWith
  rw [List.map_take, hmap]
  rw [(ordersOn_scanned Scoring.exact_lawful lexical vector).mergeSort_congr
    (scanned_exchanged (effectiveK documents) vector lexical).symm]

/-- **Fusion is a well-defined ranking.** -/
theorem fused_ranking (vector lexical : List RowId) (documents limit larger : Nat)
    (hlarger : limit ≤ larger) :
    (fuseWith .exact vector lexical documents limit).Pairwise ScoredHit.Ahead ∧
      ((fuseWith .exact vector lexical documents limit).map ScoredHit.row).Nodup ∧
      ((vector ++ lexical).dedup.length ≤ limit → ∀ row,
        row ∈ (fuseWith .exact vector lexical documents limit).map ScoredHit.row ↔
          row ∈ vector ∨ row ∈ lexical) ∧
      fuseWith .exact vector lexical documents limit <+:
        fuseWith .exact vector lexical documents larger ∧
      fuseWith .exact lexical vector documents limit =
        (fuseWith .exact vector lexical documents limit).map ScoredHit.exchanged := by
  refine ⟨?_, ?_, ?_, ?_, ?_⟩
  · exact pairwise_ahead vector lexical documents limit
  · exact nodup_row_fuseWith .exact vector lexical documents limit
  · exact mem_row_fuseWith
  · exact fuseWith_prefix vector lexical documents hlarger
  · exact fuseWith_exchanged vector lexical documents limit

/-- Two rows that level each other, and one that is found a second time. -/
theorem fused_ranking_of_tie :
    (∀ row, row ∈ (fuseWith .exact [9, 4, 7] [4, 9, 7, 7] 40 3).map ScoredHit.row ↔
        row ∈ [9, 4, 7] ∨ row ∈ [4, 9, 7, 7]) ∧
      fuseWith .exact [9, 4, 7] [4, 9, 7, 7] 40 3 <+:
        fuseWith .exact [9, 4, 7] [4, 9, 7, 7] 40 5 := by
  have h := fused_ranking [9, 4, 7] [4, 9, 7, 7] 40 3 5 (by decide)
  exact ⟨h.2.2.1 (by decide), h.2.2.2.1⟩

end EuleDB.Store
