import Mathlib.Algebra.BigOperators.Group.List.Basic
import Mathlib.Algebra.Order.Field.Rat
import EuleDB.Store.LanceStore
import EuleDB.Store.Steps

/-!
# Fusion over any arithmetic

The scan of two ranked lists reads each entry once.  A row that stands in a list again adds to its
score again, and its rank becomes the later one.

* `fuseWith`, `fuse_eq` — the fusion over any arithmetic; over single floats it is `fuse`.
* `valueOf_scanned` — the formula of the loop: what a row has after both scans.
* `fused_formula_iff` — that is the formula of the ranking exactly for a row that stands in each
  list at most once.
* `LanceStore.hybridSearch_fuses` — a hybrid search fuses what its two searches found.
-/

set_option autoImplicit false

namespace EuleDB.Store

open Audit Crypto Effect

/-! ## The fusion over any arithmetic -/

/-- What the fusion asks of its scores. -/
structure Scoring (α : Type) where
  /-- One over `k` plus a rank. -/
  share : UInt32 → Nat → α
  add : α → α → α
  less : α → α → Bool

/-- Single floats. -/
def Scoring.single : Scoring Float32 where
  share k rank := 1.0 / (Float32.ofNat k.toNat + Float32.ofNat rank)
  add := (· + ·)
  less := fun a b => a < b

/-- Exact rationals. -/
def Scoring.exact : Scoring ℚ where
  share k rank := 1 / (k.toNat + rank)
  add := (· + ·)
  less := fun a b => a < b

/-- A `FusedHit` with scores of any kind. -/
structure ScoredHit (α : Type) where
  row : RowId
  score : α
  vectorRank : Option Nat
  lexicalRank : Option Nat
  deriving DecidableEq

def FusedHit.scored (hit : FusedHit) : ScoredHit Float32 :=
  ⟨hit.row, hit.score, hit.vectorRank, hit.lexicalRank⟩

section Fusion

variable {α : Type} (A : Scoring α)

/-- A hit found once more, at a rank on one side. -/
def ScoredHit.again (k : UInt32) (lexicalSide : Bool) (rank : Nat) (hit : ScoredHit α) :
    ScoredHit α :=
  let scored := { hit with score := A.add hit.score (A.share k rank) }
  if lexicalSide then { scored with lexicalRank := some rank }
  else { scored with vectorRank := some rank }

/-- A hit found for the first time. -/
def ScoredHit.first (k : UInt32) (lexicalSide : Bool) (row : RowId) (rank : Nat) : ScoredHit α where
  row := row
  score := A.share k rank
  vectorRank := if lexicalSide then none else some rank
  lexicalRank := if lexicalSide then some rank else none

/-- One entry of a list added to the hits so far. -/
def contributeWith (k : UInt32) (lexicalSide : Bool) (hits : List (ScoredHit α))
    (entry : RowId × Nat) : List (ScoredHit α) :=
  match hits.findIdx? fun hit => hit.row = entry.1 with
  | some i => hits.modify i (.again A k lexicalSide (entry.2 + 1))
  | none => hits ++ [.first A k lexicalSide entry.1 (entry.2 + 1)]

/-- Higher scores first, and the lower row first where scores tie. -/
def ScoredHit.before (a b : ScoredHit α) : Bool :=
  if A.less b.score a.score then true
  else if A.less a.score b.score then false
  else a.row ≤ b.row

/-- The `k` for a number of documents. -/
def effectiveK (documents : Nat) : UInt32 :=
  if documents < SMALL_CORPUS_THRESHOLD then SMALL_CORPUS_K else DEFAULT_K

/-- The hits after both lists were scanned. -/
def scanned (k : UInt32) (vector lexical : List RowId) : List (ScoredHit α) :=
  lexical.zipIdx.foldl (contributeWith A k true)
    (vector.zipIdx.foldl (contributeWith A k false) [])

def fuseWith (vector lexical : List RowId) (documents limit : Nat) : List (ScoredHit α) :=
  ((scanned A (effectiveK documents) vector lexical).mergeSort (ScoredHit.before A)).take limit

end Fusion

theorem map_modify {α β : Type} {f : α → α} {f' : β → β} {g : α → β} (h : ∀ a, g (f a) = f' (g a))
    (l : List α) (i : Nat) : (l.modify i f).map g = (l.map g).modify i f' := by
  induction l generalizing i with
  | nil => cases i <;> rfl
  | cons a l ih =>
    cases i with
    | zero => simp [h]
    | succ i => simp [ih]

theorem contribute_scored (k : UInt32) (lexicalSide : Bool) (hits : List FusedHit)
    (entry : RowId × Nat) : (contribute k lexicalSide hits entry).map FusedHit.scored =
      contributeWith .single k lexicalSide (hits.map FusedHit.scored) entry := by
  have hfind : (hits.map FusedHit.scored).findIdx? (fun hit => hit.row = entry.1) =
      hits.findIdx? fun hit => hit.row = entry.1 := by
    rw [List.findIdx?_map]
    rfl
  unfold contribute contributeWith
  rw [hfind]
  dsimp only
  cases hits.findIdx? fun hit => hit.row = entry.1 with
  | none => rw [List.map_append]; rfl
  | some i =>
    dsimp only
    rw [map_modify fun hit => ?_]
    cases lexicalSide <;> rfl

theorem foldl_contribute_scored (k : UInt32) (lexicalSide : Bool) (entries : List (RowId × Nat))
    (hits : List FusedHit) : (entries.foldl (contribute k lexicalSide) hits).map FusedHit.scored =
      entries.foldl (contributeWith .single k lexicalSide) (hits.map FusedHit.scored) := by
  induction entries generalizing hits with
  | nil => rfl
  | cons entry entries ih => rw [List.foldl_cons, List.foldl_cons, ih, contribute_scored]

/-- **Over single floats the fusion is the one the store computes.** -/
theorem fuse_eq (vector lexical : List RowId) (documents limit : Nat) :
    (fuse vector lexical documents limit).hits.map FusedHit.scored =
        fuseWith .single vector lexical documents limit ∧
      (fuse vector lexical documents limit).effectiveK = effectiveK documents := by
  refine ⟨?_, rfl⟩
  unfold fuse fuseWith scanned
  dsimp only
  rw [List.map_take, List.map_mergeSort (s := ScoredHit.before .single) fun a _ b _ => ?_,
    foldl_contribute_scored, foldl_contribute_scored]
  · rfl
  · unfold FusedHit.before ScoredHit.before FusedHit.scored Scoring.single
    simp only [decide_eq_true_eq]

/-! ## What the scan does for one row -/

section Row

variable {α : Type} (A : Scoring α) (k : UInt32) (lexicalSide : Bool)

/-- The hits after one row was found, as a recursion. -/
def touch (row : RowId) (rank : Nat) : List (ScoredHit α) → List (ScoredHit α)
  | [] => [.first A k lexicalSide row rank]
  | hit :: hits =>
    if hit.row = row then hit.again A k lexicalSide rank :: hits else hit :: touch row rank hits

theorem contributeWith_eq (hits : List (ScoredHit α)) (entry : RowId × Nat) :
    contributeWith A k lexicalSide hits entry =
      touch A k lexicalSide entry.1 (entry.2 + 1) hits := by
  unfold contributeWith
  induction hits with
  | nil => rfl
  | cons hit hits ih =>
    rw [List.findIdx?_cons]
    by_cases hrow : hit.row = entry.1
    · rw [if_pos (decide_eq_true hrow), touch, if_pos hrow]
      rfl
    · rw [if_neg (by simp [hrow]), touch, if_neg hrow, ← ih]
      cases hits.findIdx? fun hit => hit.row = entry.1 <;> rfl

theorem row_again (rank : Nat) (hit : ScoredHit α) :
    (hit.again A k lexicalSide rank).row = hit.row := by
  cases lexicalSide <;> rfl

theorem map_row_touch (row : RowId) (rank : Nat) (hits : List (ScoredHit α)) :
    (touch A k lexicalSide row rank hits).map ScoredHit.row =
      if row ∈ hits.map ScoredHit.row then hits.map ScoredHit.row
      else hits.map ScoredHit.row ++ [row] := by
  induction hits with
  | nil => rfl
  | cons hit hits ih =>
    rw [touch]
    split_ifs with hrow hmem hmem
    · rw [List.map_cons, row_again, List.map_cons]
    · exact absurd (by rw [List.map_cons, hrow]; exact List.mem_cons_self) hmem
    · rw [List.map_cons, List.mem_cons, or_iff_right (Ne.symm hrow)] at hmem
      rw [List.map_cons, ih, if_pos hmem, List.map_cons]
    · rw [List.map_cons, List.mem_cons, or_iff_right (Ne.symm hrow)] at hmem
      rw [List.map_cons, ih, if_neg hmem, List.map_cons]
      rfl

/-- No row has two hits. -/
theorem nodup_scanned (vector lexical : List RowId) :
    ((scanned A k vector lexical).map ScoredHit.row).Nodup := by
  have hfold : ∀ side (entries : List (RowId × Nat)) (hits : List (ScoredHit α)),
      (hits.map ScoredHit.row).Nodup →
        ((entries.foldl (contributeWith A k side) hits).map ScoredHit.row).Nodup := by
    intro side entries
    induction entries with
    | nil => exact fun _ hnodup => hnodup
    | cons entry entries ih =>
      intro hits hnodup
      refine ih _ ?_
      rw [contributeWith_eq, map_row_touch]
      split_ifs with hmem
      · exact hnodup
      · rw [List.nodup_append]
        refine ⟨hnodup, List.nodup_singleton _, ?_⟩
        rintro a ha b hb rfl
        rw [List.mem_singleton.1 hb] at ha
        exact hmem ha
  exact hfold true _ _ (hfold false _ _ List.nodup_nil)

end Row

/-! ## What a row has after both scans -/

/-- The places of a row in a list, counted from one. -/
def ranks (list : List RowId) (row : RowId) : List Nat :=
  (list.zipIdx.filter fun entry => entry.1 = row).map fun entry => entry.2 + 1

/-- What a row has so far: no score and no rank where it was not found. -/
def valueOf (row : RowId) (hits : List (ScoredHit ℚ)) : ScoredHit ℚ :=
  (hits.find? fun hit => hit.row = row).getD ⟨row, 0, none, none⟩

section Exact

variable (k : UInt32) (row : RowId)

theorem valueOf_touch (lexicalSide : Bool) (found : RowId) (rank : Nat)
    (hits : List (ScoredHit ℚ)) :
    valueOf row (touch .exact k lexicalSide found rank hits) =
      if found = row then (valueOf row hits).again .exact k lexicalSide rank
      else valueOf row hits := by
  unfold valueOf
  induction hits with
  | nil =>
    have hzero : (0 : ℚ) + Scoring.exact.share k rank = Scoring.exact.share k rank := zero_add _
    have hrow : (ScoredHit.first .exact k lexicalSide found rank).row = found := rfl
    rw [touch, List.find?_singleton, hrow]
    by_cases hfound : found = row
    · subst hfound
      rw [if_pos rfl, if_pos (decide_eq_true rfl), Option.getD_some, List.find?_nil,
        Option.getD_none]
      unfold ScoredHit.again ScoredHit.first
      show _ = if lexicalSide then _ else _
      rw [show Scoring.exact.add 0 (Scoring.exact.share k rank) = _ from hzero]
      cases lexicalSide <;> rfl
    · rw [if_neg hfound, if_neg (by simp [hfound])]
      rfl
  | cons hit hits ih =>
    rw [touch]
    by_cases hfound : hit.row = found
    · rw [if_pos hfound, List.find?_cons, List.find?_cons, row_again]
      by_cases hrow : hit.row = row
      · rw [if_pos (hfound.symm.trans hrow), decide_eq_true hrow]
        rfl
      · rw [if_neg (fun h => hrow (hfound.trans h)), decide_eq_false hrow]
    · rw [if_neg hfound, List.find?_cons, List.find?_cons]
      by_cases hrow : hit.row = row
      · rw [decide_eq_true hrow, if_neg fun h => hfound (hrow.trans h.symm)]
      · rw [decide_eq_false hrow]
        exact ih

/-- A scan adds the entries of a row one after the other. -/
theorem valueOf_foldl (lexicalSide : Bool) (entries : List (RowId × Nat))
    (hits : List (ScoredHit ℚ)) :
    valueOf row (entries.foldl (contributeWith .exact k lexicalSide) hits) =
      ((entries.filter fun entry => entry.1 = row).map fun entry => entry.2 + 1).foldl
        (fun hit rank => hit.again .exact k lexicalSide rank) (valueOf row hits) := by
  induction entries generalizing hits with
  | nil => rfl
  | cons entry entries ih =>
    rw [List.foldl_cons, ih, contributeWith_eq, valueOf_touch]
    by_cases hrow : entry.1 = row
    · rw [if_pos hrow, List.filter_cons_of_pos (by simp [hrow]), List.map_cons, List.foldl_cons]
    · rw [if_neg hrow, List.filter_cons_of_neg (by simp [hrow])]

/-- The shares of all ranks are added up, and the last rank stays. -/
theorem foldl_again (lexicalSide : Bool) (found : List Nat) (hit : ScoredHit ℚ) :
    found.foldl (fun hit rank => hit.again .exact k lexicalSide rank) hit =
      { hit with
        score := hit.score + (found.map (Scoring.exact.share k)).sum
        vectorRank := if lexicalSide then hit.vectorRank else found.getLast?.or hit.vectorRank
        lexicalRank :=
          if lexicalSide then found.getLast?.or hit.lexicalRank else hit.lexicalRank } := by
  induction found using List.reverseRecOn with
  | nil => cases lexicalSide <;> simp
  | append_singleton found rank ih =>
    rw [List.foldl_append, List.foldl_cons, List.foldl_nil, ih, List.map_append, List.sum_append,
      List.map_singleton, List.sum_singleton, List.getLast?_concat, ← add_assoc]
    cases lexicalSide <;> rfl

/-- **The formula of the loop**: every place of a row counts, and the last one is its rank. -/
theorem valueOf_scanned (vector lexical : List RowId) :
    valueOf row (scanned .exact k vector lexical) =
      { row := row
        score := ((ranks vector row).map (Scoring.exact.share k)).sum +
          ((ranks lexical row).map (Scoring.exact.share k)).sum
        vectorRank := (ranks vector row).getLast?
        lexicalRank := (ranks lexical row).getLast? } := by
  unfold scanned
  rw [valueOf_foldl, valueOf_foldl, ← ranks, ← ranks, foldl_again, foldl_again]
  simp [valueOf]

/-- A hit is what its row has. -/
theorem eq_valueOf {hits : List (ScoredHit ℚ)} (hnodup : (hits.map ScoredHit.row).Nodup)
    {hit : ScoredHit ℚ} (hmem : hit ∈ hits) : valueOf hit.row hits = hit := by
  unfold valueOf
  induction hits with
  | nil => cases hmem
  | cons first hits ih =>
    rw [List.map_cons, List.nodup_cons] at hnodup
    rw [List.find?_cons]
    rcases List.mem_cons.1 hmem with rfl | hmem
    · rw [decide_eq_true rfl]
      rfl
    · have hother : first.row ≠ hit.row := by
        intro hsame
        rw [hsame] at hnodup
        exact hnodup.1 (List.mem_map_of_mem hmem)
      rw [decide_eq_false hother]
      exact ih hnodup.2 hmem

end Exact

/-! ## The ranks of a row -/

theorem pairwise_ranks (list : List RowId) (row : RowId) :
    (ranks list row).Pairwise (· < ·) := by
  have hplaces : (list.zipIdx.map Prod.snd).Pairwise (· < ·) := by
    rw [List.zipIdx_map_snd]
    exact List.pairwise_lt_range'
  rw [List.pairwise_map] at hplaces
  unfold ranks
  rw [List.pairwise_map]
  apply (hplaces.sublist List.filter_sublist).imp
  intro a b hlt
  omega

theorem length_ranks (list : List RowId) (row : RowId) :
    (ranks list row).length = list.count row := by
  unfold ranks List.count
  rw [List.length_map, ← List.countP_eq_length_filter]
  conv_rhs => rw [← List.zipIdx_map_fst 0 list]
  rw [List.countP_map]
  apply List.countP_congr
  intro entry _
  simp

/-- The best place of a row in a list, counted from one. -/
def bestRank (list : List RowId) (row : RowId) : Option Nat := (list.idxOf? row).map (· + 1)

theorem head?_ranks (list : List RowId) (row : RowId) :
    (ranks list row).head? = bestRank list row := by
  have hfrom : ∀ start, (list.zipIdx start).find? (fun entry => entry.1 = row) =
      (list.idxOf? row).map fun i => (row, i + start) := by
    induction list with
    | nil => exact fun _ => rfl
    | cons found list ih =>
      intro start
      rw [List.zipIdx_cons, List.find?_cons, List.idxOf?_cons]
      by_cases hrow : found = row
      · subst hrow
        simp
      · rw [decide_eq_false hrow, ih, beq_false_of_ne hrow]
        cases list.idxOf? row with
        | none => rfl
        | some i => simp [Nat.add_assoc, Nat.add_comm 1 start]
  unfold ranks bestRank
  rw [List.head?_map, List.head?_filter, hfrom 0]
  cases list.idxOf? row <;> rfl

/-- In a rising list the first and the last are the same only where there is at most one. -/
theorem length_le_one_of_rising {found : List Nat} (hrising : found.Pairwise (· < ·))
    (h : found.getLast? = found.head?) : found.length ≤ 1 := by
  cases found with
  | nil => exact Nat.zero_le 1
  | cons first found =>
    rcases List.eq_nil_or_concat found with rfl | ⟨others, last, rfl⟩
    · exact le_refl 1
    · rw [List.concat_eq_append, List.head?_cons, ← List.cons_append, List.getLast?_concat] at h
      have hlt := (List.pairwise_cons.1 hrising).1 last (by simp)
      cases h
      exact absurd hlt (lt_irrefl _)

/-! ## The formula of the ranking -/

/-- A hit carries its best rank on each side, and the share of each side that found it. -/
def IsFormula (k : UInt32) (vector lexical : List RowId) (hit : ScoredHit ℚ) : Prop :=
  hit.vectorRank = bestRank vector hit.row ∧ hit.lexicalRank = bestRank lexical hit.row ∧
    hit.score = (((bestRank vector hit.row).toList ++ (bestRank lexical hit.row).toList).map
      fun rank : Nat => 1 / ((k.toNat : ℚ) + rank)).sum

instance (k : UInt32) (vector lexical : List RowId) (hit : ScoredHit ℚ) :
    Decidable (IsFormula k vector lexical hit) :=
  inferInstanceAs (Decidable (_ ∧ _ ∧ _))

theorem mem_fuseWith {vector lexical : List RowId} {documents limit : Nat} {hit : ScoredHit ℚ}
    (hmem : hit ∈ fuseWith .exact vector lexical documents limit) :
    valueOf hit.row (scanned .exact (effectiveK documents) vector lexical) = hit := by
  apply eq_valueOf (nodup_scanned _ _ _ _)
  exact List.mem_mergeSort.1 (List.mem_of_mem_take hmem)

/-- The share of a row that a side found at most once. -/
theorem shares_of_length_le_one {list : List RowId} {row : RowId}
    (h : (ranks list row).length ≤ 1) : (ranks list row).getLast? = bestRank list row ∧
      ranks list row = (bestRank list row).toList := by
  rw [← head?_ranks]
  cases hranks : ranks list row with
  | nil => exact ⟨rfl, rfl⟩
  | cons rank others =>
    rw [hranks, List.length_cons] at h
    rw [List.eq_nil_of_length_eq_zero (by omega : others.length = 0)]
    exact ⟨rfl, rfl⟩

/-- **The formula of the ranking** holds of a hit exactly where each list has its row at most
once. -/
theorem fused_formula_iff (vector lexical : List RowId) (documents limit : Nat)
    (hit : ScoredHit ℚ) (hmem : hit ∈ fuseWith .exact vector lexical documents limit) :
    IsFormula (effectiveK documents) vector lexical hit ↔
      vector.count hit.row ≤ 1 ∧ lexical.count hit.row ≤ 1 := by
  have hvalue := mem_fuseWith hmem
  rw [valueOf_scanned] at hvalue
  rw [← length_ranks, ← length_ranks]
  constructor
  · rintro ⟨hvector, hlexical, -⟩
    rw [← hvalue, ← head?_ranks] at hvector hlexical
    exact ⟨length_le_one_of_rising (pairwise_ranks _ _) hvector,
      length_le_one_of_rising (pairwise_ranks _ _) hlexical⟩
  · rintro ⟨hvector, hlexical⟩
    obtain ⟨hlastVector, hallVector⟩ := shares_of_length_le_one hvector
    obtain ⟨hlastLexical, hallLexical⟩ := shares_of_length_le_one hlexical
    refine ⟨?_, ?_, ?_⟩
    · rw [← hlastVector, ← hvalue]
    · rw [← hlastLexical, ← hvalue]
    · rw [List.map_append, List.sum_append, ← hallVector, ← hallLexical, ← hvalue]
      rfl

/-- All hits are there where as many were asked for. -/
theorem fuseWith_of_le {vector lexical : List RowId} {documents limit : Nat} {hit : ScoredHit ℚ}
    (hlimit : (scanned .exact (effectiveK documents) vector lexical).length ≤ limit)
    (hmem : hit ∈ scanned .exact (effectiveK documents) vector lexical) :
    hit ∈ fuseWith .exact vector lexical documents limit := by
  unfold fuseWith
  rw [List.take_of_length_le (by rwa [List.length_mergeSort])]
  exact List.mem_mergeSort.2 hmem

/-- The formula at a row that both lists have once. -/
theorem fused_formula_one :
    (⟨5, 1 / 17 + 1 / 16, some 2, some 1⟩ : ScoredHit ℚ) ∈ fuseWith .exact [3, 5] [5] 40 10 ∧
      IsFormula 15 [3, 5] [5] ⟨5, 1 / 17 + 1 / 16, some 2, some 1⟩ := by
  have hmem : (⟨5, 1 / 17 + 1 / 16, some 2, some 1⟩ : ScoredHit ℚ) ∈
      fuseWith .exact [3, 5] [5] 40 10 :=
    fuseWith_of_le (by decide +kernel) (by decide +kernel)
  exact ⟨hmem, (fused_formula_iff [3, 5] [5] 40 10 _ hmem).2 ⟨by decide, by decide⟩⟩

/-- A document with two vectors scores twice on the semantic side, and its rank there is the rank
of its worse vector. -/
theorem long_document_scores_twice :
    ¬ ∀ (vector lexical : List RowId) (documents limit : Nat),
      ∀ hit ∈ fuseWith .exact vector lexical documents limit,
        IsFormula (effectiveK documents) vector lexical hit := by
  intro h
  have hmem : (⟨7, 1 / 16 + 1 / 17, some 2, none⟩ : ScoredHit ℚ) ∈
      fuseWith .exact [7, 7] [] 40 10 :=
    fuseWith_of_le (by decide +kernel) (by decide +kernel)
  exact absurd (h _ _ _ _ _ hmem) (by decide +kernel)

/-! ## The search -/

/-- **A hybrid search** that answers has fused the rows of what its two searches found. -/
theorem LanceStore.hybridSearch_fuses {W : World} {h : LanceStore} {table column text : Text}
    {vector : List UInt32} {limit : Nat} {disk disk' : Disk} {fused : Fused}
    (hrun : (h.hybridSearch W table column text vector limit).run disk = .ok fused disk') :
    ∃ semantic lexical documents middle later,
      (h.nearest W table column vector (max (limit * 2) limit)).run disk = .ok semantic middle ∧
        (h.searchText W table column text (max (limit * 2) limit)).run middle =
          .ok lexical later ∧
        fused = fuse (semantic.map RowVector.row) lexical documents limit := by
  unfold LanceStore.hybridSearch at hrun
  obtain ⟨_, start, hscope, hrun⟩ := bind_ok.1 hrun
  obtain ⟨semantic, middle, hnearest, hrun⟩ := bind_ok.1 hrun
  obtain ⟨lexical, later, hlexical, hrun⟩ := bind_ok.1 hrun
  obtain ⟨d, _, -, hrun⟩ := bind_ok.1 hrun
  obtain ⟨-, _, -, hrun⟩ := bind_ok.1 hrun
  obtain ⟨-, _, -, hrun⟩ := bind_ok.1 hrun
  cases hrun
  obtain ⟨-, rfl⟩ := requireScope_ok.1 hscope
  exact ⟨_, _, _, _, _, hnearest, hlexical, rfl⟩

end EuleDB.Store
