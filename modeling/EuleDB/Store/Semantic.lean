import EuleDB.Store.Paging
import EuleDB.Store.Validation

/-!
# Rows and chunks

A vector belongs to a chunk of a row's text, and a search by meaning answers with the rows of the
chunks it found.  The limit counts chunks.

* `Format.Closest` — a format that finds the vectors closest to a query.
* `semanticSearch_ok` — the answer is the rows of the closest chunks, chunk by chunk.
* `semantic_search_iff` — it is about rows exactly where no row has two of its chunks among as many
  closest ones as were asked for.
-/

set_option autoImplicit false

namespace EuleDB.Store

open Crypto Audit Effect LanceStore

/-! ## The search -/

/-- Embed a query, with the means this handle was given. -/
def LanceStore.embedQuery (h : LanceStore) (query : Text) : Except Error (List UInt32) :=
  match h.embedder with
  | none => .error (.storage .noEmbedder)
  | some embedder =>
    match embedder.embedQuery query with
    | .ok vector => .ok vector
    | .error cause => .error (.storage (.queryNotEmbeddable cause))

/-- The rows whose text is closest in meaning to a query. -/
def Database.semanticSearch (W : World) (db : Database) (table column query : Text)
    (limit : Nat) : StoreM (List RowId) := do
  let vector ← ofExcept (db.store.embedQuery query)
  let found ← db.store.nearest W table column vector limit
  pure (found.map RowVector.row)

/-! ## The closest vectors -/

/-- The vector that a row of a companion table holds. -/
def embeddingOf (s : Schema) (r : Row) : List UInt32 :=
  match typedColumn s "embedding".toList isFloat32List with
  | some embedding => (r.value embedding).components VECTOR_WIDTH
  | none => []

section Closest

variable {D : Type} [LinearOrder D] (distance : List UInt32 → List UInt32 → D)

/-- The format finds the rows of a dataset whose vectors are closest to a query, closest first. -/
structure Format.Closest (F : Format) where
  ranking : Dataset → List UInt32 → Nat → List Row
  perm : ∀ d query limit, (ranking d query limit).Perm d.rows
  sorted : ∀ d query limit, (ranking d query limit).Pairwise fun r s =>
    distance query (embeddingOf d.schema r) ≤ distance query (embeddingOf d.schema s)
  nearest_eq : ∀ d query limit, F.nearest d query limit = (ranking d query limit).take limit

/-- The rows that have vectors. -/
def owners (d : Dataset) : List RowId := (d.rows.map (ownerOf d.schema)).dedup

/-- The closest chunk of a row is no further from a query than any chunk of another. -/
def NoFurther (d : Dataset) (query : List UInt32) (row other : RowId) : Prop :=
  ∀ s ∈ d.rows, ownerOf d.schema s = other → ∃ r ∈ d.rows, ownerOf d.schema r = row ∧
    distance query (embeddingOf d.schema r) ≤ distance query (embeddingOf d.schema s)

/-- An answer that is about rows. -/
structure AnswersRows (d : Dataset) (query : List UInt32) (limit : Nat) (answer : List RowId) :
    Prop where
  once : answer.Nodup
  ordered : answer.Pairwise (NoFurther distance d query)
  length : answer.length = min limit (owners d).length

/-- Where a row has a chunk and then another, the other is not among the first `limit`. -/
def RepeatsLate (s : Schema) (ranking : List Row) (limit : Nat) : Prop :=
  ∀ i j r r', i < j → ranking[i]? = some r → ranking[j]? = some r' →
    ownerOf s r = ownerOf s r' → limit ≤ j

variable {distance}

/-- A search answers with the rows of the closest chunks. -/
theorem semanticSearch_ok {W : World} (C : W.format.Closest distance) {db : Database}
    {table column query : Text} {limit : Nat} {disk disk' : Disk} {answer : List RowId}
    (hrun : (db.semanticSearch W table column query limit).run disk = .ok answer disk') :
    ∃ vector d, db.store.embedQuery query = .ok vector ∧
      Opens W db.store disk.datasets (vectorTable table column) d ∧
      answer = ((C.ranking d vector limit).take limit).map (ownerOf d.schema) := by
  unfold Database.semanticSearch at hrun
  obtain ⟨vector, s1, hembed, h1⟩ := bind_ok.1 hrun
  obtain ⟨found, s2, hnearest, h2⟩ := bind_ok.1 h1
  obtain ⟨hvector, rfl⟩ := ofExcept_ok.1 hembed
  cases h2
  obtain ⟨⟨-, -, d, hopens, -, hvectors⟩, -⟩ := nearest_ok.1 hnearest
  refine ⟨vector, d, hvector, hopens, ?_⟩
  rw [rows_of_nearest hvectors, C.nearest_eq]

theorem repeatsLate_iff {s : Schema} {ranking : List Row} {limit : Nat} :
    RepeatsLate s ranking limit ↔ ((ranking.take limit).map (ownerOf s)).Nodup := by
  rw [List.nodup_iff_getElem?_ne_getElem?]
  constructor
  · intro hlate i j hij hj hsame
    rw [List.length_map, List.length_take] at hj
    have hi : i < limit := by omega
    have hj' : j < limit := by omega
    simp only [List.getElem?_map, List.getElem?_take_of_lt hi, List.getElem?_take_of_lt hj'] at hsame
    rw [List.getElem?_eq_getElem (by omega : i < ranking.length),
      List.getElem?_eq_getElem (by omega : j < ranking.length)] at hsame
    have := hlate i j _ _ hij (List.getElem?_eq_getElem (by omega))
      (List.getElem?_eq_getElem (by omega)) (Option.some.inj hsame)
    omega
  · intro hnodup i j r r' hij hi hj hsame
    by_contra hlt
    have hlength := List.getElem?_eq_some_iff.1 hj |>.1
    apply hnodup i j hij
    · rw [List.length_map, List.length_take]
      omega
    · simp only [List.getElem?_map, List.getElem?_take_of_lt (by omega : i < limit),
        List.getElem?_take_of_lt (by omega : j < limit), hi, hj, Option.map_some, hsame]

variable {F : Format} (C : F.Closest distance) {d : Dataset} {query : List UInt32} {limit : Nat}

/-- Where no row repeats among the closest chunks, a place in the answer is a row's first place in
the ranking. -/
theorem ordered_of_repeatsLate (hlate : RepeatsLate d.schema (C.ranking d query limit) limit) :
    (((C.ranking d query limit).take limit).map (ownerOf d.schema)).Pairwise
      (NoFurther distance d query) := by
  have hsorted := List.pairwise_iff_getElem.1 (C.sorted d query limit)
  rw [List.pairwise_iff_getElem]
  intro i j hi hj hij s hs howner
  rw [List.length_map, List.length_take] at hi hj
  simp only [List.getElem_map, List.getElem_take] at howner ⊢
  obtain ⟨p, hp, hsame⟩ := List.getElem_of_mem ((C.perm d query limit).mem_iff.2 hs)
  have hfirst : i ≤ p := by
    by_contra hlt
    have hj' := hlate p j _ _ (by omega) (List.getElem?_eq_getElem hp)
      (List.getElem?_eq_getElem (by omega)) (by rw [hsame, howner])
    omega
  refine ⟨(C.ranking d query limit)[i], ?_, rfl, ?_⟩
  · exact (C.perm d query limit).mem_iff.1 (List.getElem_mem _)
  · rcases Nat.eq_or_lt_of_le hfirst with rfl | hlt
    · rw [hsame]
    · rw [← hsame]
      exact hsorted i p (by omega) hp hlt

theorem length_of_repeatsLate (hlate : RepeatsLate d.schema (C.ranking d query limit) limit) :
    (((C.ranking d query limit).take limit).map (ownerOf d.schema)).length =
      min limit (owners d).length := by
  let rows := (C.ranking d query limit).map (ownerOf d.schema)
  have hnodup : (rows.take limit).Nodup := by
    rw [← List.map_take]
    exact repeatsLate_iff.1 hlate
  have hdistinct : (owners d).length = rows.dedup.length := by
    apply List.Perm.length_eq
    apply List.Perm.dedup
    exact ((C.perm d query limit).map _).symm
  have hfew : rows.dedup.length ≤ rows.length := (List.dedup_sublist rows).length_le
  have hfound : (rows.take limit).length ≤ rows.dedup.length := by
    apply List.Subperm.length_le
    apply List.subperm_of_subset hnodup
    exact fun row hrow => List.mem_dedup.2 (List.mem_of_mem_take hrow)
  rw [List.map_take, hdistinct]
  show (rows.take limit).length = _
  rw [List.length_take] at hfound ⊢
  omega

/-- **Semantic search is about rows** exactly where no row has two of its chunks among as many
closest ones as were asked for. -/
theorem semantic_search_iff {W : World} (C : W.format.Closest distance) {db : Database}
    {table column query : Text} {limit : Nat} {disk disk' : Disk} {answer : List RowId}
    (hrun : (db.semanticSearch W table column query limit).run disk = .ok answer disk') :
    ∃ vector d, db.store.embedQuery query = .ok vector ∧
      Opens W db.store disk.datasets (vectorTable table column) d ∧
      (AnswersRows distance d vector limit answer ↔
        RepeatsLate d.schema (C.ranking d vector limit) limit) := by
  obtain ⟨vector, d, hembed, hopens, rfl⟩ := semanticSearch_ok C hrun
  refine ⟨vector, d, hembed, hopens, ?_, ?_⟩
  · intro hanswers
    exact repeatsLate_iff.2 hanswers.once
  · intro hlate
    exact ⟨repeatsLate_iff.1 hlate, ordered_of_repeatsLate C hlate, length_of_repeatsLate C hlate⟩

end Closest

/-! ## A row with two close chunks -/

/-- The sum of the differences of the components. -/
def apart (query vector : List UInt32) : Nat :=
  ((query.zip vector).map fun pair =>
    (pair.1.toNat - pair.2.toNat) + (pair.2.toNat - pair.1.toNat)).sum

/-- The rows of a dataset by their distance from a query. -/
def byDistance (d : Dataset) (query : List UInt32) : List Row :=
  d.rows.insertionSort fun r s =>
    apart query (embeddingOf d.schema r) ≤ apart query (embeddingOf d.schema s)

/-- A plain format that finds the closest vectors. -/
def Format.measuring : Format :=
  { Format.plain with
    nearest := fun d query limit => (byDistance d query).take limit
    nearest_mem := fun _ _ _ _ hmem =>
      (List.mem_insertionSort _).1 (List.mem_of_mem_take hmem) }

def measuringClosest : Format.measuring.Closest apart where
  ranking := fun d query _ => byDistance d query
  perm := fun d _ _ => List.perm_insertionSort _ d.rows
  sorted := by
    intro d query _
    have : Std.Total fun r s : Row =>
        apart query (embeddingOf d.schema r) ≤ apart query (embeddingOf d.schema s) :=
      ⟨fun _ _ => Nat.le_total _ _⟩
    have : IsTrans Row fun r s =>
        apart query (embeddingOf d.schema r) ≤ apart query (embeddingOf d.schema s) :=
      ⟨fun _ _ _ => Nat.le_trans⟩
    exact List.pairwise_insertionSort _ d.rows
  nearest_eq := fun _ _ _ => rfl

def World.measuring : World := { World.plain with format := .measuring }

/-- A database with one vector for each letter. -/
def lettered : Database := ⟨letterer, .none⟩

/-- The rows of the two closest chunks, where the table of vectors is there. -/
def closestTwo (disk : Disk) (query : List UInt32) : Option (List RowId) :=
  (disk.datasets (letterer.place .measuring (vectorTable "docs".toList "text".toList))).map
    fun d => ((byDistance d query).take 2).map (ownerOf d.schema)

theorem closestTwo_eq {disk : Disk} (query : List UInt32) {d : Dataset}
    (hopens : Opens .measuring letterer disk.datasets
      (vectorTable "docs".toList "text".toList) d) :
    closestTwo disk query = some (((byDistance d query).take 2).map (ownerOf d.schema)) := by
  unfold closestTwo
  rw [hopens.1]
  rfl

set_option maxRecDepth 8000 in
/-- Two rows of one chunk each. -/
theorem one_letter_rows_are_answered : ∃ disk' answer vector d,
    (lettered.semanticSearch .measuring "docs".toList "text".toList "a".toList 2).run
      (tableOf ["a".toList, "z".toList]) = .ok answer disk' ∧
    AnswersRows apart d vector 2 answer := by
  obtain ⟨answer, disk', hrun⟩ : ∃ answer disk',
      (lettered.semanticSearch .measuring "docs".toList "text".toList "a".toList 2).run
        (tableOf ["a".toList, "z".toList]) = .ok answer disk' := ⟨_, _, rfl⟩
  obtain ⟨vector, d, hembed, hopens, hiff⟩ := semantic_search_iff measuringClosest hrun
  refine ⟨disk', answer, vector, d, hrun, hiff.2 (repeatsLate_iff.2 ?_)⟩
  cases hembed
  have hclosest := closestTwo_eq (List.replicate VECTOR_WIDTH 1) hopens
  rw [show closestTwo (tableOf ["a".toList, "z".toList]) (List.replicate VECTOR_WIDTH 1) =
    some [0, 1] by decide +kernel] at hclosest
  show (((byDistance d (List.replicate VECTOR_WIDTH 1)).take 2).map (ownerOf d.schema)).Nodup
  rw [← Option.some.inj hclosest]
  decide

set_option maxRecDepth 8000 in
/-- A row of two chunks is answered twice, and another row is not answered. -/
theorem chunks_are_answered :
    ¬ ∀ (W : World) (distance : List UInt32 → List UInt32 → Nat)
      (_ : W.format.Closest distance) (db : Database) (table column query : Text) (limit : Nat)
      (disk disk' : Disk) (answer : List RowId) (vector : List UInt32) (d : Dataset),
      (db.semanticSearch W table column query limit).run disk = .ok answer disk' →
      db.store.embedQuery query = .ok vector →
      Opens W db.store disk.datasets (vectorTable table column) d →
      AnswersRows distance d vector limit answer := by
  intro hall
  obtain ⟨answer, disk', hrun⟩ : ∃ answer disk',
      (lettered.semanticSearch .measuring "docs".toList "text".toList "a".toList 2).run
        (tableOf ["ab".toList, "z".toList]) = .ok answer disk' := ⟨_, _, rfl⟩
  obtain ⟨vector, d, hembed, hopens, hanswer⟩ := semanticSearch_ok measuringClosest hrun
  have honce := (hall _ _ measuringClosest _ _ _ _ _ _ _ _ _ _ hrun hembed hopens).once
  cases hembed
  have hclosest := closestTwo_eq (List.replicate VECTOR_WIDTH 1) hopens
  rw [show closestTwo (tableOf ["ab".toList, "z".toList]) (List.replicate VECTOR_WIDTH 1) =
    some [0, 0] by decide +kernel] at hclosest
  have hrows : answer = [0, 0] := hanswer.trans (Option.some.inj hclosest).symm
  rw [hrows] at honce
  exact absurd honce (by decide)

end EuleDB.Store
