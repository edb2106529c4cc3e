import EuleDB.Lib.Keyed
import EuleDB.Store.Atomicity

/-!
# Vectors and the text they stand for

* `LinkedTo` — what there is to say of a column's vectors at any time: those of a row that is there
  are none, or the vectors of its text.
* `InAgreement` — what there is to say after a reconciliation: exactly the vectors of every row's
  text, and no others.
* `ReconcilesTo.linked`, `ReconcilesTo.agrees` — reconciling leads from the first to the second.
-/

set_option autoImplicit false

namespace EuleDB.Store

open Crypto Audit Effect Keyed LanceStore

/-! ## The vectors of one row -/

/-- The vectors of one row. -/
def ofRow (id : RowId) (vectors : List RowVector) : List RowVector :=
  vectors.filter fun v => v.row = id

theorem vectorOrder_trans (a b c : RowVector) (hab : RowVector.le a b)
    (hbc : RowVector.le b c) : RowVector.le a c := by
  simp only [RowVector.le, Bool.or_eq_true, Bool.and_eq_true, decide_eq_true_eq] at *
  rcases hab with hrow | ⟨hrow, hchunk⟩ <;> rcases hbc with hrow' | ⟨hrow', hchunk'⟩
  · exact .inl (Nat.lt_trans hrow hrow')
  · exact .inl (hrow' ▸ hrow)
  · exact .inl (hrow ▸ hrow')
  · exact .inr ⟨hrow.trans hrow', hchunk.trans hchunk'⟩

theorem vectorOrder_total (a b : RowVector) : (RowVector.le a b || RowVector.le b a) = true := by
  simp only [RowVector.le, Bool.or_eq_true, Bool.and_eq_true, decide_eq_true_eq]
  rcases Nat.lt_trichotomy a.row b.row with hlt | heq | hgt
  · exact .inl (.inl hlt)
  · rcases Nat.le_total a.chunk b.chunk with hle | hge
    · exact .inl (.inr ⟨heq, hle⟩)
    · exact .inr (.inr ⟨heq.symm, hge⟩)
  · exact .inr (.inl hgt)

theorem chunksOf_row {id : RowId} {embeddings : List (List UInt32)} :
    ∀ v ∈ chunksOf id embeddings, v.row = id := by
  intro v hv
  obtain ⟨entry, -, rfl⟩ := List.mem_map.1 hv
  rfl

theorem chunksOf_embeddings (id : RowId) (embeddings : List (List UInt32)) :
    (chunksOf id embeddings).map RowVector.embedding = embeddings := by
  unfold chunksOf
  rw [List.map_map]
  exact List.zipIdx_map_fst 0 embeddings

/-- The chunks of one row are in order. -/
theorem chunksOf_sorted (id : RowId) (embeddings : List (List UInt32)) :
    (chunksOf id embeddings).Pairwise fun a b => RowVector.le a b := by
  unfold chunksOf
  rw [List.pairwise_map, List.pairwise_iff_getElem]
  intro i j hi hj hij
  simp only [List.getElem_zipIdx, RowVector.le, saturate32, Bool.or_eq_true, Bool.and_eq_true,
    decide_eq_true_eq]
  right
  refine ⟨trivial, ?_⟩
  split_ifs <;> omega

/-- Sorting leaves the vectors of a row as they are, where they are its chunks in order. -/
theorem ofRow_mergeSort {id : RowId} {vectors : List RowVector} {embeddings : List (List UInt32)}
    (hrow : ofRow id vectors = chunksOf id embeddings) :
    ofRow id (vectors.mergeSort RowVector.le) = chunksOf id embeddings := by
  unfold ofRow at hrow ⊢
  rw [filter_mergeSort vectorOrder_trans vectorOrder_total, hrow]
  rw [hrow]
  exact chunksOf_sorted id embeddings

/-! ## What is stored in a companion -/

/-- The vectors in a place; none where nothing is there. -/
def StoredIn (d? : Option Dataset) (found : List RowVector) : Prop :=
  (d? = none ∧ found = []) ∨ ∃ d table, d? = some d ∧ stored table d = .ok found

/-- A place from which no vector can be read. -/
def Vectorless (d? : Option Dataset) : Prop := ∀ found, StoredIn d? found → found = []

theorem stored_of_no_rows {d : Dataset} (hrows : d.rows = []) (table : Text) :
    stored table d = .ok [] := by
  unfold stored rowVectors
  rw [hrows]
  rfl

theorem vectorless_of_no_rows {d : Dataset} (hrows : d.rows = []) : Vectorless (some d) := by
  rintro found (⟨hnone, -⟩ | ⟨d', table, hd, hstored⟩)
  · cases hnone
  · cases hd
    rw [stored_of_no_rows hrows] at hstored
    cases hstored
    rfl

theorem vectorless_none : Vectorless none := by
  rintro found (⟨-, hfound⟩ | ⟨d, table, hd, -⟩)
  · exact hfound
  · cases hd

/-- Rows written as vectors are read back as these vectors. -/
theorem rowVectors_vectorBatch (operation notFloat : String) (table : Text) {rows : List Row}
    {vectors : List RowVector} (hrows : rows.map Row.values = (vectorBatch vectors).rows) :
    rowVectors operation notFloat table vectorSchema rows = .ok vectors := by
  unfold rowVectors
  induction vectors generalizing rows with
  | nil =>
    rw [List.map_eq_nil_iff.1 hrows]
    rfl
  | cons v vectors ih =>
    obtain ⟨r, rows, rfl⟩ : ∃ r rest, rows = r :: rest := by
      cases rows with
      | nil => cases hrows
      | cons r rest => exact ⟨r, rest, rfl⟩
    obtain ⟨hr, hrest⟩ := List.cons.inj hrows
    have hv : rowVector operation notFloat table vectorSchema r = .ok v := by
      obtain ⟨id, values⟩ := r
      cases hr
      rfl
    rw [List.mapM_cons, hv, ih hrest]
    rfl

theorem stored_overwrite (F : Format) (table : Text) (d : Dataset) (vectors : List RowVector) :
    stored table (d.overwrite F (vectorBatch vectors)) = .ok vectors := by
  refine rowVectors_vectorBatch _ _ _ ?_
  rw [Dataset.overwrite_rows]
  exact Dataset.numbered_values F _ _

/-- What was written into a companion is what is stored there. -/
theorem storedIn_overwrite {F : Format} {d : Dataset} {vectors found : List RowVector} :
    StoredIn (some (d.overwrite F (vectorBatch vectors))) found ↔ found = vectors := by
  constructor
  · rintro (⟨hnone, -⟩ | ⟨c, table, hc, hstored⟩)
    · cases hnone
    · cases hc
      rw [stored_overwrite] at hstored
      exact (Except.ok.inj hstored).symm
  · rintro rfl
    exact .inr ⟨_, [], rfl, stored_overwrite F [] d found⟩

/-- The table that an error would name has no part in what is read. -/
theorem rowVectors_table {operation notFloat : String} {table : Text} (table' : Text) {s : Schema}
    {rows : List Row} {found : List RowVector}
    (hfound : rowVectors operation notFloat table s rows = .ok found) :
    rowVectors operation notFloat table' s rows = .ok found := by
  have hrow : ∀ r v, rowVector operation notFloat table s r = .ok v →
      rowVector operation notFloat table' s r = .ok v := by
    intro r v hv
    unfold rowVector at hv ⊢
    split at hv <;> first | exact hv | cases hv
  unfold rowVectors at hfound ⊢
  induction rows generalizing found with
  | nil => exact hfound
  | cons r rows ih =>
    rw [List.mapM_cons] at hfound ⊢
    cases hv : rowVector operation notFloat table s r with
    | error e =>
      rw [hv] at hfound
      cases hfound
    | ok v =>
      rw [hv] at hfound
      cases hrest : rows.mapM (rowVector operation notFloat table s) with
      | error e =>
        rw [hrest] at hfound
        cases hfound
      | ok rest =>
        rw [hrest] at hfound
        rw [hrow r v hv, ih hrest]
        exact hfound

theorem stored_unique {d : Dataset} {table table' : Text} {found found' : List RowVector}
    (hfound : stored table d = .ok found) (hfound' : stored table' d = .ok found') :
    found = found' := by
  have hsame : stored table' d = .ok found := rowVectors_table table' hfound
  rw [hfound'] at hsame
  exact (Except.ok.inj hsame).symm

/-! ## Vectors and text -/

/-- The text of a row in a column. -/
def textOf (s : Schema) (column : Text) (r : Row) : Text :=
  match typedColumn s column (· = .utf8) with
  | some i => (r.value i).text
  | none => []

theorem presentTexts_ok {table column : Text} {d : Dataset} {present : List (RowId × Text)}
    (hpresent : presentTexts table column d = .ok present) :
    present = d.rows.map fun r => (r.id, textOf d.schema column r) := by
  unfold presentTexts at hpresent
  generalize d.rows = rows at hpresent ⊢
  induction rows generalizing present with
  | nil =>
    cases hpresent
    rfl
  | cons r rows ih =>
    rw [List.mapM_cons] at hpresent
    unfold textOf
    cases hcolumn : typedColumn d.schema column (· = .utf8) with
    | none =>
      rw [hcolumn] at hpresent
      cases hpresent
    | some i =>
      rw [hcolumn] at hpresent ih
      cases hrest : rows.mapM (fun r : Row =>
          (Except.ok (r.id, (r.value i).text) : Except Error (RowId × Text))) with
      | error e =>
        rw [hrest] at hpresent
        cases hpresent
      | ok rest =>
        rw [hrest] at hpresent
        cases hpresent
        rw [ih hrest, List.map_cons]
        unfold textOf
        rw [hcolumn]

/-- The vectors of a row are those of its text. -/
def Embedded (E : Embedder) (s : Schema) (column : Text) (r : Row) (vectors : List RowVector) :
    Prop :=
  ∃ embeddings, E.embedPassage (textOf s column r) = .ok embeddings ∧
    vectors = chunksOf r.id embeddings

/-- No vector is of a row that never was, and a row that is there has none, or those of its
text. -/
structure LinkedTo (E : Embedder) (d : Dataset) (column : Text) (vectors : List RowVector) :
    Prop where
  issued : ∀ v ∈ vectors, v.row ∈ d.issued
  rows : ∀ r ∈ d.rows, ofRow r.id vectors = [] ∨
    Embedded E d.schema column r (ofRow r.id (vectors.mergeSort RowVector.le))

/-- The vectors are exactly those of the text of every row, chunk by chunk, and no row's that is
not there. -/
structure InAgreement (E : Embedder) (d : Dataset) (column : Text) (vectors : List RowVector) :
    Prop where
  live : ∀ v ∈ vectors, ∃ r ∈ d.rows, v.row = r.id
  exact : ∀ r ∈ d.rows, ∃ embeddings, E.embedPassage (textOf d.schema column r) = .ok embeddings ∧
    vectors.filter (fun v => v.row = r.id) =
      embeddings.zipIdx.map fun entry => ⟨r.id, entry.2, entry.1⟩

/-- As `InAgreement`, with the numbers of the chunks as they are stored. -/
structure Exact (E : Embedder) (d : Dataset) (column : Text) (vectors : List RowVector) :
    Prop where
  live : ∀ v ∈ vectors, ∃ r ∈ d.rows, v.row = r.id
  rows : ∀ r ∈ d.rows, Embedded E d.schema column r (ofRow r.id vectors)

/-- An embedder that gives no more chunks than 32 bits can number. -/
def Embedder.Numbered (E : Embedder) : Prop :=
  ∀ text embeddings, E.embedPassage text = .ok embeddings → embeddings.length ≤ 2 ^ 32

theorem Exact.inAgreement {E : Embedder} {d : Dataset} {column : Text} {vectors : List RowVector}
    (hexact : Exact E d column vectors) (hE : E.Numbered) : InAgreement E d column vectors := by
  refine ⟨hexact.live, fun r hr => ?_⟩
  obtain ⟨embeddings, hembed, hrow⟩ := hexact.rows r hr
  refine ⟨embeddings, hembed, ?_⟩
  change ofRow r.id vectors = _
  rw [hrow]
  unfold chunksOf
  refine List.map_congr_left fun entry hentry => ?_
  have hlength := hE _ _ hembed
  have hindex : entry.2 < embeddings.length := by
    obtain ⟨embedding, i⟩ := entry
    have := List.mem_zipIdx' hentry
    exact this.1
  unfold saturate32
  rw [if_pos (by omega)]

/-! ## Reconciliation -/

section Reconcile

variable {W : World} {h : LanceStore} {E : Embedder} {table column : Text} {d : Dataset}

theorem ofRow_eq_nil {id : RowId} {vectors : List RowVector} :
    ofRow id vectors = [] ↔ ∀ v ∈ vectors, v.row ≠ id := by
  unfold ofRow
  simp [List.filter_eq_nil_iff]

/-- A row's vectors in what a reconciliation finds: none, or those of its text. -/
def Kept (E : Embedder) (d : Dataset) (column : Text) (existing : List RowVector) : Prop :=
  ∀ r ∈ d.rows, ofRow r.id existing = [] ∨ Embedded E d.schema column r (ofRow r.id existing)

theorem LinkedTo.kept {vectors : List RowVector} (hlinked : LinkedTo E d column vectors) :
    Kept E d column (vectors.mergeSort RowVector.le) := by
  intro r hr
  rcases hlinked.rows r hr with hnone | hembedded
  · left
    rw [ofRow_eq_nil] at hnone ⊢
    intro v hv
    exact hnone v (List.mem_mergeSort.1 hv)
  · exact .inr hembedded

/-- Where every row's vectors are those of its text, each row is linked to its text. -/
theorem Exact.linked {vectors : List RowVector} (hexact : Exact E d column vectors) :
    LinkedTo E d column vectors := by
  refine ⟨fun v hv => ?_, fun r hr => .inr ?_⟩
  · obtain ⟨r, hr, hrow⟩ := hexact.live v hv
    rw [hrow]
    exact d.known r hr
  · obtain ⟨embeddings, hembed, hrow⟩ := hexact.rows r hr
    exact ⟨embeddings, hembed, ofRow_mergeSort hrow⟩

theorem Exact.sorted {vectors : List RowVector} (hexact : Exact E d column vectors) :
    Exact E d column (vectors.mergeSort RowVector.le) := by
  refine ⟨fun v hv => hexact.live v (List.mem_mergeSort.1 hv), fun r hr => ?_⟩
  obtain ⟨embeddings, hembed, hrow⟩ := hexact.rows r hr
  exact ⟨embeddings, hembed, ofRow_mergeSort hrow⟩

/-- The vectors a row keeps or gets are those of its text. -/
theorem rowVectorsOf_embedded {existing : List RowVector} (hkept : Kept E d column existing)
    {r : Row} (hr : r ∈ d.rows) {embeddings : List (List UInt32)}
    (hembeddings : embeddingsOf E table existing r.id (textOf d.schema column r) =
      .ok embeddings) :
    Embedded E d.schema column r
      (rowVectorsOf E table existing (r.id, textOf d.schema column r)) := by
  unfold rowVectorsOf
  rw [hembeddings]
  unfold embeddingsOf at hembeddings
  have hown : ∀ embeddings', ofRow r.id existing = chunksOf r.id embeddings' →
      (existing.filter fun vector => vector.row = r.id).map RowVector.embedding =
        embeddings' := by
    intro embeddings' hrow
    change (ofRow r.id existing).map RowVector.embedding = _
    rw [hrow, chunksOf_embeddings]
  rcases hkept r hr with hnone | ⟨embeddings', hembed, hrow⟩
  · rw [hown [] hnone] at hembeddings
    cases hpassage : E.embedPassage (textOf d.schema column r) with
    | error cause =>
      rw [hpassage] at hembeddings
      cases hembeddings
    | ok passages =>
      rw [hpassage] at hembeddings
      cases hembeddings
      exact ⟨_, hpassage, rfl⟩
  · rw [hown embeddings' hrow] at hembeddings
    refine ⟨embeddings', hembed, ?_⟩
    dsimp only at hembeddings
    split_ifs at hembeddings with hempty
    · -- a text of no chunks is embedded again, and has none again
      rw [hembed] at hembeddings
      cases hembeddings
      rfl
    · cases hembeddings
      rfl

/-- **What a reconciliation writes** is exactly the vectors of the text of every row. -/
theorem rebuilt_exact {existing : List RowVector} (hkept : Kept E d column existing)
    {present : List (RowId × Text)}
    (hpresent : present = d.rows.map fun r => (r.id, textOf d.schema column r))
    (hembeddable : Embeddable E table existing present) :
    Exact E d column (present.flatMap (rowVectorsOf E table existing)) := by
  have hkeys : ∀ entry, ∀ v ∈ rowVectorsOf E table existing entry, v.row = Prod.fst entry :=
    fun entry => chunksOf_row
  have hnodup : (present.map Prod.fst).Nodup := by
    rw [hpresent, List.map_map]
    exact d.nodup
  constructor
  · intro v hv
    obtain ⟨entry, hentry, hv⟩ := List.mem_flatMap.1 hv
    rw [hpresent] at hentry
    obtain ⟨r, hr, rfl⟩ := List.mem_map.1 hentry
    exact ⟨r, hr, hkeys _ v hv⟩
  · intro r hr
    have hentry : (r.id, textOf d.schema column r) ∈ present := by
      rw [hpresent]
      exact List.mem_map_of_mem hr
    obtain ⟨embeddings, hembeddings, -⟩ := hembeddable _ hentry
    have hblock : ofRow r.id (present.flatMap (rowVectorsOf E table existing)) =
        rowVectorsOf E table existing (r.id, textOf d.schema column r) :=
      filter_flatMap hkeys hnodup hentry
    rw [hblock]
    exact rowVectorsOf_embedded hkept hr hembeddings

/-- Where the rows that have a vector are those that are there, the vectors are theirs. -/
theorem matching_exact {existing : List RowVector} (hkept : Kept E d column existing)
    {present : List (RowId × Text)}
    (hpresent : present = d.rows.map fun r => (r.id, textOf d.schema column r))
    (hmatching : Matching existing present) : Exact E d column existing := by
  have hids : ∀ id, (∃ r ∈ d.rows, r.id = id) ↔ ∃ v ∈ existing, v.row = id := by
    intro id
    have hmem := congrArg (id ∈ ·) hmatching
    simpa [hpresent] using hmem
  constructor
  · intro v hv
    obtain ⟨r, hr, hrow⟩ := (hids v.row).2 ⟨v, hv, rfl⟩
    exact ⟨r, hr, hrow.symm⟩
  · intro r hr
    obtain ⟨v, hv, hrow⟩ := (hids r.id).1 ⟨r, hr, rfl⟩
    rcases hkept r hr with hnone | hembedded
    · exact absurd hrow (ofRow_eq_nil.1 hnone v hv)
    · exact hembedded

/-- Two handles on one database in one session. -/
structure Alike (g h : LanceStore) : Prop where
  root : g.root = h.root
  session : g.session = h.session

theorem Alike.opens {g : LanceStore} (halike : Alike g h) {datasets : Datasets} {name : Text} :
    Opens W g datasets name d ↔ Opens W h datasets name d := by
  unfold Opens place call datasetPath
  rw [halike.root, halike.session]

/-- What reading a column's vectors answers; a companion that is not there has none. -/
def Answers (W : World) (g : LanceStore) (datasets : Datasets) (table column : Text)
    (vectors : List RowVector) : Prop :=
  ReadsVectors W g datasets table column vectors ∨
    (datasets (g.place W (vectorTable table column)) = none ∧ vectors = [])

/-- Every answer to a reader in the session is exactly the vectors of the text. -/
def Agreed (W : World) (h : LanceStore) (E : Embedder) (datasets : Datasets)
    (table column : Text) (d : Dataset) : Prop :=
  ∀ g vectors, Alike g h → Answers W g datasets table column vectors → Exact E d column vectors

/-- An answer is what is stored, sorted. -/
theorem Answers.stored {g : LanceStore} (halike : Alike g h) {datasets : Datasets}
    {vectors : List RowVector} (hanswers : Answers W g datasets table column vectors) :
    ∃ found, StoredIn (datasets (h.place W (vectorTable table column))) found ∧
      vectors = found.mergeSort RowVector.le := by
  rcases hanswers with ⟨-, d, found, hopens, -, hstored, rfl⟩ | ⟨hnone, rfl⟩
  · exact ⟨found, .inr ⟨d, table, (halike.opens.1 hopens).1, hstored⟩, rfl⟩
  · unfold place datasetPath at hnone ⊢
    rw [halike.root] at hnone
    exact ⟨[], .inl ⟨hnone, rfl⟩, List.mergeSort_nil.symm⟩

/-- What a reconciliation finds is a row's vectors or none, where the column is linked. -/
theorem LanceStore.Existing.kept {datasets : Datasets} {existing : List RowVector}
    (hexisting : Existing W h datasets table column existing)
    (hlinked : ∀ found, StoredIn (datasets (h.place W (vectorTable table column))) found →
      LinkedTo E d column found) : Kept E d column existing := by
  rcases hexisting with ⟨-, -, d', found, hopens, -, hstored, rfl⟩ | ⟨-, rfl⟩
  · exact (hlinked found (.inr ⟨d', table, hopens.1, hstored⟩)).kept
  · exact fun r _ => .inl rfl

/-- **Reconciling a column brings its vectors into agreement**, where they were linked to its text
before; and they stay linked. -/
theorem LanceStore.ReconcilesTo.agrees {datasets datasets' : Datasets}
    (hreconciles : ReconcilesTo W h table column datasets datasets')
    (hembedder : ∀ embedder, h.embedder = some embedder → embedder = E)
    (hd : datasets (h.place W table) = some d)
    (hlinked : ∀ found, StoredIn (datasets (h.place W (vectorTable table column))) found →
      LinkedTo E d column found) :
    Agreed W h E datasets' table column d ∧
      ∀ found, StoredIn (datasets' (h.place W (vectorTable table column))) found →
        LinkedTo E d column found := by
  obtain ⟨embedder, d', existing, present, hgathers, houtcome⟩ := hreconciles
  cases hembedder embedder hgathers.embedder
  cases hd.symm.trans hgathers.opens.1
  have hpresent := presentTexts_ok hgathers.present
  have hkept := hgathers.existing.kept hlinked
  rcases houtcome with ⟨hmatching, rfl⟩ | ⟨-, batch, rfl, hembeddable, -, rfl⟩
  · refine ⟨?_, hlinked⟩
    have hexact := matching_exact hkept hpresent hmatching
    intro g vectors halike hanswers
    rcases hgathers.existing with ⟨⟨c, hc⟩, -, c', found, hopens, -, hstored, rfl⟩ | ⟨hnone, rfl⟩
    · obtain ⟨found', hstored', rfl⟩ := hanswers.stored halike
      rcases hstored' with ⟨habsent, -⟩ | ⟨c'', table', hthere, hstored'⟩
      · rw [hopens.1] at habsent
        cases habsent
      · cases hopens.1.symm.trans hthere
        have hsame : found' = found := stored_unique hstored' hstored
        rw [hsame]
        exact hexact
    · rcases hanswers with ⟨-, c, found, hopens, -⟩ | ⟨-, rfl⟩
      · exact absurd (halike.opens.1 hopens) (hnone c)
      · exact hexact
  · have hexact := rebuilt_exact hkept hpresent hembeddable
    rw [Function.update_self]
    refine ⟨fun g vectors halike hanswers => ?_, fun found hfound => ?_⟩
    · obtain ⟨found, hfound, rfl⟩ := hanswers.stored halike
      rw [Function.update_self] at hfound
      rw [storedIn_overwrite.1 hfound]
      exact hexact.sorted
    · rw [storedIn_overwrite.1 hfound]
      exact hexact.linked

end Reconcile

end EuleDB.Store
