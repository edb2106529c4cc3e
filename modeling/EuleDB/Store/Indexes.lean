import EuleDB.Store.Isolation

/-!
# Whether a vector index survives writes

A vector index stands on a companion table.  Commits leave the indexes of a dataset as they are; a
reconciliation that comes to write vectors overwrites the companion, and what is written has none.

* `Format.ReportsIndexes` — what the format says about the index of a companion.
* `Writes.indexes_kept`, `Writes.indexes_lost` — what one write does to the indexes under a path.
* `index_survives_iff` — the index is still reported after a run of writes exactly where no step of
  the run came to write vectors in its place.
-/

set_option autoImplicit false

namespace EuleDB.Store

open Crypto Audit Effect LanceStore

/-! ## What a format reports -/

/-- The index of a column. -/
def Dataset.indexOf (d : Dataset) (column : Text) : Option IndexKind :=
  (d.indexes.find? fun entry => entry.1 = column).map Prod.snd

theorem Dataset.indexOf_index (d : Dataset) (column : Text) (kind : IndexKind) :
    (d.index column kind).indexOf column = some kind := by
  have hothers : (d.indexes.filter fun entry => entry.1 ≠ column).find?
      (fun entry => entry.1 = column) = none := by
    rw [List.find?_eq_none]
    intro entry hmem
    simpa using (List.mem_filter.1 hmem).2
  unfold Dataset.indexOf Dataset.index
  rw [List.find?_append, hothers, Option.none_or, List.find?_singleton,
    if_pos (decide_eq_true rfl)]
  rfl

/-- The format names an index after its column, and its statistics name the family it is of. -/
structure Format.ReportsIndexes (F : Format) : Prop where
  missing : ∀ d : Dataset, d.indexOf "embedding".toList = none →
    F.indexStatistics d "embedding_idx".toList = none
  graph : ∀ d : Dataset, d.indexOf "embedding".toList = some (.vector .graph) →
    ∃ statistics, F.indexStatistics d "embedding_idx".toList = some statistics ∧
      contains statistics "HNSW".toList
  quantised : ∀ d : Dataset, d.indexOf "embedding".toList = some (.vector .quantised) →
    ∃ statistics, F.indexStatistics d "embedding_idx".toList = some statistics ∧
      ¬ contains statistics "HNSW".toList ∧ contains statistics "PQ".toList

variable {W : World} {h : LanceStore}

/-- The handle may read the table, and the companion of the column opens. -/
def Readable (W : World) (h : LanceStore) (disk : Disk) (table column : Text) : Prop :=
  h.permits W .read table ∧ ∃ d, Opens W h disk.datasets (vectorTable table column) d

namespace LanceStore

/-- What the statistics of an index say about its kind. -/
def kindOf : Option Text → Option VectorIndexKind
  | none => none
  | some statistics =>
    if contains statistics "HNSW".toList then some .graph
    else if contains statistics "PQ".toList then some .quantised
    else none

theorem vectorIndexKind_eq (table column : Text) :
    h.vectorIndexKind W table column = (do
      h.requireScope W .read table
      let d ← h.open W (vectorTable table column)
      pure (kindOf (W.format.indexStatistics d "embedding_idx".toList))) := by
  unfold vectorIndexKind
  congr 1
  funext _
  congr 1
  funext d
  cases W.format.indexStatistics d "embedding_idx".toList with
  | none => rfl
  | some statistics =>
    unfold kindOf
    dsimp only
    split_ifs <;> rfl

theorem vectorIndexKind_ok {table column : Text} {disk disk' : Disk}
    {kind : Option VectorIndexKind} :
    (h.vectorIndexKind W table column).run disk = .ok kind disk' ↔
      h.permits W .read table ∧ (∃ d, Opens W h disk.datasets (vectorTable table column) d ∧
        kind = kindOf (W.format.indexStatistics d "embedding_idx".toList)) ∧ disk' = disk := by
  rw [vectorIndexKind_eq]
  constructor
  · intro hrun
    obtain ⟨_, s1, hscope, h1⟩ := bind_ok.1 hrun
    obtain ⟨d, s2, hopen, h2⟩ := bind_ok.1 h1
    obtain ⟨hpermits, rfl⟩ := requireScope_ok.1 hscope
    obtain ⟨hopens, rfl⟩ := open_ok.1 hopen
    cases h2
    exact ⟨hpermits, ⟨d, hopens, rfl⟩, rfl⟩
  · rintro ⟨hpermits, ⟨d, hopens, rfl⟩, rfl⟩
    exact bind_ok.2 ⟨⟨⟩, _, requireScope_ok.2 ⟨hpermits, rfl⟩,
      bind_ok.2 ⟨d, _, open_ok.2 ⟨hopens, rfl⟩, rfl⟩⟩

/-- What building an index leaves. -/
theorem createVectorIndex_ok {table column : Text} {kind : VectorIndexKind} {disk disk' : Disk}
    {u : PUnit} (hrun : (h.createVectorIndex W table column kind).run disk = .ok u disk') :
    ∃ d : Dataset, disk'.datasets (h.place W (vectorTable table column)) =
      some (d.index "embedding".toList (.vector kind)) := by
  unfold createVectorIndex at hrun
  obtain ⟨_, s1, -, h1⟩ := bind_ok.1 hrun
  obtain ⟨_, s2, -, h2⟩ := bind_ok.1 h1
  obtain ⟨d, s3, -, h3⟩ := bind_ok.1 h2
  obtain ⟨_, s4, -, h4⟩ := bind_ok.1 h3
  obtain ⟨_, s5, hcommit, hrecord⟩ := bind_ok.1 h4
  refine ⟨d, ?_⟩
  rw [(h.record_datasets _ _).reaches _ _ _ hrecord]
  cases hcommit
  exact Function.update_self _ _ _

end LanceStore

theorem kindOf_reported {F : Format} (hreports : F.ReportsIndexes) {d : Dataset}
    {kind : VectorIndexKind} (hindex : d.indexOf "embedding".toList = some (.vector kind)) :
    kindOf (F.indexStatistics d "embedding_idx".toList) = some kind := by
  cases kind with
  | graph =>
    obtain ⟨statistics, hstatistics, hgraph⟩ := hreports.graph d hindex
    rw [hstatistics, kindOf, if_pos hgraph]
  | quantised =>
    obtain ⟨statistics, hstatistics, hgraph, hquantised⟩ := hreports.quantised d hindex
    rw [hstatistics, kindOf, if_neg hgraph, if_pos hquantised]

/-! ## Indexes under a path -/

/-- The indexes of what stands under a path. -/
def indexesAt (datasets : Datasets) (path : Path) : Option (List (Text × IndexKind)) :=
  (datasets path).map Dataset.indexes

theorem indexesAt_of_eq {datasets datasets' : Datasets} {path : Path}
    (hsame : datasets' path = datasets path) : indexesAt datasets' path = indexesAt datasets path :=
  congrArg (Option.map Dataset.indexes) hsame

/-- The index of a column is a matter of the indexes. -/
theorem indexOf_congr {d d' : Dataset} (h : d'.indexes = d.indexes) (column : Text) :
    d'.indexOf column = d.indexOf column := by
  unfold Dataset.indexOf
  rw [h]

namespace LanceStore

/-- A commit leaves the indexes as they are. -/
theorem Commits.indexes {datasets : Datasets} {w : Write} {d : Dataset}
    {indexes : List (Text × IndexKind)} (hcommits : Commits W h datasets w d)
    (hbefore : indexesAt datasets (h.place W w.table) = some indexes) : d.indexes = indexes := by
  obtain ⟨before, hplace, rfl⟩ := Option.map_eq_some_iff.1 hbefore
  obtain ⟨-, -, hrows⟩ := hcommits
  cases w with
  | append table batch =>
    rw [hrows.2, show datasets (h.place W table) = some before from hplace]
    rfl
  | update table predicate assignments =>
    obtain ⟨-, d', hopens, -, rfl⟩ := hrows
    cases hplace.symm.trans hopens.1
    rfl
  | delete table predicate =>
    obtain ⟨d', hopens, -, rfl⟩ := hrows
    cases hplace.symm.trans hopens.1
    rfl

theorem ReconcilesTo.unique {table column : Text} {datasets first second : Datasets}
    (hfirst : ReconcilesTo W h table column datasets first)
    (hsecond : ReconcilesTo W h table column datasets second) : first = second := by
  have hrun : (h.reconcile W table column).run ⟨datasets, .fresh⟩ = .ok ⟨⟩ _ :=
    reconcile_ok.2 ⟨first, hfirst, rfl⟩
  rw [reconcile_ok.2 ⟨second, hsecond, rfl⟩] at hrun
  cases hrun
  rfl

/-- Vectors that are written have no index. -/
theorem ReconcilesTo.overwritten {table column : Text} {datasets datasets' : Datasets}
    (hreconciles : ReconcilesTo W h table column datasets datasets')
    (hwrites : WritesVectors W h datasets table column) :
    indexesAt datasets' (h.place W (vectorTable table column)) = some [] := by
  obtain ⟨embedder, d, existing, present, hgathers, houtcome⟩ := hreconciles
  obtain ⟨embedder', d', existing', present', hgathers', hmatching, -⟩ := hwrites
  obtain ⟨rfl, rfl, rfl, rfl⟩ := hgathers.unique hgathers'
  rcases houtcome with ⟨hmatching', -⟩ | ⟨-, batch, -, -, -, rfl⟩
  · exact absurd hmatching' hmatching
  · unfold indexesAt
    rw [Function.update_self]
    rfl

theorem ReconcilesTo.cleared {table column : Text} {datasets datasets' : Datasets} {path : Path}
    (hreconciles : ReconcilesTo W h table column datasets datasets')
    (hbefore : indexesAt datasets path = some []) : indexesAt datasets' path = some [] := by
  by_cases hpath : path = h.place W (vectorTable table column)
  · by_cases hwrites : WritesVectors W h datasets table column
    · rw [hpath]
      exact hreconciles.overwritten hwrites
    · rw [(hreconciles.settled hwrites).1]
      exact hbefore
  · rw [indexesAt_of_eq (hreconciles.elsewhere hpath)]
    exact hbefore

theorem ReconcilesEach.cleared {table : Text} {columns : List Text} {datasets datasets' : Datasets}
    {path : Path} (hreconciles : ReconcilesEach W h table columns datasets datasets')
    (hbefore : indexesAt datasets path = some []) : indexesAt datasets' path = some [] := by
  induction hreconciles with
  | nil => exact hbefore
  | cons hfirst _ ih => exact ih (hfirst.cleared hbefore)

/-- Where one of the columns comes to write vectors in a place, no index is left there. -/
theorem ReconcilesEach.overwritten {table : Text} {columns : List Text}
    {datasets datasets' : Datasets} {path : Path}
    (hreconciles : ReconcilesEach W h table columns datasets datasets')
    (hwrites : WritesSome W h table (fun column => h.place W (vectorTable table column) = path)
      columns datasets) : indexesAt datasets' path = some [] := by
  induction hreconciles with
  | nil => cases hwrites
  | cons hfirst hrest ih =>
    cases hwrites with
    | here hplace hhere =>
      apply hrest.cleared
      rw [← hplace]
      exact hfirst.overwritten hhere
    | later hfirst' hlater =>
      rw [hfirst'.unique hfirst] at hlater
      exact ih hlater

/-! ## What one write does -/

/-- A write comes to write vectors under a path. -/
def RewritesAt (W : World) (h : LanceStore) (disk : Disk) (w : Write) (path : Path) : Prop :=
  RewritesVectors W h disk w fun column => h.place W (vectorTable w.table column) = path

theorem Commits.indexesAt {datasets : Datasets} {w : Write} {d : Dataset} {path : Path}
    {indexes : List (Text × IndexKind)} (hcommits : Commits W h datasets w d)
    (hbefore : Store.indexesAt datasets path = some indexes) :
    Store.indexesAt (committed W h datasets w d) path = some indexes := by
  unfold committed
  by_cases hpath : path = h.place W w.table
  · subst hpath
    rw [← hcommits.indexes hbefore]
    unfold Store.indexesAt
    rw [Function.update_self]
    rfl
  · rw [indexesAt_of_eq (Function.update_of_ne hpath _ _)]
    exact hbefore

/-- **A write that does not come to write vectors** in a place keeps the indexes there. -/
theorem Writes.indexes_kept {disk : Disk} {w : Write} {datasets' : Datasets} {path : Path}
    {indexes : List (Text × IndexKind)} (hwrites : Writes W h disk w datasets')
    (hrewrites : ¬ RewritesAt W h disk w path)
    (hbefore : indexesAt disk.datasets path = some indexes) :
    indexesAt datasets' path = some indexes := by
  obtain ⟨d, hcommits, hrecords, hopens, hreconciles⟩ := hwrites
  rw [indexesAt_of_eq (hreconciles.untouched (fun _ hplace => hplace) fun hsome =>
    hrewrites ⟨d, hcommits, hrecords, hopens, hsome⟩)]
  exact hcommits.indexesAt hbefore

/-- **One that does** leaves none. -/
theorem Writes.indexes_lost {disk : Disk} {w : Write} {datasets' : Datasets} {path : Path}
    (hwrites : Writes W h disk w datasets') (hrewrites : RewritesAt W h disk w path) :
    indexesAt datasets' path = some [] := by
  obtain ⟨d, hcommits, -, -, hreconciles⟩ := hwrites
  obtain ⟨d', hcommits', -, -, hsome⟩ := hrewrites
  cases hcommits.unique hcommits'
  exact hreconciles.overwritten hsome

/-- What is lost stays lost. -/
theorem Writes.indexes_cleared {disk : Disk} {w : Write} {datasets' : Datasets} {path : Path}
    (hwrites : Writes W h disk w datasets') (hbefore : indexesAt disk.datasets path = some []) :
    indexesAt datasets' path = some [] := by
  obtain ⟨d, hcommits, -, -, hreconciles⟩ := hwrites
  exact hreconciles.cleared (hcommits.indexesAt hbefore)

end LanceStore

/-! ## Runs of writes -/

/-- Writes one after the other, each through a handle of its own, that all succeed. -/
inductive Written (W : World) : Disk → List (LanceStore × Write) → Disk → Prop where
  | nil (disk : Disk) : Written W disk [] disk
  | cons {h : LanceStore} {w : Write} {steps : List (LanceStore × Write)}
    {disk middle disk' : Disk} {answer : Answer}
    (first : (h.perform W w.op).run disk = .ok answer middle) (rest : Written W middle steps disk') :
    Written W disk ((h, w) :: steps) disk'

/-- A step of a run comes to write vectors under a path. -/
def RewritesSome (W : World) (path : Path) : List (LanceStore × Write) → Disk → Prop
  | [], _ => False
  | (h, w) :: steps, disk => RewritesAt W h disk w path ∨
      RewritesSome W path steps (final ((h.perform W w.op).run disk))

theorem Written.indexes_cleared {steps : List (LanceStore × Write)} {disk disk' : Disk}
    {path : Path} (hwritten : Written W disk steps disk')
    (hbefore : indexesAt disk.datasets path = some []) :
    indexesAt disk'.datasets path = some [] := by
  induction hwritten with
  | nil => exact hbefore
  | cons hfirst _ ih => exact ih ((perform_write_ok hfirst).indexes_cleared hbefore)

theorem Written.indexes_kept {steps : List (LanceStore × Write)} {disk disk' : Disk} {path : Path}
    {indexes : List (Text × IndexKind)} (hwritten : Written W disk steps disk')
    (hrewrites : ¬ RewritesSome W path steps disk)
    (hbefore : indexesAt disk.datasets path = some indexes) :
    indexesAt disk'.datasets path = some indexes := by
  induction hwritten with
  | nil => exact hbefore
  | cons hfirst _ ih =>
    rw [RewritesSome, hfirst, not_or] at hrewrites
    exact ih hrewrites.2 ((perform_write_ok hfirst).indexes_kept hrewrites.1 hbefore)

theorem Written.indexes_lost {steps : List (LanceStore × Write)} {disk disk' : Disk} {path : Path}
    (hwritten : Written W disk steps disk') (hrewrites : RewritesSome W path steps disk) :
    indexesAt disk'.datasets path = some [] := by
  induction hwritten with
  | nil => cases hrewrites
  | cons hfirst hrest ih =>
    rw [RewritesSome, hfirst] at hrewrites
    rcases hrewrites with hhere | hlater
    · exact hrest.indexes_cleared ((perform_write_ok hfirst).indexes_lost hhere)
    · exact ih hlater

/-- **Whether an index survives.**  After an index was built and a run of writes succeeded, its
kind is reported exactly where no step of the run came to write vectors in its place; a handle
reports it that may read the table and opens the companion. -/
theorem index_survives_iff (hreports : W.format.ReportsIndexes) {reader : LanceStore}
    (hroot : reader.root = h.root) {table column : Text} {kind : VectorIndexKind}
    {disk indexed disk' : Disk} {steps : List (LanceStore × Write)}
    (hindex : (h.createVectorIndex W table column kind).run disk = .ok ⟨⟩ indexed)
    (hwritten : Written W indexed steps disk') :
    (reader.vectorIndexKind W table column).run disk' = .ok (some kind) disk' ↔
      Readable W reader disk' table column ∧
        ¬ RewritesSome W (h.place W (vectorTable table column)) steps indexed := by
  have hplace : reader.place W (vectorTable table column) =
      h.place W (vectorTable table column) := by
    unfold place datasetPath
    rw [hroot]
  obtain ⟨built, hbuilt⟩ := createVectorIndex_ok hindex
  have hbefore : indexesAt indexed.datasets (h.place W (vectorTable table column)) =
      some (built.index "embedding".toList (.vector kind)).indexes := by
    unfold indexesAt
    rw [hbuilt]
    rfl
  rw [vectorIndexKind_ok]
  constructor
  · rintro ⟨hpermits, ⟨d, hopens, hkind⟩, -⟩
    refine ⟨⟨hpermits, d, hopens⟩, fun hrewrites => ?_⟩
    have hlost := hwritten.indexes_lost hrewrites
    unfold indexesAt at hlost
    rw [← hplace, hopens.1, Option.map_some, Option.some.injEq] at hlost
    rw [hreports.missing d (by unfold Dataset.indexOf; rw [hlost]; rfl)] at hkind
    cases hkind
  · rintro ⟨⟨hpermits, d, hopens⟩, hrewrites⟩
    have hkept := hwritten.indexes_kept hrewrites hbefore
    unfold indexesAt at hkept
    rw [← hplace, hopens.1, Option.map_some, Option.some.injEq] at hkept
    refine ⟨hpermits, ⟨d, hopens, Eq.symm ?_⟩, rfl⟩
    apply kindOf_reported hreports
    rw [indexOf_congr hkept, Dataset.indexOf_index]

/-! ## An index that is lost -/

/-- The statistics of an index over vectors. -/
def familyOf : Option IndexKind → Option Text
  | some (.vector .graph) => some "IVF_HNSW_SQ".toList
  | some (.vector .quantised) => some "IVF_PQ".toList
  | _ => none

/-- A plain format that keeps statistics of the index over the vectors. -/
def Format.indexing : Format :=
  { Format.plain with
    indexStatistics := fun d name =>
      if name = "embedding_idx".toList then familyOf (d.indexOf "embedding".toList) else none }

theorem indexing_statistics (d : Dataset) :
    Format.indexing.indexStatistics d "embedding_idx".toList =
      familyOf (d.indexOf "embedding".toList) := by
  show (if "embedding_idx".toList = "embedding_idx".toList then
    familyOf (d.indexOf "embedding".toList) else none) = familyOf (d.indexOf "embedding".toList)
  rw [if_pos rfl]

theorem indexing_reports : Format.indexing.ReportsIndexes where
  missing := by
    intro d hnone
    rw [indexing_statistics, hnone]
    rfl
  graph := by
    intro d hgraph
    rw [indexing_statistics, hgraph]
    exact ⟨"IVF_HNSW_SQ".toList, rfl, by decide⟩
  quantised := by
    intro d hquantised
    rw [indexing_statistics, hquantised]
    exact ⟨"IVF_PQ".toList, rfl, by decide, by decide⟩

def World.indexing : World := { World.plain with format := .indexing }

/-- The table has a row with a vector. -/
def embedded : Disk :=
  final ((writer.perform .indexing (appendDocs "a".toList).op).run
    (final ((writer.createTable .indexing "docs".toList ⟨embeddedText, .none⟩).run Disk.empty)))

/-- And an index over it. -/
def indexed : Disk :=
  final ((writer.createVectorIndex .indexing "docs".toList "text".toList .graph).run embedded)

set_option maxRecDepth 8000 in
theorem indexed_run : (writer.createVectorIndex .indexing "docs".toList "text".toList .graph).run
    embedded = .ok ⟨⟩ indexed := rfl

set_option maxRecDepth 8000 in
theorem indexed_vectors : ∃ c : Dataset,
    indexed.datasets (writer.place .indexing (vectorTable "docs".toList "text".toList)) =
        some (c.index "embedding".toList (.vector .graph)) ∧
      stored "docs".toList (c.index "embedding".toList (.vector .graph)) =
        .ok [⟨0, 0, List.replicate VECTOR_WIDTH 1⟩] := ⟨_, rfl, rfl⟩

set_option maxRecDepth 8000 in
theorem indexed_table : indexed.datasets (writer.place .indexing "docs".toList) =
    some ((Dataset.create (Compression.none.appliedTo embeddedText)).add Format.plain
      [[.utf8 "a".toList]]) := rfl

theorem indexing_apart : writer.place .indexing (vectorTable "docs".toList "text".toList) ≠
    writer.place .indexing "docs".toList := by decide

/-- What stands under the paths once rows are committed to the table. -/
def indexedWith (rows : Dataset) : Datasets :=
  Function.update indexed.datasets (writer.place .indexing "docs".toList) (some rows)

/-- The column still has the one vector then. -/
theorem indexedWith_vectors (rows : Dataset) : ∃ c,
    Opens .indexing writer (indexedWith rows) (vectorTable "docs".toList "text".toList) c ∧
      stored "docs".toList c = .ok [⟨0, 0, List.replicate VECTOR_WIDTH 1⟩] := by
  obtain ⟨c, hc, hstored⟩ := indexed_vectors
  exact ⟨_, ⟨(Function.update_of_ne indexing_apart _ _).trans hc, rfl⟩, hstored⟩

theorem indexedWith_gathers {rows : Dataset} {present : List (RowId × Text)}
    (hpresent : presentTexts "docs".toList "text".toList rows = .ok present) :
    Gathers .indexing writer (indexedWith rows) "docs".toList "text".toList lengths rows
      [⟨0, 0, List.replicate VECTOR_WIDTH 1⟩] present := by
  obtain ⟨c, hcompanion, hstored⟩ := indexedWith_vectors rows
  have hreads : ReadsVectors .indexing writer (indexedWith rows) "docs".toList "text".toList
      [⟨0, 0, List.replicate VECTOR_WIDTH 1⟩] :=
    ⟨rfl, c, _, hcompanion, fun _ _ => rfl, hstored, (List.mergeSort_singleton _).symm⟩
  exact ⟨rfl, .inl ⟨⟨c, hcompanion⟩, hreads⟩, ⟨Function.update_self _ _ _, rfl⟩, fun _ _ => rfl,
    hpresent⟩

/-- An append without rows. -/
def appendNothing : Write := .append "docs".toList ⟨embeddedText, []⟩

/-- It leaves the index in place. -/
theorem index_survives_empty_append : ∃ (after : Disk) (answer : Answer),
    (writer.perform .indexing appendNothing.op).run indexed = .ok answer after ∧
    (writer.vectorIndexKind .indexing "docs".toList "text".toList).run after =
      .ok (some .graph) after := by
  let rows := ((Dataset.create (Compression.none.appliedTo embeddedText)).add Format.plain
    [[.utf8 "a".toList]]).add Format.plain []
  have hcommits : Commits .indexing writer indexed.datasets appendNothing rows :=
    ⟨rfl, rfl, rfl, by rw [indexed_table]; rfl⟩
  have hgathers : Gathers .indexing writer (indexedWith rows) "docs".toList "text".toList lengths
      rows [⟨0, 0, List.replicate VECTOR_WIDTH 1⟩] [(0, "a".toList)] := indexedWith_gathers rfl
  -- the one row has its vector
  have hmatching : Matching [⟨0, 0, List.replicate VECTOR_WIDTH 1⟩] [(0, "a".toList)] := by
    unfold Matching
    decide
  have hreconciles : ReconcilesTo .indexing writer "docs".toList "text".toList
      (indexedWith rows) (indexedWith rows) :=
    ⟨lengths, rows, _, _, hgathers, .inl ⟨hmatching, rfl⟩⟩
  have hwrites : Writes .indexing writer indexed appendNothing (indexedWith rows) :=
    ⟨rows, hcommits, nofun, hgathers.opens, .cons hreconciles (.nil _)⟩
  obtain ⟨answer, after, hrun, hafter⟩ := perform_write_run hwrites
  have hreadable : Readable .indexing writer after "docs".toList "text".toList := by
    obtain ⟨c, hcompanion, -⟩ := indexedWith_vectors rows
    exact ⟨rfl, c, hafter ▸ hcompanion⟩
  refine ⟨after, answer, hrun, (index_survives_iff indexing_reports rfl indexed_run
    (.cons hrun (.nil _))).2 ⟨hreadable, ?_⟩⟩
  rintro (⟨d, hcommits', -, -, hsome⟩ | hnone)
  · cases hcommits.unique hcommits'
    cases hsome with
    | here _ hrewrites =>
      obtain ⟨_, _, _, _, hgathers', hunmatched, -⟩ := hrewrites
      obtain ⟨-, -, rfl, rfl⟩ := hgathers.unique hgathers'
      exact hunmatched hmatching
    | later _ hlater => cases hlater
  · exact hnone

/-- A second row takes the index with it. -/
theorem append_drops_the_index : ∃ (after : Disk) (answer : Answer),
    (writer.createVectorIndex .indexing "docs".toList "text".toList .graph).run embedded =
      .ok ⟨⟩ indexed ∧
    (writer.perform .indexing (appendDocs "bb".toList).op).run indexed = .ok answer after ∧
    (writer.vectorIndexKind .indexing "docs".toList "text".toList).run after = .ok none after := by
  let rows := ((Dataset.create (Compression.none.appliedTo embeddedText)).add Format.plain
    [[.utf8 "a".toList]]).add Format.plain [[.utf8 "bb".toList]]
  have hcommits : Commits .indexing writer indexed.datasets (appendDocs "bb".toList) rows :=
    ⟨rfl, rfl, rfl, by rw [indexed_table]; rfl⟩
  have hgathers : Gathers .indexing writer (indexedWith rows) "docs".toList "text".toList lengths
      rows [⟨0, 0, List.replicate VECTOR_WIDTH 1⟩] [(0, "a".toList), (1, "bb".toList)] :=
    indexedWith_gathers rfl
  -- the new row has no vector yet
  have hrewrites : WritesVectors .indexing writer (indexedWith rows) "docs".toList
      "text".toList := by
    refine ⟨lengths, rows, _, _, hgathers, ?_, ?_, rfl⟩
    · unfold Matching
      decide
    · intro entry hmem
      rcases List.mem_cons.1 hmem with rfl | hmem
      · refine ⟨[List.replicate VECTOR_WIDTH 1], rfl, fun embedding hone => ?_⟩
        rw [List.mem_singleton.1 hone, List.length_replicate]
      · cases List.mem_singleton.1 hmem
        refine ⟨[List.replicate VECTOR_WIDTH 2], rfl, fun embedding hone => ?_⟩
        rw [List.mem_singleton.1 hone, List.length_replicate]
  obtain ⟨datasets', hreconciles⟩ := hrewrites.reconciles
  have hwrites : Writes .indexing writer indexed (appendDocs "bb".toList) datasets' :=
    ⟨rows, hcommits, nofun, hgathers.opens, .cons hreconciles (.nil _)⟩
  obtain ⟨answer, after, hrun, hafter⟩ := perform_write_run hwrites
  have hlost : indexesAt datasets'
      (writer.place .indexing (vectorTable "docs".toList "text".toList)) = some [] :=
    hwrites.indexes_lost ⟨rows, hcommits, nofun, hgathers.opens, .here rfl hrewrites⟩
  obtain ⟨d, hd, hindexes⟩ := Option.map_eq_some_iff.1 hlost
  rw [← hafter] at hd
  refine ⟨after, answer, indexed_run, hrun, vectorIndexKind_ok.2 ⟨rfl, ⟨d, ⟨hd, rfl⟩, ?_⟩, rfl⟩⟩
  have hmissing : d.indexOf "embedding".toList = none := by
    unfold Dataset.indexOf
    rw [hindexes]
    rfl
  show none = kindOf (Format.indexing.indexStatistics d "embedding_idx".toList)
  rw [indexing_reports.missing d hmissing]
  rfl

end EuleDB.Store
