import EuleDB.Store.Vectors

/-!
# Vectors and text over whole runs

A run creates tables, writes to them and drops them, through any handles on one database, and
some of its writes are cut off behind their commit.  Reconciliation goes by row identities, and a
table that is created again gives out the identities of the one that was dropped, whose vectors are
still there.

* `Free` — a table may be created: its columns' companions hold no vectors, and no two tables or
  columns get in each other's way.
* `Coherent` — the invariant: tables and companions are apart, and every column is linked to its
  text.
* `Reached.coherent` — it holds in every run whose steps meet the condition.
* `vectors_agree_with_text` — in such a run a write that returns leaves the vectors of every
  auto-embedding column exactly those of its text.
-/

set_option autoImplicit false

namespace EuleDB.Store

open Crypto Audit Effect LanceStore

section Runs

variable (W : World) (root : Text)

/-- Where a table of this database lives. -/
def placeIn (table : Text) : Path := (LanceStore.new root).place W table

/-- Where a column's vectors are kept. -/
def companionIn (table column : Text) : Path := placeIn W root (vectorTable table column)

/-- A table is there, and this column of it embeds itself. -/
def HasColumn (datasets : Datasets) (table column : Text) : Prop :=
  ∃ d, datasets (placeIn W root table) = some d ∧ column ∈ d.schema.autoEmbeddingColumns

/-- No table is where a column's vectors are, and no two columns share their vectors' place. -/
def Apart (datasets : Datasets) : Prop :=
  ∀ table column, HasColumn W root datasets table column →
    ∀ table' column', HasColumn W root datasets table' column' →
      placeIn W root table' ≠ companionIn W root table column ∧
        (companionIn W root table' column' = companionIn W root table column →
          placeIn W root table' = placeIn W root table ∧ column' = column)

/-- Nothing is in the way of a new table: with it tables and companions are still apart, and
there are no vectors yet for any column that embeds itself. -/
structure Free (datasets : Datasets) (table : Text) (schema : Schema) : Prop where
  apart : Apart W root
    (Function.update datasets (placeIn W root table) (some (.create schema)))
  vectorless : ∀ table' column, placeIn W root table' = placeIn W root table →
    column ∈ schema.autoEmbeddingColumns →
      Vectorless (datasets (companionIn W root table' column))

/-- Where a write commits, it is not to where a column's vectors are kept, and nothing is in the
way of the table it creates, if it creates one. -/
def Meets (h : LanceStore) (datasets : Datasets) (w : Write) : Prop :=
  ∀ d, Commits W h datasets w d →
    (∀ table column, HasColumn W root datasets table column →
      placeIn W root w.table ≠ companionIn W root table column) ∧
    (datasets (placeIn W root w.table) = none → Free W root datasets w.table d.schema)

/-- A table is created. -/
def Creates (h : LanceStore) (datasets : Datasets) (table : Text)
    (definition : TableDefinition) : Prop :=
  h.permits W .schema table ∧ h.writeLock ∧ datasets (h.place W table) = none ∧
    W.format.refuses
      (h.call table (.create (definition.compression.appliedTo definition.schema))) none = none

/-- A handle on this database that embeds with `E`, or not at all. -/
structure Uses (E : Embedder) (h : LanceStore) : Prop where
  root : h.root = root
  embedder : ∀ embedder, h.embedder = some embedder → embedder = E

/-- The disks of the runs whose steps meet the condition. -/
inductive Reached (E : Embedder) : Disk → Prop where
  | empty : Reached E Disk.empty
  | create {disk : Disk} {h : LanceStore} {table : Text} {definition : TableDefinition}
    (before : Reached E disk) (uses : Uses root E h)
    (free : Creates W h disk.datasets table definition → Free W root disk.datasets table
      (definition.compression.appliedTo definition.schema)) :
    Reached E (final ((h.createTable W table definition).run disk))
  | write {disk : Disk} {h : LanceStore} {w : Write} (before : Reached E disk)
    (uses : Uses root E h) (meets : Meets W root h disk.datasets w) :
    Reached E (final ((h.perform W w.op).run disk))
  /-- A write that was cut off: its commit and some of its columns were done, or nothing. -/
  | crash {disk : Disk} {h : LanceStore} {w : Write} {datasets' : Datasets} {log : LogFile}
    (before : Reached E disk) (uses : Uses root E h) (meets : Meets W root h disk.datasets w)
    (advances : Advances W h disk.datasets w datasets') : Reached E ⟨datasets', log⟩
  | drop {disk : Disk} {h : LanceStore} {table : Text} (before : Reached E disk)
    (uses : Uses root E h) : Reached E (final ((h.dropTable W table).run disk))

/-- Tables and companions are apart, and every column's vectors are linked to its text. -/
structure Coherent (E : Embedder) (datasets : Datasets) : Prop where
  apart : Apart W root datasets
  linked : ∀ table column d, datasets (placeIn W root table) = some d →
    column ∈ d.schema.autoEmbeddingColumns →
      ∀ found, StoredIn (datasets (companionIn W root table column)) found →
        LinkedTo E d column found

variable {W root} {E : Embedder}

theorem Coherent.empty : Coherent W root E Disk.empty.datasets := by
  refine ⟨?_, ?_⟩
  · rintro table column ⟨d, hd, -⟩
    cases hd
  · intro table column d hd
    cases hd

/-! ## What a step does to the invariant -/

theorem hasColumn_update {datasets : Datasets} {path : Path} {d' : Dataset} {table column : Text} :
    HasColumn W root (Function.update datasets path (some d')) table column ↔
      if placeIn W root table = path then column ∈ d'.schema.autoEmbeddingColumns
      else HasColumn W root datasets table column := by
  unfold HasColumn
  split_ifs with hplace
  · rw [hplace, Function.update_self]
    simp
  · rw [Function.update_of_ne hplace]

/-- Only which columns there are has a part in what is apart. -/
theorem Apart.congr {datasets datasets' : Datasets} (hapart : Apart W root datasets)
    (hcolumns : ∀ table column, HasColumn W root datasets' table column →
      HasColumn W root datasets table column) : Apart W root datasets' :=
  fun table column hcolumn table' column' hcolumn' =>
    hapart table column (hcolumns _ _ hcolumn) table' column' (hcolumns _ _ hcolumn')

/-- What is still there is as it was. -/
theorem Coherent.restrict {datasets datasets' : Datasets} (hcoherent : Coherent W root E datasets)
    (hkept : ∀ path, datasets' path = datasets path ∨ datasets' path = none) :
    Coherent W root E datasets' := by
  have hsame : ∀ {path d}, datasets' path = some d → datasets path = some d := by
    intro path d hd
    rcases hkept path with heq | hnone
    · rwa [← heq]
    · rw [hnone] at hd
      cases hd
  refine ⟨hcoherent.apart.congr ?_, ?_⟩
  · rintro table column ⟨d, hd, hcolumn⟩
    exact ⟨d, hsame hd, hcolumn⟩
  · intro table column d hd hcolumn found hfound
    rcases hkept (companionIn W root table column) with heq | hnone
    · rw [heq] at hfound
      exact hcoherent.linked table column d (hsame hd) hcolumn found hfound
    · rw [hnone] at hfound
      rw [vectorless_none found hfound]
      exact ⟨by simp, fun _ _ => .inl rfl⟩

/-- A dataset that a commit makes of another: its rows are old ones, or have fresh identities. -/
structure Follows (d d' : Dataset) : Prop where
  schema : d'.schema = d.schema
  issued : ∀ id ∈ d.issued, id ∈ d'.issued
  rows : ∀ r ∈ d'.rows, r ∈ d.rows ∨ r.id ∉ d.issued

theorem Follows.refl (d : Dataset) : Follows d d :=
  ⟨rfl, fun _ hid => hid, fun _ hr => .inl hr⟩

theorem LinkedTo.follows {d d' : Dataset} {column : Text} {vectors : List RowVector}
    (hlinked : LinkedTo E d column vectors) (hfollows : Follows d d') :
    LinkedTo E d' column vectors := by
  refine ⟨fun v hv => hfollows.issued _ (hlinked.issued v hv), fun r hr => ?_⟩
  rcases hfollows.rows r hr with hold | hnew
  · rw [hfollows.schema]
    exact hlinked.rows r hold
  · left
    rw [ofRow_eq_nil]
    intro v hv hrow
    exact hnew (hrow ▸ hlinked.issued v hv)

/-- **The commit of a write to a table that is there.** -/
theorem Coherent.commit {datasets : Datasets} {table : Text} {d d' : Dataset}
    (hcoherent : Coherent W root E datasets) (hd : datasets (placeIn W root table) = some d)
    (hfollows : Follows d d')
    (helsewhere : ∀ table' column, HasColumn W root datasets table' column →
      placeIn W root table ≠ companionIn W root table' column) :
    Coherent W root E (Function.update datasets (placeIn W root table) (some d')) := by
  have hcolumns : ∀ table' column, HasColumn W root
      (Function.update datasets (placeIn W root table) (some d')) table' column →
        HasColumn W root datasets table' column := by
    intro table' column hcolumn
    rw [hasColumn_update] at hcolumn
    split_ifs at hcolumn with hplace
    · refine ⟨d, hplace ▸ hd, ?_⟩
      rwa [← hfollows.schema]
    · exact hcolumn
  refine ⟨hcoherent.apart.congr hcolumns, ?_⟩
  intro table' column d'' hd'' hcolumn found hfound
  have hthere := hcolumns table' column ⟨d'', hd'', hcolumn⟩
  rw [Function.update_of_ne (helsewhere table' column hthere).symm] at hfound
  by_cases hplace : placeIn W root table' = placeIn W root table
  · rw [hplace, Function.update_self] at hd''
    cases hd''
    rw [hfollows.schema] at hcolumn
    exact (hcoherent.linked table' column d (hplace ▸ hd) hcolumn found hfound).follows hfollows
  · rw [Function.update_of_ne hplace] at hd''
    exact hcoherent.linked table' column d'' hd'' hcolumn found hfound

/-- **The creation of a table**, with or without rows. -/
theorem Coherent.create {datasets : Datasets} {table : Text} {d' : Dataset}
    (hcoherent : Coherent W root E datasets) (hfree : Free W root datasets table d'.schema)
    (helsewhere : d'.rows = [] ∨ ∀ table' column, HasColumn W root datasets table' column →
      placeIn W root table ≠ companionIn W root table' column) :
    Coherent W root E (Function.update datasets (placeIn W root table) (some d')) := by
  have hapart : Apart W root (Function.update datasets (placeIn W root table) (some d')) := by
    refine hfree.apart.congr fun table' column hcolumn => ?_
    rw [hasColumn_update] at hcolumn ⊢
    exact hcolumn
  refine ⟨hapart, ?_⟩
  intro table' column d'' hd'' hcolumn found hfound
  have hthere : HasColumn W root (Function.update datasets (placeIn W root table) (some d'))
      table' column := ⟨d'', hd'', hcolumn⟩
  have hnothing : found = [] → LinkedTo E d'' column found := by
    rintro rfl
    exact ⟨by simp, fun _ _ => .inl rfl⟩
  by_cases hplace : placeIn W root table' = placeIn W root table
  · -- a column of the new table has no vectors yet
    have hne : companionIn W root table' column ≠ placeIn W root table := by
      rw [← hplace]
      exact ((hapart table' column hthere table' column hthere).1).symm
    rw [Function.update_of_ne hne] at hfound
    rw [hplace, Function.update_self] at hd''
    cases hd''
    exact hnothing (hfree.vectorless table' column hplace hcolumn found hfound)
  · rw [Function.update_of_ne hplace] at hd''
    by_cases hcompanion : companionIn W root table' column = placeIn W root table
    · -- the new table is where vectors of an old one could be
      rcases helsewhere with hrows | helsewhere
      · rw [hcompanion, Function.update_self] at hfound
        exact hnothing (vectorless_of_no_rows hrows found hfound)
      · exact absurd hcompanion.symm (helsewhere table' column ⟨d'', hd'', hcolumn⟩)
    · rw [Function.update_of_ne hcompanion] at hfound
      exact hcoherent.linked table' column d'' hd'' hcolumn found hfound

/-- A companion is no table with columns that embed themselves. -/
theorem table_of_overwritten {datasets : Datasets} {companion path : Path} {c d : Dataset}
    {column : Text} (hc : c.schema = vectorSchema)
    (hd : Function.update datasets companion (some c) path = some d)
    (hcolumn : column ∈ d.schema.autoEmbeddingColumns) :
    path ≠ companion ∧ datasets path = some d := by
  have hne : path ≠ companion := by
    rintro rfl
    rw [Function.update_self] at hd
    cases hd
    rw [hc] at hcolumn
    cases hcolumn
  rw [Function.update_of_ne hne] at hd
  exact ⟨hne, hd⟩

/-- **The overwriting of a column's companion** with vectors that are linked to its text. -/
theorem Coherent.overwrite {datasets : Datasets} {table column : Text} {d c : Dataset}
    (hcoherent : Coherent W root E datasets) (hd : datasets (placeIn W root table) = some d)
    (hcolumn : column ∈ d.schema.autoEmbeddingColumns) (hc : c.schema = vectorSchema)
    (hlinked : ∀ found, StoredIn (some c) found → LinkedTo E d column found) :
    Coherent W root E (Function.update datasets (companionIn W root table column) (some c)) := by
  refine ⟨hcoherent.apart.congr ?_, ?_⟩
  · rintro table' column' ⟨d', hd', hcolumn'⟩
    exact ⟨d', (table_of_overwritten hc hd' hcolumn').2, hcolumn'⟩
  · intro table' column' d' hd' hcolumn' found hfound
    have hbefore := (table_of_overwritten hc hd' hcolumn').2
    by_cases hcompanion : companionIn W root table' column' = companionIn W root table column
    · -- the same column of the same table, perhaps under another name
      obtain ⟨hplace, rfl⟩ := (hcoherent.apart table column ⟨d, hd, hcolumn⟩ table' column'
        ⟨d', hbefore, hcolumn'⟩).2 hcompanion
      rw [hplace, hd] at hbefore
      cases hbefore
      rw [hcompanion, Function.update_self] at hfound
      exact hlinked found hfound
    · rw [Function.update_of_ne hcompanion] at hfound
      exact hcoherent.linked table' column' d' hbefore hcolumn' found hfound

/-! ## What the operations do -/

theorem Dataset.add_follows (d : Dataset) (values : List (List Value)) :
    Follows d (d.add W.format values) := by
  refine ⟨rfl, fun id hid => List.mem_append_left _ hid, fun r hr => ?_⟩
  rw [Dataset.add_rows] at hr
  rcases List.mem_append.1 hr with hold | hnew
  · exact .inl hold
  · exact .inr (Dataset.numbered_fresh W.format hnew).2

theorem Dataset.delete_follows (d : Dataset) (p : Row → Bool) : Follows d (d.delete p) :=
  ⟨rfl, fun _ hid => hid, fun _ hr => .inl (List.mem_filter.1 hr).1⟩

theorem Dataset.update_follows (d : Dataset) (p : Row → Bool) (values : Row → List Value) :
    Follows d (d.update W.format p values) := by
  have hadd : Follows (d.delete p) (d.update W.format p values) := Dataset.add_follows _ _
  refine ⟨rfl, fun id hid => hadd.issued id hid, fun r hr => ?_⟩
  rcases hadd.rows r hr with hold | hnew
  · exact (Dataset.delete_follows d p).rows r hold
  · exact .inr hnew

/-- A commit changes a table that is there, or it is an append that creates one. -/
theorem LanceStore.Commits.follows {h : LanceStore} {datasets : Datasets} {w : Write} {d' : Dataset}
    (hcommits : Commits W h datasets w d') :
    datasets (h.place W w.table) = none ∨
      ∃ d, datasets (h.place W w.table) = some d ∧ Follows d d' := by
  obtain ⟨-, -, hcommits⟩ := hcommits
  cases w with
  | append table batch =>
    obtain ⟨-, rfl⟩ := hcommits
    change datasets (h.place W table) = none ∨ ∃ d, datasets (h.place W table) = some d ∧ _
    cases hd : datasets (h.place W table) with
    | none => exact .inl rfl
    | some d => exact .inr ⟨d, rfl, Dataset.add_follows _ _⟩
  | update table predicate assignments =>
    obtain ⟨-, d, hopens, -, rfl⟩ := hcommits
    exact .inr ⟨d, hopens.1, Dataset.update_follows _ _ _⟩
  | delete table predicate =>
    obtain ⟨d, hopens, -, rfl⟩ := hcommits
    exact .inr ⟨d, hopens.1, Dataset.delete_follows _ _⟩

/-- Creating a table puts an empty dataset in its place, or nothing. -/
theorem createTable_datasets (h : LanceStore) (table : Text) (definition : TableDefinition)
    (disk : Disk) :
    (final ((h.createTable W table definition).run disk)).datasets = disk.datasets ∨
      (Creates W h disk.datasets table definition ∧
        (final ((h.createTable W table definition).run disk)).datasets =
          Function.update disk.datasets (h.place W table)
            (some (.create (definition.compression.appliedTo definition.schema)))) := by
  cases hrun : (h.createTable W table definition).run disk with
  | ok u disk' =>
    right
    obtain ⟨_, s1, hscope, h1⟩ := bind_ok.1 hrun
    obtain ⟨_, s2, hrole, h2⟩ := bind_ok.1 h1
    obtain ⟨before, s3, hfound, h3⟩ := bind_ok.1 h2
    obtain ⟨_, s4, hask, h4⟩ := bind_ok.1 h3
    obtain ⟨hpermits, rfl⟩ := requireScope_ok.1 hscope
    obtain ⟨hlock, rfl⟩ := requireWriteRole_ok.1 hrole
    cases hfound
    obtain ⟨hrefuses, rfl⟩ := ask_ok.1 hask
    split at h4
    · cases h4
    · rename_i hnone
      rw [hnone] at hrefuses
      obtain ⟨_, s5, hcommit, h5⟩ := bind_ok.1 h4
      cases hcommit
      exact ⟨⟨hpermits, hlock, hnone, hrefuses⟩, (h.record_datasets _ _).reaches _ _ _ h5⟩
  | error e disk' =>
    rcases (h.requireScope_keeps W _ _).look_error hrun with rfl | ⟨_, hscope, h1⟩
    · exact .inl rfl
    rcases (h.requireWriteRole_keeps _ _).look_error h1 with rfl | ⟨_, hrole, h2⟩
    · exact .inl rfl
    rcases (h.found_keeps W _).look_error h2 with rfl | ⟨before, hfound, h3⟩
    · exact .inl rfl
    rcases (ask_keeps W _ _ _ _).look_error h3 with rfl | ⟨_, hask, h4⟩
    · exact .inl rfl
    obtain ⟨hpermits, -⟩ := requireScope_ok.1 hscope
    obtain ⟨hlock, -⟩ := requireWriteRole_ok.1 hrole
    cases hfound
    obtain ⟨hrefuses, -⟩ := ask_ok.1 hask
    split at h4
    · cases h4
      exact .inl rfl
    · rename_i hnone
      rw [hnone] at hrefuses
      rcases bind_error.1 h4 with hcommit | ⟨_, s5, hcommit, h5⟩
      · cases hcommit
      · cases hcommit
        exact .inr ⟨⟨hpermits, hlock, hnone, hrefuses⟩, (h.record_datasets _ _).fails _ _ _ h5⟩

/-- A table's directory is removed. -/
def Drops (W : World) (h : LanceStore) (disk : Disk) (table : Text) : Prop :=
  h.permits W .schema table ∧ h.writeLock ∧ Records W h disk.log ∧
    W.format.refuses (h.call table .removeDirectory) (disk.datasets (h.place W table)) = none

/-- Dropping a table takes away what is in its directory, and puts nothing there. -/
theorem dropTable_datasets (h : LanceStore) (table : Text) (disk : Disk) (path : Path) :
    (final ((h.dropTable W table).run disk)).datasets path = disk.datasets path ∨
      (Drops W h disk table ∧ (h.place W table).isPrefixOf path ∧
        (final ((h.dropTable W table).run disk)).datasets path = none) := by
  unfold LanceStore.dropTable
  rcases (h.requireScope_keeps W .schema table).look_at with hsame | ⟨_, hscope, hrest⟩
  · rw [hsame]
    exact .inl rfl
  rw [hrest]
  rcases (h.requireWriteRole_keeps _ table).look_at with hsame | ⟨_, hrole, hrest⟩
  · rw [hsame]
    exact .inl rfl
  rw [hrest, EStateM.run_bind]
  obtain ⟨hpermits, -⟩ := requireScope_ok.1 hscope
  obtain ⟨hlock, -⟩ := requireWriteRole_ok.1 hrole
  cases hrecord : (h.record W (.dropTable table) 0).run disk with
  | error e s1 =>
    have hkept : s1.datasets = disk.datasets := (h.record_datasets _ _).fails _ _ _ hrecord
    exact .inl (congrFun hkept path)
  | ok u s1 =>
    have hkept : s1.datasets = disk.datasets := (h.record_datasets _ _).reaches _ _ _ hrecord
    dsimp only
    rcases (h.found_keeps W table).look_at with hsame | ⟨before, hfound, hrest⟩
    · rw [hsame]
      exact .inl (congrFun hkept path)
    rw [hrest]
    rcases (ask_keeps W _ _ _ before).look_at with hsame | ⟨_, hask, hrest⟩
    · rw [hsame]
      exact .inl (congrFun hkept path)
    rw [hrest]
    obtain ⟨hrefuses, -⟩ := ask_ok.1 hask
    cases hfound
    rw [hkept] at hrefuses
    change (if (h.place W table).isPrefixOf path then none else s1.datasets path) = _ ∨ _ ∧ _ ∧
      (if (h.place W table).isPrefixOf path then none else s1.datasets path) = none
    split_ifs with hprefix
    · exact .inr ⟨⟨hpermits, hlock, record_ok.1 ⟨u, s1, hrecord⟩, hrefuses⟩, hprefix, rfl⟩
    · exact .inl (congrFun hkept path)

/-! ## Runs -/

section Steps

variable {h : LanceStore} {datasets datasets' : Datasets}

/-- **Reconciling a column** keeps the invariant. -/
theorem Coherent.reconcile {table column : Text} {d : Dataset} (huses : Uses root E h)
    (hcoherent : Coherent W root E datasets) (hd : datasets (placeIn W root table) = some d)
    (hcolumn : column ∈ d.schema.autoEmbeddingColumns)
    (hreconciles : ReconcilesTo W h table column datasets datasets') :
    Coherent W root E datasets' := by
  obtain ⟨rfl, hembedder⟩ := huses
  obtain ⟨-, hlinked⟩ := hreconciles.agrees hembedder hd
    (hcoherent.linked table column d hd hcolumn)
  obtain ⟨_, _, _, _, -, ⟨-, rfl⟩ | ⟨-, batch, rfl, -, -, rfl⟩⟩ := hreconciles
  · exact hcoherent
  · rw [Function.update_self] at hlinked
    exact hcoherent.overwrite hd hcolumn rfl hlinked

/-- What a reader is answered depends on the companion. -/
theorem Agreed.congr {table column : Text} {d : Dataset}
    (hagreed : Agreed W h E datasets table column d)
    (hsame : datasets' (h.place W (vectorTable table column)) =
      datasets (h.place W (vectorTable table column))) :
    Agreed W h E datasets' table column d := by
  intro g vectors halike hanswers
  refine hagreed g vectors halike ?_
  have hplace : g.place W (vectorTable table column) = h.place W (vectorTable table column) := by
    unfold place datasetPath
    rw [halike.root]
  unfold Answers ReadsVectors Opens at hanswers ⊢
  rw [hplace] at hanswers ⊢
  rwa [hsame] at hanswers

/-- **Reconciling columns of a table** keeps the invariant, and their vectors agree with the text
afterwards. -/
theorem Coherent.reconcileEach {table : Text} {columns : List Text} {d : Dataset}
    (huses : Uses root E h) (hcoherent : Coherent W root E datasets)
    (hd : datasets (placeIn W root table) = some d)
    (hcolumns : ∀ column ∈ columns, column ∈ d.schema.autoEmbeddingColumns)
    (hreconciles : ReconcilesEach W h table columns datasets datasets') :
    Coherent W root E datasets' ∧ datasets' (placeIn W root table) = some d ∧
      ∀ column ∈ columns, Agreed W h E datasets' table column d := by
  induction hreconciles with
  | nil => exact ⟨hcoherent, hd, by simp⟩
  | @cons column columns datasets middle datasets' hfirst hrest ih =>
    rw [List.forall_mem_cons] at hcolumns
    have hhas : HasColumn W root datasets table column := ⟨d, hd, hcolumns.1⟩
    have hagreed : Agreed W h E middle table column d := by
      obtain ⟨rfl, hembedder⟩ := huses
      exact (hfirst.agrees hembedder hd (hcoherent.linked table column d hd hcolumns.1)).1
    have hmiddle := hcoherent.reconcile huses hd hcolumns.1 hfirst
    have hplace : middle (placeIn W root table) = some d := by
      rw [← hd]
      refine hfirst.elsewhere ?_
      have hne := (hcoherent.apart table column hhas table column hhas).1
      intro heq
      rw [← huses.root] at hne heq
      exact hne heq
    obtain ⟨hafter, hthere, hagree⟩ := ih hmiddle hplace hcolumns.2
    refine ⟨hafter, hthere, fun name hname => ?_⟩
    rcases List.mem_cons.1 hname with rfl | hname
    · by_cases hagain : name ∈ columns
      · exact hagree name hagain
      · refine hagreed.congr (hrest.elsewhere fun other hother hsame => ?_)
        have hcolumn : HasColumn W root datasets table other := ⟨d, hd, hcolumns.2 other hother⟩
        have hshared : companionIn W root table name = companionIn W root table other := by
          rw [← huses.root]
          exact hsame
        have hnames := ((hcoherent.apart table other hcolumn table name hhas).2 hshared).2
        exact hagain (hnames ▸ hother)
    · exact hagree name hname

/-- **However far a write gets**, the invariant is kept. -/
theorem Coherent.commits {w : Write} {d : Dataset} (huses : Uses root E h)
    (hcoherent : Coherent W root E datasets) (hmeets : Meets W root h datasets w)
    (hcommits : Commits W h datasets w d) :
    Coherent W root E (committed W h datasets w d) := by
  obtain ⟨helsewhere, hfree⟩ := hmeets d hcommits
  have hplace : h.place W w.table = placeIn W root w.table := by
    rw [← huses.root]
    rfl
  unfold committed
  rw [hplace]
  rcases hcommits.follows with hnone | ⟨before, hbefore, hfollows⟩
  · rw [hplace] at hnone
    exact hcoherent.create (hfree hnone) (.inr helsewhere)
  · rw [hplace] at hbefore
    exact hcoherent.commit hbefore hfollows helsewhere

theorem Coherent.advances {w : Write} (huses : Uses root E h)
    (hcoherent : Coherent W root E datasets) (hmeets : Meets W root h datasets w)
    (hadvances : Advances W h datasets w datasets') : Coherent W root E datasets' := by
  rcases hadvances with rfl | ⟨d, hcommits, done, hdone, hreconciles⟩
  · exact hcoherent
  · refine ((hcoherent.commits huses hmeets hcommits).reconcileEach huses ?_
      (fun column hcolumn => hdone.subset hcolumn) hreconciles).1
    rw [← huses.root]
    exact Function.update_self _ _ _

end Steps

/-- **The invariant holds in every run whose steps meet the condition.** -/
theorem Reached.coherent {disk : Disk} (hreached : Reached W root E disk) :
    Coherent W root E disk.datasets := by
  induction hreached with
  | empty => exact .empty
  | @create disk h table definition before huses hfree ih =>
    rcases createTable_datasets h table definition disk with hsame | ⟨hcreates, hcreated⟩
    · rw [hsame]
      exact ih
    · rw [hcreated]
      have hplace : h.place W table = placeIn W root table := by
        rw [← huses.root]
        rfl
      rw [hplace]
      exact ih.create (hfree hcreates) (.inl rfl)
  | write before huses hmeets ih => exact ih.advances huses hmeets perform_write_advances
  | crash before huses hmeets hadvances ih => exact ih.advances huses hmeets hadvances
  | @drop disk h table before huses ih =>
    refine ih.restrict fun path => ?_
    exact (dropTable_datasets h table disk path).imp_right fun hdropped => hdropped.2.2

/-- **Vectors agree with text.**  In every run whose steps meet the condition, a write that returns
leaves, for every auto-embedding column of its table, exactly the vectors of the text of every row
that is there: what a reader in the session is answered has them chunk by chunk, and no others. -/
theorem vectors_agree_with_text {disk : Disk} (hreached : Reached W root E disk)
    (hE : E.Numbered) {h : LanceStore} (huses : Uses root E h) {w : Write}
    (hmeets : Meets W root h disk.datasets w) {answer : Answer} {disk' : Disk}
    (hrun : (h.perform W w.op).run disk = .ok answer disk') {d : Dataset}
    (hd : disk'.datasets (h.place W w.table) = some d) {column : Text}
    (hcolumn : column ∈ d.schema.autoEmbeddingColumns) {g : LanceStore} (halike : Alike g h)
    {vectors : List RowVector} (hanswers : Answers W g disk'.datasets w.table column vectors) :
    InAgreement E d column vectors := by
  obtain ⟨committedRows, hcommits, -, hopens, hreconciles⟩ := perform_write_ok hrun
  have hplace : h.place W w.table = placeIn W root w.table := by
    rw [← huses.root]
    rfl
  have hopened := hopens.1
  rw [hplace] at hopened hd
  obtain ⟨-, hthere, hagreed⟩ := (hreached.coherent.commits huses hmeets hcommits).reconcileEach
    huses hopened (fun _ hname => hname) hreconciles
  cases hthere.symm.trans hd
  exact (hagreed column hcolumn g vectors halike hanswers).inAgreement hE

end Runs

/-! ## A table that is dropped and created again -/

/-- An embedder whose one vector for a text is the text's length, in every component. -/
def lengths : Embedder where
  embedPassage := fun text => .ok [List.replicate VECTOR_WIDTH (UInt32.ofNat text.length)]
  embedQuery := fun text => .ok (List.replicate VECTOR_WIDTH (UInt32.ofNat text.length))

theorem lengths_numbered : lengths.Numbered := by
  rintro text embeddings hembed
  cases hembed
  change 1 ≤ 2 ^ 32
  omega

/-- A writing handle that embeds with it. -/
def writer : LanceStore := (LanceStore.openForWriting "db".toList).embedding lengths

/-- One row with a text. -/
def appendDocs (text : Text) : Write := .append "docs".toList ⟨embeddedText, [[.utf8 text]]⟩

/-- Disks on the way: the table is created, gets a row, is dropped and is created again. -/
def created : Disk :=
  final ((writer.createTable .plain "docs".toList ⟨embeddedText, .none⟩).run Disk.empty)

def written : Disk := final ((writer.perform .plain (appendDocs "a".toList).op).run created)

def dropped : Disk := final ((writer.dropTable .plain "docs".toList).run written)

def again : Disk :=
  final ((writer.createTable .plain "docs".toList ⟨embeddedText, .none⟩).run dropped)

set_option maxRecDepth 8000 in
theorem written_run :
    (writer.perform .plain (appendDocs "a".toList).op).run created = .ok .done written := rfl

set_option maxRecDepth 8000 in
theorem again_table :
    again.datasets (writer.place .plain "docs".toList) =
      some (.create (Compression.none.appliedTo embeddedText)) :=
  rfl

set_option maxRecDepth 8000 in
theorem again_vectors : ∃ c,
    again.datasets (writer.place .plain (vectorTable "docs".toList "text".toList)) = some c ∧
      stored "docs".toList c = .ok [⟨0, 0, List.replicate VECTOR_WIDTH 1⟩] := ⟨_, rfl, rfl⟩

theorem places_apart : writer.place .plain (vectorTable "docs".toList "text".toList) ≠
    writer.place .plain "docs".toList := by decide

set_option maxRecDepth 8000 in
/-- The vectors of the dropped table are those of the new one. -/
theorem dropped_vectors_return : ∃ created written dropped again rewritten : Disk, ∃ answer,
    (writer.createTable .plain "docs".toList ⟨embeddedText, .none⟩).run Disk.empty =
      .ok ⟨⟩ created ∧
    (writer.perform .plain (appendDocs "a".toList).op).run created = .ok .done written ∧
    (writer.dropTable .plain "docs".toList).run written = .ok ⟨⟩ dropped ∧
    (writer.createTable .plain "docs".toList ⟨embeddedText, .none⟩).run dropped =
      .ok ⟨⟩ again ∧
    (writer.perform .plain (appendDocs "bb".toList).op).run again = .ok answer rewritten ∧
    rowsOf .plain writer rewritten.datasets "docs".toList = [⟨0, [.utf8 "bb".toList]⟩] ∧
    lengths.embedPassage "bb".toList = .ok [List.replicate VECTOR_WIDTH 2] ∧
    (writer.vectorsOf .plain "docs".toList "text".toList).run rewritten =
      .ok [⟨0, 0, List.replicate VECTOR_WIDTH 1⟩] rewritten := by
  let rows := (Dataset.create (Compression.none.appliedTo embeddedText)).add Format.plain
    [[.utf8 "bb".toList]]
  let after := committed .plain writer again.datasets (appendDocs "bb".toList) rows
  obtain ⟨c, hc, hstored⟩ := again_vectors
  have hcompanion : Opens .plain writer after (vectorTable "docs".toList "text".toList) c :=
    ⟨(Function.update_of_ne places_apart _ _).trans hc, rfl⟩
  have hreads : ReadsVectors .plain writer after "docs".toList "text".toList
      [⟨0, 0, List.replicate VECTOR_WIDTH 1⟩] :=
    ⟨rfl, c, _, hcompanion, fun _ _ => rfl, hstored, (List.mergeSort_singleton _).symm⟩
  have hopens : Opens .plain writer after "docs".toList rows :=
    ⟨Function.update_self _ _ _, rfl⟩
  -- the row has the identity that the dropped table's row had
  have hreconciles : ReconcilesTo .plain writer "docs".toList "text".toList after after :=
    ⟨lengths, rows, _, [(0, "bb".toList)],
      ⟨rfl, .inl ⟨⟨c, hcompanion⟩, hreads⟩, hopens, fun _ _ => rfl, rfl⟩, .inl ⟨rfl, rfl⟩⟩
  have hcommits : Commits .plain writer again.datasets (appendDocs "bb".toList) rows :=
    ⟨rfl, rfl, rfl, by rw [again_table]; rfl⟩
  have hwrites : Writes .plain writer again (appendDocs "bb".toList) after :=
    ⟨rows, hcommits, nofun, hopens, .cons hreconciles (.nil _)⟩
  obtain ⟨answer, rewritten, hrun, hafter⟩ := perform_write_run hwrites
  refine ⟨created, written, dropped, again, rewritten, answer, rfl, written_run, rfl, rfl, hrun,
    ?_, rfl, vectorsOf_ok.2 ⟨?_, rfl⟩⟩
  · unfold rowsOf
    rw [hafter, hopens.1]
    rfl
  · rw [hafter]
    exact hreads

/-! ## The first write to a new table -/

/-- Two tables of the database live in one place only when they have one name. -/
theorem placeIn_plain {table table' : Text}
    (hplace : placeIn .plain "db".toList table = placeIn .plain "db".toList table') :
    table = table' := by
  have hjoined := congrArg (List.intercalate ['/']) hplace
  unfold placeIn place datasetPath World.plain Format.plain at hjoined
  dsimp only at hjoined
  rw [List.intercalate_splitOn, List.intercalate_splitOn] at hjoined
  have hroot : ∀ name : Text, joinPath "db".toList name =
      if name.head? = some '/' then name else "db/".toList ++ name := by
    intro name
    have hdb : ¬ ("db".toList = [] ∨ "db".toList.getLast? = some '/') := by decide
    unfold joinPath
    rw [if_neg hdb]
    rfl
  have hnames : table ++ ".lance".toList = table' ++ ".lance".toList := by
    change joinPath "db".toList _ = joinPath "db".toList _ at hjoined
    rw [hroot, hroot] at hjoined
    split_ifs at hjoined with habsolute habsolute'
    · exact hjoined
    · rw [hjoined] at habsolute
      exact absurd habsolute (by simp)
    · rename_i habsolute'
      rw [← hjoined] at habsolute'
      exact absurd habsolute' (by simp)
    · exact List.append_cancel_left hjoined
  exact List.append_cancel_right hnames

theorem created_datasets : created.datasets =
    Function.update Disk.empty.datasets (placeIn .plain "db".toList "docs".toList)
      (some (.create (Compression.none.appliedTo embeddedText))) := rfl

theorem created_columns {table column : Text}
    (hhas : HasColumn .plain "db".toList created.datasets table column) :
    table = "docs".toList ∧ column = "text".toList := by
  rw [created_datasets, hasColumn_update] at hhas
  split_ifs at hhas with hplace
  · exact ⟨placeIn_plain hplace, List.mem_singleton.1 hhas⟩
  · obtain ⟨d, hd, -⟩ := hhas
    cases hd

theorem docs_free : Free .plain "db".toList Disk.empty.datasets "docs".toList
    (Compression.none.appliedTo embeddedText) := by
  refine ⟨?_, fun table' column _ _ => vectorless_none⟩
  rw [← created_datasets]
  intro table column hhas table' column' hhas'
  obtain ⟨rfl, rfl⟩ := created_columns hhas
  obtain ⟨rfl, rfl⟩ := created_columns hhas'
  exact ⟨places_apart.symm, fun _ => ⟨rfl, rfl⟩⟩

theorem writer_uses : Uses "db".toList lengths writer := by
  refine ⟨rfl, fun embedder hembedder => ?_⟩
  cases hembedder
  rfl

theorem created_meets :
    Meets .plain "db".toList writer created.datasets (appendDocs "a".toList) := by
  intro d hcommits
  constructor
  · intro table column hhas
    obtain ⟨rfl, rfl⟩ := created_columns hhas
    exact places_apart.symm
  · intro hnone
    rw [created_datasets] at hnone
    cases (Function.update_self _ _ _).symm.trans hnone

set_option maxRecDepth 8000 in
theorem written_table : written.datasets (writer.place .plain "docs".toList) =
    some ((Dataset.create (Compression.none.appliedTo embeddedText)).add Format.plain
      [[.utf8 "a".toList]]) := rfl

set_option maxRecDepth 8000 in
theorem written_vectors : ∃ c,
    written.datasets (writer.place .plain (vectorTable "docs".toList "text".toList)) = some c ∧
      stored "docs".toList c = .ok [⟨0, 0, List.replicate VECTOR_WIDTH 1⟩] := ⟨_, rfl, rfl⟩

set_option maxRecDepth 8000 in
/-- The first row's vector is that of its text. -/
theorem first_row_agrees :
    (writer.vectorsOf .plain "docs".toList "text".toList).run written =
        .ok [⟨0, 0, List.replicate VECTOR_WIDTH 1⟩] written ∧
      InAgreement lengths ((Dataset.create (Compression.none.appliedTo embeddedText)).add
        Format.plain [[.utf8 "a".toList]]) "text".toList
        [⟨0, 0, List.replicate VECTOR_WIDTH 1⟩] := by
  obtain ⟨c, hc, hstored⟩ := written_vectors
  have hreads : ReadsVectors .plain writer written.datasets "docs".toList "text".toList
      [⟨0, 0, List.replicate VECTOR_WIDTH 1⟩] :=
    ⟨rfl, c, _, ⟨hc, rfl⟩, fun _ _ => rfl, hstored, (List.mergeSort_singleton _).symm⟩
  refine ⟨vectorsOf_ok.2 ⟨hreads, rfl⟩, ?_⟩
  have hreached : Reached .plain "db".toList lengths created :=
    .create .empty writer_uses fun _ => docs_free
  have hcolumn : "text".toList ∈ ((Dataset.create (Compression.none.appliedTo embeddedText)).add
      Format.plain [[.utf8 "a".toList]]).schema.autoEmbeddingColumns := by decide
  have hanswers : Answers .plain writer written.datasets "docs".toList "text".toList
      [⟨0, 0, List.replicate VECTOR_WIDTH 1⟩] := .inl hreads
  exact vectors_agree_with_text hreached lengths_numbered writer_uses created_meets written_run
    written_table hcolumn ⟨rfl, rfl⟩ hanswers

end EuleDB.Store
