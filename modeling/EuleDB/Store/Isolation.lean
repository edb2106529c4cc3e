import EuleDB.Store.Auditing
import EuleDB.Store.VectorRuns

/-!
# Tables side by side

Tables and the companions that hold their columns' vectors live in one directory, each under a
path made from its name.  Two tables are apart as long as these paths are.

* `Collides` — an operation changes what is under a path: it commits there, writes vectors there or
  drops a directory that the path is in.
* `perform_elsewhere` — what an operation does not collide with is as it was.
* `tables_undisturbed` — in every run that collides with none of a table's paths, the table and its
  vectors are as they were.
-/

set_option autoImplicit false

namespace EuleDB.Store

open Crypto Audit Effect LanceStore

/-- What there is to see under a path: a schema and rows. -/
def contents (d? : Option Dataset) : Option (Schema × List Row) :=
  d?.map fun d => (d.schema, d.rows)

/-- The same is to be seen under a path. -/
def SameAt (path : Path) (disk disk' : Disk) : Prop :=
  contents (disk'.datasets path) = contents (disk.datasets path)

instance (path : Path) : Std.Refl (SameAt path) := ⟨fun _ => rfl⟩

instance (path : Path) : IsTrans Disk (SameAt path) := ⟨fun _ _ _ h h' => h'.trans h⟩

theorem SameAt.of_datasets {path : Path} {disk disk' : Disk}
    (hsame : disk'.datasets path = disk.datasets path) : SameAt path disk disk' :=
  congrArg contents hsame

/-- The vectors under a path are a matter of the schema and the rows. -/
theorem SameAt.storedIn {path : Path} {disk disk' : Disk} (hsame : SameAt path disk disk')
    {found : List RowVector} (hfound : StoredIn (disk.datasets path) found) :
    StoredIn (disk'.datasets path) found := by
  unfold SameAt contents at hsame
  rcases hfound with ⟨hnone, hnil⟩ | ⟨d, table, hd, hstored⟩
  · rw [hnone] at hsame
    exact .inl ⟨Option.map_eq_none_iff.1 hsame, hnil⟩
  · rw [hd] at hsame
    obtain ⟨d', hd', heq⟩ := Option.map_eq_some_iff.1 hsame
    obtain ⟨hschema, hrows⟩ := Prod.mk.inj heq
    refine .inr ⟨d', table, hd', ?_⟩
    unfold stored at hstored ⊢
    rwa [hschema, hrows]

variable {W : World} {h : LanceStore}

/-! ## What an operation collides with -/

/-- A write commits to a path, or writes a column's vectors there. -/
def CollidesWrite (W : World) (h : LanceStore) (disk : Disk) (w : Write) (path : Path) : Prop :=
  ((∃ d, Commits W h disk.datasets w d) ∧ h.place W w.table = path) ∨
    RewritesVectors W h disk w fun column => h.place W (vectorTable w.table column) = path

/-- An operation changes what is under a path. -/
def Collides (W : World) (h : LanceStore) (disk : Disk) : Op → Path → Prop
  | .createTable table definition, path =>
    Creates W h disk.datasets table definition ∧ h.place W table = path
  | .append table batch, path => CollidesWrite W h disk (.append table batch) path
  | .update table predicate assignments, path =>
    CollidesWrite W h disk (.update table predicate assignments) path
  | .delete table predicate, path => CollidesWrite W h disk (.delete table predicate) path
  | .dropTable table, path => Drops W h disk table ∧ (h.place W table).isPrefixOf path
  | _, _ => False

namespace LanceStore

/-! ## Reading and indexing -/

section Keeps

variable {path : Path}

theorem record_sameAt (op : Operation) (rows : UInt64) :
    Keeps (SameAt path) (h.record W op rows) := by
  intro disk
  exact SameAt.of_datasets (congrFun (h.record_datasets op rows disk) path)

theorem scan_sameAt (table : Text) : Keeps (SameAt path) (h.scan W table) :=
  Keeps.look (h.requireScope_keeps W _ _) fun _ => Keeps.look (h.open_keeps W _) fun _ =>
    Keeps.look (h.collect_keeps W _ _ _ _) fun _ => (record_sameAt _ _).bind fun _ => Keeps.pure _

theorem nearest_sameAt (table column : Text) (query : List UInt32) (limit : Nat) :
    Keeps (SameAt path) (h.nearest W table column query limit) := by
  refine Keeps.look (h.requireScope_keeps W _ _) fun _ => ?_
  split_ifs
  · exact Keeps.throw _
  · refine Keeps.look (h.open_keeps W _) fun d => Keeps.look (ask_keeps W _ _ _ _) fun _ => ?_
    refine Keeps.look (ask_keeps W _ _ _ _) fun _ => Keeps.look (ask_keeps W _ _ _ _) fun _ => ?_
    refine Keeps.look (Keeps.ofExcept _) fun found => ?_
    exact (record_sameAt _ _).bind fun _ => Keeps.pure _

theorem searchText_sameAt (table column query : Text) (limit : Nat) :
    Keeps (SameAt path) (h.searchText W table column query limit) := by
  refine Keeps.look (h.requireScope_keeps W _ _) fun _ => Keeps.look (h.open_keeps W _) fun d => ?_
  refine Keeps.look (ask_keeps W _ _ _ _) fun _ => Keeps.look (ask_keeps W _ _ _ _) fun _ => ?_
  refine Keeps.look (ask_keeps W _ _ _ _) fun _ => Keeps.look (ask_keeps W _ _ _ _) fun _ => ?_
  refine Keeps.look (ask_keeps W _ _ _ _) fun _ => ?_
  exact (record_sameAt _ _).bind fun _ => Keeps.pure _

theorem hybridSearch_sameAt (table column text : Text) (vector : List UInt32) (limit : Nat) :
    Keeps (SameAt path) (h.hybridSearch W table column text vector limit) := by
  refine Keeps.look (h.requireScope_keeps W _ _) fun _ => ?_
  refine (nearest_sameAt _ _ _ _).bind fun semantic => ?_
  refine (searchText_sameAt _ _ _ _).bind fun lexical => ?_
  refine Keeps.look (h.open_keeps W _) fun d => Keeps.look (ask_keeps W _ _ _ _) fun _ => ?_
  exact (record_sameAt _ _).bind fun _ => Keeps.pure _

/-- What is done with a dataset that opens keeps what it keeps from there. -/
theorem open_sameAt {α : Type} {table : Text} {f : Dataset → StoreM α}
    (hf : ∀ disk d, disk.datasets (h.place W table) = some d →
      SameAt path disk (final ((f d).run disk))) : Keeps (SameAt path) (h.open W table >>= f) := by
  intro disk
  rcases (h.open_keeps W table).look_at with hsame | ⟨d, hopen, hrest⟩
  · rw [hsame]
    exact Std.Refl.refl disk
  · rw [hrest]
    exact hf disk d (open_ok.1 hopen).1.1

/-- An index is kept beside a table's schema and rows. -/
theorem commit_index_sameAt {table column : Text} {kind : IndexKind} {disk : Disk} {d : Dataset}
    (hd : disk.datasets (h.place W table) = some d) :
    SameAt path disk (disk.put (h.place W table) (some (d.index column kind))) := by
  by_cases hpath : path = h.place W table
  · subst hpath
    unfold SameAt
    rw [Disk.put_self, hd]
    rfl
  · exact SameAt.of_datasets (Disk.put_of_ne _ _ hpath)

theorem createIndex_sameAt (table column : Text) :
    Keeps (SameAt path) (h.createIndex W table column) := by
  refine Keeps.look (h.requireScope_keeps W _ _) fun _ => ?_
  refine Keeps.look (h.requireWriteRole_keeps _ _) fun _ => open_sameAt fun disk d hd => ?_
  rcases (ask_keeps W _ _ _ _).look_at with hsame | ⟨_, -, hrest⟩
  · rw [hsame]
    exact Std.Refl.refl disk
  · rw [hrest]
    exact commit_index_sameAt hd

theorem createVectorIndex_sameAt (table column : Text) (kind : VectorIndexKind) :
    Keeps (SameAt path) (h.createVectorIndex W table column kind) := by
  refine Keeps.look (h.requireScope_keeps W _ _) fun _ => ?_
  refine Keeps.look (h.requireWriteRole_keeps _ _) fun _ => open_sameAt fun disk d hd => ?_
  rcases (ask_keeps W _ _ _ _).look_at with hsame | ⟨_, -, hrest⟩
  · rw [hsame]
    exact Std.Refl.refl disk
  · rw [hrest]
    exact IsTrans.trans _ _ _ (commit_index_sameAt hd) (record_sameAt _ _ _)

theorem createTextIndex_sameAt (table column : Text) (language : StemmingLanguage) :
    Keeps (SameAt path) (h.createTextIndex W table column language) := by
  refine Keeps.look (h.requireScope_keeps W _ _) fun _ => ?_
  refine Keeps.look (h.requireWriteRole_keeps _ _) fun _ => open_sameAt fun disk d hd => ?_
  rcases (ask_keeps W _ _ _ _).look_at with hsame | ⟨_, -, hrest⟩
  · rw [hsame]
    exact Std.Refl.refl disk
  rw [hrest]
  rcases (ask_keeps W _ _ _ _).look_at with hsame | ⟨_, -, hrest⟩
  · rw [hsame]
    exact Std.Refl.refl disk
  · rw [hrest]
    exact IsTrans.trans _ _ _ (commit_index_sameAt hd) (record_sameAt _ _ _)

end Keeps

/-! ## Writing -/

/-- A path that no column of a table writes its vectors to is as it was. -/
theorem ReconcilesEach.untouched {table : Text} {S : Text → Prop} {path : Path}
    {columns : List Text} {datasets datasets' : Datasets}
    (hreconciles : ReconcilesEach W h table columns datasets datasets')
    (hS : ∀ column, h.place W (vectorTable table column) = path → S column)
    (hwrites : ¬ WritesSome W h table S columns datasets) : datasets' path = datasets path := by
  induction hreconciles with
  | nil => rfl
  | @cons column columns datasets middle datasets' hfirst hrest ih =>
    have hkept : middle path = datasets path := by
      by_cases hpath : h.place W (vectorTable table column) = path
      · have hsettled := hfirst.settled fun hhere => hwrites (.here (hS column hpath) hhere)
        rw [hsettled.1]
      · exact hfirst.elsewhere (Ne.symm hpath)
    rw [ih fun hlater => hwrites (.later hfirst hlater), hkept]

theorem write_elsewhere {w : Write} {disk : Disk} {path : Path}
    (hclear : ¬ CollidesWrite W h disk w path) :
    (final ((h.perform W w.op).run disk)).datasets path = disk.datasets path := by
  have hcommitted : ∀ d, Commits W h disk.datasets w d →
      committed W h disk.datasets w d path = disk.datasets path := by
    intro d hcommits
    refine Function.update_of_ne ?_ _ _
    rintro rfl
    exact hclear (.inl ⟨⟨d, hcommits⟩, rfl⟩)
  have huntouched : ∀ {d done datasets'}, Commits W h disk.datasets w d → Records W h disk.log →
      Opens W h (committed W h disk.datasets w d) w.table d →
        done <+: d.schema.autoEmbeddingColumns →
          ReconcilesEach W h w.table done (committed W h disk.datasets w d) datasets' →
            datasets' path = disk.datasets path := by
    intro d done datasets' hcommits hrecords hopens hdone hreconciles
    rw [hreconciles.untouched (fun _ hpath => hpath) fun hwrites =>
      hclear (.inr ⟨d, hcommits, hrecords, hopens, hwrites.prefix hdone⟩), hcommitted d hcommits]
  cases hrun : (h.perform W w.op).run disk with
  | ok answer disk' =>
    obtain ⟨d, hcommits, hrecords, hopens, hreconciles⟩ := perform_write_ok hrun
    exact huntouched hcommits hrecords hopens List.prefix_rfl hreconciles
  | error e disk' =>
    rcases perform_write_stops hrun with ⟨hsame, -⟩ | ⟨d, hcommits, hsame | hcolumns⟩
    · exact congrFun hsame path
    · exact (congrFun hsame path).trans (hcommitted d hcommits)
    · obtain ⟨hrecords, hopens, done, hdone, hreconciles⟩ := hcolumns
      exact huntouched hcommits hrecords hopens hdone hreconciles

end LanceStore

/-- **What an operation does not collide with** is as it was. -/
theorem perform_elsewhere {op : Op} {disk : Disk} {path : Path}
    (hclear : ¬ Collides W h disk op path) :
    SameAt path disk (final ((h.perform W op).run disk)) := by
  have hread : ∀ {α : Type} {x : StoreM α} {g : α → Answer}, Keeps (SameAt path) x →
      SameAt path disk (final ((g <$> x).run disk)) := by
    intro α x g hx
    exact hx.map g disk
  have hlook : ∀ {α : Type} {x : StoreM α} {g : α → Answer}, Keeps Unchanged x →
      SameAt path disk (final ((g <$> x).run disk)) := by
    intro α x g hx
    rw [map_eq_pure_bind]
    exact Keeps.look hx (fun _ => Keeps.pure _) disk
  have hdone : ∀ {x : StoreM PUnit}, SameAt path disk (final (x.run disk)) →
      SameAt path disk (final ((x >>= fun _ => pure Answer.done).run disk)) := by
    intro x hx
    rw [EStateM.run_bind]
    cases hrun : x.run disk with
    | ok u disk' =>
      rw [hrun] at hx
      exact hx
    | error e disk' =>
      rw [hrun] at hx
      exact hx
  cases op with
  | createTable table definition =>
    refine hdone (SameAt.of_datasets ?_)
    rcases createTable_datasets h table definition disk with hsame | ⟨hcreates, hcreated⟩
    · rw [hsame]
    · rw [hcreated]
      refine Function.update_of_ne ?_ _ _
      rintro rfl
      exact hclear ⟨hcreates, rfl⟩
  | append table batch => exact SameAt.of_datasets (write_elsewhere hclear)
  | update table predicate assignments => exact SameAt.of_datasets (write_elsewhere hclear)
  | delete table predicate => exact SameAt.of_datasets (write_elsewhere hclear)
  | dropTable table =>
    refine hdone (SameAt.of_datasets ?_)
    rcases dropTable_datasets h table disk path with hsame | ⟨hdrops, hprefix, -⟩
    · exact hsame
    · exact absurd ⟨hdrops, hprefix⟩ hclear
  | scan table => exact hread (scan_sameAt _)
  | scanOrdered table predicate by' order => exact hlook (h.scanOrdered_keeps W _ _ _ _)
  | scanOrderedMeasured table predicate by' order =>
    exact hlook (h.scanOrderedMeasured_keeps W _ _ _ _)
  | rowIds table predicate => exact hlook (h.rowIds_keeps W _ _)
  | rowIdsMeasured table predicate => exact hlook (h.rowIdsMeasured_keeps W _ _)
  | rowIdsAll table matching => exact hlook (h.rowIdsAll_keeps W _ _)
  | rowIdsAny table matching => exact hlook (h.rowIdsAny_keeps W _ _)
  | filteredSearch table filter source limit => exact hlook (h.filteredSearch_keeps W _ _ _ _)
  | vectorsOf table column => exact hlook (h.vectorsOf_keeps W _ _)
  | nearest table column query limit => exact hread (nearest_sameAt _ _ _ _)
  | searchText table column query limit => exact hread (searchText_sameAt _ _ _ _)
  | hybridSearch table column text vector limit => exact hread (hybridSearch_sameAt _ _ _ _ _)
  | createIndex table column => exact hdone (createIndex_sameAt _ _ _)
  | createVectorIndex table column kind => exact hdone (createVectorIndex_sameAt _ _ _ _)
  | createTextIndex table column language => exact hdone (createTextIndex_sameAt _ _ _ _)
  | vectorIndexKind table column => exact hlook (h.vectorIndexKind_keeps W _ _)
  | nearestUsesTheIndex table column query limit =>
    exact hlook (h.nearestUsesTheIndex_keeps W _ _ _ _)

/-! ## Runs -/

/-- Operations one after the other, each through a handle of its own. -/
def performEach (W : World) : List (LanceStore × Op) → Disk → Disk
  | [], disk => disk
  | (h, op) :: steps, disk => performEach W steps (final ((h.perform W op).run disk))

/-- The paths of a table: its own, and those of its columns' vectors. -/
def PathOf (W : World) (root table : Text) (d : Dataset) (path : Path) : Prop :=
  path = placeIn W root table ∨
    ∃ column ∈ d.schema.autoEmbeddingColumns, path = companionIn W root table column

/-- No step of a run collides with a path. -/
def KeepsClear (W : World) (steps : List (LanceStore × Op)) (disk : Disk) (path : Path) : Prop :=
  ∀ before step after, steps = before ++ step :: after →
    ¬ Collides W step.1 (performEach W before disk) step.2 path

theorem KeepsClear.sameAt {steps : List (LanceStore × Op)} {disk : Disk} {path : Path}
    (hclear : KeepsClear W steps disk path) : SameAt path disk (performEach W steps disk) := by
  induction steps generalizing disk with
  | nil => exact Std.Refl.refl disk
  | cons step steps ih =>
    obtain ⟨h, op⟩ := step
    have hfirst : SameAt path disk (final ((h.perform W op).run disk)) :=
      perform_elsewhere (hclear [] (h, op) steps rfl)
    refine IsTrans.trans _ _ _ hfirst (ih fun before step after hsplit => ?_)
    exact hclear ((h, op) :: before) step after (by rw [hsplit]; rfl)

/-- **Tables do not disturb each other** in a run that keeps clear of the other's paths: its schema
and its rows are as they were, and so are the vectors of its auto-embedding columns. -/
theorem tables_undisturbed {root second : Text} {steps : List (LanceStore × Op)} {disk : Disk}
    {d : Dataset} (hd : disk.datasets (placeIn W root second) = some d)
    (hclear : ∀ path, PathOf W root second d path → KeepsClear W steps disk path) :
    (∃ d', (performEach W steps disk).datasets (placeIn W root second) = some d' ∧
        d'.schema = d.schema ∧ d'.rows = d.rows) ∧
      ∀ column ∈ d.schema.autoEmbeddingColumns, ∀ found,
        StoredIn (disk.datasets (companionIn W root second column)) found ↔
          StoredIn ((performEach W steps disk).datasets (companionIn W root second column)) found := by
  constructor
  · have hsame := (hclear _ (.inl rfl)).sameAt
    unfold SameAt contents at hsame
    rw [hd] at hsame
    obtain ⟨d', hd', heq⟩ := Option.map_eq_some_iff.1 hsame
    obtain ⟨hschema, hrows⟩ := Prod.mk.inj heq
    exact ⟨d', hd', hschema, hrows⟩
  · intro column hcolumn found
    have hsame := (hclear _ (.inr ⟨column, hcolumn, rfl⟩)).sameAt
    have hback : SameAt (companionIn W root second column) (performEach W steps disk) disk :=
      Eq.symm hsame
    exact ⟨hsame.storedIn, hback.storedIn⟩

/-- An operation collides with nothing but its table's directory and its columns' companions. -/
theorem Collides.near {op : Op} {disk : Disk} {path : Path}
    (hcollides : Collides W h disk op path) :
    (h.place W op.table).isPrefixOf path ∨
      ∃ column, h.place W (vectorTable op.table column) = path := by
  have hwrite : ∀ w, CollidesWrite W h disk w path → (h.place W w.table).isPrefixOf path ∨
      ∃ column, h.place W (vectorTable w.table column) = path := by
    rintro w (⟨-, rfl⟩ | ⟨d, -, -, -, hwrites⟩)
    · exact .inl (List.isPrefixOf_iff_prefix.2 List.prefix_rfl)
    · exact .inr hwrites.column
  cases op with
  | createTable table definition =>
    obtain ⟨-, rfl⟩ := hcollides
    exact .inl (List.isPrefixOf_iff_prefix.2 List.prefix_rfl)
  | append table batch => exact hwrite _ hcollides
  | update table predicate assignments => exact hwrite _ hcollides
  | delete table predicate => exact hwrite _ hcollides
  | dropTable table => exact .inl hcollides.2
  | _ => cases hcollides

/-- Names that keep tables apart: no operation on the first collides with a path that is neither in
its directory nor that of one of its companions. -/
theorem KeepsClear.of_names {root first : Text} {steps : List (LanceStore × Op)} {disk : Disk}
    {path : Path} (hsteps : ∀ step ∈ steps, step.1.root = root ∧ step.2.table = first)
    (hdirectory : ¬ (placeIn W root first).isPrefixOf path)
    (hcompanion : ∀ column, companionIn W root first column ≠ path) :
    KeepsClear W steps disk path := by
  intro before step after hsplit hcollides
  obtain ⟨rfl, rfl⟩ := hsteps step (by simp [hsplit])
  rcases hcollides.near with hprefix | ⟨column, hpath⟩
  · exact hdirectory hprefix
  · exact hcompanion column hpath

/-! ## A table under a companion's name -/

/-- A table is made, and a row with a text appended to it. -/
def docsSteps : List (LanceStore × Op) :=
  [(writer, .createTable "docs".toList ⟨embeddedText, .none⟩), (writer, (appendDocs "a".toList).op)]

/-- Another table, with a row and its vector. -/
def filledNotes : Disk :=
  final ((writer.perform .plain (Write.append "notes".toList
    ⟨embeddedText, [[.utf8 "bb".toList]]⟩).op).run
      (final ((writer.createTable .plain "notes".toList ⟨embeddedText, .none⟩).run Disk.empty)))

set_option maxRecDepth 8000 in
theorem filledNotes_table : filledNotes.datasets (placeIn .plain "db".toList "notes".toList) =
    some ((Dataset.create (Compression.none.appliedTo embeddedText)).add Format.plain
      [[.utf8 "bb".toList]]) := rfl

set_option maxRecDepth 8000 in
theorem filledNotes_vectors : StoredIn (filledNotes.datasets
    (companionIn .plain "db".toList "notes".toList "text".toList))
      [⟨0, 0, List.replicate VECTOR_WIDTH 2⟩] := .inr ⟨_, [], rfl, rfl⟩

/-- A table of another name is not disturbed. -/
theorem notes_undisturbed :
    (∃ d', (performEach .plain docsSteps filledNotes).datasets
        (placeIn .plain "db".toList "notes".toList) = some d' ∧
          d'.schema = Compression.none.appliedTo embeddedText ∧
          d'.rows = [⟨0, [.utf8 "bb".toList]⟩]) ∧
      StoredIn ((performEach .plain docsSteps filledNotes).datasets
        (companionIn .plain "db".toList "notes".toList "text".toList))
          [⟨0, 0, List.replicate VECTOR_WIDTH 2⟩] := by
  have hsteps : ∀ step ∈ docsSteps, step.1.root = "db".toList ∧ step.2.table = "docs".toList := by
    unfold docsSteps
    simp only [List.forall_mem_cons]
    exact ⟨⟨rfl, rfl⟩, ⟨rfl, rfl⟩, by simp⟩
  have hclear : ∀ path, PathOf .plain "db".toList "notes".toList
      ((Dataset.create (Compression.none.appliedTo embeddedText)).add Format.plain
        [[.utf8 "bb".toList]]) path → KeepsClear .plain docsSteps filledNotes path := by
    intro path hpath
    refine KeepsClear.of_names hsteps ?_ ?_
    · rcases hpath with rfl | ⟨column, hcolumn, rfl⟩
      · decide
      · cases List.mem_singleton.1 hcolumn
        decide
    · intro column hcompanion
      rcases hpath with rfl | ⟨name, hname, rfl⟩
      · cases placeIn_plain hcompanion
      · cases placeIn_plain hcompanion
  obtain ⟨htable, hvectors⟩ := tables_undisturbed filledNotes_table hclear
  exact ⟨htable, (hvectors "text".toList (List.mem_singleton_self _) _).1 filledNotes_vectors⟩

/-- Behind the table with the auto-embedding column there is one with the name of its companion. -/
def bothTables : Disk :=
  final ((writer.createTable .plain "docs.text.vectors".toList ⟨embeddedText, .none⟩).run created)

set_option maxRecDepth 8000 in
theorem bothTables_docs : bothTables.datasets (writer.place .plain "docs".toList) =
    some (.create (Compression.none.appliedTo embeddedText)) := rfl

set_option maxRecDepth 8000 in
theorem bothTables_other :
    bothTables.datasets (writer.place .plain (vectorTable "docs".toList "text".toList)) =
      some (.create (Compression.none.appliedTo embeddedText)) := rfl

set_option maxRecDepth 8000 in
/-- The vectors of a column replace a table that has the companion's name. -/
theorem vectors_replace_a_table : ∃ docs both after : Disk, ∃ answer d,
    (writer.createTable .plain "docs".toList ⟨embeddedText, .none⟩).run Disk.empty = .ok ⟨⟩ docs ∧
    (writer.createTable .plain "docs.text.vectors".toList ⟨embeddedText, .none⟩).run docs =
      .ok ⟨⟩ both ∧
    both.datasets (placeIn .plain "db".toList "docs.text.vectors".toList) =
      some (.create (Compression.none.appliedTo embeddedText)) ∧
    (writer.perform .plain (appendDocs "a".toList).op).run both = .ok answer after ∧
    after.datasets (placeIn .plain "db".toList "docs.text.vectors".toList) = some d ∧
    d.schema = vectorSchema ∧ vectorSchema ≠ Compression.none.appliedTo embeddedText ∧
    d.rows.length = 1 := by
  let other : Dataset := .create (Compression.none.appliedTo embeddedText)
  let rows := (Dataset.create (Compression.none.appliedTo embeddedText)).add Format.plain
    [[.utf8 "a".toList]]
  let middle := committed .plain writer bothTables.datasets (appendDocs "a".toList) rows
  let batch := vectorBatch [⟨0, 0, List.replicate VECTOR_WIDTH 1⟩]
  have hother : middle (writer.place .plain (vectorTable "docs".toList "text".toList)) =
      some other := (Function.update_of_ne places_apart _ _).trans bothTables_other
  have hreads : ReadsVectors .plain writer middle "docs".toList "text".toList [] :=
    ⟨rfl, other, [], ⟨hother, rfl⟩, fun _ _ => rfl, rfl, List.mergeSort_nil.symm⟩
  have hopens : Opens .plain writer middle "docs".toList rows := ⟨Function.update_self _ _ _, rfl⟩
  have hembeddable : Embeddable lengths "docs".toList [] [(0, "a".toList)] := by
    intro entry hentry
    cases List.mem_singleton.1 hentry
    refine ⟨[List.replicate VECTOR_WIDTH 1], rfl, fun embedding hembedding => ?_⟩
    cases List.mem_singleton.1 hembedding
    exact List.length_replicate
  -- the other table has no row, so it is taken for a companion without vectors
  have hreconciles : ReconcilesTo .plain writer "docs".toList "text".toList middle
      (Function.update middle (writer.place .plain (vectorTable "docs".toList "text".toList))
        (some (other.overwrite Format.plain batch))) := by
    refine ⟨lengths, rows, [], [(0, "a".toList)],
      ⟨rfl, .inl ⟨⟨other, hother, rfl⟩, hreads⟩, hopens, fun _ _ => rfl, rfl⟩,
      .inr ⟨by unfold Matching; decide, batch, rfl, hembeddable, rfl, ?_⟩⟩
    rw [hother]
    rfl
  have hcommits : Commits .plain writer bothTables.datasets (appendDocs "a".toList) rows :=
    ⟨rfl, rfl, rfl, by rw [bothTables_docs]; rfl⟩
  have hwrites : Writes .plain writer bothTables (appendDocs "a".toList)
      (Function.update middle (writer.place .plain (vectorTable "docs".toList "text".toList))
        (some (other.overwrite Format.plain batch))) :=
    ⟨rows, hcommits, nofun, hopens, .cons hreconciles (.nil _)⟩
  obtain ⟨answer, after, hrun, hafter⟩ := perform_write_run hwrites
  refine ⟨created, bothTables, after, answer, other.overwrite Format.plain batch, rfl, rfl, rfl,
    hrun, ?_, rfl, by decide, rfl⟩
  rw [hafter]
  exact Function.update_self _ _ _

end EuleDB.Store
