import EuleDB.Store.Compression
import EuleDB.Store.Isolation
import EuleDB.Store.Readers
import EuleDB.Store.Snapshots
import EuleDB.Store.Tables

/-!
# The storage layer keeps tables

Under names that lead to places of their own, a database's directory is a set of tables, and every
operation through any handle is a step of it: what it answers is what the tables say, and what it
leaves is what the operation makes of them.  A write that fails may have made its change.

* `Format.Means` — what the format makes of predicates, assignments and orders depends on a
  table's columns and a row's values.
* `NamesApart` — no table of these names lies in another's directory or where vectors are kept.
* `perform_step` — one operation; `CutOff` — what is left of one that is cut off.
* `Ran`, `history_run` — a run of them.
* `appends_are_whole` — what a run that only adds to a table leaves of its batches.
-/

set_option autoImplicit false

namespace EuleDB.Store

open Crypto Audit Effect LanceStore

/-- The format reads predicates, assignments and orders as `S` says. -/
structure Format.Means (F : Format) (S : Semantics) : Prop where
  selects : ∀ predicate d r,
    F.selects predicate d r = S.sat predicate (Compression.strippedFrom d.schema) r
  assigned : ∀ assignments d r,
    F.assigned assignments d r = S.assign assignments (Compression.strippedFrom d.schema) r
  sorted : ∀ by' order d rows,
    F.sorted by' order d rows = S.order by' order (Compression.strippedFrom d.schema) rows

/-- A dataset as its users know it. -/
def Dataset.table (d : Dataset) : Table := ⟨Compression.strippedFrom d.schema, d.rows, d.nodup⟩

/-- The tables of a database. -/
def tablesIn (W : World) (root : Text) (disk : Disk) : Tables := fun name =>
  (disk.datasets (placeIn W root name)).map Dataset.table

/-- Tables of these names do not lie in one another's directories, nor where the vectors of
one's columns are kept. -/
structure NamesApart (W : World) (root : Text) (names : Set Text) : Prop where
  directory : ∀ a ∈ names, ∀ b ∈ names, a ≠ b →
    ¬ (placeIn W root a).isPrefixOf (placeIn W root b)
  companion : ∀ a ∈ names, ∀ column, ∀ b ∈ names, companionIn W root a column ≠ placeIn W root b

variable {W : World} {h : LanceStore} {root : Text} {S : Semantics}

/-- What an operation replies; nothing where it fails. -/
def LanceStore.reply (W : World) (h : LanceStore) (op : Op) (disk : Disk) : Option Answer :=
  match (h.perform W op).run disk with
  | .ok answer _ => some answer
  | .error _ _ => none

namespace LanceStore

variable {op : Op} {disk disk' : Disk}

theorem reply_ok {answer : Answer} (hrun : (h.perform W op).run disk = .ok answer disk') :
    h.reply W op disk = some answer := by
  unfold reply
  rw [hrun]

theorem reply_error {e : Error} (hrun : (h.perform W op).run disk = .error e disk') :
    h.reply W op disk = none := by
  unfold reply
  rw [hrun]

theorem reply_map {α : Type} {x : StoreM α} {g : α → Answer} {answer : Answer}
    (hperform : h.perform W op = g <$> x) (hreply : h.reply W op disk = some answer) :
    ∃ a disk', x.run disk = .ok a disk' ∧ answer = g a := by
  cases hrun : (h.perform W op).run disk with
  | ok found disk' =>
    rw [reply_ok hrun] at hreply
    cases hreply
    rw [hperform, map_eq_pure_bind] at hrun
    obtain ⟨a, s1, hx, h1⟩ := bind_ok.1 hrun
    cases h1
    exact ⟨a, _, hx, rfl⟩
  | error e disk' =>
    rw [reply_error hrun] at hreply
    cases hreply

end LanceStore

/-- Where schema and rows are as they were, so is the table. -/
theorem SameAt.table {disk disk' : Disk} {name : Text}
    (hsame : SameAt (placeIn W root name) disk disk') :
    tablesIn W root disk' name = tablesIn W root disk name := by
  unfold SameAt contents at hsame
  unfold tablesIn
  cases hd : disk.datasets (placeIn W root name) with
  | none =>
    rw [hd, Option.map_none, Option.map_eq_none_iff] at hsame
    rw [hsame]
  | some d =>
    rw [hd] at hsame
    obtain ⟨d', hd', heq⟩ := Option.map_eq_some_iff.1 hsame
    obtain ⟨hschema, hrows⟩ := Prod.mk.inj heq
    rw [hd', Option.map_some, Option.map_some, Option.some.injEq]
    unfold Dataset.table
    simp only [hschema, hrows]

/-! ## Changes -/

/-- How many rows a write touches. -/
def touchedIn (W : World) (d? : Option Dataset) : Write → Nat
  | .append _ batch => batch.rows.length
  | .update _ predicate _ | .delete _ predicate =>
    ((d?.map fun d => d.rows.filter (W.format.selects predicate d)).getD []).length

theorem writeRows_touched {w : Write} {disk disk' : Disk} {n : Nat}
    (hrun : (h.writeRows W w).run disk = .ok n disk') :
    n = touchedIn W (disk.datasets (h.place W w.table)) w := by
  cases w with
  | append table batch => exact (appendRows_ok.1 hrun).1
  | update table predicate assignments =>
    change (h.updateRows W table predicate assignments).run disk = _ at hrun
    unfold updateRows at hrun
    obtain ⟨_, s1, hscope, h1⟩ := bind_ok.1 hrun
    obtain ⟨_, s2, hrole, h2⟩ := bind_ok.1 h1
    obtain ⟨-, rfl⟩ := requireScope_ok.1 hscope
    obtain ⟨-, rfl⟩ := requireWriteRole_ok.1 hrole
    split at h2
    · cases h2
    · obtain ⟨d, s3, hopen, h3⟩ := bind_ok.1 h2
      obtain ⟨hopens, rfl⟩ := open_ok.1 hopen
      obtain ⟨_, s4, -, h4⟩ := bind_ok.1 h3
      obtain ⟨_, s5, -, h5⟩ := bind_ok.1 h4
      obtain ⟨_, s6, -, h6⟩ := bind_ok.1 h5
      obtain ⟨_, s7, -, h7⟩ := bind_ok.1 h6
      cases h7
      have hplace : s3.datasets (h.place W table) = some d := hopens.1
      unfold touchedIn Write.table
      rw [hplace]
      rfl
  | delete table predicate =>
    change (h.deleteRows W table predicate).run disk = _ at hrun
    unfold deleteRows at hrun
    obtain ⟨_, s1, hscope, h1⟩ := bind_ok.1 hrun
    obtain ⟨_, s2, hrole, h2⟩ := bind_ok.1 h1
    obtain ⟨-, rfl⟩ := requireScope_ok.1 hscope
    obtain ⟨-, rfl⟩ := requireWriteRole_ok.1 hrole
    obtain ⟨d, s3, hopen, h3⟩ := bind_ok.1 h2
    obtain ⟨hopens, rfl⟩ := open_ok.1 hopen
    obtain ⟨_, s4, -, h4⟩ := bind_ok.1 h3
    obtain ⟨_, s5, -, h5⟩ := bind_ok.1 h4
    cases h5
    have hplace : s3.datasets (h.place W table) = some d := hopens.1
    unfold touchedIn Write.table
    rw [hplace]
    rfl

/-- Rows that are added are new. -/
theorem Dataset.add_gains {d : Dataset} {t : Table} {values : List (List Value)}
    (hschema : t.schema = Compression.strippedFrom d.schema)
    (hknown : ∀ r ∈ t.rows, r.id ∈ d.issued) :
    t.Gains d.rows values (d.add W.format values).table := by
  refine ⟨hschema.symm, numbered W.format d.issued values, rfl, numbered_values _ _ _, ?_⟩
  intro r hr old hold hsame
  exact (numbered_fresh W.format hr).2 (hsame ▸ hknown old hold)

/-- An appended batch is behind the rows that are there, in a new table where there is none. -/
theorem append_gains {t? : Option Dataset} {batch : Batch} {d' : Dataset}
    (hd' : d' = (t?.getD (.create batch.schema)).add W.format batch.rows) :
    ((t?.map Dataset.table).getD (.declared (Compression.strippedFrom batch.schema))).Gains
      ((t?.map Dataset.table).getD (.declared (Compression.strippedFrom batch.schema))).rows
      batch.rows d'.table := by
  subst hd'
  cases t? with
  | none => exact Dataset.add_gains (d := .create batch.schema) rfl (Dataset.create _).known
  | some d => exact Dataset.add_gains (d := d) rfl d.known

/-- The rows that the format selects are those that the predicate means, and it deletes them. -/
theorem Format.Means.selected (hmeans : W.format.Means S) (d : Dataset) (predicate : Text) :
    d.rows.filter (W.format.selects predicate d) = d.table.selected S predicate :=
  List.filter_congr fun r _ => hmeans.selects predicate d r

theorem Format.Means.unselected (hmeans : W.format.Means S) (d : Dataset) (predicate : Text) :
    (d.delete (W.format.selects predicate d)).rows = d.table.unselected S predicate :=
  List.filter_congr fun r _ => by rw [hmeans.selects]; rfl

/-- **The commit of a write** is the change that it makes of its table. -/
theorem LanceStore.Commits.changes (hmeans : W.format.Means S) {datasets : Datasets} {w : Write}
    {d' : Dataset} (hcommits : Commits W h datasets w d') :
    Changes S w.op ((datasets (h.place W w.table)).map Dataset.table)
      (w.answer (touchedIn W (datasets (h.place W w.table)) w)) (some d'.table) := by
  obtain ⟨-, -, hcommits⟩ := hcommits
  cases w with
  | append table batch => exact .append table batch (append_gains hcommits.2)
  | update table predicate assignments =>
    obtain ⟨-, d, ⟨hplace, -⟩, -, rfl⟩ := hcommits
    have hd : datasets (h.place W (Write.update table predicate assignments).table) = some d :=
      hplace
    rw [hd]
    unfold touchedIn Write.answer
    dsimp only [Option.map_some, Option.getD_some]
    rw [hmeans.selected]
    refine Changes.update table predicate assignments ?_
    have hassigned : (d.table.selected S predicate).map (S.assign assignments d.table.schema) =
        (d.rows.filter (W.format.selects predicate d)).map (W.format.assigned assignments d) := by
      rw [hmeans.selected]
      exact List.map_congr_left fun r _ => (hmeans.assigned assignments d r).symm
    rw [← hmeans.unselected, hassigned]
    exact Dataset.add_gains (d := d.delete (W.format.selects predicate d)) rfl d.known
  | delete table predicate =>
    obtain ⟨d, ⟨hplace, -⟩, -, rfl⟩ := hcommits
    have hd : datasets (h.place W (Write.delete table predicate).table) = some d := hplace
    rw [hd]
    unfold touchedIn Write.answer
    dsimp only [Option.map_some, Option.getD_some]
    rw [hmeans.selected]
    have hwithout : (d.delete (W.format.selects predicate d)).table =
        d.table.without S predicate := by
      unfold Dataset.table Table.without
      simp only [hmeans.unselected]
      rfl
    rw [hwithout]
    exact Changes.delete table predicate d.table

/-- The vectors of a table's columns are kept where the table is not. -/
theorem NamesApart.reconciled {names : Set Text} {w : Write} {datasets datasets' : Datasets}
    {d : Dataset} {done : List Text} (hapart : NamesApart W h.root names) (hname : w.table ∈ names)
    (hreconciles : ReconcilesEach W h w.table done (committed W h datasets w d) datasets') :
    (datasets' (h.place W w.table)).map Dataset.table = some d.table := by
  rw [hreconciles.untouched (fun _ hpath => hpath) fun hwrites => ?_]
  · unfold committed
    rw [Function.update_self, Option.map_some]
  · obtain ⟨column, hcolumn⟩ := hwrites.column
    exact hapart.companion _ hname column _ hname hcolumn

/-- As far as a write gets, its table is as it was or what its commit makes of it. -/
theorem NamesApart.advanced {names : Set Text} {w : Write} {disk disk' : Disk}
    (hapart : NamesApart W h.root names) (hname : w.table ∈ names)
    (hadvances : Advances W h disk.datasets w disk'.datasets) :
    tablesIn W h.root disk' w.table = tablesIn W h.root disk w.table ∨
      ∃ d, Commits W h disk.datasets w d ∧ tablesIn W h.root disk' w.table = some d.table := by
  rcases hadvances with hsame | ⟨d, hcommits, done, -, hreconciles⟩
  · exact .inl (congrArg (fun datasets => (datasets (h.place W w.table)).map Dataset.table) hsame)
  · exact .inr ⟨d, hcommits, hapart.reconciled hname hreconciles⟩

/-- A write changes its table, or fails and leaves it. -/
theorem write_here {names : Set Text} {w : Write} {disk : Disk} (hmeans : W.format.Means S)
    (hapart : NamesApart W h.root names) (hname : w.table ∈ names) :
    Tables.StepAt S w.op (tablesIn W h.root disk w.table)
      (h.reply W w.op disk)
      (tablesIn W h.root (final ((h.perform W w.op).run disk)) w.table) := by
  cases hrun : (h.perform W w.op).run disk with
  | ok reply disk' =>
    rw [reply_ok hrun]
    left
    obtain ⟨d, hcommits, -, -, hreconciles⟩ := perform_write_ok hrun
    rw [perform_write] at hrun
    obtain ⟨n, s1, hrows, h1⟩ := bind_ok.1 hrun
    obtain ⟨_, s2, -, h2⟩ := bind_ok.1 h1
    obtain ⟨_, s3, -, h3⟩ := bind_ok.1 h2
    cases h3
    have hafter : tablesIn W h.root disk' w.table = some d.table :=
      hapart.reconciled hname hreconciles
    rw [final_ok, hafter, writeRows_touched hrows]
    exact hcommits.changes hmeans
  | error e disk' =>
    rw [reply_error hrun]
    have hadvances : Advances W h disk.datasets w (final ((h.perform W w.op).run disk)).datasets :=
      perform_write_advances
    rw [hrun] at hadvances
    rcases hapart.advanced hname hadvances with hsame | ⟨d, hcommits, hafter⟩
    · exact .inl hsame
    · exact .inr (.inl ⟨_, hafter ▸ hcommits.changes hmeans⟩)

theorem created_table {table : Text} {definition : TableDefinition} {disk : Disk}
    (hcreated : disk.datasets (h.place W table) =
      some (.create (definition.compression.appliedTo definition.schema))) :
    tablesIn W h.root disk table =
      some (.declared (Compression.strippedFrom definition.schema)) := by
  rw [← Compression.strippedFrom_appliedTo definition.compression]
  exact congrArg (Option.map Dataset.table) hcreated

/-- A table that is created was not there, and is declared. -/
theorem create_changes {table : Text} {definition : TableDefinition} {disk disk' : Disk}
    (hnone : disk.datasets (h.place W table) = none)
    (hcreated : disk'.datasets (h.place W table) =
      some (.create (definition.compression.appliedTo definition.schema))) :
    Changes S (.createTable table definition) (tablesIn W h.root disk table) .done
      (tablesIn W h.root disk' table) := by
  have hbefore : tablesIn W h.root disk table = none := Option.map_eq_none_iff.2 hnone
  rw [hbefore, created_table hcreated]
  exact .createTable table definition

theorem createTable_here {table : Text} {definition : TableDefinition} {disk : Disk} :
    Tables.StepAt S (.createTable table definition) (tablesIn W h.root disk table)
      (h.reply W (.createTable table definition) disk)
      (tablesIn W h.root (final ((h.perform W (.createTable table definition)).run disk))
        table) := by
  cases hrun : (h.perform W (.createTable table definition)).run disk with
  | ok reply disk' =>
    rw [reply_ok hrun]
    obtain ⟨_, s1, hcreate, h1⟩ := bind_ok.1 hrun
    cases h1
    have hcreated := createTable_schema hcreate
    obtain ⟨_, s1, hscope, h1⟩ := bind_ok.1 hcreate
    obtain ⟨_, s2, hrole, h2⟩ := bind_ok.1 h1
    obtain ⟨before, s3, hfound, h3⟩ := bind_ok.1 h2
    obtain ⟨_, s4, hask, h4⟩ := bind_ok.1 h3
    obtain ⟨-, rfl⟩ := requireScope_ok.1 hscope
    obtain ⟨-, rfl⟩ := requireWriteRole_ok.1 hrole
    cases hfound
    obtain ⟨-, rfl⟩ := ask_ok.1 hask
    split at h4
    · cases h4
    · rename_i hnone
      exact .inl (create_changes hnone hcreated)
  | error e disk' =>
    rw [reply_error hrun]
    have hfinal : final ((h.createTable W table definition).run disk) = disk' :=
      (final_bind_pure _ (fun _ => Answer.done) disk).symm.trans (congrArg final hrun)
    rcases createTable_datasets h table definition disk with hsame | ⟨⟨-, -, hnone, -⟩, hcreated⟩
    · rw [hfinal] at hsame
      left
      unfold tablesIn
      rw [final_error, hsame]
    · rw [hfinal] at hcreated
      have hplace := congrFun hcreated (h.place W table)
      rw [Function.update_self] at hplace
      exact .inr (.inl ⟨_, create_changes hnone hplace⟩)

theorem dropTable_here {table : Text} {disk : Disk} :
    Tables.StepAt S (.dropTable table) (tablesIn W h.root disk table)
      (h.reply W (.dropTable table) disk)
      (tablesIn W h.root (final ((h.perform W (.dropTable table)).run disk)) table) := by
  cases hrun : (h.perform W (.dropTable table)).run disk with
  | ok reply disk' =>
    rw [reply_ok hrun]
    obtain ⟨_, s1, hdrop, h1⟩ := bind_ok.1 hrun
    cases h1
    obtain ⟨_, s1, -, h1⟩ := bind_ok.1 hdrop
    obtain ⟨_, s2, -, h2⟩ := bind_ok.1 h1
    obtain ⟨_, s3, -, h3⟩ := bind_ok.1 h2
    obtain ⟨before, s4, -, h4⟩ := bind_ok.1 h3
    obtain ⟨_, s5, -, h5⟩ := bind_ok.1 h4
    cases h5
    have hafter : tablesIn W h.root
        { s5 with datasets := fun path =>
          if (h.place W table).isPrefixOf path then none else s5.datasets path } table = none := by
      have hself : (h.place W table).isPrefixOf (h.place W table) :=
        List.isPrefixOf_iff_prefix.2 List.prefix_rfl
      exact congrArg (Option.map Dataset.table) (if_pos hself)
    exact .inl (hafter ▸ .dropTable table _)
  | error e disk' =>
    rw [reply_error hrun]
    have hfinal : final ((h.dropTable W table).run disk) = disk' :=
      (final_bind_pure _ (fun _ => Answer.done) disk).symm.trans (congrArg final hrun)
    rcases dropTable_datasets h table disk (h.place W table) with hsame | ⟨-, -, hnone⟩
    · rw [hfinal] at hsame
      exact .inl (congrArg (Option.map Dataset.table) hsame)
    · rw [hfinal] at hnone
      have hafter : tablesIn W h.root disk' table = none :=
        congrArg (Option.map Dataset.table) hnone
      exact .inr (.inl ⟨.done, by rw [final_error, hafter]; exact .dropTable table _⟩)

/-! ## Reads -/

section Reads

variable {table : Text} {disk disk' : Disk}

/-- What opens under a name is the table of this name. -/
theorem LanceStore.Opens.inTables {d : Dataset} (hopens : Opens W h disk.datasets table d) :
    tablesIn W h.root disk table = some d.table :=
  congrArg (Option.map Dataset.table) hopens.1

/-- What is read of a dataset is what its table hands out. -/
theorem Dataset.table_hands (d : Dataset) (rows : List Row) :
    d.table.Hands rows (W.format.collected d rows) :=
  ⟨W.format.collected_rows d rows, fun _ hbatch => W.format.collected_fields d rows hbatch⟩

theorem scan_reads {batches : List Batch}
    (hrun : (h.scan W table).run disk = .ok batches disk') :
    ∃ t, tablesIn W h.root disk table = some t ∧ Reads S (.scan table) t (.batches batches) := by
  obtain ⟨_, s1, hscope, h1⟩ := bind_ok.1 hrun
  obtain ⟨d, s2, hopen, h2⟩ := bind_ok.1 h1
  obtain ⟨found, s3, hcollect, h3⟩ := bind_ok.1 h2
  obtain ⟨_, s4, -, h4⟩ := bind_ok.1 h3
  cases h4
  obtain ⟨-, rfl⟩ := requireScope_ok.1 hscope
  obtain ⟨hopens, rfl⟩ := open_ok.1 hopen
  obtain ⟨-, rfl, -⟩ := collect_ok.1 hcollect
  exact ⟨d.table, hopens.inTables, .scan table (d.table_hands d.rows)⟩

theorem scanOrdered_ok {predicate by' : Text} {order : Order} {batches : List Batch}
    (hmeans : W.format.Means S)
    (hrun : (h.scanOrdered W table predicate by' order).run disk = .ok batches disk') :
    ∃ t, tablesIn W h.root disk table = some t ∧
      t.Hands (S.order by' order t.schema (t.selected S predicate)) batches := by
  obtain ⟨_, s1, hscope, h1⟩ := bind_ok.1 hrun
  obtain ⟨d, s2, hopen, h2⟩ := bind_ok.1 h1
  obtain ⟨rows, s3, hselect, hcollect⟩ := bind_ok.1 h2
  obtain ⟨_, s4, -, h4⟩ := bind_ok.1 hselect
  obtain ⟨_, s5, -, h5⟩ := bind_ok.1 h4
  cases h5
  obtain ⟨-, rfl⟩ := requireScope_ok.1 hscope
  obtain ⟨hopens, rfl⟩ := open_ok.1 hopen
  obtain ⟨-, rfl, -⟩ := collect_ok.1 hcollect
  refine ⟨d.table, hopens.inTables, ?_⟩
  rw [hmeans.sorted, hmeans.selected]
  exact d.table_hands _

theorem rowIds_reads {predicate : Text} {ids : List RowId} (hmeans : W.format.Means S)
    (hrun : (h.rowIds W table predicate).run disk = .ok ids disk') :
    ∃ t, tablesIn W h.root disk table = some t ∧ ids = (t.selected S predicate).map Row.id := by
  obtain ⟨-, d, hopens, -, rfl, -⟩ := rowIds_ok.1 hrun
  exact ⟨d.table, hopens.inTables, by rw [hmeans.selected]⟩

/-- The answers to the predicates of one call are all about one table. -/
theorem rowIds_table (combine : Combine) {matching : List Text} {ids : Finset RowId}
    (hmeans : W.format.Means S)
    (hrun : (combine.rowIds W h table matching).run disk = .ok ids disk') :
    ∃ t asked, tablesIn W h.root disk table = some t ∧ asked ≠ [] ∧
      asked.map Ask.predicate = matching ∧ ids = combine.answered asked ∧
      ∀ ask ∈ asked, ask.ids = (t.selected S ask.predicate).map Row.id := by
  obtain ⟨asked, hduring, rfl, hasked, hpredicates, hids⟩ := rowIds_during hrun
  obtain ⟨first, rest, rfl⟩ := List.exists_cons_of_ne_nil hasked
  -- nothing was committed since the call began, so there is one version to ask
  have hstart : ∀ d, Progress.Current W h table ⟨disk', [], first :: rest⟩ d →
      disk'.datasets (h.place W table) = some d := by
    rintro d ⟨current, hmem, hd⟩
    rwa [List.mem_singleton.1 hmem] at hd
  obtain ⟨d, hcurrent, -, -⟩ := hduring.asks first List.mem_cons_self
  have hd := hstart d hcurrent
  refine ⟨d.table, first :: rest, congrArg (Option.map Dataset.table) hd, hasked, hpredicates,
    hids, fun ask hask => ?_⟩
  obtain ⟨d', hcurrent', -, hselected⟩ := hduring.asks ask hask
  cases hd.symm.trans (hstart d' hcurrent')
  rw [hselected, hmeans.selected]

/-- Rows of a table with one identity are one row. -/
theorem Table.row_eq {t : Table} {r r' : Row} (hr : r ∈ t.rows) (hr' : r' ∈ t.rows)
    (hid : r.id = r'.id) : r = r' :=
  List.inj_on_of_nodup_map t.nodup hr hr' hid

theorem Table.mem_selectedIds {t : Table} {predicate : Text} {id : RowId} :
    id ∈ (t.selected S predicate).map Row.id ↔
      ∃ r ∈ t.rows, r.id = id ∧ S.sat predicate t.schema r := by
  rw [List.mem_map]
  constructor
  · rintro ⟨r, hr, hid⟩
    obtain ⟨hr, hsat⟩ := List.mem_filter.1 hr
    exact ⟨r, hr, hid, hsat⟩
  · rintro ⟨r, hr, hid, hsat⟩
    exact ⟨r, List.mem_filter.2 ⟨hr, hsat⟩, hid⟩

theorem rowIdsAll_reads {matching : List Text} {ids : Finset RowId} (hmeans : W.format.Means S)
    (hrun : (h.rowIdsAll W table matching).run disk = .ok ids disk') :
    ∃ t, tablesIn W h.root disk table = some t ∧ t.IdsOfAll S matching ids := by
  obtain ⟨t, asked, ht, hasked, rfl, rfl, hids⟩ := rowIds_table .all hmeans hrun
  refine ⟨t, ht, by simpa using hasked, fun id => ?_⟩
  rw [Combine.mem_answered_all hasked]
  constructor
  · intro hall
    obtain ⟨first, hfirst⟩ := List.exists_mem_of_ne_nil asked hasked
    have hin := hall first hfirst
    rw [hids first hfirst, Table.mem_selectedIds] at hin
    obtain ⟨r, hr, rfl, -⟩ := hin
    refine ⟨r, hr, rfl, List.forall_mem_map.2 fun ask hask => ?_⟩
    have hother := hall ask hask
    rw [hids ask hask, Table.mem_selectedIds] at hother
    obtain ⟨r', hr', hid, hsat⟩ := hother
    rwa [Table.row_eq hr hr' hid.symm]
  · rintro ⟨r, hr, rfl, hall⟩ ask hask
    rw [hids ask hask, Table.mem_selectedIds]
    exact ⟨r, hr, rfl, hall ask.predicate (List.mem_map_of_mem hask)⟩

theorem rowIdsAny_reads {matching : List Text} {ids : Finset RowId} (hmeans : W.format.Means S)
    (hrun : (h.rowIdsAny W table matching).run disk = .ok ids disk') :
    ∃ t, tablesIn W h.root disk table = some t ∧ t.IdsOfAny S matching ids := by
  obtain ⟨t, asked, ht, hasked, rfl, rfl, hids⟩ := rowIds_table .any hmeans hrun
  refine ⟨t, ht, by simpa using hasked, fun id => ?_⟩
  rw [Combine.mem_answered_any hasked]
  constructor
  · rintro ⟨ask, hask, hin⟩
    rw [hids ask hask, Table.mem_selectedIds] at hin
    obtain ⟨r, hr, rfl, hsat⟩ := hin
    exact ⟨r, hr, rfl, ask.predicate, List.mem_map_of_mem hask, hsat⟩
  · rintro ⟨r, hr, rfl, predicate, hpredicate, hsat⟩
    obtain ⟨ask, hask, rfl⟩ := List.mem_map.1 hpredicate
    exact ⟨ask, hask, by rw [hids ask hask, Table.mem_selectedIds]; exact ⟨r, hr, rfl, hsat⟩⟩

end Reads

/-! ## Operations -/

/-- What an operation does to its own table, and what it answers. -/
theorem perform_here {names : Set Text} {op : Op} {disk : Disk} (hmeans : W.format.Means S)
    (hapart : NamesApart W h.root names) (hname : op.table ∈ names) :
    Tables.StepAt S op (tablesIn W h.root disk op.table) (h.reply W op disk)
      (tablesIn W h.root (final ((h.perform W op).run disk)) op.table) := by
  have hread : ∀ {α : Type} {x : StoreM α} {g : α → Answer} {table : Text},
      h.perform W op = g <$> x → op.table = table → ¬ Collides W h disk op (h.place W op.table) →
      (∀ a disk', x.run disk = .ok a disk' →
        ∃ t, tablesIn W h.root disk table = some t ∧ Reads S op t (g a)) →
      Tables.StepAt S op (tablesIn W h.root disk table) (h.reply W op disk)
        (tablesIn W h.root (final ((h.perform W op).run disk)) table) := by
    intro α x g table hperform htable hclear hx
    subst htable
    refine .unchanged (perform_elsewhere hclear).table (.inr fun reply hreply => ?_)
    obtain ⟨a, disk', hrun, rfl⟩ := reply_map hperform hreply
    exact hx a disk' hrun
  have hderived : op.isDerived → ¬ Collides W h disk op (h.place W op.table) →
      Tables.StepAt S op (tablesIn W h.root disk op.table) (h.reply W op disk)
        (tablesIn W h.root (final ((h.perform W op).run disk)) op.table) := fun hop hclear =>
    .unchanged (perform_elsewhere hclear).table (.inl hop)
  cases op with
  | createTable table definition => exact createTable_here
  | append table batch => exact write_here (w := .append table batch) hmeans hapart hname
  | update table predicate assignments =>
    exact write_here (w := .update table predicate assignments) hmeans hapart hname
  | delete table predicate => exact write_here (w := .delete table predicate) hmeans hapart hname
  | dropTable table => exact dropTable_here
  | scan table => exact hread rfl rfl id fun batches disk' hrun => scan_reads hrun
  | scanOrdered table predicate by' order =>
    refine hread rfl rfl id fun batches disk' hrun => ?_
    obtain ⟨t, ht, hhands⟩ := scanOrdered_ok hmeans hrun
    exact ⟨t, ht, .scanOrdered table predicate by' order hhands⟩
  | scanOrderedMeasured table predicate by' order =>
    refine hread rfl rfl id fun measured disk' hrun => ?_
    obtain ⟨batches, s1, hvalue, h1⟩ := bind_ok.1 hrun
    obtain ⟨t, ht, hhands⟩ := scanOrdered_ok hmeans hvalue
    obtain ⟨d, s2, -, h2⟩ := bind_ok.1 h1
    obtain ⟨_, s3, -, h3⟩ := bind_ok.1 h2
    obtain ⟨_, s4, -, h4⟩ := bind_ok.1 h3
    cases h4
    exact ⟨t, ht, .scanOrderedMeasured table predicate by' order _ hhands⟩
  | rowIds table predicate =>
    refine hread rfl rfl id fun ids disk' hrun => ?_
    obtain ⟨t, ht, rfl⟩ := rowIds_reads hmeans hrun
    exact ⟨t, ht, .rowIds table predicate t⟩
  | rowIdsMeasured table predicate =>
    refine hread rfl rfl id fun measured disk' hrun => ?_
    obtain ⟨ids, s1, hvalue, h1⟩ := bind_ok.1 hrun
    obtain ⟨t, ht, rfl⟩ := rowIds_reads hmeans hvalue
    obtain ⟨d, s2, -, h2⟩ := bind_ok.1 h1
    obtain ⟨_, s3, -, h3⟩ := bind_ok.1 h2
    obtain ⟨_, s4, -, h4⟩ := bind_ok.1 h3
    cases h4
    exact ⟨t, ht, .rowIdsMeasured table predicate t _⟩
  | rowIdsAll table matching =>
    refine hread rfl rfl id fun ids disk' hrun => ?_
    obtain ⟨t, ht, hall⟩ := rowIdsAll_reads hmeans hrun
    exact ⟨t, ht, .rowIdsAll table matching hall⟩
  | rowIdsAny table matching =>
    refine hread rfl rfl id fun ids disk' hrun => ?_
    obtain ⟨t, ht, hany⟩ := rowIdsAny_reads hmeans hrun
    exact ⟨t, ht, .rowIdsAny table matching hany⟩
  | filteredSearch table filter source limit =>
    refine hread rfl rfl id fun found disk' hrun => ?_
    obtain ⟨within, hwithin, hsource⟩ := filteredSearch_within hrun
    obtain ⟨t, ht, hall⟩ := rowIdsAll_reads hmeans hwithin
    exact ⟨t, ht, .filteredSearch table filter source limit hall hsource⟩
  | _ => exact hderived rfl id

/-- **An operation is a step** of the tables whose names keep them apart. -/
theorem perform_step {names : Set Text} {op : Op} {disk : Disk} (hmeans : W.format.Means S)
    (hapart : NamesApart W h.root names) (hname : op.table ∈ names) :
    Tables.Step S names (tablesIn W h.root disk) op (h.reply W op disk)
      (tablesIn W h.root (final ((h.perform W op).run disk))) where
  here := perform_here hmeans hapart hname
  elsewhere := by
    intro name hother hne
    refine (perform_elsewhere fun hcollides => ?_).table
    rcases hcollides.near with hprefix | ⟨column, hcolumn⟩
    · exact hapart.directory _ hname _ hother hne.symm hprefix
    · exact hapart.companion _ hname column _ hother hcolumn

/-! ## Runs -/

/-- What is left of an operation that is cut off: nothing; of a write its commit and some of its
columns; of a new table or an index all of it; of a drop whatever is still in the directory. -/
inductive CutOff (W : World) (h : LanceStore) (datasets : Datasets) : Op → Datasets → Prop where
  | nothing (op : Op) : CutOff W h datasets op datasets
  | write {w : Write} {datasets' : Datasets} (advances : Advances W h datasets w datasets') :
    CutOff W h datasets w.op datasets'
  | create {table : Text} {definition : TableDefinition}
    (creates : Creates W h datasets table definition) :
    CutOff W h datasets (.createTable table definition)
      (Function.update datasets (h.place W table)
        (some (.create (definition.compression.appliedTo definition.schema))))
  | createIndex {table column : Text} {d : Dataset} (opens : Opens W h datasets table d) :
    CutOff W h datasets (.createIndex table column)
      (Function.update datasets (h.place W table) (some (d.index column .btree)))
  | createTextIndex {table column : Text} {language : StemmingLanguage} {d : Dataset}
    (opens : Opens W h datasets table d) :
    CutOff W h datasets (.createTextIndex table column language)
      (Function.update datasets (h.place W table)
        (some (d.index column (.inverted language.asParts.1 language.asParts.2))))
  | createVectorIndex {table column : Text} {kind : VectorIndexKind} {d : Dataset}
    (opens : Opens W h datasets (vectorTable table column) d) :
    CutOff W h datasets (.createVectorIndex table column kind)
      (Function.update datasets (h.place W (vectorTable table column))
        (some (d.index "embedding".toList (.vector kind))))
  | drop {table : Text} {datasets' : Datasets}
    (outside : ∀ path, (h.place W table).isPrefixOf path = false → datasets' path = datasets path) :
    CutOff W h datasets (.dropTable table) datasets'

/-- An index changes neither columns nor rows. -/
theorem index_table {disk : Disk} {log : LogFile} {table column name : Text} {d : Dataset}
    {kind : IndexKind} (hd : disk.datasets (h.place W table) = some d) :
    tablesIn W h.root
        ⟨Function.update disk.datasets (h.place W table) (some (d.index column kind)), log⟩ name =
      tablesIn W h.root disk name := by
  unfold tablesIn
  dsimp only
  by_cases hplace : placeIn W h.root name = h.place W table
  · rw [hplace, hd, Function.update_self]
    rfl
  · rw [Function.update_of_ne hplace]

theorem CutOff.elsewhere {names : Set Text} {op : Op} {disk : Disk} {datasets' : Datasets}
    {log : LogFile} {name : Text} (hcut : CutOff W h disk.datasets op datasets')
    (hapart : NamesApart W h.root names) (hop : op.table ∈ names) (hname : name ∈ names)
    (hne : name ≠ op.table) :
    tablesIn W h.root ⟨datasets', log⟩ name = tablesIn W h.root disk name := by
  have hdirectory : (h.place W op.table).isPrefixOf (h.place W name) = false := by
    rw [← Bool.not_eq_true]
    exact hapart.directory _ hop _ hname hne.symm
  have hplace : h.place W name ≠ h.place W op.table := by
    intro heq
    rw [heq, List.isPrefixOf_iff_prefix.2 List.prefix_rfl] at hdirectory
    cases hdirectory
  have hcompanion : ∀ column, h.place W (vectorTable op.table column) ≠ h.place W name :=
    fun column => hapart.companion _ hop column _ hname
  have hkept : datasets' (h.place W name) = disk.datasets (h.place W name) →
      tablesIn W h.root ⟨datasets', log⟩ name = tablesIn W h.root disk name :=
    congrArg (Option.map Dataset.table)
  cases hcut with
  | nothing op => rfl
  | create creates => exact hkept (Function.update_of_ne hplace _ _)
  | createIndex opens => exact index_table opens.1
  | createTextIndex opens => exact index_table opens.1
  | createVectorIndex opens => exact index_table opens.1
  | drop outside => exact hkept (outside _ hdirectory)
  | @write w datasets' advances =>
    have htable : w.op.table = w.table := by cases w <;> rfl
    rw [htable] at hplace hcompanion
    refine hkept ?_
    rcases advances with rfl | ⟨d, hcommits, done, hdone, hreconciles⟩
    · rfl
    · rw [hreconciles.untouched (fun _ hpath => hpath) fun hwrites => ?_]
      · exact Function.update_of_ne hplace _ _
      · obtain ⟨column, hcolumn⟩ := hwrites.column
        exact hcompanion column hcolumn

/-- An operation that is cut off is a step as well, without a reply. -/
theorem CutOff.step {names : Set Text} {op : Op} {disk : Disk} {datasets' : Datasets}
    {log : LogFile} (hcut : CutOff W h disk.datasets op datasets') (hmeans : W.format.Means S)
    (hapart : NamesApart W h.root names) (hname : op.table ∈ names) :
    Tables.Step S names (tablesIn W h.root disk) op none (tablesIn W h.root ⟨datasets', log⟩) where
  here := by
    cases hcut with
    | nothing op => exact .inl rfl
    | create creates =>
      exact .inr (.inl ⟨_, create_changes creates.2.2.1 (Function.update_self _ _ _)⟩)
    | createIndex opens => exact .inl (index_table opens.1)
    | createTextIndex opens => exact .inl (index_table opens.1)
    | createVectorIndex opens => exact .inl (index_table opens.1)
    | drop outside => exact .inr (.inr rfl)
    | @write w datasets' advances =>
      have htable : w.op.table = w.table := by cases w <;> rfl
      rw [htable] at hname ⊢
      have hadvances : Advances W h disk.datasets w (Disk.mk datasets' log).datasets := advances
      rcases hapart.advanced hname hadvances with hsame | ⟨d, hcommits, hafter⟩
      · exact .inl hsame
      · exact .inr (.inl ⟨_, hafter ▸ hcommits.changes hmeans⟩)
  elsewhere := fun _ hother hne => hcut.elsewhere hapart hname hother hne

/-- Operations one after the other through handles on one database, to tables of these names, with
what they reply.  The process may die in the middle of one, or a removal stop there. -/
inductive Ran (W : World) (root : Text) (names : Set Text) :
    Disk → List (Op × Option Answer) → Disk → Prop where
  | nil (disk : Disk) : Ran W root names disk [] disk
  | op {disk after : Disk} {h : LanceStore} {op : Op} {replies : List (Op × Option Answer)}
    (here : h.root = root) (named : op.table ∈ names)
    (rest : Ran W root names (final ((h.perform W op).run disk)) replies after) :
    Ran W root names disk ((op, h.reply W op disk) :: replies) after
  | cut {disk after : Disk} {h : LanceStore} {op : Op} {datasets' : Datasets} {log : LogFile}
    {replies : List (Op × Option Answer)} (here : h.root = root) (named : op.table ∈ names)
    (cutOff : CutOff W h disk.datasets op datasets')
    (rest : Ran W root names ⟨datasets', log⟩ replies after) :
    Ran W root names disk ((op, none) :: replies) after

theorem Ran.tables {names : Set Text} {disk after : Disk} {replies : List (Op × Option Answer)}
    (hran : Ran W root names disk replies after) (hmeans : W.format.Means S)
    (hapart : NamesApart W root names) :
    Tables.Run S names (tablesIn W root disk) replies (tablesIn W root after) := by
  induction hran with
  | nil disk => exact .nil _
  | op here named rest ih =>
    subst here
    exact .cons (perform_step hmeans hapart named) ih
  | cut here named cutOff rest ih =>
    subst here
    exact .cons (cutOff.step hmeans hapart named) ih

/-- The operations of a run, and what each replies. -/
def history (W : World) : List (LanceStore × Op) → Disk → List (Op × Option Answer)
  | [], _ => []
  | (h, op) :: steps, disk =>
    (op, h.reply W op disk) :: history W steps (final ((h.perform W op).run disk))

/-- The steps of a run go through handles on one database, to tables of these names. -/
def Stays (root : Text) (names : Set Text) (steps : List (LanceStore × Op)) : Prop :=
  ∀ step ∈ steps, step.1.root = root ∧ step.2.table ∈ names

/-- Operations that are all performed are such a run. -/
theorem Stays.ran {names : Set Text} {steps : List (LanceStore × Op)} {disk : Disk}
    (hsteps : Stays root names steps) :
    Ran W root names disk (history W steps disk) (performEach W steps disk) := by
  induction steps generalizing disk with
  | nil => exact .nil _
  | cons step steps ih =>
    obtain ⟨h, op⟩ := step
    obtain ⟨hroot, hname⟩ := hsteps (h, op) List.mem_cons_self
    exact .op hroot hname (ih fun later hlater => hsteps later (List.mem_cons_of_mem _ hlater))

/-- What the format that objects to nothing makes of texts: every predicate holds of every row, and
no assignment or order changes anything. -/
def Semantics.plain : Semantics where
  sat := fun _ _ _ => true
  assign := fun _ _ r => r.values
  order := fun _ _ _ rows => rows

end EuleDB.Store
