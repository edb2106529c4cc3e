import EuleDB.Store.Interleaving

/-!
# Vectors under concurrent writes

A write brings the vectors of its table's columns into agreement with the text as it read both.
When another write commits between its reading and its overwriting, what it writes is out of date,
and whether that is put right depends on who is still to reconcile.

* `Owes` — a write in flight will still bring a column's vectors into agreement.
* `Sound` — the invariant: every column's vectors agree with its text, or some write owes them.
* `Sound.quiet`, `Sound.commit`, `Sound.overwrite` — what the parts of a write do to it.
* `concurrent_writes_keep_vectors` — in every run whose overwrites are up to date or owed by
  another write, all vectors agree with the text once all writes have returned.
-/

set_option autoImplicit false

namespace EuleDB.Store

open Crypto Audit Effect Keyed LanceStore Interleave

section Invariant

variable (W : World) (root : Text) (E : Embedder)

/-- A column's vectors, as they are read, are exactly those of its text. -/
def Settled (datasets : Datasets) (table column : Text) (d : Dataset) : Prop :=
  ∃ found, StoredIn (datasets (companionIn W root table column)) found ∧
    Exact E d column (found.mergeSort RowVector.le)

/-- The rows that have a vector are those of the table. -/
def SameRows (existing : List RowVector) (d : Dataset) : Prop :=
  (d.rows.map Row.id).toFinset = (existing.map RowVector.row).toFinset

/-- Rows may be committed to a table: it has columns that embed themselves, or no column's vectors
are kept where it lives. -/
def Clear (datasets : Datasets) (table : Text) : Prop :=
  (∃ column, HasColumn W root datasets table column) ∨
    ∀ table' column, HasColumn W root datasets table' column →
      placeIn W root table ≠ companionIn W root table' column

/-- What was opened has the rows that are there. -/
def Fresh (datasets : Datasets) (table : Text) (opened : Dataset) : Prop :=
  ∃ d, datasets (placeIn W root table) = some d ∧ d.rows = opened.rows

/-- A write in flight will still bring a column into agreement: it is going to read its vectors, or
it has read vectors that do not match the rows there are, or it is about to write the vectors of
these rows. -/
def Owes (datasets : Datasets) (table column : Text) (w : Write) (stage : Stage) : Prop :=
  placeIn W root w.table = placeIn W root table ∧ match stage with
    | .start | .append _ | .rows _ | .record _ | .columns _ => True
    | .companion _ name rest | .vectors _ name rest => column = name ∨ column ∈ rest
    | .texts _ name rest existing => column ∈ rest ∨ (column = name ∧
        ∃ d, datasets (placeIn W root table) = some d ∧ ¬ SameRows existing d)
    | .write _ name rest opened _ =>
      column ∈ rest ∨ (column = name ∧ Fresh W root datasets table opened)
    | .done _ | .failed _ => False

/-- A write has columns of its table before it. -/
def Columns (datasets : Datasets) (w : Write) (columns : List Text) (d : Dataset) : Prop :=
  datasets (placeIn W root w.table) = some d ∧
    ∀ column ∈ columns, column ∈ d.schema.autoEmbeddingColumns

/-- What a write in flight relies on. -/
def Consistent (datasets : Datasets) (w : Write) : Stage → Prop
  | .rows _ => ∃ d, datasets (placeIn W root w.table) = some d
  | .companion _ name rest | .vectors _ name rest =>
    ∃ d, Columns W root datasets w (name :: rest) d
  | .texts _ name rest existing => ∃ d, Columns W root datasets w (name :: rest) d ∧
      ∃ found, existing = found.mergeSort RowVector.le ∧ LinkedTo E d name found
  | .write _ name rest opened vectors => ∃ d, Columns W root datasets w (name :: rest) d ∧
      opened.schema = d.schema ∧ Exact E opened name vectors ∧ LinkedTo E d name vectors
  | _ => True

/-- Calls that name one table in two ways name the same companions. -/
def SameCompanions {ι : Type} (calls : ι → Write) : Prop :=
  ∀ i j column, placeIn W root (calls i).table = placeIn W root (calls j).table →
    companionIn W root (calls i).table column = companionIn W root (calls j).table column

/-- The invariant of writes in flight. -/
structure Sound {ι : Type} (calls : ι → Write) (datasets : Datasets) (stage : ι → Stage) :
    Prop where
  coherent : Coherent W root E datasets
  consistent : ∀ i, Consistent W root E datasets (calls i) (stage i)
  owed : ∀ k column d, datasets (placeIn W root (calls k).table) = some d →
    column ∈ d.schema.autoEmbeddingColumns →
      Settled W root E datasets (calls k).table column d ∨
        ∃ i, Owes W root datasets (calls k).table column (calls i) (stage i)

end Invariant

variable {W : World} {root : Text} {E : Embedder}

/-! ## Columns that are left -/

theorem owes_next {datasets : Datasets} {table column : Text} {w : Write} {n : Nat}
    {rest : List Text} (hplace : placeIn W root w.table = placeIn W root table)
    (hmem : column ∈ rest) : Owes W root datasets table column w (w.next n rest) := by
  cases rest with
  | nil => cases hmem
  | cons name rest => exact ⟨hplace, List.mem_cons.1 hmem⟩

theorem consistent_next {datasets : Datasets} {w : Write} {n : Nat} {rest : List Text}
    {d : Dataset} (hcolumns : Columns W root datasets w rest d) :
    Consistent W root E datasets w (w.next n rest) := by
  cases rest with
  | nil => trivial
  | cons name rest => exact ⟨d, hcolumns⟩

theorem Columns.tail {datasets : Datasets} {w : Write} {name : Text} {rest : List Text}
    {d : Dataset} (hcolumns : Columns W root datasets w (name :: rest) d) :
    Columns W root datasets w rest d :=
  ⟨hcolumns.1, fun column hmem => hcolumns.2 column (List.mem_cons_of_mem _ hmem)⟩

/-- Vectors that were read when a column was linked, and are those of the rows that are there, are
exactly those of its text. -/
theorem exact_of_sameRows {d : Dataset} {column : Text} {found : List RowVector}
    (hlinked : LinkedTo E d column found)
    (hrows : SameRows (found.mergeSort RowVector.le) d) :
    Exact E d column (found.mergeSort RowVector.le) := by
  refine matching_exact hlinked.kept rfl ?_
  unfold SameRows at hrows
  unfold Matching
  rw [List.map_map]
  exact hrows

/-! ## What a commit keeps -/

theorem Clear.elsewhere {datasets : Datasets} {table : Text} (hclear : Clear W root datasets table)
    (hapart : Apart W root datasets) :
    ∀ table' column, HasColumn W root datasets table' column →
      placeIn W root table ≠ companionIn W root table' column := by
  rcases hclear with ⟨column', hhas⟩ | helsewhere
  · exact fun table' column hcolumn => (hapart table' column hcolumn table column' hhas).1
  · exact helsewhere

/-- What a write relies on outlasts commits that follow what was there. -/
theorem Consistent.follows {datasets datasets' : Datasets} {w : Write} {stage : Stage}
    (hconsistent : Consistent W root E datasets w stage)
    (hfollows : ∀ d, datasets (placeIn W root w.table) = some d →
      ∃ d', datasets' (placeIn W root w.table) = some d' ∧
        (d.schema.autoEmbeddingColumns ≠ [] → Follows d d')) :
    Consistent W root E datasets' w stage := by
  have hcolumns : ∀ {name rest d}, Columns W root datasets w (name :: rest) d →
      ∃ d', Columns W root datasets' w (name :: rest) d' ∧ Follows d d' := by
    rintro name rest d ⟨hd, hmem⟩
    obtain ⟨d', hd', hfollows'⟩ := hfollows d hd
    have hafter := hfollows' (List.ne_nil_of_mem (hmem name (by simp)))
    refine ⟨d', ⟨hd', fun column hcolumn => ?_⟩, hafter⟩
    rw [hafter.schema]
    exact hmem column hcolumn
  cases stage with
  | rows opened =>
    obtain ⟨d, hd⟩ := hconsistent
    obtain ⟨d', hd', -⟩ := hfollows d hd
    exact ⟨d', hd'⟩
  | companion n name rest =>
    obtain ⟨d, hd⟩ := hconsistent
    obtain ⟨d', hd', -⟩ := hcolumns hd
    exact ⟨d', hd'⟩
  | vectors n name rest =>
    obtain ⟨d, hd⟩ := hconsistent
    obtain ⟨d', hd', -⟩ := hcolumns hd
    exact ⟨d', hd'⟩
  | texts n name rest existing =>
    obtain ⟨d, hd, found, hexisting, hlinked⟩ := hconsistent
    obtain ⟨d', hd', hfollows'⟩ := hcolumns hd
    exact ⟨d', hd', found, hexisting, hlinked.follows hfollows'⟩
  | write n name rest opened vectors =>
    obtain ⟨d, hd, hschema, hexact, hlinked⟩ := hconsistent
    obtain ⟨d', hd', hfollows'⟩ := hcolumns hd
    exact ⟨d', hd', hschema.trans hfollows'.schema.symm, hexact, hlinked.follows hfollows'⟩
  | _ => trivial

/-- It outlasts the overwriting of vectors, which are kept apart from every table with columns. -/
theorem Consistent.overwritten {datasets : Datasets} {w : Write} {stage : Stage}
    {table column : Text} {c : Dataset} (hconsistent : Consistent W root E datasets w stage)
    (hapart : Apart W root datasets) (hhas : HasColumn W root datasets table column) :
    Consistent W root E (Function.update datasets (companionIn W root table column) (some c)) w
      stage := by
  refine hconsistent.follows fun d hd => ?_
  by_cases hplace : placeIn W root w.table = companionIn W root table column
  · rw [hplace, Function.update_self]
    refine ⟨c, rfl, fun hsome => ?_⟩
    obtain ⟨column', hcolumn⟩ := List.exists_mem_of_ne_nil _ hsome
    exact absurd hplace (hapart _ _ hhas _ _ ⟨d, hd, hcolumn⟩).1
  · rw [Function.update_of_ne hplace]
    exact ⟨d, hd, fun _ => Follows.refl d⟩

/-- The vectors of the rows that are there settle the column they are kept for. -/
theorem settled_of_fresh {datasets : Datasets} {table column : Text} {d opened : Dataset}
    {vectors : List RowVector}
    (hstored : StoredIn (datasets (companionIn W root table column)) vectors)
    (hrows : d.rows = opened.rows) (hschema : opened.schema = d.schema)
    (hexact : Exact E opened column vectors) : Settled W root E datasets table column d := by
  refine ⟨vectors, hstored, Exact.sorted ⟨fun v hv => ?_, fun r hr => ?_⟩⟩
  · rw [hrows]
    exact hexact.live v hv
  · rw [hrows] at hr
    rw [← hschema]
    exact hexact.rows r hr

/-- What a write owes of a table is a matter of the table alone. -/
theorem Owes.congr {datasets datasets' : Datasets} {table column : Text} {w : Write}
    {stage : Stage} (howes : Owes W root datasets table column w stage)
    (hsame : datasets' (placeIn W root table) = datasets (placeIn W root table)) :
    Owes W root datasets' table column w stage := by
  obtain ⟨hplace, howes⟩ := howes
  refine ⟨hplace, ?_⟩
  cases stage with
  | texts n name rest existing =>
    dsimp only at howes ⊢
    rwa [hsame]
  | write n name rest opened vectors =>
    dsimp only at howes ⊢
    unfold Fresh at howes ⊢
    rwa [hsame]
  | _ => exact howes

/-- What a write owes of a table it owes of it under every name. -/
theorem Owes.renamed {datasets : Datasets} {table table' column : Text} {w : Write}
    {stage : Stage} (howes : Owes W root datasets table column w stage)
    (hplace : placeIn W root table' = placeIn W root table) :
    Owes W root datasets table' column w stage := by
  unfold Owes Fresh at howes ⊢
  rwa [hplace]

section Steps

variable {ι : Type} [DecidableEq ι] {calls : ι → Write} {datasets : Datasets} {stage : ι → Stage}
  {i : ι}

/-- **A part that leaves the disk as it is** keeps the invariant, where what the write owed is
settled or still owed. -/
theorem Sound.quiet {next : Stage} (hsound : Sound W root E calls datasets stage)
    (hnext : Consistent W root E datasets (calls i) next)
    (howes : ∀ k column d, datasets (placeIn W root (calls k).table) = some d →
      column ∈ d.schema.autoEmbeddingColumns →
        Owes W root datasets (calls k).table column (calls i) (stage i) →
          Settled W root E datasets (calls k).table column d ∨
            Owes W root datasets (calls k).table column (calls i) next) :
    Sound W root E calls datasets (Function.update stage i next) := by
  refine ⟨hsound.coherent, ?_, fun k column d hd hcolumn => ?_⟩
  · rw [Function.forall_update_iff stage fun j => Consistent W root E datasets (calls j)]
    exact ⟨hnext, fun j _ => hsound.consistent j⟩
  · rcases hsound.owed k column d hd hcolumn with hsettled | ⟨j, hj⟩
    · exact .inl hsettled
    by_cases hji : j = i
    · subst hji
      refine (howes k column d hd hcolumn hj).imp_right fun hnow => ⟨j, ?_⟩
      rwa [Function.update_self]
    · refine .inr ⟨j, ?_⟩
      rwa [Function.update_of_ne hji]

/-- **The commit of rows** keeps the invariant: the write that commits them owes its columns. -/
theorem Sound.commit {n : Nat} {d' : Dataset} (hsound : Sound W root E calls datasets stage)
    (hbefore : (datasets (placeIn W root (calls i).table) = none ∧
        Free W root datasets (calls i).table d'.schema) ∨
      ∃ d, datasets (placeIn W root (calls i).table) = some d ∧ Follows d d')
    (hclear : Clear W root datasets (calls i).table) :
    Sound W root E calls
      (Function.update datasets (placeIn W root (calls i).table) (some d'))
      (Function.update stage i (.record n)) := by
  have helsewhere := hclear.elsewhere hsound.coherent.apart
  refine ⟨?_, ?_, fun k column d hd hcolumn => ?_⟩
  · rcases hbefore with ⟨-, hfree⟩ | ⟨d, hd, hfollows⟩
    · exact hsound.coherent.create hfree (.inr helsewhere)
    · exact hsound.coherent.commit hd hfollows helsewhere
  · rw [Function.forall_update_iff stage fun j => Consistent W root E _ (calls j)]
    refine ⟨trivial, fun j _ => (hsound.consistent j).follows fun d hd => ?_⟩
    by_cases hplace : placeIn W root (calls j).table = placeIn W root (calls i).table
    · rw [hplace, Function.update_self]
      rw [hplace] at hd
      rcases hbefore with ⟨hnone, -⟩ | ⟨before, hsome, hfollows⟩
      · rw [hnone] at hd
        cases hd
      · cases hsome.symm.trans hd
        exact ⟨d', rfl, fun _ => hfollows⟩
    · rw [Function.update_of_ne hplace]
      exact ⟨d, hd, fun _ => Follows.refl d⟩
  · by_cases hplace : placeIn W root (calls k).table = placeIn W root (calls i).table
    · right
      refine ⟨i, ?_⟩
      rw [Function.update_self]
      exact ⟨hplace.symm, trivial⟩
    · rw [Function.update_of_ne hplace] at hd
      have hne := helsewhere (calls k).table column ⟨d, hd, hcolumn⟩
      rcases hsound.owed k column d hd hcolumn with ⟨found, hfound, hexact⟩ | ⟨j, hj⟩
      · refine .inl ⟨found, ?_, hexact⟩
        rwa [Function.update_of_ne hne.symm]
      · refine .inr ⟨j, ?_⟩
        have hji : j ≠ i := by
          rintro rfl
          exact hplace hj.1.symm
        rw [Function.update_of_ne hji]
        exact hj.congr (Function.update_of_ne hplace _ _)

/-- **The overwriting of vectors** keeps the invariant, where they are those of the rows that are
there or another write owes them. -/
theorem Sound.overwrite {n : Nat} {name : Text} {rest : List Text} {opened before : Dataset}
    {vectors : List RowVector} (hsound : Sound W root E calls datasets stage)
    (hnames : SameCompanions W root calls)
    (hstage : stage i = .write n name rest opened vectors)
    (hfresh : Fresh W root datasets (calls i).table opened ∨
      ∃ j ≠ i, Owes W root datasets (calls i).table name (calls j) (stage j)) :
    Sound W root E calls
      (Function.update datasets (companionIn W root (calls i).table name)
        (some (before.overwrite W.format (vectorBatch vectors))))
      (Function.update stage i ((calls i).next n rest)) := by
  have hconsistent := hsound.consistent i
  rw [hstage] at hconsistent
  obtain ⟨d, hcolumns, hschema, hexact, hlinked⟩ := hconsistent
  have hname : name ∈ d.schema.autoEmbeddingColumns := hcolumns.2 name (by simp)
  have hhas : HasColumn W root datasets (calls i).table name := ⟨d, hcolumns.1, hname⟩
  refine ⟨?_, ?_, fun k column d' hd' hcolumn => ?_⟩
  · refine hsound.coherent.overwrite hcolumns.1 hname rfl fun found hfound => ?_
    rw [storedIn_overwrite.1 hfound]
    exact hlinked
  · rw [Function.forall_update_iff stage fun j => Consistent W root E _ (calls j)]
    refine ⟨consistent_next (d := d) ⟨?_, hcolumns.tail.2⟩, fun j _ => ?_⟩
    · rw [Function.update_of_ne (hsound.coherent.apart _ _ hhas _ _ hhas).1]
      exact hcolumns.1
    · exact (hsound.consistent j).overwritten hsound.coherent.apart hhas
  · obtain ⟨hne, hbefore⟩ := table_of_overwritten rfl hd' hcolumn
    have hthere : HasColumn W root datasets (calls k).table column := ⟨d', hbefore, hcolumn⟩
    have hsame := Function.update_of_ne hne
      (some (before.overwrite W.format (vectorBatch vectors))) datasets
    by_cases hcompanion :
        companionIn W root (calls k).table column = companionIn W root (calls i).table name
    · obtain ⟨hplace, rfl⟩ := (hsound.coherent.apart _ _ hhas _ _ hthere).2 hcompanion
      rcases hfresh with ⟨d'', hd'', hrows⟩ | ⟨j, hj, howes⟩
      · -- the vectors that were written are those of the rows that are there
        cases hcolumns.1.symm.trans hd''
        rw [hplace, hcolumns.1] at hbefore
        cases hbefore
        refine .inl (settled_of_fresh ?_ hrows hschema hexact)
        rw [hcompanion, Function.update_self]
        exact storedIn_overwrite.2 rfl
      · refine .inr ⟨j, ?_⟩
        rw [Function.update_of_ne hj]
        exact (howes.renamed hplace).congr hsame
    · rcases hsound.owed k column d' hbefore hcolumn with ⟨found, hfound, hexact'⟩ | ⟨j, hj⟩
      · refine .inl ⟨found, ?_, hexact'⟩
        rwa [Function.update_of_ne hcompanion]
      · refine .inr ⟨j, ?_⟩
        by_cases hji : j = i
        · subst hji
          rw [Function.update_self]
          rw [hstage] at hj
          obtain ⟨hplace, hmem' | ⟨rfl, -⟩⟩ := hj
          · exact owes_next hplace hmem'
          · exact absurd (hnames _ _ _ hplace).symm hcompanion
        · rw [Function.update_of_ne hji]
          exact hj.congr hsame

/-! ## The parts of a write -/

variable {h : LanceStore} {R : Rebase W} {disk disk' : Disk} {next : Stage}

/-- What the parts of writes in flight are held to: rows are not committed to where a column's
vectors are kept, nothing is in the way of a table that an append creates, an open finds what is
there, and vectors are written for the rows that are there, or another write owes them. -/
def Fits (W : World) (h : LanceStore) (calls : ι → Write) (datasets : Datasets)
    (stage : ι → Stage) (i : ι) : Prop :=
  match stage i with
  | .append batch => Clear W h.root datasets (calls i).table ∧
      (datasets (h.place W (calls i).table) = none →
        Free W h.root datasets (calls i).table batch.schema)
  | .rows _ => Clear W h.root datasets (calls i).table
  | .companion _ column _ => ∀ c,
      datasets (h.place W (vectorTable (calls i).table column)) = some c →
        Opens W h datasets (vectorTable (calls i).table column) c
  | .write _ column _ opened _ => Fresh W h.root datasets (calls i).table opened ∨
      ∃ j ≠ i, Owes W h.root datasets (calls i).table column (calls j) (stage j)
  | _ => True

/-- **A write that has read a column's vectors** owes the column where they are not those of the
rows that are there; where they are, the column is settled. -/
theorem Sound.texts {n : Nat} {name : Text} {rest : List Text} {d : Dataset}
    {found : List RowVector} (hsound : Sound W root E calls datasets stage)
    (hnames : SameCompanions W root calls)
    (hcolumns : Columns W root datasets (calls i) (name :: rest) d)
    (hfound : StoredIn (datasets (companionIn W root (calls i).table name)) found)
    (howed : ∀ k column, Owes W root datasets (calls k).table column (calls i) (stage i) →
      column = name ∨ column ∈ rest) :
    Sound W root E calls datasets
      (Function.update stage i (.texts n name rest (found.mergeSort RowVector.le))) := by
  have hlinked := hsound.coherent.linked _ name d hcolumns.1 (hcolumns.2 name (by simp)) found
    hfound
  refine hsound.quiet ⟨d, hcolumns, found, rfl, hlinked⟩ fun k column d' hd' hcolumn howes => ?_
  rcases howed k column howes with rfl | hmem
  · have hplace := howes.1
    rw [← hplace, hcolumns.1] at hd'
    cases hd'
    by_cases hrows : SameRows (found.mergeSort RowVector.le) d
    · refine .inl ⟨found, ?_, exact_of_sameRows hlinked hrows⟩
      rwa [← hnames _ _ _ hplace]
    · refine .inr ⟨hplace, .inr ⟨rfl, d, ?_, hrows⟩⟩
      rw [← hplace]
      exact hcolumns.1
  · exact .inr ⟨howes.1, .inl hmem⟩

theorem Sound.advance_start (hsound : Sound W h.root E calls disk.datasets stage)
    (hrun : (h.prepare W (calls i)).run disk = .ok next disk') :
    Sound W h.root E calls disk'.datasets (Function.update stage i next) := by
  obtain ⟨rfl, ⟨table, batch, -, rfl⟩ | ⟨opened, rfl, hopened⟩⟩ := prepare_ok hrun
  · exact hsound.quiet trivial fun k column d _ _ howes => .inr ⟨howes.1, trivial⟩
  · exact hsound.quiet ⟨opened, hopened⟩ fun k column d _ _ howes => .inr ⟨howes.1, trivial⟩

theorem Sound.advance_append {batch : Batch}
    (hsound : Sound W h.root E calls disk.datasets stage) (hstage : stage i = .append batch)
    (hfits : Fits W h calls disk.datasets stage i) {u : PUnit}
    (hrun : (h.appendTo W (calls i).table batch).run disk = .ok u disk') :
    Sound W h.root E calls disk'.datasets
      (Function.update stage i (.record batch.rows.length)) := by
  unfold Fits at hfits
  rw [hstage] at hfits
  obtain ⟨hclear, hfree⟩ := hfits
  obtain ⟨before, s1, hfound, h1⟩ := bind_ok.1 hrun
  obtain ⟨_, s2, hask, h2⟩ := bind_ok.1 h1
  cases hfound
  obtain ⟨-, rfl⟩ := ask_ok.1 hask
  cases h2
  refine hsound.commit ?_ hclear
  cases hbefore : s2.datasets (h.place W (calls i).table) with
  | none => exact .inl ⟨hbefore, hfree hbefore⟩
  | some d => exact .inr ⟨d, hbefore, Dataset.add_follows d batch.rows⟩

theorem Sound.advance_rows {opened : Dataset}
    (hsound : Sound W h.root E calls disk.datasets stage) (hstage : stage i = .rows opened)
    (hfits : Fits W h calls disk.datasets stage i)
    (hrun : (h.advance W R (calls i) (.rows opened)).run disk = .ok next disk') :
    Sound W h.root E calls disk'.datasets (Function.update stage i next) := by
  unfold Fits at hfits
  rw [hstage] at hfits
  obtain ⟨_, s1, hask, h1⟩ := bind_ok.1 hrun
  obtain ⟨latest, s2, hfound, h2⟩ := bind_ok.1 h1
  obtain ⟨_, s3, hcommit, h3⟩ := bind_ok.1 h2
  obtain rfl := askCommit_ok hask
  cases hfound
  cases hcommit
  cases h3
  have hthere := hsound.consistent i
  rw [hstage] at hthere
  obtain ⟨d, hd⟩ := hthere
  change s1.datasets (h.place W (calls i).table) = some d at hd
  refine hsound.commit (.inr ⟨d, hd, ?_⟩) hfits
  rw [hd]
  exact R.follows (calls i) opened d

theorem Sound.advance_record {n : Nat} (hsound : Sound W h.root E calls disk.datasets stage)
    {u : PUnit}
    (hrun : (h.record W (calls i).operation (count64 n)).run disk = .ok u disk') :
    Sound W h.root E calls disk'.datasets (Function.update stage i (.columns n)) := by
  rw [(h.record_datasets _ _).reaches _ _ _ hrun]
  exact hsound.quiet trivial fun k column d _ _ howes => .inr ⟨howes.1, trivial⟩

theorem Sound.advance_columns {n : Nat} {columns : List Text}
    (hsound : Sound W h.root E calls disk.datasets stage)
    (hrun : (h.embeddingColumns W (calls i).table).run disk = .ok columns disk') :
    Sound W h.root E calls disk'.datasets
      (Function.update stage i ((calls i).next n columns)) := by
  obtain ⟨d, hopens, rfl, rfl⟩ := embeddingColumns_ok.1 hrun
  have hcolumns : Columns W h.root disk'.datasets (calls i) d.schema.autoEmbeddingColumns d :=
    ⟨hopens.1, fun _ hcolumn => hcolumn⟩
  refine hsound.quiet (consistent_next hcolumns) fun k column d' hd' hcolumn howes => .inr ?_
  rw [← howes.1, hcolumns.1] at hd'
  cases hd'
  exact owes_next howes.1 hcolumn

theorem Sound.advance_companion {n : Nat} {name : Text} {rest : List Text} {opens : Bool}
    (hsound : Sound W h.root E calls disk.datasets stage)
    (hnames : SameCompanions W h.root calls) (hstage : stage i = .companion n name rest)
    (hfits : Fits W h calls disk.datasets stage i)
    (hrun : (h.companionOpens W (calls i).table name).run disk = .ok opens disk') :
    Sound W h.root E calls disk'.datasets (Function.update stage i
      (if opens then .vectors n name rest else .texts n name rest [])) := by
  unfold Fits at hfits
  rw [hstage] at hfits
  have hthere := hsound.consistent i
  rw [hstage] at hthere
  obtain ⟨d, hcolumns⟩ := hthere
  obtain ⟨hopens, rfl⟩ := companionOpens_ok hrun
  cases opens with
  | true =>
    refine hsound.quiet ⟨d, hcolumns⟩ fun k column d' _ _ howes => .inr ?_
    rwa [hstage] at howes
  | false =>
    have hnone : disk'.datasets (companionIn W h.root (calls i).table name) = none := by
      cases hc : disk'.datasets (companionIn W h.root (calls i).table name) with
      | none => rfl
      | some c => cases hopens.2 ⟨c, hfits c hc⟩
    have htexts := hsound.texts (n := n) hnames hcolumns (.inl ⟨hnone, rfl⟩) ?_
    · rwa [List.mergeSort_nil] at htexts
    · intro k column howes
      rw [hstage] at howes
      exact howes.2

theorem Sound.advance_vectors {n : Nat} {name : Text} {rest : List Text}
    {existing : List RowVector} (hsound : Sound W h.root E calls disk.datasets stage)
    (hnames : SameCompanions W h.root calls) (hstage : stage i = .vectors n name rest)
    (hrun : (h.vectorsOf W (calls i).table name).run disk = .ok existing disk') :
    Sound W h.root E calls disk'.datasets
      (Function.update stage i (.texts n name rest existing)) := by
  have hthere := hsound.consistent i
  rw [hstage] at hthere
  obtain ⟨d, hcolumns⟩ := hthere
  obtain ⟨⟨-, c, found, hopens, -, hstored, rfl⟩, rfl⟩ := vectorsOf_ok.1 hrun
  refine hsound.texts hnames hcolumns (.inr ⟨c, _, hopens.1, hstored⟩) fun k column howes => ?_
  rw [hstage] at howes
  exact howes.2

/-- What a write owes of a column whose vectors it has read, it settles or still owes when it has
read the texts: by going on where they match, and otherwise by the vectors it will write. -/
theorem Sound.advance_texts {n : Nat} {name : Text} {rest : List Text}
    {existing : List RowVector} {d : Dataset} {present : List (RowId × Text)}
    (hsound : Sound W h.root E calls disk.datasets stage)
    (hstage : stage i = .texts n name rest existing)
    (hrun : (h.readTexts W (calls i).table name).run disk = .ok (d, present) disk') :
    (Matching existing present → Sound W h.root E calls disk'.datasets
      (Function.update stage i ((calls i).next n rest))) ∧
    ∀ vectors, rebuild E (calls i).table existing present = .ok vectors →
      Sound W h.root E calls disk'.datasets
        (Function.update stage i (.write n name rest d vectors)) := by
  have hthere := hsound.consistent i
  rw [hstage] at hthere
  obtain ⟨d', hcolumns, found, rfl, hlinked⟩ := hthere
  obtain ⟨hopens, htexts, rfl⟩ := readTexts_ok hrun
  cases hopens.1.symm.trans hcolumns.1
  have hpresent := presentTexts_ok htexts
  constructor
  · intro hmatching
    refine hsound.quiet (consistent_next hcolumns.tail) fun k column d' hd' hcolumn howes =>
      .inr ?_
    rw [hstage] at howes
    obtain ⟨hplace, hmem | ⟨rfl, d', hd', hrows⟩⟩ := howes
    · exact owes_next hplace hmem
    · rw [← hplace, hcolumns.1] at hd'
      cases hd'
      refine absurd ?_ hrows
      unfold Matching at hmatching
      rwa [hpresent, List.map_map] at hmatching
  · intro vectors hvectors
    obtain ⟨hembeddable, rfl⟩ := rebuild_ok.1 hvectors
    have hexact := rebuilt_exact hlinked.kept hpresent hembeddable
    refine hsound.quiet ⟨d, hcolumns, rfl, hexact, hexact.linked⟩ fun k column d' hd' _ howes =>
      .inr ?_
    rw [hstage] at howes
    obtain ⟨hplace, hmem | ⟨rfl, -⟩⟩ := howes
    · exact ⟨hplace, .inl hmem⟩
    · refine ⟨hplace, .inr ⟨rfl, d, ?_, rfl⟩⟩
      rw [← hplace]
      exact hcolumns.1

theorem Sound.advance_write {n : Nat} {name : Text} {rest : List Text} {opened : Dataset}
    {vectors : List RowVector} (hsound : Sound W h.root E calls disk.datasets stage)
    (hnames : SameCompanions W h.root calls)
    (hstage : stage i = .write n name rest opened vectors)
    (hfits : Fits W h calls disk.datasets stage i) {u : PUnit}
    (hrun : (h.overwriteVectors W (calls i).table name vectors).run disk = .ok u disk') :
    Sound W h.root E calls disk'.datasets
      (Function.update stage i ((calls i).next n rest)) := by
  unfold Fits at hfits
  rw [hstage] at hfits
  obtain ⟨before, hafter⟩ := overwriteVectors_ok hrun
  rw [hafter]
  exact hsound.overwrite hnames hstage hfits

/-- **Every part of a write** that fits keeps the invariant. -/
theorem Sound.advance (hsound : Sound W h.root E calls disk.datasets stage)
    (hembedder : ∀ embedder, h.embedder = some embedder → embedder = E)
    (hnames : SameCompanions W h.root calls) (hfits : Fits W h calls disk.datasets stage i)
    (hrun : (h.advance W R (calls i) (stage i)).run disk = .ok next disk') :
    Sound W h.root E calls disk'.datasets (Function.update stage i next) := by
  cases hstage : stage i with
  | start =>
    rw [hstage] at hrun
    exact hsound.advance_start hrun
  | append batch =>
    rw [hstage] at hrun
    obtain ⟨u, s1, happend, h1⟩ := bind_ok.1 hrun
    cases h1
    exact hsound.advance_append hstage hfits happend
  | rows opened =>
    rw [hstage] at hrun
    exact hsound.advance_rows hstage hfits hrun
  | record n =>
    rw [hstage] at hrun
    obtain ⟨u, s1, hrecord, h1⟩ := bind_ok.1 hrun
    cases h1
    exact hsound.advance_record hrecord
  | columns n =>
    rw [hstage] at hrun
    obtain ⟨columns, s1, hcolumns, h1⟩ := bind_ok.1 hrun
    cases h1
    exact hsound.advance_columns hcolumns
  | companion n name rest =>
    rw [hstage] at hrun
    obtain ⟨opens, hopens, rfl⟩ := advance_companion_ok hrun
    exact hsound.advance_companion hnames hstage hfits hopens
  | vectors n name rest =>
    rw [hstage] at hrun
    obtain ⟨existing, s1, hvectors, h1⟩ := bind_ok.1 hrun
    cases h1
    exact hsound.advance_vectors hnames hstage hvectors
  | texts n name rest existing =>
    rw [hstage] at hrun
    obtain ⟨embedder, d, present, he, htexts, hnext⟩ := advance_texts_ok hrun
    cases hembedder embedder he
    obtain ⟨hmatches, hwrites⟩ := hsound.advance_texts hstage htexts
    obtain ⟨hmatching, rfl⟩ | ⟨vectors, hrebuild, rfl⟩ := hnext
    · exact hmatches hmatching
    · exact hwrites vectors hrebuild
  | write n name rest opened vectors =>
    rw [hstage] at hrun
    obtain ⟨u, s1, hwrite, h1⟩ := bind_ok.1 hrun
    cases h1
    exact hsound.advance_write hnames hstage hfits hwrite
  | done answer =>
    rw [hstage] at hrun
    cases hrun
    rw [← hstage, Function.update_eq_self]
    exact hsound
  | failed e =>
    rw [hstage] at hrun
    cases hrun

/-- A step keeps the invariant, or some write has failed. -/
theorem step_sound {s : Threads Disk ι Stage}
    (hembedder : ∀ embedder, h.embedder = some embedder → embedder = E)
    (hnames : SameCompanions W h.root calls)
    (hsound : (∃ j e, s.stage j = .failed e) ∨ Sound W h.root E calls s.shared.datasets s.stage)
    (hfits : Fits W h calls s.shared.datasets s.stage i) :
    (∃ j e, (s.step (fun i => h.advance W R (calls i)) .failed i).stage j = .failed e) ∨
      Sound W h.root E calls (s.step (fun i => h.advance W R (calls i)) .failed i).shared.datasets
        (s.step (fun i => h.advance W R (calls i)) .failed i).stage := by
  unfold Threads.step advanceOne
  cases hrun : (h.advance W R (calls i) (s.stage i)).run s.shared with
  | error e disk' => exact .inl ⟨i, e, Function.update_self _ _ _⟩
  | ok next disk' =>
    rcases hsound with ⟨j, e, hfailed⟩ | hsound
    · -- a write that has failed takes no further step
      have hji : j ≠ i := by
        rintro rfl
        rw [hfailed] at hrun
        cases hrun
      refine .inl ⟨j, e, ?_⟩
      dsimp only
      rwa [Function.update_of_ne hji]
    · exact .inr (hsound.advance hembedder hnames hfits hrun)

/-- **Concurrent writes keep vectors.**  However the parts of any number of writes through one
handle come between one another: where rows are committed clear of the vectors, and vectors are
written only for the rows that are there or while another write owes them, every column of the
writes' tables has exactly the vectors of its text once all writes have returned. -/
theorem concurrent_writes_keep_vectors {s : Threads Disk ι Stage}
    (hcoherent : Coherent W h.root E disk.datasets)
    (hembedder : ∀ embedder, h.embedder = some embedder → embedder = E)
    (hnames : SameCompanions W h.root calls)
    (hreached : Interleave.Reached (fun i => h.advance W R (calls i)) .failed
      (fun s i => Fits W h calls s.shared.datasets s.stage i) ⟨disk, fun _ => .start⟩ s)
    (hdone : ∀ i, ∃ answer, s.stage i = .done answer) {k : ι} {column : Text} {d : Dataset}
    (hd : s.shared.datasets (h.place W (calls k).table) = some d)
    (hcolumn : column ∈ d.schema.autoEmbeddingColumns) :
    Settled W h.root E s.shared.datasets (calls k).table column d := by
  have hstart : Sound W h.root E calls disk.datasets fun _ => .start :=
    ⟨hcoherent, fun _ => trivial, fun k column d _ _ => .inr ⟨k, rfl, trivial⟩⟩
  have hsound := hreached.invariant
    (fun s => (∃ j e, s.stage j = .failed e) ∨
      Sound W h.root E calls s.shared.datasets s.stage)
    (.inr hstart) fun s i hs hfits => step_sound hembedder hnames hs hfits
  rcases hsound with ⟨j, e, hfailed⟩ | hsound
  · obtain ⟨answer, hanswer⟩ := hdone j
    rw [hfailed] at hanswer
    cases hanswer
  · rcases hsound.owed k column d hd hcolumn with hsettled | ⟨j, -, howes⟩
    · exact hsettled
    · obtain ⟨answer, hanswer⟩ := hdone j
      rw [hanswer] at howes
      exact howes.elim

end Steps

/-! ## Two rows at once -/

/-- Two writes, each with one row of text for one table. -/
def twoAppends : Bool → Write
  | false => appendDocs "a".toList
  | true => appendDocs "bb".toList

def inFlight (schedule : List Bool) : Threads Disk Bool Stage :=
  Threads.run (fun i => writer.advance .plain (Rebase.onto .plain) (twoAppends i)) .failed
    ⟨created, fun _ => .start⟩ schedule

/-- Both commit their rows before either reads the texts. -/
def inStep : List Bool :=
  [false, false, false, false, true, true, true, true, false, false, true, true, false, true]

/-- The first reads the texts, the second is run as a whole, and the first writes its vectors. -/
def overtaken : List Bool :=
  [false, false, false, false, false, false, true, true, true, true, true, true, true, false]

theorem created_coherent : Coherent .plain "db".toList lengths created.datasets := by
  have hreached : Reached .plain "db".toList lengths created :=
    .create .empty writer_uses fun _ => docs_free
  exact hreached.coherent

set_option maxRecDepth 8000 in
theorem inStep_fits : AllMeet (fun i => writer.advance .plain (Rebase.onto .plain) (twoAppends i))
    Stage.failed (fun s i => Fits .plain writer twoAppends s.shared.datasets s.stage i)
    ⟨created, fun _ => .start⟩ inStep := by
  have hclear : ∀ {datasets : Datasets} {d : Dataset},
      datasets (writer.place .plain "docs".toList) = some d →
        d.schema = Compression.none.appliedTo embeddedText →
          Clear .plain "db".toList datasets "docs".toList := by
    intro datasets d hd hschema
    refine .inl ⟨"text".toList, d, hd, ?_⟩
    rw [hschema]
    decide
  refine ⟨trivial, ⟨hclear rfl rfl, nofun⟩, trivial, trivial, trivial, ⟨hclear rfl rfl, nofun⟩,
    trivial, trivial, ?_, trivial, ?_, trivial, .inl ⟨_, rfl, rfl⟩, .inl ⟨_, rfl, rfl⟩, trivial⟩
  · intro c hc
    cases hc
  · intro c hc
    cases hc

set_option maxRecDepth 8000 in
/-- Both rows have their vectors. -/
theorem inStep_settled : ∃ d,
    (inFlight inStep).shared.datasets (writer.place .plain "docs".toList) = some d ∧
      d.rows = [⟨0, [.utf8 "a".toList]⟩, ⟨1, [.utf8 "bb".toList]⟩] ∧
      Settled .plain "db".toList lengths (inFlight inStep).shared.datasets "docs".toList
        "text".toList d := by
  have hnames : SameCompanions .plain "db".toList twoAppends := by
    rintro (_ | _) (_ | _) column - <;> rfl
  have hdone : ∀ i, ∃ answer, (inFlight inStep).stage i = .done answer := by
    rintro (_ | _)
    · exact ⟨.done, rfl⟩
    · exact ⟨.done, rfl⟩
  have hcolumn : "text".toList ∈
      (Compression.none.appliedTo embeddedText).autoEmbeddingColumns := by decide
  refine ⟨_, rfl, rfl, ?_⟩
  exact concurrent_writes_keep_vectors (k := false) created_coherent writer_uses.embedder hnames
    (Interleave.Reached.start.run inStep_fits) hdone rfl hcolumn

set_option maxRecDepth 8000 in
theorem overtaken_vectors : ∃ c, (inFlight overtaken).shared.datasets
    (writer.place .plain (vectorTable "docs".toList "text".toList)) = some c ∧
      stored "docs".toList c = .ok [⟨0, 0, List.replicate VECTOR_WIDTH 1⟩] := ⟨_, rfl, rfl⟩

set_option maxRecDepth 8000 in
/-- Both writes returned, both rows are there, and the second has no vectors. -/
theorem overtaken_row_loses_vectors : ∃ d,
    (∀ i, (inFlight overtaken).stage i = .done .done) ∧
      (inFlight overtaken).shared.datasets (writer.place .plain "docs".toList) = some d ∧
      d.rows = [⟨0, [.utf8 "a".toList]⟩, ⟨1, [.utf8 "bb".toList]⟩] ∧
      "text".toList ∈ d.schema.autoEmbeddingColumns ∧
      ¬ Settled .plain "db".toList lengths (inFlight overtaken).shared.datasets "docs".toList
        "text".toList d := by
  have hdone : ∀ i, (inFlight overtaken).stage i = .done .done := by
    rintro (_ | _) <;> rfl
  have hcolumn : "text".toList ∈
      (Compression.none.appliedTo embeddedText).autoEmbeddingColumns := by decide
  refine ⟨_, hdone, rfl, rfl, hcolumn, ?_⟩
  rintro ⟨found, hfound, hexact⟩
  obtain ⟨c, hc, hstored⟩ := overtaken_vectors
  have hfirst : found = [⟨0, 0, List.replicate VECTOR_WIDTH 1⟩] := by
    rcases hfound with ⟨hnone, -⟩ | ⟨c', table, hc', hstored'⟩
    · cases hc.symm.trans hnone
    · cases hc.symm.trans hc'
      exact stored_unique hstored' hstored
  subst hfirst
  rw [List.mergeSort_singleton] at hexact
  have hthere : (⟨1, [.utf8 "bb".toList]⟩ : Row) ∈
      [(⟨0, [.utf8 "a".toList]⟩ : Row), ⟨1, [.utf8 "bb".toList]⟩] := by simp
  obtain ⟨embeddings, hembed, hrow⟩ := hexact.rows _ hthere
  cases hembed
  cases hrow

end EuleDB.Store
