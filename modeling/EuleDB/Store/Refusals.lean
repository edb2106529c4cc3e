import EuleDB.Store.Errors
import EuleDB.Store.TableRuns

/-!
# Texts that are not embedded

A write whose rows are committed embeds their texts, and reports where a text cannot be.  The rows
stay, and the report is about one of them.

* `Beside` — the errors that are not such a report; every part of a write but the embedding itself
  ends with those only.
* `WideAt` — the invariant: the vectors in a place are as wide as they have to be.  No operation on
  tables elsewhere leaves others there, whether or not the table that they were made for is dropped.
* `Unembedded` — a row whose text the embedder refuses, or gives a vector of the wrong width for.
* `refusal_is_about_a_row` — after every run on tables that lie apart from the vectors, the report
  is about such a row of the table that was written, with what the embedder said of its text.
-/

set_option autoImplicit false

namespace EuleDB.Store

open Crypto Audit Effect LanceStore

/-- Not the report that a text could not be embedded. -/
def Beside (e : Error) : Prop := ∀ about cause, e ≠ .backend "embed the text of" about cause

/-- A row whose text the embedder refuses, saying `cause`, or embeds in the wrong width. -/
def Unembedded (E : Embedder) (s : Schema) (column : Text) (cause : Cause) (r : Row) : Prop :=
  E.embedPassage (textOf s column r) = .error cause ∨
    ∃ embeddings, E.embedPassage (textOf s column r) = .ok embeddings ∧
      ∃ embedding ∈ embeddings, embedding.length ≠ VECTOR_WIDTH ∧
        cause = wrongWidth embedding.length

/-! ## What does not embed -/

section Beside

variable {W : World} {h : LanceStore}

theorem Beside.backend {operation : String} (hoperation : operation ≠ "embed the text of")
    (about : Text) (cause : Cause) : Beside (.backend operation about cause) := by
  intro about' cause' heq
  cases heq
  exact hoperation rfl

theorem ask_beside {operation : String} (hoperation : operation ≠ "embed the text of")
    (about : Text) (call : Call) (d : Option Dataset) :
    Raises Beside (ask W operation about call d) := by
  unfold ask
  split
  · exact Raises.pure _
  · exact Raises.throw (.backend hoperation _ _)

theorem open_beside (table : Text) : Raises Beside (h.open W table) := by
  refine (Covers.found table).bind fun d => (ask_beside (by decide) _ _ _).bind fun _ => ?_
  split
  · exact Raises.pure _
  · exact Raises.throw (.backend (by decide) _ _)

theorem collect_beside (table about : Text) (d : Dataset) (rows : List Row) :
    Raises Beside (h.collect W table about d rows) :=
  (ask_beside (by decide) _ _ _).bind fun _ => (ask_beside (by decide) _ _ _).bind fun _ =>
    Raises.pure _

theorem record_beside (op : Operation) (rows : UInt64) : Raises Beside (h.record W op rows) := by
  intro disk e disk' hrun
  change h.record W op rows disk = _ at hrun
  unfold LanceStore.record at hrun
  split at hrun
  · cases hrun
  · split at hrun
    · cases hrun
    · cases hrun
      exact nofun

theorem askEach_beside (table : Text) (d : Dataset) (assignments : List (Text × Text)) :
    Raises Beside (h.askEach W table d assignments) := by
  induction assignments with
  | nil => exact Raises.pure _
  | cons assignment assignments ih => exact (ask_beside (by decide) _ _ _).bind fun _ => ih

/-- The rows of a write embed nothing. -/
theorem writeRows_beside (w : Write) : Raises Beside (h.writeRows W w) := by
  cases w with
  | append table batch =>
    refine (requireScope_raises nofun).bind fun _ => ?_
    refine (requireWriteRole_raises nofun).bind fun _ => ?_
    refine (Covers.found _).bind fun before => (ask_beside (by decide) _ _ _).bind fun _ => ?_
    exact (Covers.commit _ _).bind fun _ => Raises.pure _
  | update table predicate assignments =>
    refine (requireScope_raises nofun).bind fun _ => ?_
    refine (requireWriteRole_raises nofun).bind fun _ => ?_
    split_ifs
    · exact Raises.throw nofun
    · refine (open_beside _).bind fun d => (ask_beside (by decide) _ _ _).bind fun _ => ?_
      refine (askEach_beside _ _ _).bind fun _ => (ask_beside (by decide) _ _ _).bind fun _ => ?_
      refine (ask_beside (by decide) _ _ _).bind fun _ => (Covers.commit _ _).bind fun _ => ?_
      exact Raises.pure _
  | delete table predicate =>
    refine (requireScope_raises nofun).bind fun _ => ?_
    refine (requireWriteRole_raises nofun).bind fun _ => ?_
    refine (open_beside _).bind fun d => (ask_beside (by decide) _ _ _).bind fun _ => ?_
    refine (ask_beside (by decide) _ _ _).bind fun _ => (Covers.commit _ _).bind fun _ => ?_
    exact Raises.pure _

/-- What ends with other errors only does not end with the report. -/
theorem not_reported {α : Type} {x : StoreM α} (hx : Raises Beside x) {disk disk' : Disk}
    {about : Text} {cause : Cause} :
    x.run disk ≠ .error (.backend "embed the text of" about cause) disk' :=
  fun hrun => hx _ _ _ hrun _ _ rfl

/-- What goes wrong with the vectors there are, or the texts, is not the embedding. -/
theorem existingVectors_beside (table column : Text) :
    Raises Beside (h.existingVectors W table column) := by
  intro disk e disk' hrun
  change h.existingVectors W table column disk = _ at hrun
  unfold existingVectors at hrun
  split at hrun
  · refine Raises.bind (requireScope_raises nofun) (fun _ => ?_) _ _ _ hrun
    refine (open_beside _).bind fun d => (collect_beside _ _ _ _).bind fun _ => ?_
    refine Raises.bind (Raises.ofExcept fun e herror => ?_) fun _ => Raises.pure _
    obtain ⟨cause, rfl⟩ := rowVectors_error herror
    exact .backend (by decide) _ _
  · cases hrun

theorem presentTexts_beside (table column : Text) (d : Dataset) :
    Raises Beside (ofExcept (presentTexts table column d) : StoreM (List (RowId × Text))) := by
  refine Raises.ofExcept fun e herror => ?_
  obtain ⟨cause, rfl⟩ := presentTexts_error herror
  exact .backend (by decide) _ _

end Beside

/-! ## Vectors that are wide enough -/

/-- The vectors that are stored in a place are as wide as they have to be. -/
def WideAt (d? : Option Dataset) : Prop :=
  ∀ found, StoredIn d? found → ∀ v ∈ found, v.embedding.length = VECTOR_WIDTH

theorem wideAt_none : WideAt none := by
  intro found hfound v hv
  rw [vectorless_none found hfound] at hv
  cases hv

section Widths

variable {W : World} {h : LanceStore} {path : Path} {table : Text} {datasets datasets' : Datasets}

theorem SameAt.wideAt {disk disk' : Disk} (hsame : SameAt path disk disk')
    (hwide : WideAt (disk.datasets path)) : WideAt (disk'.datasets path) := by
  have hback : SameAt path disk' disk := Eq.symm hsame
  exact fun found hfound => hwide found (hback.storedIn hfound)

theorem ne_of_directory {directory : Path} (h : directory.isPrefixOf path = false) :
    directory ≠ path := by
  rintro rfl
  rw [List.isPrefixOf_iff_prefix.2 List.prefix_rfl] at h
  cases h

/-- What a row keeps or gets where every row can be embedded is wide enough. -/
theorem embeddable_wide {embedder : Embedder} {existing : List RowVector}
    {present : List (RowId × Text)} (hembeddable : Embeddable embedder table existing present) :
    ∀ v ∈ present.flatMap (rowVectorsOf embedder table existing),
      v.embedding.length = VECTOR_WIDTH := by
  intro v hv
  obtain ⟨entry, hentry, hv⟩ := List.mem_flatMap.1 hv
  obtain ⟨embeddings, hembeddings, hwidth⟩ := hembeddable entry hentry
  unfold rowVectorsOf at hv
  rw [hembeddings] at hv
  have hmem := List.mem_map_of_mem (f := RowVector.embedding) hv
  rw [chunksOf_embeddings] at hmem
  exact hwidth _ hmem

theorem LanceStore.ReconcilesTo.wideAt {column : Text}
    (hreconciles : ReconcilesTo W h table column datasets datasets')
    (hwide : WideAt (datasets path)) : WideAt (datasets' path) := by
  by_cases hpath : path = h.place W (vectorTable table column)
  · obtain ⟨_, _, _, _, -, ⟨-, rfl⟩ | ⟨-, _, rfl, hembeddable, -, rfl⟩⟩ := hreconciles
    · exact hwide
    · rw [hpath, Function.update_self]
      intro found hfound
      rw [storedIn_overwrite.1 hfound]
      exact embeddable_wide hembeddable
  · rw [hreconciles.elsewhere hpath]
    exact hwide

theorem LanceStore.ReconcilesEach.wideAt {columns : List Text}
    (hreconciles : ReconcilesEach W h table columns datasets datasets')
    (hwide : WideAt (datasets path)) : WideAt (datasets' path) := by
  induction hreconciles with
  | nil => exact hwide
  | cons hfirst _ ih => exact ih (hfirst.wideAt hwide)

/-- **However far a write gets** that is not to a companion itself. -/
theorem LanceStore.Advances.wideAt {w : Write} (hadvances : Advances W h datasets w datasets')
    (hplace : h.place W w.table ≠ path) (hwide : WideAt (datasets path)) :
    WideAt (datasets' path) := by
  rcases hadvances with rfl | ⟨d, -, done, -, hreconciles⟩
  · exact hwide
  · refine hreconciles.wideAt ?_
    have hcommitted : committed W h datasets w d path = datasets path :=
      Function.update_of_ne hplace.symm _ _
    rwa [hcommitted]

/-- **Every operation** on a table leaves a companion's vectors wide enough. -/
theorem perform_wideAt {op : Op} {disk : Disk} (hplace : h.place W op.table ≠ path)
    (hwide : WideAt (disk.datasets path)) :
    WideAt ((final ((h.perform W op).run disk)).datasets path) := by
  have hwrite : ∀ w : Write, h.place W w.table ≠ path →
      WideAt ((final ((h.perform W w.op).run disk)).datasets path) :=
    fun w hne => perform_write_advances.wideAt hne hwide
  by_cases hcollides : Collides W h disk op path
  · cases op with
    | createTable table definition => exact absurd hcollides.2 hplace
    | append table batch => exact hwrite (.append table batch) hplace
    | update table predicate assignments =>
      exact hwrite (.update table predicate assignments) hplace
    | delete table predicate => exact hwrite (.delete table predicate) hplace
    | dropTable table =>
      have hfinal : final ((h.perform W (.dropTable table)).run disk) =
          final ((h.dropTable W table).run disk) :=
        final_bind_pure _ (fun _ => Answer.done) disk
      rw [hfinal]
      rcases dropTable_datasets h table disk path with hsame | ⟨-, -, hnone⟩
      · rw [hsame]
        exact hwide
      · rw [hnone]
        exact wideAt_none
    | _ => cases hcollides
  · exact (perform_elsewhere hcollides).wideAt hwide

/-- So does one that is cut off, where the companion is not in the table's directory. -/
theorem CutOff.wideAt {op : Op} (hcut : CutOff W h datasets op datasets')
    (hdirectory : (h.place W op.table).isPrefixOf path = false) (hwide : WideAt (datasets path)) :
    WideAt (datasets' path) := by
  have hplace : h.place W op.table ≠ path := ne_of_directory hdirectory
  have hupdated : ∀ d?, WideAt (Function.update datasets (h.place W op.table) d? path) := by
    intro d?
    rwa [Function.update_of_ne hplace.symm]
  cases hcut with
  | nothing op => exact hwide
  | @write w datasets' advances =>
    have htable : w.op.table = w.table := by cases w <;> rfl
    rw [htable] at hplace
    exact advances.wideAt hplace hwide
  | create creates => exact hupdated _
  | createIndex opens => exact hupdated _
  | createTextIndex opens => exact hupdated _
  | @createVectorIndex table column kind d opens =>
    have hindexed : SameAt path ⟨datasets, .fresh⟩
        ((Disk.mk datasets .fresh).put (h.place W (vectorTable table column))
          (some (d.index "embedding".toList (.vector kind)))) := commit_index_sameAt opens.1
    exact hindexed.wideAt hwide
  | drop outside =>
    rw [outside path hdirectory]
    exact hwide

/-- **And so does every run** on tables whose directories do not hold the companion. -/
theorem Ran.wideAt {root : Text} {names : Set Text} {disk after : Disk}
    {replies : List (Op × Option Answer)} (hran : Ran W root names disk replies after)
    (hdirectory : ∀ name ∈ names, (placeIn W root name).isPrefixOf path = false)
    (hwide : WideAt (disk.datasets path)) : WideAt (after.datasets path) := by
  induction hran with
  | nil disk => exact hwide
  | op here named rest ih =>
    subst here
    exact ih (perform_wideAt (ne_of_directory (hdirectory _ named)) hwide)
  | cut here named cutOff rest ih =>
    subst here
    exact ih (cutOff.wideAt (hdirectory _ named) hwide)

end Widths

/-! ## What does -/

section Rebuild

variable {W : World} {h : LanceStore} {E : Embedder} {table about column : Text} {cause : Cause}

/-- What a reconciliation finds is what is stored in the companion. -/
theorem existing_wide {datasets : Datasets} {existing : List RowVector}
    (hexisting : Existing W h datasets table column existing)
    (hwide : WideAt (datasets (h.place W (vectorTable table column)))) :
    ∀ v ∈ existing, v.embedding.length = VECTOR_WIDTH := by
  rcases hexisting with ⟨-, -, c, found, hopens, -, hstored, rfl⟩ | ⟨-, rfl⟩
  · intro v hv
    exact hwide found (.inr ⟨c, table, hopens.1, hstored⟩) v (List.mem_mergeSort.1 hv)
  · exact nofun

/-- A row with a vector that is not wide enough did not keep it. -/
theorem embeddingsOf_narrow {existing : List RowVector} {id : RowId} {text : Text}
    (hwide : ∀ v ∈ existing, v.embedding.length = VECTOR_WIDTH)
    {embeddings : List (List UInt32)}
    (hembeddings : embeddingsOf E table existing id text = .ok embeddings)
    {embedding : List UInt32} (hmem : embedding ∈ embeddings)
    (hnarrow : embedding.length ≠ VECTOR_WIDTH) : E.embedPassage text = .ok embeddings := by
  unfold embeddingsOf at hembeddings
  dsimp only at hembeddings
  split at hembeddings
  · cases hembed : E.embedPassage text with
    | ok made =>
      rw [hembed] at hembeddings
      cases hembeddings
      rfl
    | error cause =>
      rw [hembed] at hembeddings
      cases hembeddings
  · -- what is kept is as wide as all that there was
    cases hembeddings
    obtain ⟨v, hv, rfl⟩ := List.mem_map.1 hmem
    exact absurd (hwide v (List.mem_filter.1 hv).1) hnarrow

/-- **A reconciliation that reports it** has found a row that is not embedded, where the vectors
there are were wide enough. -/
theorem reconcile_refused {disk disk' : Disk} {d : Dataset}
    (hembedder : ∀ embedder, h.embedder = some embedder → embedder = E)
    (hd : disk.datasets (h.place W table) = some d)
    (hwide : WideAt (disk.datasets (h.place W (vectorTable table column))))
    (hrun : (h.reconcile W table column).run disk =
      .error (.backend "embed the text of" about cause) disk') :
    about = table ∧ ∃ r ∈ d.rows, Unembedded E d.schema column cause r := by
  cases hgiven : h.embedder with
  | none =>
    unfold reconcile at hrun
    rw [hgiven] at hrun
    exact absurd hrun (not_reported (Raises.throw (.backend (by decide) _ _)))
  | some embedder =>
    cases hembedder embedder hgiven
    rw [reconcile_run hgiven] at hrun
    rcases bind_error.1 hrun with hfail | ⟨existing, s1, hexisting, h1⟩
    · exact absurd hfail (not_reported (existingVectors_beside _ _))
    rcases bind_error.1 h1 with hfail | ⟨d', s2, hopen, h2⟩
    · exact absurd hfail (not_reported (open_beside _))
    rcases bind_error.1 h2 with hfail | ⟨_, s3, hfirst, h3⟩
    · exact absurd hfail (not_reported (ask_beside (by decide) _ _ _))
    rcases bind_error.1 h3 with hfail | ⟨_, s4, hsecond, h4⟩
    · exact absurd hfail (not_reported (ask_beside (by decide) _ _ _))
    rcases bind_error.1 h4 with hfail | ⟨_, s5, hthird, h5⟩
    · exact absurd hfail (not_reported (ask_beside (by decide) _ _ _))
    rcases bind_error.1 h5 with hfail | ⟨present, s6, htexts, h6⟩
    · exact absurd hfail (not_reported (presentTexts_beside _ _ _))
    obtain ⟨hfound, rfl⟩ := existingVectors_ok.1 hexisting
    obtain ⟨hopens, rfl⟩ := open_ok.1 hopen
    cases hd.symm.trans hopens.1
    have hpresent := presentTexts_ok (ofExcept_ok.1 htexts).1
    split_ifs at h6
    · cases h6
    rcases bind_error.1 h6 with hfail | ⟨vectors, s7, -, h7⟩
    · -- the one part that embeds
      cases hrebuild : rebuild E table existing present with
      | ok vectors =>
        rw [hrebuild] at hfail
        cases hfail
      | error e =>
        rw [hrebuild] at hfail
        cases hfail
        obtain ⟨entry, hentry, cause', heq, hrefused⟩ := rebuild_refused hrebuild
        cases heq
        rw [hpresent] at hentry
        obtain ⟨r, hr, rfl⟩ := List.mem_map.1 hentry
        refine ⟨rfl, r, hr, hrefused.imp_right ?_⟩
        rintro ⟨embeddings, hembeddings, embedding, hmem, hnarrow, hcause⟩
        have hmade := embeddingsOf_narrow (existing_wide hfound hwide) hembeddings hmem hnarrow
        exact ⟨embeddings, hmade, embedding, hmem, hnarrow, hcause⟩
    · have hwrite : Raises Beside (do
          let before ← h.found W (vectorTable table column)
          ask W "write the vectors of" table
            { h.call (vectorTable table column) (.overwrite (vectorBatch vectors)) with
              session := none } before
          h.commit W (vectorTable table column)
            ((before.getD (.create vectorSchema)).overwrite W.format (vectorBatch vectors))) :=
        (Covers.found _).bind fun _ => (ask_beside (by decide) _ _ _).bind fun _ =>
          Covers.commit _ _
      exact absurd h7 (not_reported hwrite)

/-- So has one of many columns. -/
theorem reconcileEach_refused {columns : List Text} {disk disk' : Disk} {d : Dataset}
    (hembedder : ∀ embedder, h.embedder = some embedder → embedder = E)
    (hd : disk.datasets (h.place W table) = some d)
    (hplace : ∀ column ∈ columns, h.place W table ≠ h.place W (vectorTable table column))
    (hwide : ∀ column ∈ columns, WideAt (disk.datasets (h.place W (vectorTable table column))))
    (hrun : (h.reconcileEach W table columns).run disk =
      .error (.backend "embed the text of" about cause) disk') :
    about = table ∧ ∃ column ∈ columns, ∃ r ∈ d.rows, Unembedded E d.schema column cause r := by
  induction columns generalizing disk with
  | nil => cases hrun
  | cons column columns ih =>
    rw [List.forall_mem_cons] at hplace hwide
    unfold reconcileEach at hrun
    rcases bind_error.1 hrun with hfirst | ⟨u, s1, hfirst, hrest⟩
    · obtain ⟨habout, hrow⟩ := reconcile_refused hembedder hd hwide.1 hfirst
      exact ⟨habout, column, List.mem_cons_self, hrow⟩
    · obtain ⟨middle, hreconciles, rfl⟩ := reconcile_ok.1 hfirst
      have hthere : middle (h.place W table) = some d :=
        (hreconciles.elsewhere hplace.1).trans hd
      obtain ⟨habout, name, hname, hrow⟩ := ih hthere hplace.2
        (fun name hname => hreconciles.wideAt (hwide.2 name hname)) hrest
      exact ⟨habout, name, List.mem_cons_of_mem _ hname, hrow⟩

/-- The vectors of the columns that a write embeds lie in the directory of none of these tables. -/
def VectorsApart (W : World) (h : LanceStore) (names : Set Text) (datasets : Datasets)
    (w : Write) : Prop :=
  ∀ d, Commits W h datasets w d → ∀ column ∈ d.schema.autoEmbeddingColumns, ∀ name ∈ names,
    (h.place W name).isPrefixOf (h.place W (vectorTable w.table column)) = false

/-- **A text that is not embedded is reported as what it is.**  After every run of operations
through any handles, a write that ends with the report that a text could not be embedded has
committed its rows, and names its own table; and one of the rows that are there then has a text that
the embedder refuses with just the cause that is reported, or gives a vector of the wrong width
for. -/
theorem refusal_is_about_a_row {names : Set Text} {disk disk' : Disk}
    {replies : List (Op × Option Answer)} (hran : Ran W h.root names Disk.empty replies disk)
    (hembedder : ∀ embedder, h.embedder = some embedder → embedder = E) {w : Write}
    (hname : w.table ∈ names) (hapart : VectorsApart W h names disk.datasets w)
    (hrun : (h.perform W w.op).run disk =
      .error (.backend "embed the text of" about cause) disk') :
    about = w.table ∧ ∃ d, disk'.datasets (h.place W w.table) = some d ∧
      Commits W h disk.datasets w d ∧ ∃ column ∈ d.schema.autoEmbeddingColumns, ∃ r ∈ d.rows,
        Unembedded E d.schema column cause r := by
  rw [perform_write] at hrun
  rcases bind_error.1 hrun with hfail | ⟨n, s1, hrows, h1⟩
  · exact absurd hfail (not_reported (writeRows_beside w))
  rcases bind_error.1 h1 with hfail | ⟨u, s2, hrecord, h2⟩
  · exact absurd hfail (not_reported (record_beside _ _))
  rcases bind_error.1 h2 with hall | ⟨_, s3, -, h3⟩
  · obtain ⟨d, hcommits, rfl⟩ := writeRows_ok.1 ⟨n, hrows⟩
    have hkept : s2.datasets = committed W h disk.datasets w d :=
      (h.record_datasets _ _).reaches _ _ _ hrecord
    rcases bind_error.1 hall with hfail | ⟨columns, s4, hcolumns, heach⟩
    · have hcolumns : Raises Beside (h.embeddingColumns W w.table) :=
        (open_beside _).bind fun _ => Raises.pure _
      exact absurd hfail (not_reported hcolumns)
    · obtain ⟨d', hopens, rfl, hsame⟩ := embeddingColumns_ok.1 hcolumns
      rw [hsame] at heach
      rw [hkept] at hopens
      cases hopens.committed
      have hthere : s2.datasets (h.place W w.table) = some d := by
        rw [hkept]
        exact hopens.1
      have hplace : ∀ column ∈ d.schema.autoEmbeddingColumns,
          h.place W w.table ≠ h.place W (vectorTable w.table column) :=
        fun column hcolumn => ne_of_directory (hapart d hcommits column hcolumn _ hname)
      have hwide : ∀ column ∈ d.schema.autoEmbeddingColumns,
          WideAt (s2.datasets (h.place W (vectorTable w.table column))) := by
        intro column hcolumn
        have hran := hran.wideAt (hapart d hcommits column hcolumn) wideAt_none
        have hcommitted : committed W h disk.datasets w d
            (h.place W (vectorTable w.table column)) =
              disk.datasets (h.place W (vectorTable w.table column)) :=
          Function.update_of_ne (hplace column hcolumn).symm _ _
        rwa [hkept, hcommitted]
      obtain ⟨habout, column, hcolumn, hrow⟩ :=
        reconcileEach_refused hembedder hthere hplace hwide heach
      obtain ⟨done, hdone, hreconciles⟩ := reconcileEach_error heach
      have hstays := hreconciles.elsewhere fun column hcolumn =>
        hplace column (hdone.subset hcolumn)
      exact ⟨habout, d, hstays.trans hthere, hcommits, column, hcolumn, hrow⟩
  · cases h3

end Rebuild

end EuleDB.Store
