import EuleDB.Store.Writes

/-!
# When a write that fails has done nothing

The rows of a write are committed before the write is recorded and before its vectors are brought
back into agreement.  What fails after the commit leaves the rows there.

* `ReconcilesEach.elsewhere` — reconciling columns changes their companions and nothing else.
* `write_atomic_iff` — when a write that returns an error leaves its table's rows as they were.
-/

set_option autoImplicit false

namespace EuleDB.Store

open Crypto Audit Effect LanceStore

variable (W : World) (h : LanceStore)

/-- The rows of a table; none where it is not there. -/
def rowsOf (datasets : Datasets) (table : Text) : List Row :=
  ((datasets (h.place W table)).map Dataset.rows).getD []

/-- A write that returns an error leaves its table's rows as they were. -/
def Atomic (w : Write) (disk : Disk) : Prop :=
  ∀ e disk', (h.perform W w.op).run disk = .error e disk' →
    rowsOf W h disk'.datasets w.table = rowsOf W h disk.datasets w.table

/-- The vectors of no column are kept where the table itself lives. -/
def Elsewhere (table : Text) (d : Dataset) : Prop :=
  ∀ column ∈ d.schema.autoEmbeddingColumns,
    h.place W (vectorTable table column) ≠ h.place W table

/-- The write commits nothing, or it commits rows as they were, or nothing after its commit can
fail: the log takes the record, the table opens again, and each of its auto-embedding columns can
be reconciled. -/
def Spared (w : Write) (disk : Disk) : Prop :=
  ∀ d, Commits W h disk.datasets w d →
    (Elsewhere W h w.table d ∧ d.rows = rowsOf W h disk.datasets w.table) ∨
      (Records W h disk.log ∧ Opens W h (committed W h disk.datasets w d) w.table d ∧
        ∃ datasets', ReconcilesEach W h w.table d.schema.autoEmbeddingColumns
          (committed W h disk.datasets w d) datasets')

variable {W h}

/-! ## What a reconciliation leaves alone -/

theorem LanceStore.ReconcilesTo.elsewhere {table column : Text} {datasets datasets' : Datasets}
    (hreconciles : ReconcilesTo W h table column datasets datasets') {path : Path}
    (hpath : path ≠ h.place W (vectorTable table column)) : datasets' path = datasets path := by
  obtain ⟨_, _, _, _, -, ⟨-, rfl⟩ | ⟨-, _, -, -, -, rfl⟩⟩ := hreconciles
  · rfl
  · exact Function.update_of_ne hpath _ _

theorem LanceStore.ReconcilesEach.elsewhere {table : Text} {columns : List Text}
    {datasets datasets' : Datasets}
    (hreconciles : ReconcilesEach W h table columns datasets datasets') {path : Path}
    (hpath : ∀ column ∈ columns, path ≠ h.place W (vectorTable table column)) :
    datasets' path = datasets path := by
  induction hreconciles with
  | nil => rfl
  | cons hfirst hrest ih =>
    rw [List.forall_mem_cons] at hpath
    exact (ih hpath.2).trans (hfirst.elsewhere hpath.1)

/-- Rows that were committed stay, however many columns are reconciled. -/
theorem rowsOf_reconciled {w : Write} {d : Dataset} {datasets datasets' : Datasets}
    {done : List Text} (helsewhere : Elsewhere W h w.table d)
    (hdone : done <+: d.schema.autoEmbeddingColumns)
    (hreconciles : ReconcilesEach W h w.table done (committed W h datasets w d) datasets') :
    rowsOf W h datasets' w.table = d.rows := by
  have hplace : datasets' (h.place W w.table) = some d := by
    rw [hreconciles.elsewhere fun column hcolumn =>
      (helsewhere column (hdone.subset hcolumn)).symm]
    exact Function.update_self _ _ _
  unfold rowsOf
  rw [hplace]
  rfl

/-! ## Atomicity -/

/-- **A write that fails leaves the rows as they were** where its commit is refused or changes
nothing, or where nothing after the commit can fail; and where the vectors are kept elsewhere,
only there. -/
theorem write_atomic_iff (W : World) (h : LanceStore) (w : Write) (disk : Disk) :
    (Spared W h w disk → Atomic W h w disk) ∧
      ((∀ d, Commits W h disk.datasets w d → Elsewhere W h w.table d) →
        Atomic W h w disk → Spared W h w disk) := by
  constructor
  · intro hspared e disk' hrun
    rcases perform_write_error hrun with ⟨hsame, -⟩ | ⟨d, hcommits, done, hdone, hreconciles⟩
    · rw [hsame]
    · rcases hspared d hcommits with ⟨helsewhere, hrows⟩ | ⟨hrecords, hopens, datasets', heach⟩
      · rw [rowsOf_reconciled helsewhere hdone hreconciles, hrows]
      · obtain ⟨answer, disk'', hok, -⟩ :=
          perform_write_run ⟨d, hcommits, hrecords, hopens, heach⟩
        rw [hrun] at hok
        cases hok
  · intro helsewhere hatomic d hcommits
    cases hrun : (h.perform W w.op).run disk with
    | ok answer disk' =>
      obtain ⟨d', hcommits', hrecords, hopens, heach⟩ := perform_write_ok hrun
      cases hcommits.unique hcommits'
      exact .inr ⟨hrecords, hopens, _, heach⟩
    | error e disk' =>
      refine .inl ⟨helsewhere d hcommits, ?_⟩
      rcases perform_write_error hrun with ⟨-, hnone⟩ | ⟨d', hcommits', done, hdone, hreconciles⟩
      · exact absurd hcommits (hnone d)
      · cases hcommits.unique hcommits'
        rw [← hatomic e disk' hrun,
          rowsOf_reconciled (helsewhere d hcommits) hdone hreconciles]

/-! ## A handle without an embedder -/

/-- One text column that embeds itself. -/
def embeddedText : Schema :=
  Schema.autoEmbedding ⟨[⟨"text".toList, .utf8, false, []⟩], []⟩ "text".toList

/-- The append is refused for want of an embedder, and its row is there. -/
theorem refused_append_stays :
    let h := LanceStore.openForWriting "db".toList
    ∃ disk disk' : Disk,
      (h.createTable .plain "docs".toList ⟨embeddedText, .none⟩).run Disk.empty = .ok ⟨⟩ disk ∧
      (h.perform .plain (.append "docs".toList ⟨embeddedText, [[.utf8 "hello".toList]]⟩)).run disk =
        .error (.backend "embed the auto-embedding column of" "docs".toList NO_EMBEDDER) disk' ∧
      rowsOf .plain h disk.datasets "docs".toList = [] ∧
      rowsOf .plain h disk'.datasets "docs".toList = [⟨0, [.utf8 "hello".toList]⟩] :=
  ⟨_, _, rfl, rfl, rfl, rfl⟩

end EuleDB.Store
