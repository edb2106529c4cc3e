import EuleDB.Store.LanceStore

/-!
# What the parts of an operation do to a disk

* `LanceStore.open_keeps` and its like — looking, asking and reading leave a disk as it is.
* `LanceStore.open_ok`, `LanceStore.ask_ok`, `LanceStore.requireScope_ok` — what must have been the
  case for a part to succeed.
-/

set_option autoImplicit false

namespace EuleDB.Store

open Crypto Audit Effect

/-- What stands under every path. -/
abbrev Datasets := Path → Option Dataset

/-- The disk with something else, or nothing, in one place. -/
def Disk.put (disk : Disk) (path : Path) (d : Option Dataset) : Disk :=
  { disk with datasets := Function.update disk.datasets path d }

theorem Disk.put_self (disk : Disk) (path : Path) (d : Option Dataset) :
    (disk.put path d).datasets path = d := Function.update_self _ _ _

theorem Disk.put_of_ne (disk : Disk) {path other : Path} (d : Option Dataset) (h : other ≠ path) :
    (disk.put path d).datasets other = disk.datasets other := Function.update_of_ne h _ _

/-- The audit log is as it was. -/
def SameLog (disk disk' : Disk) : Prop := disk'.log = disk.log

instance : Std.Refl SameLog := ⟨fun _ => rfl⟩

instance : IsTrans Disk SameLog := ⟨fun _ _ _ h h' => h'.trans h⟩

namespace LanceStore

variable (W : World) (h : LanceStore)

/-! ## Looking leaves a disk as it is -/

theorem requireScope_keeps (scope : Scope) (table : Text) :
    Keeps Unchanged (h.requireScope W scope table) := by
  unfold requireScope
  split
  · exact Keeps.pure _
  · exact Keeps.throw _

theorem requireWriteRole_keeps (operation : String) (table : Text) :
    Keeps Unchanged (h.requireWriteRole operation table) := by
  unfold requireWriteRole
  split
  · exact Keeps.pure _
  · exact Keeps.throw _

theorem ask_keeps (operation : String) (about : Text) (call : Call) (d : Option Dataset) :
    Keeps Unchanged (ask W operation about call d) := by
  unfold ask
  split
  · exact Keeps.pure _
  · exact Keeps.throw _

theorem found_keeps (table : Text) : Keeps Unchanged (h.found W table) :=
  Keeps.get.bind fun _ => Keeps.pure _

theorem open_keeps (table : Text) : Keeps Unchanged (h.open W table) := by
  refine (h.found_keeps W table).bind fun d => (ask_keeps W _ _ _ _).bind fun _ => ?_
  split
  · exact Keeps.pure _
  · exact Keeps.throw _

theorem collect_keeps (table about : Text) (d : Dataset) (rows : List Row) :
    Keeps Unchanged (h.collect W table about d rows) :=
  (ask_keeps W _ _ _ _).bind fun _ => (ask_keeps W _ _ _ _).bind fun _ => Keeps.pure _

theorem selectOrdered_keeps (table : Text) (d : Dataset) (predicate by' : Text) (order : Order) :
    Keeps Unchanged (h.selectOrdered W table d predicate by' order) :=
  (ask_keeps W _ _ _ _).bind fun _ => (ask_keeps W _ _ _ _).bind fun _ => Keeps.pure _

theorem scanOrdered_keeps (table predicate by' : Text) (order : Order) :
    Keeps Unchanged (h.scanOrdered W table predicate by' order) :=
  (h.requireScope_keeps W _ _).bind fun _ => (h.open_keeps W _).bind fun _ =>
    (h.selectOrdered_keeps W _ _ _ _ _).bind fun _ => h.collect_keeps W _ _ _ _

theorem scanOrderedMeasured_keeps (table predicate by' : Text) (order : Order) :
    Keeps Unchanged (h.scanOrderedMeasured W table predicate by' order) :=
  (h.scanOrdered_keeps W _ _ _ _).bind fun _ => (h.open_keeps W _).bind fun _ =>
    (h.selectOrdered_keeps W _ _ _ _ _).bind fun _ => (ask_keeps W _ _ _ _).bind fun _ =>
      Keeps.pure _

theorem selectRowIds_keeps (table : Text) (d : Dataset) (predicate : Text) :
    Keeps Unchanged (h.selectRowIds W table d predicate) :=
  (ask_keeps W _ _ _ _).bind fun _ => (ask_keeps W _ _ _ _).bind fun _ => Keeps.pure _

theorem rowIds_keeps (table predicate : Text) :
    Keeps Unchanged (h.rowIds W table predicate) :=
  (h.requireScope_keeps W _ _).bind fun _ => (h.open_keeps W _).bind fun _ =>
    (h.selectRowIds_keeps W _ _ _).bind fun _ => (ask_keeps W _ _ _ _).bind fun _ =>
      (ask_keeps W _ _ _ _).bind fun _ => Keeps.pure _

theorem rowIdsMeasured_keeps (table predicate : Text) :
    Keeps Unchanged (h.rowIdsMeasured W table predicate) :=
  (h.rowIds_keeps W _ _).bind fun _ => (h.open_keeps W _).bind fun _ =>
    (h.selectRowIds_keeps W _ _ _).bind fun _ => (ask_keeps W _ _ _ _).bind fun _ => Keeps.pure _

theorem sets_keeps (table : Text) (predicates : List Text) :
    Keeps Unchanged (h.sets W table predicates) := by
  induction predicates with
  | nil => exact Keeps.pure _
  | cons predicate predicates ih =>
    exact (h.rowIds_keeps W _ _).bind fun _ => ih.bind fun _ => Keeps.pure _

theorem eachSet_keeps (table : Text) (matching : List Text) (operation : String) :
    Keeps Unchanged (h.eachSet W table matching operation) := by
  cases matching with
  | nil => exact Keeps.throw _
  | cons head tail =>
    exact (h.rowIds_keeps W _ _).bind fun _ => (h.sets_keeps W _ _).bind fun _ => Keeps.pure _

theorem rowIdsAll_keeps (table : Text) (matching : List Text) :
    Keeps Unchanged (h.rowIdsAll W table matching) :=
  (h.eachSet_keeps W _ _ _).bind fun _ => Keeps.pure _

theorem rowIdsAny_keeps (table : Text) (matching : List Text) :
    Keeps Unchanged (h.rowIdsAny W table matching) :=
  (h.eachSet_keeps W _ _ _).bind fun _ => Keeps.pure _

theorem filteredSearch_keeps (table : Text) (filter : List Text)
    (source : Finset RowId → Nat → Except Error (List RowId)) (limit : Nat) :
    Keeps Unchanged (h.filteredSearch W table filter source limit) :=
  (h.rowIdsAll_keeps W _ _).bind fun _ => Keeps.ofExcept _

theorem vectorsOf_keeps (table column : Text) :
    Keeps Unchanged (h.vectorsOf W table column) :=
  (h.requireScope_keeps W _ _).bind fun _ => (h.open_keeps W _).bind fun _ =>
    (h.collect_keeps W _ _ _ _).bind fun _ => (Keeps.ofExcept _).bind fun _ => Keeps.pure _

theorem vectorIndexKind_keeps (table column : Text) :
    Keeps Unchanged (h.vectorIndexKind W table column) := by
  refine (h.requireScope_keeps W _ _).bind fun _ => (h.open_keeps W _).bind fun d => ?_
  split
  · exact Keeps.pure _
  · split_ifs <;> exact Keeps.pure _

theorem nearestUsesTheIndex_keeps (table column : Text) (query : List UInt32) (limit : Nat) :
    Keeps Unchanged (h.nearestUsesTheIndex W table column query limit) :=
  (h.requireScope_keeps W _ _).bind fun _ => (h.open_keeps W _).bind fun _ =>
    (ask_keeps W _ _ _ _).bind fun _ => (ask_keeps W _ _ _ _).bind fun _ => Keeps.pure _

theorem existingVectors_keeps (table column : Text) :
    Keeps Unchanged (h.existingVectors W table column) := by
  intro disk
  have hopen := h.open_keeps W (vectorTable table column) disk
  change Unchanged disk (final (h.existingVectors W table column disk))
  unfold existingVectors
  cases hrun : (h.open W (vectorTable table column)).run disk with
  | ok d disk' =>
    rw [hrun] at hopen
    cases hopen
    exact h.vectorsOf_keeps W table column _
  | error e disk' =>
    rw [hrun] at hopen
    exact hopen

theorem embeddingColumns_keeps (table : Text) :
    Keeps Unchanged (h.embeddingColumns W table) :=
  (h.open_keeps W _).bind fun _ => Keeps.pure _

theorem askEach_keeps (table : Text) (d : Dataset) (assignments : List (Text × Text)) :
    Keeps Unchanged (h.askEach W table d assignments) := by
  induction assignments with
  | nil => exact Keeps.pure _
  | cons assignment assignments ih => exact (ask_keeps W _ _ _ _).bind fun _ => ih

/-! ## What a success says -/

variable {W h}

theorem requireScope_ok {scope : Scope} {table : Text} {disk disk' : Disk} {u : PUnit} :
    (h.requireScope W scope table).run disk = .ok u disk' ↔
      h.permits W scope table ∧ disk' = disk := by
  unfold requireScope
  split
  · rename_i hpermits
    rw [run_pure]
    simp [hpermits, eq_comm]
  · rename_i hpermits
    simp [hpermits]

theorem requireWriteRole_ok {operation : String} {table : Text} {disk disk' : Disk} {u : PUnit} :
    (h.requireWriteRole operation table).run disk = .ok u disk' ↔ h.writeLock ∧ disk' = disk := by
  unfold requireWriteRole
  split
  · rename_i hlock
    rw [run_pure]
    simp [hlock, eq_comm]
  · rename_i hlock
    simp [hlock]

theorem ask_ok {operation : String} {about : Text} {call : Call} {d : Option Dataset}
    {disk disk' : Disk} {u : PUnit} :
    (ask W operation about call d).run disk = .ok u disk' ↔
      W.format.refuses call d = none ∧ disk' = disk := by
  unfold ask
  split
  · rename_i hrefuses
    rw [run_pure]
    simp [hrefuses, eq_comm]
  · rename_i cause hrefuses
    simp [hrefuses]

theorem found_run (table : Text) (disk : Disk) :
    (h.found W table).run disk = .ok (disk.datasets (h.place W table)) disk := rfl

/-- The dataset that opens under a table's name. -/
def Opens (W : World) (h : LanceStore) (datasets : Datasets) (table : Text) (d : Dataset) : Prop :=
  datasets (h.place W table) = some d ∧ W.format.refuses (h.call table .load) (some d) = none

/-- The format objects to none of the requests. -/
def Grants (W : World) (h : LanceStore) (table : Text) (d : Dataset) (requests : List Request) :
    Prop :=
  ∀ request ∈ requests, W.format.refuses (h.call table request) (some d) = none

theorem open_ok {table : Text} {disk disk' : Disk} {d : Dataset} :
    (h.open W table).run disk = .ok d disk' ↔ Opens W h disk.datasets table d ∧ disk' = disk := by
  unfold LanceStore.open Opens
  rw [EStateM.run_bind, found_run]
  dsimp only
  cases hd : disk.datasets (h.place W table) with
  | none =>
    refine iff_of_false ?_ (by simp)
    intro hrun
    obtain ⟨_, _, -, hrest⟩ := bind_ok.1 hrun
    cases hrest
  | some dataset =>
    constructor
    · intro hrun
      obtain ⟨_, _, hask, hrest⟩ := bind_ok.1 hrun
      obtain ⟨hrefuses, rfl⟩ := ask_ok.1 hask
      cases hrest
      exact ⟨⟨rfl, hrefuses⟩, rfl⟩
    · rintro ⟨⟨hsome, hrefuses⟩, rfl⟩
      cases hsome
      exact bind_ok.2 ⟨⟨⟩, _, ask_ok.2 ⟨hrefuses, rfl⟩, rfl⟩

theorem collect_ok {table about : Text} {d : Dataset} {rows : List Row} {disk disk' : Disk}
    {batches : List Batch} :
    (h.collect W table about d rows).run disk = .ok batches disk' ↔
      Grants W h table d [.stream, .read] ∧ batches = W.format.collected d rows ∧
        disk' = disk := by
  unfold collect
  constructor
  · intro hrun
    obtain ⟨_, s1, hfirst, h1⟩ := bind_ok.1 hrun
    obtain ⟨_, s2, hsecond, h2⟩ := bind_ok.1 h1
    obtain ⟨hstream, rfl⟩ := ask_ok.1 hfirst
    obtain ⟨hread, rfl⟩ := ask_ok.1 hsecond
    cases h2
    exact ⟨by simp [Grants, hstream, hread], rfl, rfl⟩
  · rintro ⟨hgrants, rfl, rfl⟩
    have hstream := hgrants .stream (by simp)
    have hread := hgrants .read (by simp)
    exact bind_ok.2 ⟨⟨⟩, _, ask_ok.2 ⟨hstream, rfl⟩, bind_ok.2 ⟨⟨⟩, _, ask_ok.2 ⟨hread, rfl⟩, rfl⟩⟩

/-- The vectors that are stored in a companion. -/
def stored (table : Text) (d : Dataset) : Except Error (List RowVector) :=
  rowVectors "read the vectors of" "embeddings are not f32" table d.schema d.rows

/-- What it takes to read a column's vectors, and what they are. -/
def ReadsVectors (W : World) (h : LanceStore) (datasets : Datasets) (table column : Text)
    (vectors : List RowVector) : Prop :=
  h.permits W .read table ∧ ∃ d found, Opens W h datasets (vectorTable table column) d ∧
    Grants W h (vectorTable table column) d [.stream, .read] ∧ stored table d = .ok found ∧
    vectors = found.mergeSort RowVector.le

theorem vectorsOf_ok {table column : Text} {disk disk' : Disk} {vectors : List RowVector} :
    (h.vectorsOf W table column).run disk = .ok vectors disk' ↔
      ReadsVectors W h disk.datasets table column vectors ∧ disk' = disk := by
  unfold vectorsOf
  constructor
  · intro hrun
    obtain ⟨_, s1, hscope, h1⟩ := bind_ok.1 hrun
    obtain ⟨d, s2, hopen, h2⟩ := bind_ok.1 h1
    obtain ⟨_, s3, hcollect, h3⟩ := bind_ok.1 h2
    obtain ⟨found, s4, hdecode, h4⟩ := bind_ok.1 h3
    obtain ⟨hpermits, rfl⟩ := requireScope_ok.1 hscope
    obtain ⟨hd, rfl⟩ := open_ok.1 hopen
    obtain ⟨hgrants, -, rfl⟩ := collect_ok.1 hcollect
    obtain ⟨hfound, rfl⟩ := ofExcept_ok.1 hdecode
    cases h4
    exact ⟨⟨hpermits, d, found, hd, hgrants, hfound, rfl⟩, rfl⟩
  · rintro ⟨⟨hpermits, d, found, hd, hgrants, hfound, rfl⟩, rfl⟩
    exact bind_ok.2 ⟨⟨⟩, _, requireScope_ok.2 ⟨hpermits, rfl⟩,
      bind_ok.2 ⟨d, _, open_ok.2 ⟨hd, rfl⟩,
        bind_ok.2 ⟨_, _, collect_ok.2 ⟨hgrants, rfl, rfl⟩,
          bind_ok.2 ⟨found, _, ofExcept_ok.2 ⟨hfound, rfl⟩, rfl⟩⟩⟩⟩

theorem rowIds_ok {table predicate : Text} {disk disk' : Disk} {ids : List RowId} :
    (h.rowIds W table predicate).run disk = .ok ids disk' ↔
      h.permits W .read table ∧ ∃ d, Opens W h disk.datasets table d ∧
        Grants W h table d [.filter predicate, .project [], .stream, .read] ∧
        ids = (d.rows.filter (W.format.selects predicate d)).map Row.id ∧ disk' = disk := by
  unfold rowIds selectRowIds
  constructor
  · intro hrun
    obtain ⟨_, s1, hscope, h1⟩ := bind_ok.1 hrun
    obtain ⟨d, s2, hopen, h2⟩ := bind_ok.1 h1
    obtain ⟨rows, s3, hselect, h3⟩ := bind_ok.1 h2
    obtain ⟨_, s4, hfirst, h4⟩ := bind_ok.1 h3
    obtain ⟨_, s5, hsecond, h5⟩ := bind_ok.1 h4
    obtain ⟨_, s6, hfilter, h6⟩ := bind_ok.1 hselect
    obtain ⟨_, s7, hproject, h7⟩ := bind_ok.1 h6
    obtain ⟨hpermits, rfl⟩ := requireScope_ok.1 hscope
    obtain ⟨hopens, rfl⟩ := open_ok.1 hopen
    obtain ⟨hfilters, rfl⟩ := ask_ok.1 hfilter
    obtain ⟨hprojects, rfl⟩ := ask_ok.1 hproject
    cases h7
    obtain ⟨hstreams, rfl⟩ := ask_ok.1 hfirst
    obtain ⟨hreads, rfl⟩ := ask_ok.1 hsecond
    cases h5
    exact ⟨hpermits, d, hopens, by simp [Grants, hfilters, hprojects, hstreams, hreads], rfl, rfl⟩
  · rintro ⟨hpermits, d, hopens, hgrants, rfl, rfl⟩
    have hfilters := hgrants (.filter predicate) (by simp)
    have hprojects := hgrants (.project []) (by simp)
    have hstreams := hgrants .stream (by simp)
    have hreads := hgrants .read (by simp)
    refine bind_ok.2 ⟨⟨⟩, _, requireScope_ok.2 ⟨hpermits, rfl⟩, ?_⟩
    refine bind_ok.2 ⟨d, _, open_ok.2 ⟨hopens, rfl⟩, ?_⟩
    refine bind_ok.2 ⟨_, _, bind_ok.2 ⟨⟨⟩, _, ask_ok.2 ⟨hfilters, rfl⟩,
      bind_ok.2 ⟨⟨⟩, _, ask_ok.2 ⟨hprojects, rfl⟩, rfl⟩⟩, ?_⟩
    exact bind_ok.2 ⟨⟨⟩, _, ask_ok.2 ⟨hstreams, rfl⟩,
      bind_ok.2 ⟨⟨⟩, _, ask_ok.2 ⟨hreads, rfl⟩, rfl⟩⟩

end LanceStore

end EuleDB.Store
