import EuleDB.Crypto.Integrity
import EuleDB.Store.VectorRuns

/-!
# Encrypted and plain handles

An encrypted handle addresses its tables under a scheme of its own, which the format resolves
through the handle's session and not without it.  Every request carries the session but one: the
write of a column's vectors.

* `Format.ResolvesThrough` — what the format is taken to do with that scheme.
* `reconcile_transparent_iff` — a column is reconciled alike exactly where its vectors need not be
  written.
* `encryption_transparent` — in every run that writes no vectors, an encrypted handle answers as a
  plain one does.
-/

set_option autoImplicit false

namespace EuleDB.Store

open Crypto Audit Effect LanceStore

/-- An encrypted location is as good as a plain one with the session, and is refused without. -/
structure Format.ResolvesThrough (F : Format) (frame : BlockFrame) : Prop where
  session : ∀ location request d, F.refuses ⟨location, true, some frame, request⟩ d = none ↔
    F.refuses ⟨location, false, none, request⟩ d = none
  bare : ∀ location request d, F.refuses ⟨location, true, none, request⟩ d ≠ none

variable {W : World} {h : LanceStore} {frame : BlockFrame}

namespace LanceStore

section Matches

variable (hplain : h.session = none) (hformat : W.format.ResolvesThrough frame)

include hplain hformat

/-! ## Every request that carries the session -/

theorem refuses_encrypted (table : Text) (request : Request) (d : Option Dataset) :
    W.format.refuses ((h.encrypted frame).call table request) d = none ↔
      W.format.refuses (h.call table request) d = none := by
  have hcall : h.call table request = ⟨h.datasetPath table, false, none, request⟩ := by
    unfold call
    rw [hplain]
    rfl
  rw [hcall]
  exact hformat.session _ _ _

theorem ask_matches (operation : String) (about table : Text) (request : Request)
    (d : Option Dataset) :
    Matches (ask W operation about (h.call table request) d)
      (ask W operation about ((h.encrypted frame).call table request) d) := by
  have hrefuses := refuses_encrypted hplain hformat table request d
  unfold ask
  cases hcall : W.format.refuses (h.call table request) d with
  | none =>
    rw [hrefuses.2 hcall]
    exact Matches.refl _
  | some cause =>
    cases hcall' : W.format.refuses ((h.encrypted frame).call table request) d with
    | none =>
      rw [hrefuses.1 hcall'] at hcall
      cases hcall
    | some cause' =>
      intro disk
      exact .error _ _ disk

theorem open_matches (table : Text) :
    Matches (h.open W table) ((h.encrypted frame).open W table) := by
  refine (Matches.refl (h.found W table)).bind fun d => ?_
  exact (ask_matches hplain hformat _ _ _ _ _).bind fun _ => Matches.refl _

theorem collect_matches (table about : Text) (d : Dataset) (rows : List Row) :
    Matches (h.collect W table about d rows)
      ((h.encrypted frame).collect W table about d rows) :=
  (ask_matches hplain hformat _ _ _ _ _).bind fun _ =>
    (ask_matches hplain hformat _ _ _ _ _).bind fun _ => Matches.refl _

theorem scan_matches (table : Text) :
    Matches (h.scan W table) ((h.encrypted frame).scan W table) :=
  (Matches.refl (h.requireScope W .read table)).bind fun _ =>
    (open_matches hplain hformat table).bind fun _ =>
      (collect_matches hplain hformat _ _ _ _).bind fun _ => Matches.refl _

theorem selectOrdered_matches (table : Text) (d : Dataset) (predicate by' : Text)
    (order : Order) :
    Matches (h.selectOrdered W table d predicate by' order)
      ((h.encrypted frame).selectOrdered W table d predicate by' order) :=
  (ask_matches hplain hformat _ _ _ _ _).bind fun _ =>
    (ask_matches hplain hformat _ _ _ _ _).bind fun _ => Matches.refl _

theorem scanOrdered_matches (table predicate by' : Text) (order : Order) :
    Matches (h.scanOrdered W table predicate by' order)
      ((h.encrypted frame).scanOrdered W table predicate by' order) :=
  (Matches.refl (h.requireScope W .read table)).bind fun _ =>
    (open_matches hplain hformat table).bind fun _ =>
      (selectOrdered_matches hplain hformat _ _ _ _ _).bind fun _ =>
        collect_matches hplain hformat _ _ _ _

theorem scanOrderedMeasured_matches (table predicate by' : Text) (order : Order) :
    Matches (h.scanOrderedMeasured W table predicate by' order)
      ((h.encrypted frame).scanOrderedMeasured W table predicate by' order) :=
  (scanOrdered_matches hplain hformat _ _ _ _).bind fun _ =>
    (open_matches hplain hformat table).bind fun _ =>
      (selectOrdered_matches hplain hformat _ _ _ _ _).bind fun _ =>
        (ask_matches hplain hformat _ _ _ _ _).bind fun _ => Matches.refl _

theorem selectRowIds_matches (table : Text) (d : Dataset) (predicate : Text) :
    Matches (h.selectRowIds W table d predicate)
      ((h.encrypted frame).selectRowIds W table d predicate) :=
  (ask_matches hplain hformat _ _ _ _ _).bind fun _ =>
    (ask_matches hplain hformat _ _ _ _ _).bind fun _ => Matches.refl _

theorem rowIds_matches (table predicate : Text) :
    Matches (h.rowIds W table predicate) ((h.encrypted frame).rowIds W table predicate) := by
  refine (Matches.refl (h.requireScope W .read table)).bind fun _ => ?_
  refine (open_matches hplain hformat table).bind fun d => ?_
  refine (selectRowIds_matches hplain hformat _ _ _).bind fun rows => ?_
  exact (ask_matches hplain hformat _ _ _ _ _).bind fun _ =>
    (ask_matches hplain hformat _ _ _ _ _).bind fun _ => Matches.refl _

theorem rowIdsMeasured_matches (table predicate : Text) :
    Matches (h.rowIdsMeasured W table predicate)
      ((h.encrypted frame).rowIdsMeasured W table predicate) := by
  refine (rowIds_matches hplain hformat _ _).bind fun value => ?_
  refine (open_matches hplain hformat table).bind fun d => ?_
  refine (selectRowIds_matches hplain hformat _ _ _).bind fun rows => ?_
  exact (ask_matches hplain hformat _ _ _ _ _).bind fun _ => Matches.refl _

theorem sets_matches (table : Text) (predicates : List Text) :
    Matches (h.sets W table predicates) ((h.encrypted frame).sets W table predicates) := by
  induction predicates with
  | nil => exact Matches.refl _
  | cons predicate predicates ih =>
    exact (rowIds_matches hplain hformat _ _).bind fun _ => ih.bind fun _ => Matches.refl _

theorem eachSet_matches (table : Text) (matching : List Text) (operation : String) :
    Matches (h.eachSet W table matching operation)
      ((h.encrypted frame).eachSet W table matching operation) := by
  cases matching with
  | nil => exact Matches.refl _
  | cons head tail =>
    exact (rowIds_matches hplain hformat _ _).bind fun _ =>
      (sets_matches hplain hformat _ _).bind fun _ => Matches.refl _

theorem rowIdsAll_matches (table : Text) (matching : List Text) :
    Matches (h.rowIdsAll W table matching) ((h.encrypted frame).rowIdsAll W table matching) :=
  (eachSet_matches hplain hformat _ _ _).bind fun _ => Matches.refl _

theorem rowIdsAny_matches (table : Text) (matching : List Text) :
    Matches (h.rowIdsAny W table matching) ((h.encrypted frame).rowIdsAny W table matching) :=
  (eachSet_matches hplain hformat _ _ _).bind fun _ => Matches.refl _

theorem filteredSearch_matches (table : Text) (filter : List Text)
    (source : Finset RowId → Nat → Except Error (List RowId)) (limit : Nat) :
    Matches (h.filteredSearch W table filter source limit)
      ((h.encrypted frame).filteredSearch W table filter source limit) :=
  (rowIdsAll_matches hplain hformat _ _).bind fun _ => Matches.refl _

theorem vectorsOf_matches (table column : Text) :
    Matches (h.vectorsOf W table column) ((h.encrypted frame).vectorsOf W table column) :=
  (Matches.refl (h.requireScope W .read table)).bind fun _ =>
    (open_matches hplain hformat _).bind fun _ =>
      (collect_matches hplain hformat _ _ _ _).bind fun _ => Matches.refl _

theorem createVectorIndex_matches (table column : Text) (kind : VectorIndexKind) :
    Matches (h.createVectorIndex W table column kind)
      ((h.encrypted frame).createVectorIndex W table column kind) := by
  refine (Matches.refl (h.requireScope W .schema table)).bind fun _ => ?_
  refine (Matches.refl (h.requireWriteRole _ table)).bind fun _ => ?_
  refine (open_matches hplain hformat _).bind fun d => ?_
  exact (ask_matches hplain hformat _ _ _ _ _).bind fun _ => Matches.refl _

theorem nearest_matches (table column : Text) (query : List UInt32) (limit : Nat) :
    Matches (h.nearest W table column query limit)
      ((h.encrypted frame).nearest W table column query limit) := by
  refine (Matches.refl (h.requireScope W .read table)).bind fun _ => ?_
  split_ifs
  · exact Matches.refl _
  · refine (open_matches hplain hformat _).bind fun d => ?_
    refine (ask_matches hplain hformat _ _ _ _ _).bind fun _ => ?_
    refine (ask_matches hplain hformat _ _ _ _ _).bind fun _ => ?_
    exact (ask_matches hplain hformat _ _ _ _ _).bind fun _ => Matches.refl _

theorem createTextIndex_matches (table column : Text) (language : StemmingLanguage) :
    Matches (h.createTextIndex W table column language)
      ((h.encrypted frame).createTextIndex W table column language) := by
  refine (Matches.refl (h.requireScope W .schema table)).bind fun _ => ?_
  refine (Matches.refl (h.requireWriteRole _ table)).bind fun _ => ?_
  refine (open_matches hplain hformat _).bind fun d => ?_
  refine (ask_matches hplain hformat _ _ _ _ _).bind fun _ => ?_
  exact (ask_matches hplain hformat _ _ _ _ _).bind fun _ => Matches.refl _

theorem searchText_matches (table column query : Text) (limit : Nat) :
    Matches (h.searchText W table column query limit)
      ((h.encrypted frame).searchText W table column query limit) := by
  refine (Matches.refl (h.requireScope W .read table)).bind fun _ => ?_
  refine (open_matches hplain hformat _).bind fun d => ?_
  refine (ask_matches hplain hformat _ _ _ _ _).bind fun _ => ?_
  refine (ask_matches hplain hformat _ _ _ _ _).bind fun _ => ?_
  refine (ask_matches hplain hformat _ _ _ _ _).bind fun _ => ?_
  refine (ask_matches hplain hformat _ _ _ _ _).bind fun _ => ?_
  exact (ask_matches hplain hformat _ _ _ _ _).bind fun _ => Matches.refl _

theorem hybridSearch_matches (table column text : Text) (vector : List UInt32) (limit : Nat) :
    Matches (h.hybridSearch W table column text vector limit)
      ((h.encrypted frame).hybridSearch W table column text vector limit) := by
  refine (Matches.refl (h.requireScope W .read table)).bind fun _ => ?_
  refine (nearest_matches hplain hformat _ _ _ _).bind fun semantic => ?_
  refine (searchText_matches hplain hformat _ _ _ _).bind fun lexical => ?_
  refine (open_matches hplain hformat _).bind fun d => ?_
  exact (ask_matches hplain hformat _ _ _ _ _).bind fun _ => Matches.refl _

theorem vectorIndexKind_matches (table column : Text) :
    Matches (h.vectorIndexKind W table column)
      ((h.encrypted frame).vectorIndexKind W table column) :=
  (Matches.refl (h.requireScope W .read table)).bind fun _ =>
    (open_matches hplain hformat _).bind fun _ => Matches.refl _

theorem nearestUsesTheIndex_matches (table column : Text) (query : List UInt32) (limit : Nat) :
    Matches (h.nearestUsesTheIndex W table column query limit)
      ((h.encrypted frame).nearestUsesTheIndex W table column query limit) := by
  refine (Matches.refl (h.requireScope W .read table)).bind fun _ => ?_
  refine (open_matches hplain hformat _).bind fun d => ?_
  refine (ask_matches hplain hformat _ _ _ _ _).bind fun _ => ?_
  exact (ask_matches hplain hformat _ _ _ _ _).bind fun _ => Matches.refl _

theorem createIndex_matches (table column : Text) :
    Matches (h.createIndex W table column) ((h.encrypted frame).createIndex W table column) := by
  refine (Matches.refl (h.requireScope W .schema table)).bind fun _ => ?_
  refine (Matches.refl (h.requireWriteRole _ table)).bind fun _ => ?_
  refine (open_matches hplain hformat _).bind fun d => ?_
  exact (ask_matches hplain hformat _ _ _ _ _).bind fun _ => Matches.refl _

theorem createTable_matches (table : Text) (definition : TableDefinition) :
    Matches (h.createTable W table definition)
      ((h.encrypted frame).createTable W table definition) := by
  refine (Matches.refl (h.requireScope W .schema table)).bind fun _ => ?_
  refine (Matches.refl (h.requireWriteRole _ table)).bind fun _ => ?_
  refine (Matches.refl (h.found W table)).bind fun before => ?_
  exact (ask_matches hplain hformat _ _ _ _ _).bind fun _ => Matches.refl _

theorem dropTable_matches (table : Text) :
    Matches (h.dropTable W table) ((h.encrypted frame).dropTable W table) := by
  refine (Matches.refl (h.requireScope W .schema table)).bind fun _ => ?_
  refine (Matches.refl (h.requireWriteRole _ table)).bind fun _ => ?_
  refine (Matches.refl (h.record W (.dropTable table) 0)).bind fun _ => ?_
  refine (Matches.refl (h.found W table)).bind fun before => ?_
  exact (ask_matches hplain hformat _ _ _ _ _).bind fun _ => Matches.refl _

/-! ## The commit of a write -/

theorem askEach_matches (table : Text) (d : Dataset) (assignments : List (Text × Text)) :
    Matches (h.askEach W table d assignments)
      ((h.encrypted frame).askEach W table d assignments) := by
  induction assignments with
  | nil => exact Matches.refl _
  | cons assignment assignments ih =>
    exact (ask_matches hplain hformat _ _ _ _ _).bind fun _ => ih

theorem writeRows_matches (w : Write) :
    Matches (h.writeRows W w) ((h.encrypted frame).writeRows W w) := by
  cases w with
  | append table batch =>
    refine (Matches.refl (h.requireScope W .write table)).bind fun _ => ?_
    refine (Matches.refl (h.requireWriteRole _ table)).bind fun _ => ?_
    refine (Matches.refl (h.found W table)).bind fun before => ?_
    exact (ask_matches hplain hformat _ _ _ _ _).bind fun _ => Matches.refl _
  | update table predicate assignments =>
    refine (Matches.refl (h.requireScope W .write table)).bind fun _ => ?_
    refine (Matches.refl (h.requireWriteRole _ table)).bind fun _ => ?_
    split_ifs
    · exact Matches.refl _
    · refine (open_matches hplain hformat _).bind fun d => ?_
      refine (ask_matches hplain hformat _ _ _ _ _).bind fun _ => ?_
      refine (askEach_matches hplain hformat _ _ _).bind fun _ => ?_
      refine (ask_matches hplain hformat _ _ _ _ _).bind fun _ => ?_
      exact (ask_matches hplain hformat _ _ _ _ _).bind fun _ => Matches.refl _
  | delete table predicate =>
    refine (Matches.refl (h.requireScope W .write table)).bind fun _ => ?_
    refine (Matches.refl (h.requireWriteRole _ table)).bind fun _ => ?_
    refine (open_matches hplain hformat _).bind fun d => ?_
    refine (ask_matches hplain hformat _ _ _ _ _).bind fun _ => ?_
    exact (ask_matches hplain hformat _ _ _ _ _).bind fun _ => Matches.refl _

theorem embeddingColumns_matches (table : Text) :
    Matches (h.embeddingColumns W table) ((h.encrypted frame).embeddingColumns W table) :=
  (open_matches hplain hformat _).bind fun _ => Matches.refl _

/-! ## Reconciliation -/

theorem opens_encrypted {datasets : Datasets} {table : Text} {d : Dataset} :
    Opens W (h.encrypted frame) datasets table d ↔ Opens W h datasets table d :=
  and_congr_right fun _ => refuses_encrypted hplain hformat table .load (some d)

theorem grants_encrypted {table : Text} {d : Dataset} {requests : List Request} :
    Grants W (h.encrypted frame) table d requests ↔ Grants W h table d requests :=
  forall₂_congr fun request _ => refuses_encrypted hplain hformat table request (some d)

theorem existing_encrypted {datasets : Datasets} {table column : Text}
    {existing : List RowVector} :
    Existing W (h.encrypted frame) datasets table column existing ↔
      Existing W h datasets table column existing := by
  have hopens : ∀ d, Opens W (h.encrypted frame) datasets (vectorTable table column) d ↔
      Opens W h datasets (vectorTable table column) d :=
    fun _ => opens_encrypted hplain hformat
  have hgrants : ∀ d, Grants W (h.encrypted frame) (vectorTable table column) d [.stream, .read] ↔
      Grants W h (vectorTable table column) d [.stream, .read] :=
    fun _ => grants_encrypted hplain hformat
  unfold Existing ReadsVectors
  simp only [hopens, hgrants]
  exact Iff.rfl

/-- Both handles go by the same. -/
theorem gathers_encrypted {datasets : Datasets} {table column : Text} {embedder : Embedder}
    {d : Dataset} {existing : List RowVector} {present : List (RowId × Text)} :
    Gathers W (h.encrypted frame) datasets table column embedder d existing present ↔
      Gathers W h datasets table column embedder d existing present := by
  constructor
  · intro hgathers
    exact ⟨hgathers.embedder, (existing_encrypted hplain hformat).1 hgathers.existing,
      (opens_encrypted hplain hformat).1 hgathers.opens,
      (grants_encrypted hplain hformat).1 hgathers.grants, hgathers.present⟩
  · intro hgathers
    exact ⟨hgathers.embedder, (existing_encrypted hplain hformat).2 hgathers.existing,
      (opens_encrypted hplain hformat).2 hgathers.opens,
      (grants_encrypted hplain hformat).2 hgathers.grants, hgathers.present⟩

end Matches

section Encrypted

variable (hplain : h.session = none) (hformat : W.format.ResolvesThrough frame)

include hplain hformat

/-- **Under encryption a column is reconciled only where its rows have their vectors**: the write of
vectors is refused. -/
theorem reconcilesTo_encrypted {datasets datasets' : Datasets} {table column : Text} :
    ReconcilesTo W (h.encrypted frame) table column datasets datasets' ↔
      datasets' = datasets ∧ ∃ embedder d existing present,
        Gathers W h datasets table column embedder d existing present ∧
          Matching existing present := by
  constructor
  · rintro ⟨embedder, d, existing, present, hgathers, houtcome⟩
    rcases houtcome with ⟨hmatching, hsame⟩ | ⟨-, batch, -, -, hrefuses, -⟩
    · exact ⟨hsame, embedder, d, existing, present, (gathers_encrypted hplain hformat).1 hgathers,
        hmatching⟩
    · exact absurd hrefuses (hformat.bare _ _ _)
  · rintro ⟨hsame, embedder, d, existing, present, hgathers, hmatching⟩
    exact ⟨embedder, d, existing, present, (gathers_encrypted hplain hformat).2 hgathers,
      .inl ⟨hmatching, hsame⟩⟩

/-- Where a column's vectors would be written, it is not reconciled under encryption. -/
theorem WritesVectors.not_encrypted {datasets datasets' : Datasets} {table column : Text}
    (hwrites : WritesVectors W h datasets table column) :
    ¬ ReconcilesTo W (h.encrypted frame) table column datasets datasets' := by
  intro hreconciles
  obtain ⟨-, embedder', d', existing', present', hgathers', hmatching'⟩ :=
    (reconcilesTo_encrypted hplain hformat).1 hreconciles
  obtain ⟨embedder, d, existing, present, hgathers, hmatching, -⟩ := hwrites
  obtain ⟨-, -, rfl, rfl⟩ := hgathers.unique hgathers'
  exact hmatching hmatching'

/-- **A column is reconciled alike exactly where** it does not come to write vectors. -/
theorem reconcile_transparent_iff {table column : Text} {disk : Disk} :
    SameOutcome ((h.reconcile W table column).run disk)
        (((h.encrypted frame).reconcile W table column).run disk) ↔
      ¬ WritesVectors W h disk.datasets table column := by
  constructor
  · intro hsame hwrites
    obtain ⟨datasets', hreconciles⟩ := hwrites.reconciles
    have hplainrun : (h.reconcile W table column).run disk =
        .ok ⟨⟩ { disk with datasets := datasets' } := reconcile_ok.2 ⟨datasets', hreconciles, rfl⟩
    rw [hplainrun] at hsame
    cases henc : ((h.encrypted frame).reconcile W table column).run disk with
    | ok u disk' =>
      obtain ⟨middle, hencrypted, -⟩ := reconcile_ok.1 henc
      exact hwrites.not_encrypted hplain hformat hencrypted
    | error e disk' =>
      rw [henc] at hsame
      cases hsame
  · intro hwrites
    cases hrun : (h.reconcile W table column).run disk with
    | ok u disk' =>
      obtain ⟨datasets', hreconciles, rfl⟩ := reconcile_ok.1 hrun
      obtain ⟨rfl, hsettled⟩ := hreconciles.settled hwrites
      have henc : ((h.encrypted frame).reconcile W table column).run disk = .ok u disk :=
        reconcile_ok.2 ⟨_, (reconcilesTo_encrypted hplain hformat).2 ⟨rfl, hsettled⟩, rfl⟩
      rw [henc]
      exact .ok u disk
    | error e disk' =>
      have hkept : disk' = disk := h.reconcile_fails table column _ _ _ hrun
      subst hkept
      cases henc : ((h.encrypted frame).reconcile W table column).run disk' with
      | ok u disk'' =>
        obtain ⟨datasets', hreconciles, rfl⟩ := reconcile_ok.1 henc
        obtain ⟨rfl, embedder, d, existing, present, hgathers, hmatching⟩ :=
          (reconcilesTo_encrypted hplain hformat).1 hreconciles
        have hok : (h.reconcile W table column).run disk' = .ok u disk' := reconcile_ok.2
          ⟨_, ⟨embedder, d, existing, present, hgathers, .inl ⟨hmatching, rfl⟩⟩, rfl⟩
        rw [hok] at hrun
        cases hrun
      | error e' disk'' =>
        have hkept' : disk'' = disk' := (h.encrypted frame).reconcile_fails table column _ _ _ henc
        subst hkept'
        exact .error e e' _

theorem reconcileEach_transparent {table : Text} {columns : List Text} {disk : Disk}
    (hwrites : ¬ WritesSome W h table (fun _ => True) columns disk.datasets) :
    SameOutcome ((h.reconcileEach W table columns).run disk)
      (((h.encrypted frame).reconcileEach W table columns).run disk) := by
  induction columns generalizing disk with
  | nil => exact .refl _
  | cons column columns ih =>
    refine SameOutcome.bind ?_ fun u disk' hfirst => ?_
    · exact (reconcile_transparent_iff hplain hformat).2 fun hhere => hwrites (.here trivial hhere)
    · obtain ⟨middle, hreconciles, rfl⟩ := reconcile_ok.1 hfirst
      exact ih fun hrest => hwrites (.later hreconciles hrest)

/-- Columns of which one comes to write vectors are not all reconciled under encryption. -/
theorem WritesSome.not_encrypted {table : Text} {columns : List Text}
    {datasets datasets' : Datasets}
    (hwrites : WritesSome W h table (fun _ => True) columns datasets) :
    ¬ ReconcilesEach W (h.encrypted frame) table columns datasets datasets' := by
  induction hwrites with
  | here _ hhere =>
    rintro (_ | ⟨hfirst, -⟩)
    exact hhere.not_encrypted hplain hformat hfirst
  | @later column columns datasets middle hreconciles hrest ih =>
    rintro (_ | ⟨hfirst, heach⟩)
    obtain ⟨rfl, embedder, d, existing, present, hgathers, hmatching⟩ :=
      (reconcilesTo_encrypted hplain hformat).1 hfirst
    obtain ⟨embedder', d', existing', present', hgathers', ⟨-, rfl⟩ | ⟨hother, -⟩⟩ := hreconciles
    · exact ih heach
    · obtain ⟨-, -, rfl, rfl⟩ := hgathers.unique hgathers'
      exact hother hmatching

/-- The rows that are committed are the same. -/
theorem Commits.encrypted {datasets : Datasets} {w : Write} {d d' : Dataset}
    (hcommits : Commits W h datasets w d)
    (hcommits' : Commits W (h.encrypted frame) datasets w d') :
    d = d' := by
  let disk : Disk := ⟨datasets, .fresh⟩
  obtain ⟨n, hrows⟩ : ∃ n, (h.writeRows W w).run disk = .ok n _ :=
    writeRows_ok.2 ⟨d, hcommits, rfl⟩
  obtain ⟨n', hrows'⟩ : ∃ n, ((h.encrypted frame).writeRows W w).run disk = .ok n _ :=
    writeRows_ok.2 ⟨d', hcommits', rfl⟩
  have hsame := (writeRows_matches hplain hformat w disk).final_eq
  rw [hrows, hrows'] at hsame
  have hplace : (disk.put (h.place W w.table) (some d')).datasets (h.place W w.table) =
      (disk.put (h.place W w.table) (some d)).datasets (h.place W w.table) :=
    congrArg (fun disk : Disk => disk.datasets (h.place W w.table)) hsame
  rw [Disk.put_self, Disk.put_self] at hplace
  exact (Option.some.inj hplace).symm

/-- **A write that comes to write no vectors** ends alike. -/
theorem write_transparent {w : Write} {disk : Disk}
    (hrewrites : ¬ RewritesVectors W h disk w fun _ => True) :
    SameOutcome ((h.perform W w.op).run disk) (((h.encrypted frame).perform W w.op).run disk) := by
  rw [perform_write, perform_write]
  refine (writeRows_matches hplain hformat w disk).bind fun n s1 hrows => ?_
  obtain ⟨d, hcommits, rfl⟩ := writeRows_ok.1 ⟨n, hrows⟩
  refine (SameOutcome.refl _).bind fun u s2 hrecord => ?_
  have hrecords := record_ok.1 ⟨u, s2, hrecord⟩
  have hkept : s2.datasets = committed W h disk.datasets w d :=
    (h.record_datasets _ _).reaches _ _ _ hrecord
  refine SameOutcome.bind ?_ fun _ s3 _ => .refl _
  refine (embeddingColumns_matches hplain hformat w.table s2).bind fun columns s4 hcolumns => ?_
  obtain ⟨d', hopens, rfl, rfl⟩ := embeddingColumns_ok.1 hcolumns
  refine reconcileEach_transparent hplain hformat fun hwrites => ?_
  rw [hkept] at hopens hwrites
  cases hopens.committed
  exact hrewrites ⟨d, hcommits, hrecords, hopens, hwrites⟩

/-- One that comes to write vectors does not succeed under encryption. -/
theorem rewriting_fails {w : Write} {disk : Disk}
    (hrewrites : RewritesVectors W h disk w fun _ => True) :
    ∃ e disk', ((h.encrypted frame).perform W w.op).run disk = .error e disk' := by
  cases hrun : ((h.encrypted frame).perform W w.op).run disk with
  | error e disk' => exact ⟨e, disk', rfl⟩
  | ok answer disk' =>
    obtain ⟨d', hcommits', -, -, heach⟩ := perform_write_ok hrun
    obtain ⟨d, hcommits, -, -, hwrites⟩ := hrewrites
    cases Commits.encrypted hplain hformat hcommits hcommits'
    exact absurd heach (hwrites.not_encrypted hplain hformat)

end Encrypted

end LanceStore

/-! ## Runs -/

/-- Operations one after the other: what each answers, and the disk they leave. -/
def LanceStore.performAll (W : World) (h : LanceStore) :
    List Op → Disk → List (Except Error Answer) × Disk
  | [], disk => ([], disk)
  | op :: ops, disk =>
    let result := (h.perform W op).run disk
    let rest := performAll W h ops (final result)
    (answer result :: rest.1, rest.2)

/-- An operation comes to write vectors. -/
def OpRewrites (W : World) (h : LanceStore) (disk : Disk) : Op → Prop
  | .append table batch => RewritesVectors W h disk (.append table batch) fun _ => True
  | .update table predicate assignments =>
    RewritesVectors W h disk (.update table predicate assignments) fun _ => True
  | .delete table predicate => RewritesVectors W h disk (.delete table predicate) fun _ => True
  | _ => False

section Runs

variable (hplain : h.session = none) (hformat : W.format.ResolvesThrough frame)

include hplain hformat

/-- **One operation** that comes to write no vectors ends alike. -/
theorem perform_transparent {op : Op} {disk : Disk} (hrewrites : ¬ OpRewrites W h disk op) :
    SameOutcome ((h.perform W op).run disk) (((h.encrypted frame).perform W op).run disk) := by
  cases op with
  | append table batch => exact write_transparent hplain hformat hrewrites
  | update table predicate assignments => exact write_transparent hplain hformat hrewrites
  | delete table predicate => exact write_transparent hplain hformat hrewrites
  | createTable table definition =>
    exact (createTable_matches hplain hformat table definition).bind (fun _ => .refl _) disk
  | dropTable table => exact (dropTable_matches hplain hformat table).bind (fun _ => .refl _) disk
  | scan table => exact (scan_matches hplain hformat table).map _ disk
  | scanOrdered table predicate by' order =>
    exact (scanOrdered_matches hplain hformat table predicate by' order).map _ disk
  | scanOrderedMeasured table predicate by' order =>
    exact (scanOrderedMeasured_matches hplain hformat table predicate by' order).map _ disk
  | rowIds table predicate => exact (rowIds_matches hplain hformat table predicate).map _ disk
  | rowIdsMeasured table predicate =>
    exact (rowIdsMeasured_matches hplain hformat table predicate).map _ disk
  | rowIdsAll table matching =>
    exact (rowIdsAll_matches hplain hformat table matching).map _ disk
  | rowIdsAny table matching =>
    exact (rowIdsAny_matches hplain hformat table matching).map _ disk
  | filteredSearch table filter source limit =>
    exact (filteredSearch_matches hplain hformat table filter source limit).map _ disk
  | vectorsOf table column => exact (vectorsOf_matches hplain hformat table column).map _ disk
  | nearest table column query limit =>
    exact (nearest_matches hplain hformat table column query limit).map _ disk
  | searchText table column query limit =>
    exact (searchText_matches hplain hformat table column query limit).map _ disk
  | hybridSearch table column text vector limit =>
    exact (hybridSearch_matches hplain hformat table column text vector limit).map _ disk
  | createIndex table column =>
    exact (createIndex_matches hplain hformat table column).bind (fun _ => .refl _) disk
  | createVectorIndex table column kind =>
    exact (createVectorIndex_matches hplain hformat table column kind).bind (fun _ => .refl _) disk
  | createTextIndex table column language =>
    exact (createTextIndex_matches hplain hformat table column language).bind
      (fun _ => .refl _) disk
  | vectorIndexKind table column =>
    exact (vectorIndexKind_matches hplain hformat table column).map _ disk
  | nearestUsesTheIndex table column query limit =>
    exact (nearestUsesTheIndex_matches hplain hformat table column query limit).map _ disk

/-- **Encryption is transparent in every run that writes no vectors**: an encrypted handle answers
every operation as a plain one does, up to what an error says, and leaves the same tables, vectors
and log.  **A write that comes to write vectors** fails under encryption. -/
theorem encryption_transparent (ops : List Op) (disk : Disk) :
    ((∀ before op after, ops = before ++ op :: after →
        ¬ OpRewrites W h (h.performAll W before disk).2 op) →
      ((h.encrypted frame).performAll W ops disk).1.map Except.toOption =
          (h.performAll W ops disk).1.map Except.toOption ∧
        ((h.encrypted frame).performAll W ops disk).2 = (h.performAll W ops disk).2) ∧
    ∀ op, OpRewrites W h disk op →
      ∃ e disk', ((h.encrypted frame).perform W op).run disk = .error e disk' := by
  constructor
  · intro hmeets
    induction ops generalizing disk with
    | nil => exact ⟨rfl, rfl⟩
    | cons op ops ih =>
      have hfirst : SameOutcome ((h.perform W op).run disk)
          (((h.encrypted frame).perform W op).run disk) :=
        perform_transparent hplain hformat (hmeets [] op ops rfl)
      have hrest := ih (final ((h.perform W op).run disk)) fun before op' after hsplit =>
        hmeets (op :: before) op' after (by rw [hsplit]; rfl)
      unfold performAll
      dsimp only
      rw [hfirst.final_eq, List.map_cons, List.map_cons, hfirst.answer_eq, hrest.1, hrest.2]
      exact ⟨rfl, rfl⟩
  · intro op hrewrites
    have hwrite : ∀ w, (RewritesVectors W h disk w fun _ => True) →
        ∃ e disk', ((h.encrypted frame).perform W w.op).run disk = .error e disk' :=
      fun w hw => rewriting_fails hplain hformat hw
    cases op with
    | append table batch => exact hwrite _ hrewrites
    | update table predicate assignments => exact hwrite _ hrewrites
    | delete table predicate => exact hwrite _ hrewrites
    | _ => cases hrewrites

end Runs

/-! ## Tables with and without an auto-embedding column -/

/-- A format that refuses what goes to an encrypted location without a session. -/
def Format.strict : Format :=
  { Format.plain with
    refuses := fun call _ => if call.encrypted && call.session.isNone then some NOT_FOUND else none }

theorem strict_resolves : Format.strict.ResolvesThrough oneKeyFrame where
  session := fun _ _ _ => Iff.rfl
  bare := by
    intro location request d hnone
    cases hnone

/-- A world whose format is that one. -/
def World.strict : World := { World.plain with format := .strict }

/-- A table without a column that embeds itself is made, gets a row and is read. -/
def createFillAndScan : List Op :=
  let s : Schema := ⟨[⟨"id".toList, .uint64, false, []⟩], []⟩
  [.createTable "notes".toList ⟨s, .none⟩, .append "notes".toList ⟨s, [[.uint64 1]]⟩,
    .scan "notes".toList]

theorem createFillAndScan_plain {before after : List Op} {op : Op}
    (hsplit : createFillAndScan = before ++ op :: after) :
    ¬ OpRewrites .strict writer (writer.performAll .strict before Disk.empty).2 op := by
  match before, hsplit with
  | [], hsplit =>
    cases hsplit
    exact id
  | [_], hsplit =>
    cases hsplit
    rintro ⟨d, ⟨-, -, -, hd⟩, -, -, hwrites⟩
    have hcolumns : d.schema.autoEmbeddingColumns = [] := by
      rw [hd]
      rfl
    rw [hcolumns] at hwrites
    cases hwrites
  | [_, _], hsplit =>
    cases hsplit
    exact id
  | _ :: _ :: _ :: before, hsplit =>
    have hlength := congrArg List.length hsplit
    simp [createFillAndScan] at hlength

/-- It is used alike under encryption. -/
theorem notes_transparent :
    ((writer.encrypted oneKeyFrame).performAll .strict createFillAndScan Disk.empty).1.map
          Except.toOption =
        (writer.performAll .strict createFillAndScan Disk.empty).1.map Except.toOption ∧
      ((writer.encrypted oneKeyFrame).performAll .strict createFillAndScan Disk.empty).2 =
        (writer.performAll .strict createFillAndScan Disk.empty).2 :=
  (encryption_transparent rfl strict_resolves createFillAndScan Disk.empty).1
    fun _ _ _ hsplit => createFillAndScan_plain hsplit

/-- A table is made, and a row with a text appended to it. -/
def createAndAppend : List Op :=
  [.createTable "docs".toList ⟨embeddedText, .none⟩, (appendDocs "a".toList).op]

set_option maxRecDepth 8000 in
/-- The append succeeds on a plain handle and not on an encrypted one. -/
theorem encrypted_append_fails : ∃ disk disk' : Disk, ∃ cause : Cause,
    writer.session = none ∧ Format.strict.ResolvesThrough oneKeyFrame ∧
    writer.performAll .strict createAndAppend Disk.empty = ([.ok .done, .ok .done], disk) ∧
    (writer.encrypted oneKeyFrame).performAll .strict createAndAppend Disk.empty =
      ([.ok .done, .error (.backend "write the vectors of" "docs".toList cause)], disk') :=
  ⟨_, _, NOT_FOUND, rfl, strict_resolves, rfl, rfl⟩

end EuleDB.Store
