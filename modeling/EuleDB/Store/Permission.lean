import EuleDB.Store.Auditing
import EuleDB.Store.Confinement
import EuleDB.Store.VectorRuns

/-!
# What a refusal depends on

A handle that lacks a token is refused before the table is touched, so that the refusal says
nothing about what the database holds.  Reconciliation checks once more: it asks for a read token
when it finds a companion to read the vectors of.

* `refused_iff` — when an operation is refused: at its own check, or inside.
* `ReadsBack` — the one check inside an operation of the store that can fail.
* `refusal_depends_on_grants_iff` — when two databases give the same decision.
-/

set_option autoImplicit false

namespace EuleDB.Store

open Crypto Audit Effect LanceStore

/-! ## Refusals -/

/-- The error is that a token is missing. -/
def Error.NotPermitted (e : Error) : Prop := ∃ scope table, e = .storage (.notPermitted scope table)

/-- A computation ends for want of a token. -/
def Refused {α : Type} (x : StoreM α) (disk : Disk) : Prop :=
  ∃ e disk', x.run disk = .error e disk' ∧ e.NotPermitted

/-- Any error but that a token is missing. -/
def OtherError (e : Error) : Prop := ¬ e.NotPermitted

section Refused

variable {α β : Type} {x : StoreM α} {f : α → StoreM β} {disk : Disk}

theorem refused_bind : Refused (x >>= f) disk ↔
    Refused x disk ∨ ∃ a disk', x.run disk = .ok a disk' ∧ Refused (f a) disk' := by
  constructor
  · rintro ⟨e, disk', hrun, he⟩
    rcases bind_error.1 hrun with hfirst | ⟨a, t, hfirst, hrest⟩
    · exact .inl ⟨e, disk', hfirst, he⟩
    · exact .inr ⟨a, t, hfirst, e, disk', hrest, he⟩
  · rintro (⟨e, disk', hfirst, he⟩ | ⟨a, t, hfirst, e, disk', hrest, he⟩)
    · exact ⟨e, disk', bind_error.2 (.inl hfirst), he⟩
    · exact ⟨e, disk', bind_error.2 (.inr ⟨a, t, hfirst, hrest⟩), he⟩

theorem not_refused (hx : Raises OtherError x) : ¬ Refused x disk := by
  rintro ⟨e, disk', hrun, he⟩
  exact hx _ _ _ hrun he

theorem refused_map {g : α → β} : Refused (g <$> x) disk ↔ Refused x disk := by
  rw [map_eq_pure_bind, refused_bind]
  constructor
  · rintro (hx | ⟨a, disk', -, hpure⟩)
    · exact hx
    · exact absurd hpure (not_refused (Raises.pure (g a)))
  · exact .inl

/-- What cannot be refused has no part in whether the rest is, if it leaves the disk as it is. -/
theorem refused_look (hraises : Raises OtherError x) (hkeeps : Keeps Unchanged x) :
    Refused (x >>= f) disk ↔ ∃ a, x.run disk = .ok a disk ∧ Refused (f a) disk := by
  rw [refused_bind]
  constructor
  · rintro (hx | ⟨a, disk', hfirst, hrest⟩)
    · exact absurd hx (not_refused hraises)
    · have hsame : disk' = disk := hkeeps.reaches _ _ _ hfirst
      subst hsame
      exact ⟨a, hfirst, hrest⟩
  · rintro ⟨a, hfirst, hrest⟩
    exact .inr ⟨a, disk, hfirst, hrest⟩

/-- What follows has no part in it where it cannot be refused. -/
theorem refused_before (hf : ∀ a, Raises OtherError (f a)) :
    Refused (x >>= f) disk ↔ Refused x disk := by
  rw [refused_bind]
  constructor
  · rintro (hx | ⟨a, disk', -, hrest⟩)
    · exact hx
    · exact absurd hrest (not_refused (hf a))
  · exact .inl

end Refused

variable {W : World} {h : LanceStore}

namespace LanceStore

/-! ## What is never refused -/

theorem otherError : Covers OtherError where
  backend := by
    rintro operation table cause ⟨scope, table', heq⟩
    cases heq
  audit := by
    rintro e ⟨scope, table, heq⟩
    cases heq

theorem requireWriteRole_otherError (operation : String) (table : Text) :
    Raises OtherError (h.requireWriteRole operation table) := by
  unfold requireWriteRole
  split
  · exact Raises.pure _
  · refine Raises.throw ?_
    rintro ⟨scope, table', heq⟩
    cases heq

theorem selectOrdered_otherError (table : Text) (d : Dataset) (predicate by' : Text)
    (order : Order) :
    Raises OtherError (h.selectOrdered W table d predicate by' order) :=
  (otherError.ask _ _ _ _).bind fun _ => (otherError.ask _ _ _ _).bind fun _ => Raises.pure _

theorem selectRowIds_otherError (table : Text) (d : Dataset) (predicate : Text) :
    Raises OtherError (h.selectRowIds W table d predicate) :=
  (otherError.ask _ _ _ _).bind fun _ => (otherError.ask _ _ _ _).bind fun _ => Raises.pure _

/-- A check that is passed. -/
theorem requireScope_otherError {scope : Scope} {table : Text}
    (hpermits : h.permits W scope table) : Raises OtherError (h.requireScope W scope table) := by
  unfold requireScope
  rw [if_pos hpermits]
  exact Raises.pure _

/-- One that is not. -/
theorem requireScope_refused {α : Type} {scope : Scope} {table : Text} {f : PUnit → StoreM α}
    {disk : Disk} (hpermits : ¬ h.permits W scope table) :
    Refused (h.requireScope W scope table >>= f) disk := by
  unfold requireScope
  rw [if_neg hpermits]
  exact ⟨_, disk, rfl, scope, table, rfl⟩

/-! ## Reads with a token -/

section Reads

variable {table : Text} (hread : h.permits W .read table)

include hread

theorem scan_otherError : Raises OtherError (h.scan W table) :=
  (requireScope_otherError hread).bind fun _ => (otherError.open _).bind fun _ =>
    (otherError.collect _ _ _ _).bind fun _ => (otherError.record _ _).bind fun _ => Raises.pure _

theorem scanOrdered_otherError (predicate by' : Text) (order : Order) :
    Raises OtherError (h.scanOrdered W table predicate by' order) :=
  (requireScope_otherError hread).bind fun _ => (otherError.open _).bind fun _ =>
    (selectOrdered_otherError _ _ _ _ _).bind fun _ => otherError.collect _ _ _ _

theorem rowIds_otherError (predicate : Text) : Raises OtherError (h.rowIds W table predicate) :=
  (requireScope_otherError hread).bind fun _ => (otherError.open _).bind fun _ =>
    (selectRowIds_otherError _ _ _).bind fun _ => (otherError.ask _ _ _ _).bind fun _ =>
      (otherError.ask _ _ _ _).bind fun _ => Raises.pure _

theorem sets_otherError (predicates : List Text) :
    Raises OtherError (h.sets W table predicates) := by
  induction predicates with
  | nil => exact Raises.pure _
  | cons predicate predicates ih =>
    exact (rowIds_otherError hread _).bind fun _ => ih.bind fun _ => Raises.pure _

theorem eachSet_otherError (matching : List Text) (operation : String) :
    Raises OtherError (h.eachSet W table matching operation) := by
  cases matching with
  | nil =>
    refine Raises.throw ?_
    rintro ⟨scope, table', heq⟩
    cases heq
  | cons head tail =>
    exact (rowIds_otherError hread _).bind fun _ => (sets_otherError hread _).bind fun _ =>
      Raises.pure _

theorem vectorsOf_otherError (column : Text) : Raises OtherError (h.vectorsOf W table column) :=
  otherError.vectorsOf (requireScope_otherError hread) column

theorem nearest_otherError (column : Text) (query : List UInt32) (limit : Nat) :
    Raises OtherError (h.nearest W table column query limit) := by
  refine (requireScope_otherError hread).bind fun _ => ?_
  split
  · refine Raises.throw ?_
    rintro ⟨scope, table', heq⟩
    cases heq
  · refine (otherError.open _).bind fun d => (otherError.ask _ _ _ _).bind fun _ => ?_
    refine (otherError.ask _ _ _ _).bind fun _ => (otherError.ask _ _ _ _).bind fun _ => ?_
    refine (otherError.rowVectors _ _ _ _ _).bind fun found => ?_
    exact (otherError.record _ _).bind fun _ => Raises.pure _

theorem searchText_otherError (column query : Text) (limit : Nat) :
    Raises OtherError (h.searchText W table column query limit) := by
  refine (requireScope_otherError hread).bind fun _ => (otherError.open _).bind fun d => ?_
  refine (otherError.ask _ _ _ _).bind fun _ => (otherError.ask _ _ _ _).bind fun _ => ?_
  refine (otherError.ask _ _ _ _).bind fun _ => (otherError.ask _ _ _ _).bind fun _ => ?_
  refine (otherError.ask _ _ _ _).bind fun _ => ?_
  exact (otherError.record _ _).bind fun _ => Raises.pure _

end Reads

/-! ## Reconciliation -/

/-- A handle that embeds comes to a column whose companion is there, without a token to read the
vectors in it. -/
structure Unreadable (W : World) (h : LanceStore) (datasets : Datasets) (table column : Text) :
    Prop where
  embeds : h.embedder.isSome
  unread : ¬ h.permits W .read table
  opens : ∃ d, Opens W h datasets (vectorTable table column) d

theorem existingVectors_refused {table column : Text} {disk : Disk} :
    Refused (h.existingVectors W table column) disk ↔
      ¬ h.permits W .read table ∧ ∃ d, Opens W h disk.datasets (vectorTable table column) d := by
  change (∃ e disk', h.existingVectors W table column disk = _ ∧ _) ↔ _
  unfold existingVectors
  cases hrun : (h.open W (vectorTable table column)).run disk with
  | ok d opened =>
    obtain ⟨hopens, rfl⟩ := open_ok.1 hrun
    dsimp only
    constructor
    · intro hrefused
      refine ⟨fun hread => ?_, d, hopens⟩
      exact not_refused (vectorsOf_otherError hread column) hrefused
    · rintro ⟨hread, -⟩
      exact requireScope_refused hread
  | error e opened =>
    refine iff_of_false ?_ ?_
    · rintro ⟨e', disk', hok, -⟩
      cases hok
    · rintro ⟨-, d, hopens⟩
      rw [open_ok.2 ⟨hopens, rfl⟩] at hrun
      cases hrun

/-- **A column's reconciliation is refused** exactly where its vectors are there and may not be
read. -/
theorem reconcile_refused {table column : Text} {disk : Disk} :
    Refused (h.reconcile W table column) disk ↔ Unreadable W h disk.datasets table column := by
  cases hembedder : h.embedder with
  | none =>
    unfold reconcile
    rw [hembedder]
    refine iff_of_false (not_refused (Raises.throw (otherError.backend _ _ _))) ?_
    intro hunreadable
    have hembeds := hunreadable.embeds
    rw [hembedder] at hembeds
    cases hembeds
  | some embedder =>
    rw [reconcile_run hembedder, refused_before, existingVectors_refused]
    · constructor
      · rintro ⟨hread, hopens⟩
        exact ⟨by rw [hembedder]; rfl, hread, hopens⟩
      · rintro ⟨-, hread, hopens⟩
        exact ⟨hread, hopens⟩
    · intro existing
      refine (otherError.open _).bind fun d => (otherError.ask _ _ _ _).bind fun _ => ?_
      refine (otherError.ask _ _ _ _).bind fun _ => (otherError.ask _ _ _ _).bind fun _ => ?_
      refine (otherError.presentTexts _ _ _).bind fun present => ?_
      split
      · exact Raises.pure _
      · refine (otherError.rebuild _ _ _ _).bind fun vectors => ?_
        exact (Covers.found _).bind fun before => (otherError.ask _ _ _ _).bind fun _ =>
          Covers.commit _ _


/-- On the way through columns of a table, one is reached whose vectors cannot be read. -/
inductive Obstructed (W : World) (h : LanceStore) (table : Text) : List Text → Datasets → Prop where
  | here {column : Text} {columns : List Text} {datasets : Datasets}
    (unreadable : Unreadable W h datasets table column) :
    Obstructed W h table (column :: columns) datasets
  | later {column : Text} {columns : List Text} {datasets middle : Datasets}
    (first : ReconcilesTo W h table column datasets middle)
    (rest : Obstructed W h table columns middle) :
    Obstructed W h table (column :: columns) datasets

theorem Obstructed.unread {table : Text} {columns : List Text} {datasets : Datasets}
    (hobstructed : Obstructed W h table columns datasets) : ¬ h.permits W .read table := by
  induction hobstructed with
  | here hunreadable => exact hunreadable.unread
  | later _ _ ih => exact ih

theorem reconcileEach_refused {table : Text} {columns : List Text} {disk : Disk} :
    Refused (h.reconcileEach W table columns) disk ↔
      Obstructed W h table columns disk.datasets := by
  induction columns generalizing disk with
  | nil =>
    refine iff_of_false (not_refused (Raises.pure _)) ?_
    rintro ⟨⟩
  | cons column columns ih =>
    unfold reconcileEach
    rw [refused_bind, reconcile_refused]
    constructor
    · rintro (hunreadable | ⟨u, disk', hfirst, hrest⟩)
      · exact .here hunreadable
      · obtain ⟨middle, hreconciles, rfl⟩ := reconcile_ok.1 hfirst
        exact .later hreconciles (ih.1 hrest)
    · rintro (hunreadable | ⟨hreconciles, hrest⟩)
      · exact .inl hunreadable
      · exact .inr ⟨⟨⟩, _, reconcile_ok.2 ⟨_, hreconciles, rfl⟩, ih.2 hrest⟩

/-! ## Writes -/

/-- A write is committed and recorded, and then comes to a column whose vectors it may not read. -/
def ReadsBack (W : World) (h : LanceStore) (disk : Disk) (w : Write) : Prop :=
  ∃ d, Commits W h disk.datasets w d ∧ Records W h disk.log ∧
    Opens W h (committed W h disk.datasets w d) w.table d ∧
    Obstructed W h w.table d.schema.autoEmbeddingColumns (committed W h disk.datasets w d)

theorem askEach_otherError (table : Text) (d : Dataset) (assignments : List (Text × Text)) :
    Raises OtherError (h.askEach W table d assignments) := by
  induction assignments with
  | nil => exact Raises.pure _
  | cons assignment assignments ih => exact (otherError.ask _ _ _ _).bind fun _ => ih

/-- The commit of a write is refused at its own check or not at all. -/
theorem writeRows_refused {w : Write} {disk : Disk} :
    Refused (h.writeRows W w) disk ↔ ¬ h.permits W .write w.table := by
  constructor
  · intro hrefused hpermits
    refine not_refused ?_ hrefused
    cases w with
    | append table batch =>
      refine (requireScope_otherError hpermits).bind fun _ => ?_
      refine (requireWriteRole_otherError _ _).bind fun _ => (Covers.found _).bind fun _ => ?_
      refine (otherError.ask _ _ _ _).bind fun _ => (Covers.commit _ _).bind fun _ => ?_
      exact Raises.pure _
    | update table predicate assignments =>
      refine (requireScope_otherError hpermits).bind fun _ => ?_
      refine (requireWriteRole_otherError _ _).bind fun _ => ?_
      split
      · refine Raises.throw ?_
        rintro ⟨scope, table', heq⟩
        cases heq
      · refine (otherError.open _).bind fun d => (otherError.ask _ _ _ _).bind fun _ => ?_
        refine (askEach_otherError _ _ _).bind fun _ => (otherError.ask _ _ _ _).bind fun _ => ?_
        refine (otherError.ask _ _ _ _).bind fun _ => (Covers.commit _ _).bind fun _ => ?_
        exact Raises.pure _
    | delete table predicate =>
      refine (requireScope_otherError hpermits).bind fun _ => ?_
      refine (requireWriteRole_otherError _ _).bind fun _ => (otherError.open _).bind fun d => ?_
      refine (otherError.ask _ _ _ _).bind fun _ => (otherError.ask _ _ _ _).bind fun _ => ?_
      exact (Covers.commit _ _).bind fun _ => Raises.pure _
  · intro hpermits
    cases w with
    | append table batch => exact requireScope_refused hpermits
    | update table predicate assignments => exact requireScope_refused hpermits
    | delete table predicate => exact requireScope_refused hpermits

/-- **A write is refused** at its own check, or because it reads vectors back. -/
theorem write_refused {w : Write} {disk : Disk} :
    Refused (h.perform W w.op) disk ↔
      ¬ h.permits W .write w.table ∨ ReadsBack W h disk w := by
  rw [perform_write, refused_bind, writeRows_refused]
  refine or_congr_right ?_
  constructor
  · rintro ⟨n, s1, hrows, hrest⟩
    obtain ⟨d, hcommits, rfl⟩ := writeRows_ok.1 ⟨n, hrows⟩
    rcases refused_bind.1 hrest with hrecord | ⟨u, s2, hrecord, hall⟩
    · exact absurd hrecord (not_refused (otherError.record _ _))
    have hrecords := record_ok.1 ⟨u, s2, hrecord⟩
    have hkept : s2.datasets = committed W h disk.datasets w d :=
      (h.record_datasets _ _).reaches _ _ _ hrecord
    rw [refused_before fun _ => Raises.pure _] at hall
    obtain ⟨columns, hcolumns, heach⟩ :=
      (refused_look ((otherError.open _).bind fun _ => Raises.pure _)
        (h.embeddingColumns_keeps W _)).1 hall
    obtain ⟨d', hopens, rfl, -⟩ := embeddingColumns_ok.1 hcolumns
    have hobstructed := reconcileEach_refused.1 heach
    rw [hkept] at hopens hobstructed
    cases hopens.committed
    exact ⟨d, hcommits, hrecords, hopens, hobstructed⟩
  · rintro ⟨d, hcommits, hrecords, hopens, hobstructed⟩
    obtain ⟨n, hrows⟩ := writeRows_ok.2 ⟨d, hcommits, rfl⟩
    obtain ⟨u, s2, hrecord⟩ : ∃ u s2, (h.record W w.operation (count64 n)).run
        (disk.put (h.place W w.table) (some d)) = .ok u s2 := record_ok.2 hrecords
    have hkept : s2.datasets = committed W h disk.datasets w d :=
      (h.record_datasets _ _).reaches _ _ _ hrecord
    rw [← hkept] at hopens hobstructed
    refine ⟨n, _, hrows, refused_bind.2 (.inr ⟨u, s2, hrecord, ?_⟩)⟩
    rw [refused_before fun _ => Raises.pure _]
    exact refused_bind.2 (.inr ⟨_, s2, embeddingColumns_ok.2 ⟨d, hopens, rfl, rfl⟩,
      reconcileEach_refused.2 hobstructed⟩)

end LanceStore

/-! ## Every operation -/

/-- What an operation's own check asks for. -/
def Op.scope : Op → Scope
  | .createTable _ _ | .dropTable _ | .createIndex _ _ | .createVectorIndex _ _ _
  | .createTextIndex _ _ _ => .schema
  | .append _ _ | .update _ _ _ | .delete _ _ => .write
  | .scan _ | .scanOrdered _ _ _ _ | .scanOrderedMeasured _ _ _ _ | .rowIds _ _
  | .rowIdsMeasured _ _ | .rowIdsAll _ _ | .rowIdsAny _ _ | .filteredSearch _ _ _ _
  | .vectorsOf _ _ | .nearest _ _ _ _ | .searchText _ _ _ _ | .hybridSearch _ _ _ _ _
  | .vectorIndexKind _ _ | .nearestUsesTheIndex _ _ _ _ => .read

/-- Whether an operation comes to its check: one that combines no predicates does not. -/
def Op.Checks : Op → Prop
  | .rowIdsAll _ matching | .rowIdsAny _ matching | .filteredSearch _ matching _ _ => matching ≠ []
  | _ => True

/-- An operation is refused after its own check: a write that reads vectors back, or a search whose
source answers that it is not permitted. -/
def RefusedInside (W : World) (h : LanceStore) (disk : Disk) : Op → Prop
  | .append table batch => ReadsBack W h disk (.append table batch)
  | .update table predicate assignments => ReadsBack W h disk (.update table predicate assignments)
  | .delete table predicate => ReadsBack W h disk (.delete table predicate)
  | .filteredSearch table filter source limit =>
    ∃ within e, (h.rowIdsAll W table filter).run disk = .ok within disk ∧
      source within limit = .error e ∧ e.NotPermitted
  | _ => False

/-- A computation that is refused without a token, and with it never. -/
theorem refused_of_check {α : Type} {x : StoreM α} {scope : Scope} {table : Text} {disk : Disk}
    (without : ¬ h.permits W scope table → Refused x disk)
    (granted : h.permits W scope table → Raises OtherError x) :
    Refused x disk ↔ ¬ h.permits W scope table :=
  ⟨fun hrefused hpermits => not_refused (granted hpermits) hrefused, without⟩

namespace LanceStore

variable {disk : Disk}

theorem createTable_refused {table : Text} {definition : TableDefinition} :
    Refused (h.createTable W table definition) disk ↔ ¬ h.permits W .schema table := by
  refine refused_of_check requireScope_refused fun hpermits => ?_
  refine (requireScope_otherError hpermits).bind fun _ => ?_
  refine (requireWriteRole_otherError _ _).bind fun _ => (Covers.found _).bind fun before => ?_
  refine (otherError.ask _ _ _ _).bind fun _ => ?_
  split
  · exact Raises.throw (otherError.backend _ _ _)
  · exact (Covers.commit _ _).bind fun _ => otherError.record _ _

theorem dropTable_refused {table : Text} :
    Refused (h.dropTable W table) disk ↔ ¬ h.permits W .schema table := by
  refine refused_of_check requireScope_refused fun hpermits => ?_
  refine (requireScope_otherError hpermits).bind fun _ => ?_
  refine (requireWriteRole_otherError _ _).bind fun _ => (otherError.record _ _).bind fun _ => ?_
  refine (Covers.found _).bind fun before => (otherError.ask _ _ _ _).bind fun _ => ?_
  intro disk e disk' hrun
  cases hrun

theorem createIndex_refused {table column : Text} :
    Refused (h.createIndex W table column) disk ↔ ¬ h.permits W .schema table := by
  refine refused_of_check requireScope_refused fun hpermits => ?_
  refine (requireScope_otherError hpermits).bind fun _ => ?_
  refine (requireWriteRole_otherError _ _).bind fun _ => (otherError.open _).bind fun d => ?_
  exact (otherError.ask _ _ _ _).bind fun _ => Covers.commit _ _

theorem createVectorIndex_refused {table column : Text} {kind : VectorIndexKind} :
    Refused (h.createVectorIndex W table column kind) disk ↔ ¬ h.permits W .schema table := by
  refine refused_of_check requireScope_refused fun hpermits => ?_
  refine (requireScope_otherError hpermits).bind fun _ => ?_
  refine (requireWriteRole_otherError _ _).bind fun _ => (otherError.open _).bind fun d => ?_
  refine (otherError.ask _ _ _ _).bind fun _ => (Covers.commit _ _).bind fun _ => ?_
  exact otherError.record _ _

theorem createTextIndex_refused {table column : Text} {language : StemmingLanguage} :
    Refused (h.createTextIndex W table column language) disk ↔ ¬ h.permits W .schema table := by
  refine refused_of_check requireScope_refused fun hpermits => ?_
  refine (requireScope_otherError hpermits).bind fun _ => ?_
  refine (requireWriteRole_otherError _ _).bind fun _ => (otherError.open _).bind fun d => ?_
  refine (otherError.ask _ _ _ _).bind fun _ => (otherError.ask _ _ _ _).bind fun _ => ?_
  exact (Covers.commit _ _).bind fun _ => otherError.record _ _

theorem scanOrderedMeasured_refused {table predicate by' : Text} {order : Order} :
    Refused (h.scanOrderedMeasured W table predicate by' order) disk ↔
      ¬ h.permits W .read table := by
  refine refused_of_check ?_ fun hread => ?_
  · intro hread
    exact refused_bind.2 (.inl (requireScope_refused hread))
  · refine (scanOrdered_otherError hread _ _ _).bind fun _ => (otherError.open _).bind fun d => ?_
    refine (selectOrdered_otherError _ _ _ _ _).bind fun _ => (otherError.ask _ _ _ _).bind ?_
    exact fun _ => Raises.pure _

theorem rowIdsMeasured_refused {table predicate : Text} :
    Refused (h.rowIdsMeasured W table predicate) disk ↔ ¬ h.permits W .read table := by
  refine refused_of_check ?_ fun hread => ?_
  · intro hread
    exact refused_bind.2 (.inl (requireScope_refused hread))
  · refine (rowIds_otherError hread _).bind fun _ => (otherError.open _).bind fun d => ?_
    refine (selectRowIds_otherError _ _ _).bind fun _ => (otherError.ask _ _ _ _).bind fun _ => ?_
    exact Raises.pure _

theorem eachSet_refused {table : Text} {matching : List Text} {operation : String} :
    Refused (h.eachSet W table matching operation) disk ↔
      matching ≠ [] ∧ ¬ h.permits W .read table := by
  cases matching with
  | nil =>
    refine iff_of_false (not_refused (Raises.throw ?_)) (by simp)
    rintro ⟨scope, table', heq⟩
    cases heq
  | cons head tail =>
    rw [and_iff_right (List.cons_ne_nil _ _)]
    refine refused_of_check ?_ fun hread => eachSet_otherError hread _ _
    intro hread
    exact refused_bind.2 (.inl (requireScope_refused hread))

theorem rowIdsAll_refused {table : Text} {matching : List Text} :
    Refused (h.rowIdsAll W table matching) disk ↔
      matching ≠ [] ∧ ¬ h.permits W .read table := by
  unfold rowIdsAll
  rw [refused_before fun _ => Raises.pure _, eachSet_refused]

theorem rowIdsAny_refused {table : Text} {matching : List Text} :
    Refused (h.rowIdsAny W table matching) disk ↔
      matching ≠ [] ∧ ¬ h.permits W .read table := by
  unfold rowIdsAny
  rw [refused_before fun _ => Raises.pure _, eachSet_refused]

/-- A filtered search is refused where its filter is, or where its source says so. -/
theorem filteredSearch_refused {table : Text} {filter : List Text}
    {source : Finset RowId → Nat → Except Error (List RowId)} {limit : Nat} :
    Refused (h.filteredSearch W table filter source limit) disk ↔
      (filter ≠ [] ∧ ¬ h.permits W .read table) ∨
        ∃ within e, (h.rowIdsAll W table filter).run disk = .ok within disk ∧
          source within limit = .error e ∧ e.NotPermitted := by
  unfold filteredSearch
  rw [refused_bind, rowIdsAll_refused]
  refine or_congr_right ?_
  constructor
  · rintro ⟨within, disk', hwithin, e, disk'', hsource, he⟩
    have hsame : disk' = disk := (h.rowIdsAll_keeps W _ _).reaches _ _ _ hwithin
    subst hsame
    refine ⟨within, e, hwithin, ?_, he⟩
    cases hanswer : source within limit with
    | ok ids =>
      rw [hanswer] at hsource
      cases hsource
    | error e' =>
      rw [hanswer] at hsource
      cases hsource
      rfl
  · rintro ⟨within, e, hwithin, hsource, he⟩
    refine ⟨within, disk, hwithin, e, disk, ?_, he⟩
    rw [hsource]
    rfl

theorem hybridSearch_refused {table column text : Text} {vector : List UInt32} {limit : Nat} :
    Refused (h.hybridSearch W table column text vector limit) disk ↔
      ¬ h.permits W .read table := by
  refine refused_of_check requireScope_refused fun hread => ?_
  refine (requireScope_otherError hread).bind fun _ => ?_
  refine (nearest_otherError hread _ _ _).bind fun semantic => ?_
  refine (searchText_otherError hread _ _ _).bind fun lexical => (otherError.open _).bind ?_
  intro d
  exact (otherError.ask _ _ _ _).bind fun _ => (otherError.record _ _).bind fun _ => Raises.pure _

theorem vectorIndexKind_refused {table column : Text} :
    Refused (h.vectorIndexKind W table column) disk ↔ ¬ h.permits W .read table := by
  refine refused_of_check requireScope_refused fun hread => ?_
  refine (requireScope_otherError hread).bind fun _ => (otherError.open _).bind fun d => ?_
  split
  · exact Raises.pure _
  · split_ifs <;> exact Raises.pure _

theorem nearestUsesTheIndex_refused {table column : Text} {query : List UInt32} {limit : Nat} :
    Refused (h.nearestUsesTheIndex W table column query limit) disk ↔
      ¬ h.permits W .read table := by
  refine refused_of_check requireScope_refused fun hread => ?_
  refine (requireScope_otherError hread).bind fun _ => (otherError.open _).bind fun d => ?_
  exact (otherError.ask _ _ _ _).bind fun _ => (otherError.ask _ _ _ _).bind fun _ => Raises.pure _

end LanceStore

/-- **When an operation is refused**: at its own check, by the grants alone, or inside. -/
theorem refused_iff {op : Op} {disk : Disk} :
    Refused (h.perform W op) disk ↔
      (op.Checks ∧ ¬ h.permits W op.scope op.table) ∨ RefusedInside W h disk op := by
  have hread : ∀ {α : Type} {x : StoreM α} {g : α → Answer} {table : Text},
      (Refused x disk ↔ ¬ h.permits W .read table) →
        (Refused (g <$> x) disk ↔ (True ∧ ¬ h.permits W .read table) ∨ False) := by
    intro α x g table hx
    rw [refused_map, hx, true_and, or_false]
  have hschema : ∀ {x : StoreM PUnit} {table : Text},
      (Refused x disk ↔ ¬ h.permits W .schema table) →
        (Refused (x >>= fun _ => pure Answer.done) disk ↔
          (True ∧ ¬ h.permits W .schema table) ∨ False) := by
    intro x table hx
    rw [refused_before fun _ => Raises.pure _, hx, true_and, or_false]
  have hwrite : ∀ w : Write, Refused (h.perform W w.op) disk ↔
      (True ∧ ¬ h.permits W .write w.table) ∨ ReadsBack W h disk w := by
    intro w
    rw [write_refused, true_and]
  have hcombine : ∀ {α : Type} {x : StoreM α} {g : α → Answer} {table : Text}
      {matching : List Text},
      (Refused x disk ↔ matching ≠ [] ∧ ¬ h.permits W .read table) →
        (Refused (g <$> x) disk ↔ (matching ≠ [] ∧ ¬ h.permits W .read table) ∨ False) := by
    intro α x g table matching hx
    rw [refused_map, hx, or_false]
  cases op with
  | createTable table definition => exact hschema createTable_refused
  | append table batch => exact hwrite (.append table batch)
  | update table predicate assignments => exact hwrite (.update table predicate assignments)
  | delete table predicate => exact hwrite (.delete table predicate)
  | dropTable table => exact hschema dropTable_refused
  | scan table => exact hread (refused_of_check requireScope_refused scan_otherError)
  | scanOrdered table predicate by' order =>
    exact hread (refused_of_check requireScope_refused fun hpermits =>
      scanOrdered_otherError hpermits _ _ _)
  | scanOrderedMeasured table predicate by' order => exact hread scanOrderedMeasured_refused
  | rowIds table predicate =>
    exact hread (refused_of_check requireScope_refused fun hpermits =>
      rowIds_otherError hpermits _)
  | rowIdsMeasured table predicate => exact hread rowIdsMeasured_refused
  | rowIdsAll table matching => exact hcombine rowIdsAll_refused
  | rowIdsAny table matching => exact hcombine rowIdsAny_refused
  | filteredSearch table filter source limit => exact refused_map.trans filteredSearch_refused
  | vectorsOf table column =>
    exact hread (refused_of_check requireScope_refused fun hpermits =>
      vectorsOf_otherError hpermits _)
  | nearest table column query limit =>
    exact hread (refused_of_check requireScope_refused fun hpermits =>
      nearest_otherError hpermits _ _ _)
  | searchText table column query limit =>
    exact hread (refused_of_check requireScope_refused fun hpermits =>
      searchText_otherError hpermits _ _ _)
  | hybridSearch table column text vector limit => exact hread hybridSearch_refused
  | createIndex table column => exact hschema createIndex_refused
  | createVectorIndex table column kind => exact hschema createVectorIndex_refused
  | createTextIndex table column language => exact hschema createTextIndex_refused
  | vectorIndexKind table column => exact hread vectorIndexKind_refused
  | nearestUsesTheIndex table column query limit => exact hread nearestUsesTheIndex_refused

/-! ## Two databases -/

/-- Only writes without a token to read are refused inside for the vectors there are. -/
theorem ReadsBack.unread {disk : Disk} {w : Write} (hback : ReadsBack W h disk w) :
    ¬ h.permits W .read w.table := by
  obtain ⟨d, -, -, -, hobstructed⟩ := hback
  exact hobstructed.unread

/-- What is refused inside has passed its own check. -/
theorem RefusedInside.permitted {op : Op} {disk : Disk} (hinside : RefusedInside W h disk op) :
    h.permits W op.scope op.table := by
  cases op with
  | append table batch =>
    obtain ⟨d, hcommits, -⟩ := hinside
    exact hcommits.1
  | update table predicate assignments =>
    obtain ⟨d, hcommits, -⟩ := hinside
    exact hcommits.1
  | delete table predicate =>
    obtain ⟨d, hcommits, -⟩ := hinside
    exact hcommits.1
  | filteredSearch table filter source limit =>
    obtain ⟨within, e, hwithin, -⟩ := hinside
    by_contra hread
    have hnil : filter = [] := by
      by_contra hfilter
      have hrefused : Refused (h.rowIdsAll W table filter) disk :=
        rowIdsAll_refused.2 ⟨hfilter, hread⟩
      obtain ⟨e', disk', hrun, -⟩ := hrefused
      rw [hwithin] at hrun
      cases hrun
    subst hnil
    cases hwithin
  | _ => cases hinside

/-- **A permission decision depends on the grants alone exactly when** the operation is refused
inside in both databases or in neither.  **A write that holds its token is refused exactly when**
it reads vectors back: it comes to a column whose companion opens, and there is no token to read. -/
theorem refusal_depends_on_grants_iff {h h' : LanceStore} (hgate : h.gate = h'.gate)
    (disk disk' : Disk) :
    (∀ op : Op, (Refused (h.perform W op) disk ↔ Refused (h'.perform W op) disk') ↔
      (RefusedInside W h disk op ↔ RefusedInside W h' disk' op)) ∧
    ∀ w : Write, h.permits W .write w.table →
      (Refused (h.perform W w.op) disk ↔ ReadsBack W h disk w) := by
  refine ⟨fun op => ?_, fun w hwrite => ?_⟩
  · have hpermits : h'.permits W op.scope op.table = h.permits W op.scope op.table := by
      unfold permits
      rw [hgate]
    rw [refused_iff, refused_iff, hpermits]
    by_cases hdecision : op.Checks ∧ ¬ h.permits W op.scope op.table
    · have hinside : ¬ RefusedInside W h disk op := fun hinside =>
        hdecision.2 hinside.permitted
      have hinside' : ¬ RefusedInside W h' disk' op := fun hinside =>
        hdecision.2 (hpermits ▸ hinside.permitted)
      simp [hdecision, hinside, hinside']
    · rw [or_iff_right hdecision, or_iff_right hdecision]
  · rw [write_refused]
    exact or_iff_right (not_not.2 hwrite)

/-- A handle whose only token is to write the table `docs`. -/
def docsWriter : LanceStore :=
  let key := padTo MAC_LEN []
  writer.gated ⟨key, [⟨"docs".toList, .write,
    Platform.padding.hmac key.1 (Capability.message "docs".toList .write)⟩]⟩

set_option maxRecDepth 8000 in
theorem docsWriter_permits : docsWriter.permits .plain .write "docs".toList := rfl

/-- Whether it may scan the table is decided by its grants; whether its append is refused, by the
vectors there are. -/
theorem docsWriter_decisions :
    (Refused (docsWriter.perform .plain (.scan "docs".toList)) created ↔
      Refused (docsWriter.perform .plain (.scan "docs".toList)) written) ∧
    (Refused (docsWriter.perform .plain (appendDocs "b".toList).op) written ↔
      ReadsBack .plain docsWriter written (appendDocs "b".toList)) := by
  have hdecisions := refusal_depends_on_grants_iff (W := .plain) (h := docsWriter) rfl created
    written
  have hback := refusal_depends_on_grants_iff (W := .plain) (h := docsWriter) rfl written created
  exact ⟨(hdecisions.1 (.scan "docs".toList)).2 (iff_of_false id id),
    hback.2 (appendDocs "b".toList) docsWriter_permits⟩

set_option maxRecDepth 8000 in
/-- One append with one token, on two databases: the second has the vectors of a first row. -/
theorem refusal_reveals_vectors : ∃ created written appended refused : Disk,
    created.log = written.log ∧
    docsWriter.permits .plain .write "docs".toList ∧
    docsWriter.permits .plain .read "docs".toList = false ∧
    (docsWriter.perform .plain (appendDocs "b".toList).op).run created = .ok .done appended ∧
    (docsWriter.perform .plain (appendDocs "b".toList).op).run written =
      .error (.storage (.notPermitted .read "docs".toList)) refused :=
  ⟨created, written, _, _, rfl, docsWriter_permits, rfl, rfl, rfl⟩

end EuleDB.Store
