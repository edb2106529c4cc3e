import EuleDB.Audit.Operation
import EuleDB.Crypto.Frame
import EuleDB.Store.Schema

/-!
# The on-disk format

The format below the storage layer is another crate.  `Dataset` is what it keeps under one path;
`Format` takes the crate itself as functions, with what the storage layer relies on: a row's
identity is not used again within a dataset.

* `Dataset.add`, `Dataset.delete`, `Dataset.update`, `Dataset.overwrite` — the commits; each gives
  a dataset whose rows have identities of their own.
* `Format.refuses` — anything the crate or the disk can object to, call by call.
* `Format.collected` — what a stream is read as: batches, without the crate's own keys.
-/

set_option autoImplicit false

namespace EuleDB.Store

open Crypto Audit

/-- What the layer below says when it fails. -/
abbrev Cause := Text

/-- Where a path leads once its dots and links are resolved. -/
abbrev Path := List Text

inductive Order where
  | ascending
  | descending
  deriving DecidableEq

inductive IndexKind where
  | btree
  | inverted (language : String) (stem : Bool)
  | vector (kind : VectorIndexKind)
  deriving DecidableEq

/-- What stands under one path: a table, or the vectors of one of its columns. -/
structure Dataset where
  schema : Schema
  rows : List Row
  /-- Every identity handed out so far. -/
  issued : List RowId
  indexes : List (Text × IndexKind)
  nodup : (rows.map Row.id).Nodup
  known : ∀ r ∈ rows, r.id ∈ issued

/-- One thing asked of the format. -/
inductive Request where
  | load
  | create (schema : Schema)
  | append (batch : Batch)
  | overwrite (batch : Batch)
  | filter (predicate : Text)
  | orderBy (column : Text) (order : Order)
  | project (columns : List Text)
  | limit (n : Nat)
  | stream
  | read
  | nearest (query : List UInt32) (limit : Nat)
  | fullText (query : Text)
  | language (name : String)
  | index (column : Text) (kind : IndexKind)
  | set (column value : Text)
  | planUpdate
  | update (predicate : Text) (assignments : List (Text × Text))
  | count (predicate : Option Text)
  | delete (predicate : Text)
  | analyze
  | explain
  | removeDirectory

/-- A request, where it goes and how the location is addressed. -/
structure Call where
  location : Text
  /-- Whether the location is addressed under the encrypted scheme. -/
  encrypted : Bool
  /-- The session that goes with the request. -/
  session : Option BlockFrame
  request : Request

/-- The format's crate and the filesystem under it, as functions. -/
structure Format where
  resolve : Text → Path
  /-- Why a call on what stands at its location fails. -/
  refuses : Call → Option Dataset → Option Cause
  /-- `n` identities for new rows of a dataset. -/
  fresh : List RowId → (n : Nat) → List RowId
  fresh_length : ∀ issued n, (fresh issued n).length = n
  fresh_nodup : ∀ issued n, (fresh issued n).Nodup
  fresh_new : ∀ issued n, ∀ id ∈ fresh issued n, id ∉ issued
  /-- Whether a predicate holds of a row. -/
  selects : Text → Dataset → Row → Bool
  /-- A row's values after an update. -/
  assigned : List (Text × Text) → Dataset → Row → List Value
  /-- The batches that rows of a dataset are streamed in: the schema each carries, and its rows.
  What a schema says of the dataset as a whole need not come with them. -/
  batches : Dataset → List Row → List (Schema × List Row)
  batches_rows : ∀ d rows, (batches d rows).flatMap Prod.snd = rows
  batches_fields : ∀ d rows, ∀ batch ∈ batches d rows, batch.1.fields = d.schema.fields
  /-- Rows in the order of a column. -/
  sorted : Text → Order → Dataset → List Row → List Row
  /-- The rows nearest to a vector, closest first. -/
  nearest : Dataset → List UInt32 → Nat → List Row
  nearest_mem : ∀ d query limit, ∀ r ∈ nearest d query limit, r ∈ d.rows
  /-- The rows a full-text query matches. -/
  fullText : Dataset → Text → Nat → List RowId
  /-- The statistics of the index of this name, where there is one. -/
  indexStatistics : Dataset → Text → Option Text
  /-- How a nearest-neighbour search would run. -/
  explainPlan : Dataset → List UInt32 → Nat → Text
  /-- How many rows the widest step of a scan examined. -/
  rowsExamined : Dataset → Text → Nat

namespace Dataset

/-- A dataset that was just created has no rows and has handed out no identity. -/
def create (schema : Schema) : Dataset where
  schema := schema
  rows := []
  issued := []
  indexes := []
  nodup := List.nodup_nil
  known := by simp

variable (F : Format)

/-- Rows under fresh identities. -/
def numbered (issued : List RowId) (values : List (List Value)) : List Row :=
  List.zipWith Row.mk (F.fresh issued values.length) values

theorem numbered_ids (issued : List RowId) (values : List (List Value)) :
    (numbered F issued values).map Row.id = F.fresh issued values.length := by
  unfold numbered
  rw [List.map_zipWith]
  refine List.ext_getElem (by simp [F.fresh_length]) fun i h1 h2 => ?_
  simp

theorem numbered_values (issued : List RowId) (values : List (List Value)) :
    (numbered F issued values).map Row.values = values := by
  unfold numbered
  rw [List.map_zipWith]
  refine List.ext_getElem (by simp [F.fresh_length]) fun i h1 h2 => ?_
  simp

theorem numbered_fresh {issued : List RowId} {values : List (List Value)} {r : Row}
    (h : r ∈ numbered F issued values) :
    r.id ∈ F.fresh issued values.length ∧ r.id ∉ issued := by
  have hid : r.id ∈ F.fresh issued values.length := by
    rw [← numbered_ids]
    exact List.mem_map_of_mem h
  exact ⟨hid, F.fresh_new _ _ _ hid⟩

/-- New rows after the old ones. -/
def add (d : Dataset) (values : List (List Value)) : Dataset where
  schema := d.schema
  rows := d.rows ++ numbered F d.issued values
  issued := d.issued ++ F.fresh d.issued values.length
  indexes := d.indexes
  nodup := by
    rw [List.map_append, List.nodup_append, numbered_ids]
    refine ⟨d.nodup, F.fresh_nodup _ _, ?_⟩
    intro id hold id' hnew heq
    subst heq
    obtain ⟨r, hr, rfl⟩ := List.mem_map.1 hold
    exact F.fresh_new _ _ _ hnew (d.known r hr)
  known := by
    intro r hr
    rw [List.mem_append] at hr ⊢
    rcases hr with hold | hnew
    · exact .inl (d.known r hold)
    · exact .inr (numbered_fresh F hnew).1

/-- The rows that do not satisfy `p`. -/
def delete (d : Dataset) (p : Row → Bool) : Dataset where
  schema := d.schema
  rows := d.rows.filter fun r => !p r
  issued := d.issued
  indexes := d.indexes
  nodup := d.nodup.sublist (List.filter_sublist.map Row.id)
  known := fun r hr => d.known r (List.mem_filter.1 hr).1

/-- The rows that satisfy `p` are written again, with new values and under new identities. -/
def update (d : Dataset) (p : Row → Bool) (values : Row → List Value) : Dataset :=
  (d.delete p).add F ((d.rows.filter p).map values)

/-- Which rows go is a matter of the rows that are there. -/
theorem delete_congr {d : Dataset} {p q : Row → Bool} (h : ∀ r ∈ d.rows, p r = q r) :
    d.delete p = d.delete q := by
  have hrows : (d.rows.filter fun r => !p r) = d.rows.filter fun r => !q r :=
    List.filter_congr fun r hr => by rw [h r hr]
  unfold delete
  simp only [hrows]

theorem update_congr {d : Dataset} {p q : Row → Bool} {values : Row → List Value}
    (h : ∀ r ∈ d.rows, p r = q r) : d.update F p values = d.update F q values := by
  unfold update
  rw [delete_congr h, List.filter_congr h]

/-- Another schema and other rows; identities that were handed out stay so. -/
def overwrite (d : Dataset) (batch : Batch) : Dataset :=
  add F ⟨batch.schema, [], d.issued, [], List.nodup_nil, by simp⟩ batch.rows

/-- An index over a column, in place of the one it had. -/
def index (d : Dataset) (column : Text) (kind : IndexKind) : Dataset :=
  { d with indexes := (d.indexes.filter fun entry => entry.1 ≠ column) ++ [(column, kind)] }

variable {F}

@[simp] theorem create_schema (s : Schema) : (create s).schema = s := rfl
@[simp] theorem create_rows (s : Schema) : (create s).rows = [] := rfl
@[simp] theorem add_schema (d : Dataset) (values : List (List Value)) :
    (d.add F values).schema = d.schema := rfl
@[simp] theorem add_rows (d : Dataset) (values : List (List Value)) :
    (d.add F values).rows = d.rows ++ numbered F d.issued values := rfl
@[simp] theorem add_issued (d : Dataset) (values : List (List Value)) :
    (d.add F values).issued = d.issued ++ F.fresh d.issued values.length := rfl
@[simp] theorem delete_schema (d : Dataset) (p : Row → Bool) : (d.delete p).schema = d.schema := rfl
@[simp] theorem delete_rows (d : Dataset) (p : Row → Bool) :
    (d.delete p).rows = d.rows.filter fun r => !p r := rfl
@[simp] theorem delete_issued (d : Dataset) (p : Row → Bool) : (d.delete p).issued = d.issued := rfl
@[simp] theorem overwrite_schema (d : Dataset) (batch : Batch) :
    (d.overwrite F batch).schema = batch.schema := rfl
@[simp] theorem overwrite_rows (d : Dataset) (batch : Batch) :
    (d.overwrite F batch).rows = numbered F d.issued batch.rows := rfl
@[simp] theorem index_schema (d : Dataset) (column : Text) (kind : IndexKind) :
    (d.index column kind).schema = d.schema := rfl
@[simp] theorem index_rows (d : Dataset) (column : Text) (kind : IndexKind) :
    (d.index column kind).rows = d.rows := rfl

end Dataset

/-! ## What a stream is read as -/

namespace Format

variable (F : Format) (d : Dataset) (rows : List Row)

/-- The batches of a stream, each carrying the caller's schema. -/
def collected : List Batch :=
  (F.batches d rows).map fun batch =>
    ⟨Compression.strippedFrom batch.1, batch.2.map Row.values⟩

/-- No row is lost, and none comes twice. -/
@[simp] theorem collected_rows : (F.collected d rows).flatMap Batch.rows = rows.map Row.values := by
  unfold collected
  rw [List.flatMap_map, ← List.map_flatMap, F.batches_rows]

/-- Every batch carries the fields of the table, without the keys. -/
theorem collected_fields {batch : Batch} (h : batch ∈ F.collected d rows) :
    batch.schema.fields = (Compression.strippedFrom d.schema).fields := by
  obtain ⟨streamed, hstreamed, rfl⟩ := List.mem_map.1 h
  show (Compression.strippedFrom streamed.1).fields = _
  unfold Compression.strippedFrom
  rw [F.batches_fields d rows streamed hstreamed]

end Format

/-! ## A format that objects to nothing -/

/-- The number after every identity handed out so far. -/
def nextId (issued : List Nat) : Nat := issued.foldr (fun id next => max (id + 1) next) 0

theorem lt_nextId {issued : List Nat} {id : Nat} (h : id ∈ issued) : id < nextId issued := by
  unfold nextId
  induction issued with
  | nil => cases h
  | cons first issued ih =>
    rw [List.foldr_cons]
    rcases List.mem_cons.1 h with rfl | hrest
    · omega
    · have := ih hrest
      omega

/-- Rows are numbered from zero, every predicate selects every row, and the rows there are come in
one batch. -/
def Format.plain : Format where
  resolve := fun location => location.splitOn '/'
  refuses := fun _ _ => none
  fresh := fun issued n => List.range' (nextId issued) n
  fresh_length := fun _ _ => List.length_range'
  fresh_nodup := fun _ _ => List.nodup_range'
  fresh_new := by
    intro issued n id hid hold
    exact absurd (lt_nextId hold) (Nat.not_lt.2 (List.mem_range'_1.1 hid).1)
  selects := fun _ _ _ => true
  assigned := fun _ _ r => r.values
  batches := fun d rows => if rows.isEmpty then [] else [(⟨d.schema.fields, []⟩, rows)]
  batches_rows := by
    intro d rows
    cases rows <;> simp
  batches_fields := by
    intro d rows batch hbatch
    cases rows with
    | nil => simp at hbatch
    | cons row rows => simp_all
  sorted := fun _ _ _ rows => rows
  nearest := fun d _ limit => d.rows.take limit
  nearest_mem := fun _ _ _ _ h => List.mem_of_mem_take h
  fullText := fun d _ limit => (d.rows.map Row.id).take limit
  indexStatistics := fun _ _ => none
  explainPlan := fun _ _ _ => []
  rowsExamined := fun d _ => d.rows.length

end EuleDB.Store
