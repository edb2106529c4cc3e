import Mathlib.Data.Finset.Basic
import Mathlib.Logic.Function.Basic
import EuleDB.Audit.Log
import EuleDB.Crypto.Capability
import EuleDB.Store.Format
import EuleDB.Store.Fusion

/-!
# The storage layer

`LanceStore` is a handle on a database: what it may do, what it records and what it embeds text
with.  Its operations are computations over a `Disk`, which fail with an `Error` and keep what they
did to the disk before they failed.

* `LanceStore.record`, `LanceStore.requireScope`, `LanceStore.requireWriteRole` — what stands
  between a caller and a table.
* `LanceStore.reconcile` — bringing a column's vectors back into agreement with its text.
* `Op`, `LanceStore.perform` — every operation that takes a table's name.
-/

set_option autoImplicit false

namespace EuleDB.Store

open Crypto Audit

/-! ## Handles, disks and errors -/

inductive StorageError where
  | readOnly (operation : String) (table : Text)
  | noEmbedder
  | queryNotEmbeddable (cause : Text)
  | wrongVectorWidth (given wanted : Nat)
  | notPermitted (scope : Scope) (table : Text)
  | nothingToCombine (table : Text) (operation : String)
  | nothingToSet (table : Text)
  | backend (operation : String) (table : Text) (cause : Cause)
  deriving DecidableEq

inductive Error where
  | schema (e : SchemaMismatch)
  | storage (e : StorageError)
  | audit (e : AuditError)
  deriving DecidableEq

/-- A failure from the layer below, with what was attempted and on what. -/
def Error.backend (operation : String) (table : Text) (cause : Cause) : Error :=
  .storage (.backend operation table cause)

/-- What turns text into vectors: none, one or several for one passage. -/
structure Embedder where
  embedPassage : Text → Except Cause (List (List UInt32))
  embedQuery : Text → Except Cause (List UInt32)

/-- One chunk's vector of one row. -/
structure RowVector where
  row : RowId
  chunk : Nat
  embedding : List UInt32
  deriving DecidableEq

/-- A database's directory: its datasets and its audit log. -/
structure Disk where
  datasets : Path → Option Dataset
  log : LogFile

/-- Nothing yet. -/
def Disk.empty : Disk := ⟨fun _ => none, .fresh⟩

abbrev StoreM := EStateM Error Disk

/-- What is under the storage layer: ciphers, the format, a hash function and the text form that is
made for debugging. -/
structure World where
  platform : Platform
  format : Format
  sha256 : Bytes → Hash
  debug : Text → Text

/-- A world in which nothing below the storage layer fails. -/
def World.plain : World := ⟨.padding, .plain, digest, id⟩

structure LanceStore where
  root : Text
  /-- Whether this handle holds the write role. -/
  writeLock : Bool
  /-- Present when this store is encrypted. -/
  session : Option BlockFrame
  embedder : Option Embedder
  audit : Option AuditLog
  gate : Option Gate

/-- `Path::join`: an absolute path replaces what stands before it. -/
def joinPath (root name : Text) : Text :=
  if name.head? = some '/' then name
  else if root = [] ∨ root.getLast? = some '/' then root ++ name
  else root ++ '/' :: name

/-- A number of rows as a `u64`. -/
def count64 (n : Nat) : UInt64 := UInt64.ofNat (min n (UInt64.size - 1))

/-- `u32::try_from(n).unwrap_or(u32::MAX)`. -/
def saturate32 (n : Nat) : Nat := if n < 2 ^ 32 then n else 2 ^ 32 - 1

/-- What opening a table that is not there says. -/
def NOT_FOUND : Cause := "the dataset was not found".toList

/-- What creating a table that is there says. -/
def ALREADY_EXISTS : Cause := "the dataset already exists".toList

def NO_EMBEDDER : Cause :=
  "this handle has no embedder: open it with `embedding(..)`".toList

namespace LanceStore

/-- The companion table holding one column's vectors. -/
def vectorTable (table column : Text) : Text :=
  table ++ ".".toList ++ column ++ ".vectors".toList

/-- The schema of a companion table. -/
def vectorSchema : Schema := ⟨[
  ⟨"row".toList, .uint64, false, []⟩,
  ⟨"chunk".toList, .uint32, false, []⟩,
  ⟨"embedding".toList, .fixedSizeList true VECTOR_WIDTH, false, []⟩], []⟩

/-- A handle on a database that may only be read. -/
def new (root : Text) : LanceStore := ⟨root, false, none, none, none, none⟩

/-- A handle that holds the write role. -/
def openForWriting (root : Text) : LanceStore := ⟨root, true, none, none, none, none⟩

def encrypted (h : LanceStore) (frame : BlockFrame) : LanceStore := { h with session := some frame }

def embedding (h : LanceStore) (embedder : Embedder) : LanceStore :=
  { h with embedder := some embedder }

def audited (h : LanceStore) : LanceStore :=
  { h with audit := some ⟨joinPath h.root LOG_FILE⟩ }

def gated (h : LanceStore) (gate : Gate) : LanceStore := { h with gate := some gate }

variable (W : World) (h : LanceStore)

/-- The directory holding one table. -/
def datasetPath (table : Text) : Text := joinPath h.root (table ++ ".lance".toList)

/-- Where a table lives. -/
def place (table : Text) : Path := W.format.resolve (h.datasetPath table)

/-! ## What every operation is made of -/

/-- Record one operation, if this handle records anything. -/
def record (op : Operation) (rows : UInt64) : StoreM PUnit := fun disk =>
  match h.audit with
  | none => .ok ⟨⟩ disk
  | some log =>
    match (log.append W.sha256 (op.entry W.debug rows)).run disk.log with
    | .ok _ file => .ok ⟨⟩ { disk with log := file }
    | .error e file => .error (.audit e) { disk with log := file }

/-- Whether this handle may do something of `scope` to a table. -/
def permits (scope : Scope) (table : Text) : Bool :=
  match h.gate with
  | none => true
  | some gate => gate.permits W.platform table scope

/-- Refuse an operation this handle has no token for. -/
def requireScope (scope : Scope) (table : Text) : StoreM PUnit :=
  if h.permits W scope table then pure ⟨⟩ else throw (.storage (.notPermitted scope table))

/-- Refuse a writing operation on a store that was opened for reading. -/
def requireWriteRole (operation : String) (table : Text) : StoreM PUnit :=
  if h.writeLock then pure ⟨⟩ else throw (.storage (.readOnly operation table))

/-- A call on a table, with this handle's session. -/
def call (table : Text) (request : Request) : Call :=
  ⟨h.datasetPath table, h.session.isSome, h.session, request⟩

/-- Ask the format for something; `about` is the table that a failure names. -/
def ask (operation : String) (about : Text) (call : Call) (d : Option Dataset) : StoreM PUnit :=
  match W.format.refuses call d with
  | none => pure ⟨⟩
  | some cause => throw (.backend operation about cause)

/-- What stands where a table lives. -/
def found (table : Text) : StoreM (Option Dataset) := do
  let disk ← get
  pure (disk.datasets (h.place W table))

/-- A dataset takes the place of what stands where a table lives. -/
def commit (table : Text) (d : Dataset) : StoreM PUnit :=
  modify fun disk =>
    { disk with datasets := Function.update disk.datasets (h.place W table) (some d) }

/-- Open a table. -/
def «open» (table : Text) : StoreM Dataset := do
  let d ← h.found W table
  ask W "open the table" table (h.call table .load) d
  match d with
  | some dataset => pure dataset
  | none => throw (.backend "open the table" table NOT_FOUND)

/-- Read rows into batches carrying the caller's schema. -/
def collect (at' about : Text) (d : Dataset) (rows : List Row) : StoreM (List Batch) := do
  ask W "start a scan of the table" about (h.call at' .stream) (some d)
  -- also where a batch cannot be made with the stripped schema
  ask W "read the table" about (h.call at' .read) (some d)
  pure (W.format.collected d rows)

/-! ## Reading -/

/-- Read every row of a table back. -/
def scan (table : Text) : StoreM (List Batch) := do
  h.requireScope W .read table
  let d ← h.open W table
  let batches ← h.collect W table table d d.rows
  h.record W (.scan table) (count64 (rowCount batches))
  pure batches

/-- The rows a predicate selects, in the order of one column. -/
def selectOrdered (table : Text) (d : Dataset) (predicate by' : Text) (order : Order) :
    StoreM (List Row) := do
  ask W "apply the predicate to" table (h.call table (.filter predicate)) (some d)
  ask W "order the rows of" table (h.call table (.orderBy by' order)) (some d)
  pure (W.format.sorted by' order d (d.rows.filter (W.format.selects predicate d)))

def scanOrdered (table predicate by' : Text) (order : Order) : StoreM (List Batch) := do
  h.requireScope W .read table
  let d ← h.open W table
  let rows ← h.selectOrdered W table d predicate by' order
  h.collect W table table d rows

/-- The ordered rows, and how many rows answering examined. -/
def scanOrderedMeasured (table predicate by' : Text) (order : Order) :
    StoreM (List Batch × Nat) := do
  let value ← h.scanOrdered W table predicate by' order
  let d ← h.open W table
  let _ ← h.selectOrdered W table d predicate by' order
  ask W "analyse the plan for" table (h.call table .analyze) (some d)
  pure (value, W.format.rowsExamined d predicate)

/-- The rows a predicate selects, none of their columns. -/
def selectRowIds (table : Text) (d : Dataset) (predicate : Text) : StoreM (List Row) := do
  ask W "apply the predicate to" table (h.call table (.filter predicate)) (some d)
  ask W "project no columns of" table (h.call table (.project [])) (some d)
  pure (d.rows.filter (W.format.selects predicate d))

/-- The identities of the rows a predicate selects. -/
def rowIds (table predicate : Text) : StoreM (List RowId) := do
  h.requireScope W .read table
  let d ← h.open W table
  let rows ← h.selectRowIds W table d predicate
  ask W "start a scan of the table" table (h.call table .stream) (some d)
  ask W "read the table" table (h.call table .read) (some d)
  pure (rows.map Row.id)

def rowIdsMeasured (table predicate : Text) : StoreM (List RowId × Nat) := do
  let value ← h.rowIds W table predicate
  let d ← h.open W table
  let _ ← h.selectRowIds W table d predicate
  ask W "analyse the plan for" table (h.call table .analyze) (some d)
  pure (value, W.format.rowsExamined d predicate)

/-- One set for each predicate. -/
def sets (table : Text) : List Text → StoreM (List (Finset RowId))
  | [] => pure []
  | predicate :: predicates => do
    let ids ← h.rowIds W table predicate
    let rest ← sets table predicates
    pure (ids.toFinset :: rest)

/-- One set per predicate, split into the first and the rest. -/
def eachSet (table : Text) (matching : List Text) (operation : String) :
    StoreM (Finset RowId × List (Finset RowId)) :=
  match matching with
  | [] => throw (.storage (.nothingToCombine table operation))
  | head :: tail => do
    let first ← h.rowIds W table head
    let rest ← h.sets W table tail
    pure (first.toFinset, rest)

/-- The rows matching every one of several predicates. -/
def rowIdsAll (table : Text) (matching : List Text) : StoreM (Finset RowId) := do
  let (first, rest) ← h.eachSet W table matching "intersect"
  pure (rest.foldl (· ∩ ·) first)

/-- The rows matching any one of several predicates. -/
def rowIdsAny (table : Text) (matching : List Text) : StoreM (Finset RowId) := do
  let (first, rest) ← h.eachSet W table matching "unite"
  pure (rest.foldl (· ∪ ·) first)

/-- Search within the rows an exact filter kept. -/
def filteredSearch (table : Text) (filter : List Text)
    (source : Finset RowId → Nat → Except Error (List RowId)) (limit : Nat) :
    StoreM (List RowId) := do
  let within ← h.rowIdsAll W table filter
  ofExcept (source within limit)

/-! ## Vectors -/

/-- The column of this name when it has a type that `accepts` allows: where it stands. -/
def typedColumn (s : Schema) (name : Text) (accepts : DataType → Bool) : Option Nat :=
  match s.columnWithName name with
  | some (i, field) => if accepts field.dataType then some i else none
  | none => none

def isFixedSizeList : DataType → Bool
  | .fixedSizeList _ _ => true
  | _ => false

def isFloat32List : DataType → Bool
  | .fixedSizeList float32 _ => float32
  | _ => false

/-- One row of a companion table as a vector. -/
def rowVector (operation notFloat : String) (table : Text) (s : Schema) (r : Row) :
    Except Error RowVector :=
  match typedColumn s "row".toList (· = .uint64), typedColumn s "chunk".toList (· = .uint32),
    typedColumn s "embedding".toList isFixedSizeList,
    typedColumn s "embedding".toList isFloat32List with
  | none, _, _, _ => .error (.backend operation table "no row column".toList)
  | some _, none, _, _ => .error (.backend operation table "no chunk column".toList)
  | some _, some _, none, _ => .error (.backend operation table "no embedding column".toList)
  | some _, some _, some _, none => .error (.backend operation table notFloat.toList)
  | some row, some chunk, some embedding, some _ =>
    .ok ⟨(r.value row).number, (r.value chunk).number, (r.value embedding).components VECTOR_WIDTH⟩

/-- Rows of a companion table as vectors. -/
def rowVectors (operation notFloat : String) (table : Text) (s : Schema) (rows : List Row) :
    Except Error (List RowVector) :=
  rows.mapM (rowVector operation notFloat table s)

/-- By row, and by chunk within a row. -/
def RowVector.le (a b : RowVector) : Bool :=
  a.row < b.row || (a.row = b.row && a.chunk ≤ b.chunk)

/-- The vectors of a column, in row and chunk order. -/
def vectorsOf (table column : Text) : StoreM (List RowVector) := do
  h.requireScope W .read table
  let companion := vectorTable table column
  let d ← h.open W companion
  let _ ← h.collect W companion table d d.rows
  let vectors ← ofExcept
    (rowVectors "read the vectors of" "embeddings are not f32" table d.schema d.rows)
  pure (vectors.mergeSort RowVector.le)

/-- Build a vector index over a column's vectors. -/
def createVectorIndex (table column : Text) (kind : VectorIndexKind) : StoreM PUnit := do
  h.requireScope W .schema table
  h.requireWriteRole "index the vectors of" table
  let companion := vectorTable table column
  let d ← h.open W companion
  ask W "index the vectors of" table (h.call companion (.index "embedding".toList (.vector kind)))
    (some d)
  h.commit W companion (d.index "embedding".toList (.vector kind))
  h.record W (.createVectorIndex table column kind) 0

/-- The nearest vectors to a query, in order of similarity. -/
def nearest (table column : Text) (query : List UInt32) (limit : Nat) :
    StoreM (List RowVector) := do
  h.requireScope W .read table
  if query.length ≠ VECTOR_WIDTH then
    throw (.storage (.wrongVectorWidth query.length VECTOR_WIDTH))
  else do
    let companion := vectorTable table column
    let d ← h.open W companion
    ask W "search the vectors of" table (h.call companion (.nearest query limit)) (some d)
    ask W "start a search of" table (h.call companion .stream) (some d)
    ask W "read the search results of" table (h.call companion .read) (some d)
    let found ← ofExcept (rowVectors "read the search results of" "not f32" table d.schema
      (W.format.nearest d query limit))
    h.record W (.nearest table column) (count64 found.length)
    pure found

/-- Build a full-text index over a text column. -/
def createTextIndex (table column : Text) (language : StemmingLanguage) : StoreM PUnit := do
  h.requireScope W .schema table
  h.requireWriteRole "index the text of" table
  let kind := IndexKind.inverted language.asParts.1 language.asParts.2
  let d ← h.open W table
  ask W "index the text of" table (h.call table (.language language.asParts.1)) (some d)
  ask W "index the text of" table (h.call table (.index column kind)) (some d)
  h.commit W table (d.index column kind)
  h.record W (.createTextIndex table column language) 0

/-- The rows a full-text query matches. -/
def searchText (table column query : Text) (limit : Nat) : StoreM (List RowId) := do
  h.requireScope W .read table
  let d ← h.open W table
  ask W "search the text of" table (h.call table (.fullText query)) (some d)
  ask W "limit the search of" table (h.call table (.limit limit)) (some d)
  ask W "project no columns of" table (h.call table (.project [])) (some d)
  ask W "start a text search of" table (h.call table .stream) (some d)
  ask W "read the text results of" table (h.call table .read) (some d)
  let hits := W.format.fullText d query limit
  h.record W (.searchText table column query) (count64 hits.length)
  pure hits

/-- One ranking from both retrieval paths. -/
def hybridSearch (table column text : Text) (vector : List UInt32) (limit : Nat) :
    StoreM Fused := do
  h.requireScope W .read table
  let breadth := max (limit * 2) limit
  let semantic ← h.nearest W table column vector breadth
  let lexical ← h.searchText W table column text breadth
  let d ← h.open W table
  ask W "count the rows of" table (h.call table (.count none)) (some d)
  let fused := fuse (semantic.map RowVector.row) lexical d.rows.length limit
  h.record W (.hybridSearch table column text fused.effectiveK) (count64 fused.hits.length)
  pure fused

/-- Whether a text contains another. -/
def contains (text part : Text) : Bool := text.tails.any part.isPrefixOf

/-- Which vector index a column carries, if any. -/
def vectorIndexKind (table column : Text) : StoreM (Option VectorIndexKind) := do
  h.requireScope W .read table
  let d ← h.open W (vectorTable table column)
  match W.format.indexStatistics d "embedding_idx".toList with
  | none => pure none
  | some statistics =>
    if contains statistics "HNSW".toList then pure (some .graph)
    else if contains statistics "PQ".toList then pure (some .quantised)
    else pure none

/-- Whether a nearest-neighbour search would go through the vector index. -/
def nearestUsesTheIndex (table column : Text) (query : List UInt32) (limit : Nat) :
    StoreM Bool := do
  h.requireScope W .read table
  let companion := vectorTable table column
  let d ← h.open W companion
  ask W "search the vectors of" table (h.call companion (.nearest query limit)) (some d)
  ask W "explain the search of" table (h.call companion .explain) (some d)
  let plan := W.format.explainPlan d query limit
  pure (contains plan "ANNSubIndex".toList || contains plan "ANNIvfPartition".toList)

/-- Build an index over a column. -/
def createIndex (table column : Text) : StoreM PUnit := do
  h.requireScope W .schema table
  h.requireWriteRole "index a column of" table
  let d ← h.open W table
  ask W "index a column of" table (h.call table (.index column .btree)) (some d)
  h.commit W table (d.index column .btree)

/-! ## Reconciliation -/

/-- The vectors a column has so far; none where its companion cannot be opened. -/
def existingVectors (table column : Text) : StoreM (List RowVector) := fun disk =>
  match (h.open W (vectorTable table column)).run disk with
  | .ok _ disk => (h.vectorsOf W table column).run disk
  | .error _ disk => .ok [] disk

/-- Row identity and text together. -/
def presentTexts (table column : Text) (d : Dataset) : Except Error (List (RowId × Text)) :=
  d.rows.mapM fun r =>
    match typedColumn d.schema column (· = .utf8) with
    | none => .error (.backend "read the embedding column of" table
        "an auto-embedding column must hold text".toList)
    | some i => .ok (r.id, (r.value i).text)

/-- What an embedding of the wrong width says. -/
def wrongWidth (given : Nat) : Cause :=
  "the embedder produced ".toList ++ Nat.toDigits 10 given ++ " components, not ".toList ++
    Nat.toDigits 10 VECTOR_WIDTH

/-- The embeddings of one row: those it has, or else those of its text. -/
def embeddingsOf (embedder : Embedder) (table : Text) (existing : List RowVector)
    (row : RowId) (text : Text) : Except Error (List (List UInt32)) :=
  let kept := (existing.filter fun vector => vector.row = row).map RowVector.embedding
  if kept.isEmpty then
    (embedder.embedPassage text).mapError (.backend "embed the text of" table)
  else .ok kept

/-- The vectors of one row, its chunks counted from zero. -/
def chunksOf (row : RowId) (embeddings : List (List UInt32)) : List RowVector :=
  embeddings.zipIdx.map fun entry => ⟨row, saturate32 entry.2, entry.1⟩

/-- The vectors of every row, in the order of the rows. -/
def rebuild (embedder : Embedder) (table : Text) (existing : List RowVector) :
    List (RowId × Text) → Except Error (List RowVector)
  | [] => .ok []
  | (row, text) :: present => do
    let embeddings ← embeddingsOf embedder table existing row text
    match embeddings.find? fun embedding => embedding.length ≠ VECTOR_WIDTH with
    | some embedding => .error (.backend "embed the text of" table (wrongWidth embedding.length))
    | none => do
      let rest ← rebuild embedder table existing present
      pure (chunksOf row embeddings ++ rest)

/-- Vectors as the rows of a companion table. -/
def vectorBatch (vectors : List RowVector) : Batch :=
  ⟨vectorSchema, vectors.map fun v => [.uint64 v.row, .uint32 v.chunk, .vector v.embedding]⟩

/-- Bring a column's vectors back into agreement with its text. -/
def reconcile (table column : Text) : StoreM PUnit :=
  match h.embedder with
  | none => throw (.backend "embed the auto-embedding column of" table NO_EMBEDDER)
  | some embedder => do
    let companion := vectorTable table column
    let existing ← h.existingVectors W table column
    let d ← h.open W table
    ask W "project the embedding column of" table (h.call table (.project [column])) (some d)
    ask W "start a scan of the table" table (h.call table .stream) (some d)
    ask W "read the table" table (h.call table .read) (some d)
    let present ← ofExcept (presentTexts table column d)
    if (present.map Prod.fst).toFinset = (existing.map RowVector.row).toFinset then pure ⟨⟩
    else do
      let vectors ← ofExcept (rebuild embedder table existing present)
      let batch := vectorBatch vectors
      let before ← h.found W companion
      -- this write is given no session
      ask W "write the vectors of" table { h.call companion (.overwrite batch) with session := none }
        before
      h.commit W companion ((before.getD (.create batch.schema)).overwrite W.format batch)

/-- The columns of a table that embed themselves. -/
def embeddingColumns (table : Text) : StoreM (List Text) := do
  let d ← h.open W table
  pure d.schema.autoEmbeddingColumns

def reconcileEach (table : Text) : List Text → StoreM PUnit
  | [] => pure ⟨⟩
  | column :: columns => do
    h.reconcile W table column
    reconcileEach table columns

/-- Reconcile every auto-embedding column of a table. -/
def reconcileAll (table : Text) : StoreM PUnit := do
  let columns ← h.embeddingColumns W table
  h.reconcileEach W table columns

/-! ## Writing -/

/-- Declare a table. -/
def createTable (table : Text) (definition : TableDefinition) : StoreM PUnit := do
  h.requireScope W .schema table
  h.requireWriteRole "create the table" table
  let encoded := definition.compression.appliedTo definition.schema
  let before ← h.found W table
  ask W "create the table" table (h.call table (.create encoded)) before
  match before with
  | some _ => throw (.backend "create the table" table ALREADY_EXISTS)
  | none => do
    h.commit W table (.create encoded)
    h.record W (.createTable table) 0

/-- The rows of an append, committed.  A table that is not there is created with the batch's
schema. -/
def appendRows (table : Text) (batch : Batch) : StoreM Nat := do
  h.requireScope W .write table
  h.requireWriteRole "append to" table
  let before ← h.found W table
  ask W "append to the table" table (h.call table (.append batch)) before
  h.commit W table ((before.getD (.create batch.schema)).add W.format batch.rows)
  pure batch.rows.length

/-- Append a batch to a table. -/
def append (table : Text) (batch : Batch) : StoreM PUnit := do
  let appended ← h.appendRows W table batch
  h.record W (.append table) (count64 appended)
  h.reconcileAll W table

/-- Whether the format takes every assignment. -/
def askEach (table : Text) (d : Dataset) : List (Text × Text) → StoreM PUnit
  | [] => pure ⟨⟩
  | (column, value) :: assignments => do
    ask W "apply an assignment to" table (h.call table (.set column value)) (some d)
    askEach table d assignments

/-- The rows of an update, committed. -/
def updateRows (table predicate : Text) (assignments : List (Text × Text)) : StoreM Nat := do
  h.requireScope W .write table
  h.requireWriteRole "update" table
  if assignments = [] then throw (.storage (.nothingToSet table))
  else do
    let d ← h.open W table
    ask W "apply the predicate to" table (h.call table (.filter predicate)) (some d)
    h.askEach W table d assignments
    ask W "plan the update of" table (h.call table .planUpdate) (some d)
    ask W "update" table (h.call table (.update predicate assignments)) (some d)
    h.commit W table (d.update W.format (W.format.selects predicate d)
      (W.format.assigned assignments d))
    pure (d.rows.filter (W.format.selects predicate d)).length

/-- Set columns on every row matching a predicate. -/
def update (table predicate : Text) (assignments : List (Text × Text)) : StoreM UInt64 := do
  let updated ← h.updateRows W table predicate assignments
  h.record W (.update table predicate (assignments.map Prod.fst)) (count64 updated)
  h.reconcileAll W table
  pure (count64 updated)

/-- The rows of a delete, committed. -/
def deleteRows (table predicate : Text) : StoreM Nat := do
  h.requireScope W .write table
  h.requireWriteRole "delete from" table
  let d ← h.open W table
  ask W "count the rows to delete from" table (h.call table (.count (some predicate))) (some d)
  ask W "delete from" table (h.call table (.delete predicate)) (some d)
  h.commit W table (d.delete (W.format.selects predicate d))
  pure (d.rows.filter (W.format.selects predicate d)).length

/-- Remove every row matching a predicate. -/
def delete (table predicate : Text) : StoreM UInt64 := do
  let deleted ← h.deleteRows W table predicate
  h.record W (.delete table predicate) (count64 deleted)
  h.reconcileAll W table
  pure (count64 deleted)

/-- Remove a whole table: its directory, and what is in it. -/
def dropTable (table : Text) : StoreM PUnit := do
  h.requireScope W .schema table
  h.requireWriteRole "drop the table" table
  h.record W (.dropTable table) 0
  let before ← h.found W table
  ask W "drop the table" table (h.call table .removeDirectory) before
  modify fun disk => { disk with datasets := fun path =>
    if (h.place W table).isPrefixOf path then none else disk.datasets path }

end LanceStore

/-! ## Every operation that takes a table's name -/

inductive Op where
  | createTable (table : Text) (definition : TableDefinition)
  | append (table : Text) (batch : Batch)
  | update (table predicate : Text) (assignments : List (Text × Text))
  | delete (table predicate : Text)
  | dropTable (table : Text)
  | scan (table : Text)
  | scanOrdered (table predicate by' : Text) (order : Order)
  | scanOrderedMeasured (table predicate by' : Text) (order : Order)
  | rowIds (table predicate : Text)
  | rowIdsMeasured (table predicate : Text)
  | rowIdsAll (table : Text) (matching : List Text)
  | rowIdsAny (table : Text) (matching : List Text)
  | filteredSearch (table : Text) (filter : List Text)
      (source : Finset RowId → Nat → Except Error (List RowId)) (limit : Nat)
  | vectorsOf (table column : Text)
  | nearest (table column : Text) (query : List UInt32) (limit : Nat)
  | searchText (table column query : Text) (limit : Nat)
  | hybridSearch (table column text : Text) (vector : List UInt32) (limit : Nat)
  | createIndex (table column : Text)
  | createVectorIndex (table column : Text) (kind : VectorIndexKind)
  | createTextIndex (table column : Text) (language : StemmingLanguage)
  | vectorIndexKind (table column : Text)
  | nearestUsesTheIndex (table column : Text) (query : List UInt32) (limit : Nat)

/-- What an operation returns. -/
inductive Answer where
  | done
  | rows (n : UInt64)
  | batches (l : List Batch)
  | measuredBatches (b : List Batch × Nat)
  | ids (l : List RowId)
  | measuredIds (l : List RowId × Nat)
  | set (s : Finset RowId)
  | vectors (l : List RowVector)
  | fused (f : Fused)
  | kind (k : Option VectorIndexKind)
  | flag (b : Bool)

/-- An operation on a handle. -/
def LanceStore.perform (W : World) (h : LanceStore) : Op → StoreM Answer
  | .createTable table definition => do
    h.createTable W table definition
    pure .done
  | .append table batch => do
    h.append W table batch
    pure .done
  | .update table predicate assignments => .rows <$> h.update W table predicate assignments
  | .delete table predicate => .rows <$> h.delete W table predicate
  | .dropTable table => do
    h.dropTable W table
    pure .done
  | .scan table => .batches <$> h.scan W table
  | .scanOrdered table predicate by' order => .batches <$> h.scanOrdered W table predicate by' order
  | .scanOrderedMeasured table predicate by' order =>
    .measuredBatches <$> h.scanOrderedMeasured W table predicate by' order
  | .rowIds table predicate => .ids <$> h.rowIds W table predicate
  | .rowIdsMeasured table predicate => .measuredIds <$> h.rowIdsMeasured W table predicate
  | .rowIdsAll table matching => .set <$> h.rowIdsAll W table matching
  | .rowIdsAny table matching => .set <$> h.rowIdsAny W table matching
  | .filteredSearch table filter source limit =>
    .ids <$> h.filteredSearch W table filter source limit
  | .vectorsOf table column => .vectors <$> h.vectorsOf W table column
  | .nearest table column query limit => .vectors <$> h.nearest W table column query limit
  | .searchText table column query limit => .ids <$> h.searchText W table column query limit
  | .hybridSearch table column text vector limit =>
    .fused <$> h.hybridSearch W table column text vector limit
  | .createIndex table column => do
    h.createIndex W table column
    pure .done
  | .createVectorIndex table column kind => do
    h.createVectorIndex W table column kind
    pure .done
  | .createTextIndex table column language => do
    h.createTextIndex W table column language
    pure .done
  | .vectorIndexKind table column => .kind <$> h.vectorIndexKind W table column
  | .nearestUsesTheIndex table column query limit =>
    .flag <$> h.nearestUsesTheIndex W table column query limit

end EuleDB.Store
