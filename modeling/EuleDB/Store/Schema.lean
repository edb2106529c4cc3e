import Mathlib.Data.List.Basic
import EuleDB.Crypto.Platform

/-!
# Declared shapes and stored values

A `Schema` is a list of fields with their metadata, and metadata of its own.  Two kinds of a field's
metadata matter: the key that declares a column to embed itself, and the two keys that carry a
table's compression.

* `autoEmbeddingColumns_appliedTo`, `autoEmbeddingColumns_strippedFrom` — compression neither adds
  nor removes an auto-embedding column.
-/

set_option autoImplicit false

namespace EuleDB.Store

open Crypto

/-- A row's identity.  The format hands out 64-bit numbers and never runs out of them here. -/
abbrev RowId := Nat

/-- Components of every embedding vector. -/
def VECTOR_WIDTH : Nat := 384

inductive DataType where
  | uint64
  | uint32
  | utf8
  | fixedSizeList (float32 : Bool) (width : Nat)
  | other (name : Text)
  deriving DecidableEq

/-! ## Metadata -/

/-- A field's metadata, one value a key. -/
abbrev Metadata := List (Text × Text)

namespace Metadata

def containsKey (m : Metadata) (key : Text) : Bool := m.any fun entry => entry.1 = key

def remove (m : Metadata) (key : Text) : Metadata := m.filter fun entry => entry.1 ≠ key

/-- `m` with the entries of `added`, which replace those it has for their keys. -/
def extend (m added : Metadata) : Metadata :=
  (m.filter fun entry => !containsKey added entry.1) ++ added

/-- Entries that are left out by their key take no other key with them. -/
theorem containsKey_filter (m : Metadata) {key : Text} {keep : Text → Bool} (h : keep key) :
    containsKey (m.filter fun entry => keep entry.1) key = m.containsKey key := by
  unfold containsKey
  induction m with
  | nil => rfl
  | cons entry m ih =>
    by_cases hentry : keep entry.1
    · rw [List.filter_cons_of_pos (by simpa using hentry), List.any_cons, List.any_cons, ih]
    · have hother : entry.1 ≠ key := by
        intro heq
        rw [heq] at hentry
        exact hentry h
      rw [List.filter_cons_of_neg (by simpa using hentry), ih, List.any_cons,
        decide_eq_false hother, Bool.false_or]

theorem containsKey_remove_of_ne (m : Metadata) {key removed : Text} (h : key ≠ removed) :
    (m.remove removed).containsKey key = m.containsKey key :=
  @containsKey_filter m key (fun name => name ≠ removed) (by simpa using h)

theorem containsKey_extend_of_not (m : Metadata) {added : Metadata} {key : Text}
    (h : added.containsKey key = false) :
    (m.extend added).containsKey key = m.containsKey key := by
  have hkept := @containsKey_filter m key (fun name => !added.containsKey name) (by rw [h]; rfl)
  unfold extend
  rw [← hkept]
  unfold containsKey at h ⊢
  rw [List.any_append, h, Bool.or_false]

end Metadata

/-! ## Schemas -/

structure Field where
  name : Text
  dataType : DataType
  nullable : Bool
  metadata : Metadata
  deriving DecidableEq

structure Schema where
  fields : List Field
  metadata : Metadata
  deriving DecidableEq

/-- The metadata key that declares a column to embed itself. -/
def AUTO_EMBEDDING_KEY : Text := "euledb:auto-embedding".toList

/-- The same schema with `column` declared to embed itself. -/
def Schema.autoEmbedding (s : Schema) (column : Text) : Schema :=
  ⟨s.fields.map fun field =>
    if field.name ≠ column then field
    else { field with
      metadata := field.metadata.extend [(AUTO_EMBEDDING_KEY, "true".toList)] }, s.metadata⟩

/-- The columns that embed themselves. -/
def Schema.autoEmbeddingColumns (s : Schema) : List Text :=
  (s.fields.filter fun field => field.metadata.containsKey AUTO_EMBEDDING_KEY).map Field.name

/-- The first column of this name: where it stands, and its field. -/
def Schema.columnWithName (s : Schema) (name : Text) : Option (Nat × Field) := do
  let i ← s.fields.findIdx? fun field => field.name = name
  let field ← s.fields[i]?
  pure (i, field)

/-- Why a batch is not the declared table. -/
inductive SchemaMismatch where
  | missingColumn (column : Text)
  | undeclaredColumn (column : Text)
  | typeMismatch (column : Text) (declared present : DataType)
  | nullabilityMismatch (column : Text) (declaredNullable : Bool)
  deriving DecidableEq

/-! ## Compression -/

/-- A zstd level, 1 to 22. -/
structure ZstdLevel where
  get : Nat
  bounds : 1 ≤ get ∧ get ≤ 22
  deriving DecidableEq

/-- The cheapest level zstd defines. -/
def ZstdLevel.FASTEST : ZstdLevel := ⟨1, by decide⟩

/-- The highest level zstd defines. -/
def ZstdLevel.SMALLEST : ZstdLevel := ⟨22, by decide⟩

/-- A level outside the range zstd defines. -/
structure InvalidZstdLevel where
  given : UInt8
  deriving DecidableEq

/-- Build a level, rejecting anything outside the range zstd defines. -/
def ZstdLevel.new (level : UInt8) : Except InvalidZstdLevel ZstdLevel :=
  if h : FASTEST.get ≤ level.toNat ∧ level.toNat ≤ SMALLEST.get then .ok ⟨level.toNat, h⟩
  else .error ⟨level⟩

/-- What is built is the level that was asked for, and no level cannot be built. -/
theorem ZstdLevel.new_ok {level : UInt8} {built : ZstdLevel} :
    ZstdLevel.new level = .ok built ↔ built.get = level.toNat := by
  unfold ZstdLevel.new
  constructor
  · intro h
    split_ifs at h
    cases h
    rfl
  · intro h
    have hbounds : FASTEST.get ≤ level.toNat ∧ level.toNat ≤ SMALLEST.get := h ▸ built.bounds
    rw [dif_pos hbounds]
    cases built
    cases h
    rfl

def ZstdLevel.DEFAULT : ZstdLevel := .FASTEST

inductive Compression where
  | zstd (level : ZstdLevel)
  | none
  deriving DecidableEq

def Compression.default : Compression := .zstd .DEFAULT

def COMPRESSION_KEY : Text := "lance-encoding:compression".toList

def LEVEL_KEY : Text := "lance-encoding:compression-level".toList

namespace Compression

def metadata : Compression → Metadata
  | .zstd level => [(COMPRESSION_KEY, "zstd".toList), (LEVEL_KEY, Nat.toDigits 10 level.get)]
  | .none => [(COMPRESSION_KEY, "none".toList)]

/-- A schema that carries this compression on every field. -/
def appliedTo (c : Compression) (s : Schema) : Schema :=
  ⟨s.fields.map fun field => { field with metadata := field.metadata.extend c.metadata },
    s.metadata⟩

/-- A schema without the compression keys. -/
def strippedFrom (s : Schema) : Schema :=
  ⟨s.fields.map fun field =>
    { field with metadata := (field.metadata.remove COMPRESSION_KEY).remove LEVEL_KEY },
    s.metadata⟩

end Compression

theorem autoEmbeddingColumns_map {s : Schema} {metadata : Metadata} {change : Field → Field}
    (hname : ∀ field, (change field).name = field.name)
    (hkey : ∀ field, (change field).metadata.containsKey AUTO_EMBEDDING_KEY =
      field.metadata.containsKey AUTO_EMBEDDING_KEY) :
    (Schema.mk (s.fields.map change) metadata).autoEmbeddingColumns =
      s.autoEmbeddingColumns := by
  unfold Schema.autoEmbeddingColumns
  rw [List.filter_map, List.map_map]
  have hsame : ((fun field : Field => field.metadata.containsKey AUTO_EMBEDDING_KEY) ∘ change) =
      fun field => field.metadata.containsKey AUTO_EMBEDDING_KEY := by
    funext field
    exact hkey field
  rw [hsame]
  refine List.map_congr_left fun field _ => ?_
  exact hname field

@[simp] theorem autoEmbeddingColumns_appliedTo (c : Compression) (s : Schema) :
    (c.appliedTo s).autoEmbeddingColumns = s.autoEmbeddingColumns := by
  refine autoEmbeddingColumns_map (fun _ => rfl) fun field => ?_
  refine Metadata.containsKey_extend_of_not _ ?_
  cases c <;> rfl

@[simp] theorem autoEmbeddingColumns_strippedFrom (s : Schema) :
    (Compression.strippedFrom s).autoEmbeddingColumns = s.autoEmbeddingColumns := by
  refine autoEmbeddingColumns_map (fun _ => rfl) fun field => ?_
  rw [Metadata.containsKey_remove_of_ne _ (by decide),
    Metadata.containsKey_remove_of_ne _ (by decide)]

/-- Everything a table needs at creation time. -/
structure TableDefinition where
  schema : Schema
  compression : Compression
  deriving DecidableEq

/-- A table with this schema, compressed as a table is. -/
def TableDefinition.new (schema : Schema) : TableDefinition := ⟨schema, .default⟩

/-! ## Rows -/

inductive Value where
  | null
  | uint64 (n : Nat)
  | uint32 (n : Nat)
  | utf8 (text : Text)
  | vector (components : List UInt32)
  | other (bytes : Bytes)
  deriving DecidableEq

/-- What the slot of a number column holds; a null's holds zero. -/
def Value.number : Value → Nat
  | uint64 n | uint32 n => n
  | _ => 0

/-- What the slot of a text column holds; a null's is empty. -/
def Value.text : Value → Text
  | utf8 text => text
  | _ => []

/-- What the slot of a vector column holds; a null's is all zeros. -/
def Value.components (width : Nat) : Value → List UInt32
  | vector components => components
  | _ => List.replicate width 0

/-- One row: its identity and a value for each field. -/
structure Row where
  id : RowId
  values : List Value
  deriving DecidableEq

def Row.value (r : Row) (i : Nat) : Value := r.values.getD i .null

/-- Rows on their way in or out, without identities. -/
structure Batch where
  schema : Schema
  rows : List (List Value)
  deriving DecidableEq

/-- How many rows some batches hold. -/
def rowCount (batches : List Batch) : Nat := (batches.map fun batch => batch.rows.length).sum

end EuleDB.Store
