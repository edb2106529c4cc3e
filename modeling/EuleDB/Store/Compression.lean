import EuleDB.Store.Writes

/-!
# Compression keys on a caller's schema

A table's compression travels as two metadata keys of every field.  They are attached when the
table is created and taken off again by every read, whoever wrote them.

* `Compression.strippedFrom_appliedTo` — what is left does not depend on the compression.
* `schema_round_trip_iff` — it is the caller's schema exactly where no field carries either key.
* `LanceStore.createTable_schema`, `LanceStore.scan_fields` — which schema a table is created with,
  and which fields the batches of a scan carry.
* `LanceStore.scan_declared_fields` — the declared ones, where none of them carries either key.
-/

set_option autoImplicit false

namespace EuleDB.Store

open Crypto Audit Effect

/-! ## Attaching and stripping -/

/-- The keys are not among the caller's own. -/
def Metadata.Undecorated (m : Metadata) : Prop :=
  m.containsKey COMPRESSION_KEY = false ∧ m.containsKey LEVEL_KEY = false

/-- No field carries either key. -/
def Schema.Undecorated (s : Schema) : Prop := ∀ field ∈ s.fields, field.metadata.Undecorated

instance (s : Schema) : Decidable s.Undecorated :=
  inferInstanceAs (Decidable (∀ field ∈ s.fields, _ ∧ _))

/-- Metadata without the keys. -/
def Metadata.stripped (m : Metadata) : Metadata := (m.remove COMPRESSION_KEY).remove LEVEL_KEY

/-- Only the two keys are attached. -/
theorem Compression.mem_metadata {c : Compression} {entry : Text × Text}
    (h : entry ∈ c.metadata) : entry.1 = COMPRESSION_KEY ∨ entry.1 = LEVEL_KEY := by
  have hkeys : ∀ key ∈ c.metadata.map Prod.fst, key = COMPRESSION_KEY ∨ key = LEVEL_KEY := by
    cases c <;> simp [Compression.metadata]
  exact hkeys _ (List.mem_map_of_mem h)

/-- What was attached is stripped, and the caller's entries fare as they would without it. -/
theorem Metadata.stripped_extend (c : Compression) (m : Metadata) :
    (m.extend c.metadata).stripped = m.stripped := by
  have hadded : (c.metadata : Metadata).stripped = [] := by
    cases c <;> rfl
  have happend : ∀ a b : Metadata, Metadata.stripped (a ++ b) = a.stripped ++ b.stripped := by
    simp [Metadata.stripped, Metadata.remove]
  unfold Metadata.extend
  rw [happend, hadded, List.append_nil]
  simp only [Metadata.stripped, Metadata.remove, List.filter_filter]
  apply List.filter_congr
  intro entry _
  -- an entry that is left has neither key, so it is not one that was replaced
  by_cases hkey : entry.1 = COMPRESSION_KEY ∨ entry.1 = LEVEL_KEY
  · rcases hkey with hkey | hkey <;> simp [hkey]
  · simp only [not_or] at hkey
    have hkept : Metadata.containsKey c.metadata entry.1 = false := by
      simp only [Metadata.containsKey, List.any_eq_false, decide_eq_true_eq]
      intro other hother hsame
      have := Compression.mem_metadata hother
      rw [hsame] at this
      exact absurd this (by simp [hkey])
    simp [hkept, hkey]

theorem Metadata.stripped_eq_self_iff {m : Metadata} : m.stripped = m ↔ m.Undecorated := by
  simp only [Metadata.stripped, Metadata.remove, List.filter_filter, List.filter_eq_self,
    Metadata.Undecorated, Metadata.containsKey, List.any_eq_false, Bool.and_eq_true,
    decide_eq_true_eq]
  constructor
  · intro h
    exact ⟨fun entry hmem => (h entry hmem).2, fun entry hmem => (h entry hmem).1⟩
  · rintro ⟨hcompression, hlevel⟩ entry hmem
    exact ⟨hlevel entry hmem, hcompression entry hmem⟩

theorem Compression.strippedFrom_eq (s : Schema) : strippedFrom s =
    ⟨s.fields.map fun field => { field with metadata := field.metadata.stripped }, s.metadata⟩ :=
  rfl

/-- **What is left** does not depend on the compression that was attached. -/
theorem Compression.strippedFrom_appliedTo (c : Compression) (s : Schema) :
    strippedFrom (c.appliedTo s) = strippedFrom s := by
  simp [strippedFrom_eq, appliedTo, Function.comp_def, Metadata.stripped_extend]

theorem Compression.strippedFrom_eq_self_iff {s : Schema} :
    strippedFrom s = s ↔ s.Undecorated := by
  obtain ⟨fields, metadata⟩ := s
  rw [strippedFrom_eq, Schema.Undecorated, Schema.mk.injEq, eq_self, and_true]
  conv_lhs => rhs; rw [← List.map_id fields]
  rw [List.map_inj_left]
  apply forall₂_congr
  intro field _
  obtain ⟨name, type, nullable, entries⟩ := field
  simp [Metadata.stripped_eq_self_iff]

/-- **A caller gets their own schema back** exactly where no field carries one of the two keys. -/
theorem schema_round_trip_iff (c : Compression) (s : Schema) :
    Compression.strippedFrom (c.appliedTo s) = s ↔ s.Undecorated := by
  rw [c.strippedFrom_appliedTo]
  exact Compression.strippedFrom_eq_self_iff

/-- One column of numbers, with metadata. -/
def taggedSchema (metadata : Metadata) : Schema :=
  ⟨[⟨"id".toList, .uint64, false, metadata⟩], [("owner".toList, "archive".toList)]⟩

/-- Metadata of another kind comes back. -/
example : Compression.strippedFrom (Compression.none.appliedTo
    (taggedSchema [("unit".toList, "km".toList)])) =
      taggedSchema [("unit".toList, "km".toList)] := by decide

/-- A caller who chose the format's own encoding for a column does not get the choice back. -/
theorem own_key_is_stripped : ¬ ∀ (c : Compression) (s : Schema),
    Compression.strippedFrom (c.appliedTo s) = s := by
  intro h
  have hsame := h .none (taggedSchema [(COMPRESSION_KEY, "lz4".toList)])
  exact absurd hsame (by decide)

/-! ## Creating and scanning -/

namespace LanceStore

variable {W : World} {h : LanceStore} {table : Text} {disk disk' : Disk}

/-- A table is created with the schema that carries its compression. -/
theorem createTable_schema {definition : TableDefinition}
    (hrun : (h.createTable W table definition).run disk = .ok ⟨⟩ disk') :
    disk'.datasets (h.place W table) =
      some (.create (definition.compression.appliedTo definition.schema)) := by
  unfold createTable at hrun
  obtain ⟨_, s1, -, h1⟩ := bind_ok.1 hrun
  obtain ⟨_, s2, -, h2⟩ := bind_ok.1 h1
  obtain ⟨before, s3, -, h3⟩ := bind_ok.1 h2
  obtain ⟨_, s4, -, h4⟩ := bind_ok.1 h3
  split at h4
  · cases h4
  · obtain ⟨_, s5, hcommit, h5⟩ := bind_ok.1 h4
    cases hcommit
    have hsame : disk'.datasets = _ := (h.record_datasets _ _).reaches _ _ _ h5
    simp [hsame]

/-- The batches of a scan carry the table's fields without the keys. -/
theorem scan_fields {d : Dataset} {batches : List Batch}
    (hd : disk.datasets (h.place W table) = some d)
    (hrun : (h.scan W table).run disk = .ok batches disk') {batch : Batch}
    (hbatch : batch ∈ batches) :
    batch.schema.fields = (Compression.strippedFrom d.schema).fields := by
  unfold scan at hrun
  obtain ⟨_, s1, hscope, h1⟩ := bind_ok.1 hrun
  obtain ⟨opened, s2, hopen, h2⟩ := bind_ok.1 h1
  obtain ⟨found, s3, hcollect, h3⟩ := bind_ok.1 h2
  obtain ⟨_, s4, -, h4⟩ := bind_ok.1 h3
  cases h4
  obtain ⟨-, rfl⟩ := requireScope_ok.1 hscope
  obtain ⟨hopens, rfl⟩ := open_ok.1 hopen
  obtain ⟨-, rfl, -⟩ := collect_ok.1 hcollect
  cases hd.symm.trans hopens.1
  exact W.format.collected_fields d d.rows hbatch

/-- **A scan hands back the declared fields**, whatever compression the table was created with and
whatever was done to its rows since, where none of them carries one of the two keys. -/
theorem scan_declared_fields {definition : TableDefinition} {created later : Disk} {d : Dataset}
    {batches : List Batch} (hplain : definition.schema.Undecorated)
    (hcreate : (h.createTable W table definition).run disk = .ok ⟨⟩ created)
    (hd : later.datasets (h.place W table) = some d)
    (hkept : (created.datasets (h.place W table)).map Dataset.schema = some d.schema)
    (hrun : (h.scan W table).run later = .ok batches disk') {batch : Batch}
    (hbatch : batch ∈ batches) : batch.schema.fields = definition.schema.fields := by
  rw [createTable_schema hcreate] at hkept
  have hschema : definition.compression.appliedTo definition.schema = d.schema :=
    Option.some.inj hkept
  rw [scan_fields hd hrun hbatch, ← hschema, Compression.strippedFrom_appliedTo,
    Compression.strippedFrom_eq_self_iff.2 hplain]

end LanceStore

end EuleDB.Store
