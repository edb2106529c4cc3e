import EuleDB.Store.Errors

/-!
# The declared shape and the write path

A batch is checked against a declaration by name: every declared column is there with its type and
is no looser about nulls, and no other column is there.

* `validate_ok_iff` — the check accepts exactly the batches that conform.
* `validate_error` — what it reports names a column of the declaration or of the batch.
* `append_raises` — the write path never reports a mismatch.
* `insert_ungated` — so no declaration gates an insert.
-/

set_option autoImplicit false

namespace EuleDB.Store

open Crypto Audit Effect

/-! ## The check -/

namespace TableSchema

/-- The declared columns, one after the other. -/
def validateDeclared (present : Schema) : List Field → Except Error Unit
  | [] => .ok ⟨⟩
  | declared :: rest =>
    match present.columnWithName declared.name with
    | none => .error (.schema (.missingColumn declared.name))
    | some (_, found) =>
      if found.dataType ≠ declared.dataType then
        .error (.schema (.typeMismatch declared.name declared.dataType found.dataType))
      else if found.nullable && !declared.nullable then
        .error (.schema (.nullabilityMismatch declared.name false))
      else validateDeclared present rest

/-- The columns that are present, one after the other. -/
def validatePresent (declared : Schema) : List Field → Except Error Unit
  | [] => .ok ⟨⟩
  | field :: rest =>
    match declared.columnWithName field.name with
    | none => .error (.schema (.undeclaredColumn field.name))
    | some _ => validatePresent declared rest

/-- Check a batch against the declaration. -/
def validate (declared : Schema) (batch : Batch) : Except Error Unit := do
  validateDeclared batch.schema declared.fields
  validatePresent declared batch.schema.fields

end TableSchema

open TableSchema

/-- A declared column is there, with its type and no looser about nulls. -/
def Holds (present : Schema) (declared : Field) : Prop :=
  ∃ i found, present.columnWithName declared.name = some (i, found) ∧
    found.dataType = declared.dataType ∧ (found.nullable → declared.nullable)

/-- The columns are the declared ones, matched by name. -/
structure Conforms (declared present : Schema) : Prop where
  holds : ∀ field ∈ declared.fields, Holds present field
  known : ∀ field ∈ present.fields, (declared.columnWithName field.name).isSome

/-- The column a mismatch is about. -/
def SchemaMismatch.column : SchemaMismatch → Text
  | .missingColumn column | .undeclaredColumn column | .typeMismatch column _ _
  | .nullabilityMismatch column _ => column

theorem validateDeclared_ok_iff {present : Schema} {fields : List Field} :
    validateDeclared present fields = .ok ⟨⟩ ↔ ∀ field ∈ fields, Holds present field := by
  induction fields with
  | nil => simp [validateDeclared]
  | cons declared rest ih =>
    rw [validateDeclared, List.forall_mem_cons, ← ih]
    unfold Holds
    cases hcolumn : present.columnWithName declared.name with
    | none => simp
    | some entry =>
      obtain ⟨i, found⟩ := entry
      dsimp only
      split_ifs with htype hnull
      · simp [htype]
      · simp only [Bool.and_eq_true, Bool.not_eq_true'] at hnull
        simp [hnull]
      · simp only [Bool.and_eq_true, Bool.not_eq_true', not_and, Bool.not_eq_false] at hnull
        simp only [ne_eq, not_not] at htype
        refine ⟨fun hrest => ⟨⟨i, found, rfl, htype, hnull⟩, hrest⟩, fun h => h.2⟩

theorem validatePresent_ok_iff {declared : Schema} {fields : List Field} :
    validatePresent declared fields = .ok ⟨⟩ ↔
      ∀ field ∈ fields, (declared.columnWithName field.name).isSome := by
  induction fields with
  | nil => simp [validatePresent]
  | cons field rest ih =>
    rw [validatePresent, List.forall_mem_cons, ← ih]
    cases declared.columnWithName field.name <;> simp

/-- **The check** accepts exactly the batches that conform. -/
theorem validate_ok_iff {declared : Schema} {batch : Batch} :
    validate declared batch = .ok ⟨⟩ ↔ Conforms declared batch.schema := by
  unfold validate
  cases hdeclared : validateDeclared batch.schema declared.fields with
  | error e =>
    refine iff_of_false (by rintro ⟨⟩) fun hconforms => ?_
    rw [validateDeclared_ok_iff.2 hconforms.holds] at hdeclared
    cases hdeclared
  | ok u =>
    show validatePresent declared batch.schema.fields = .ok ⟨⟩ ↔ _
    rw [validatePresent_ok_iff]
    exact ⟨fun hknown => ⟨validateDeclared_ok_iff.1 hdeclared, hknown⟩, Conforms.known⟩

theorem validateDeclared_error {present : Schema} {fields : List Field} {e : Error}
    (herror : validateDeclared present fields = .error e) :
    ∃ mismatch, e = .schema mismatch ∧ mismatch.column ∈ fields.map Field.name := by
  induction fields with
  | nil => cases herror
  | cons declared rest ih =>
    rw [validateDeclared] at herror
    split at herror
    · cases herror
      exact ⟨_, rfl, List.mem_cons_self⟩
    · split_ifs at herror
      · cases herror
        exact ⟨_, rfl, List.mem_cons_self⟩
      · cases herror
        exact ⟨_, rfl, List.mem_cons_self⟩
      · obtain ⟨mismatch, he, hmem⟩ := ih herror
        exact ⟨mismatch, he, List.mem_cons_of_mem _ hmem⟩

theorem validatePresent_error {declared : Schema} {fields : List Field} {e : Error}
    (herror : validatePresent declared fields = .error e) :
    ∃ mismatch, e = .schema mismatch ∧ mismatch.column ∈ fields.map Field.name := by
  induction fields with
  | nil => cases herror
  | cons field rest ih =>
    rw [validatePresent] at herror
    split at herror
    · cases herror
      exact ⟨_, rfl, List.mem_cons_self⟩
    · obtain ⟨mismatch, he, hmem⟩ := ih herror
      exact ⟨mismatch, he, List.mem_cons_of_mem _ hmem⟩

/-- What the check reports is a mismatch, of a column that is declared or present. -/
theorem validate_error {declared : Schema} {batch : Batch} {e : Error}
    (herror : validate declared batch = .error e) :
    ∃ mismatch, e = .schema mismatch ∧
      mismatch.column ∈ (declared.fields ++ batch.schema.fields).map Field.name := by
  rw [List.map_append]
  unfold validate at herror
  cases hdeclared : validateDeclared batch.schema declared.fields with
  | error e' =>
    rw [hdeclared] at herror
    cases herror
    obtain ⟨mismatch, he, hmem⟩ := validateDeclared_error hdeclared
    exact ⟨mismatch, he, List.mem_append_left _ hmem⟩
  | ok u =>
    rw [hdeclared] at herror
    obtain ⟨mismatch, he, hmem⟩ := validatePresent_error herror
    exact ⟨mismatch, he, List.mem_append_right _ hmem⟩

/-! ## The published handle -/

/-- A store, with the compression it gives to the tables it creates. -/
structure Database where
  store : LanceStore
  compression : Compression

namespace Database

variable (W : World) (db : Database)

/-- Declare a table. -/
def createTable (table : Text) (schema : Schema) : StoreM PUnit :=
  db.store.createTable W table ⟨schema, db.compression⟩

/-- Append rows to a table. -/
def insert (table : Text) (rows : Batch) : StoreM PUnit := db.store.append W table rows

end Database

/-! ## The write path -/

/-- Any error but a mismatch. -/
def NoMismatch (e : Error) : Prop := ∀ mismatch, e ≠ .schema mismatch

theorem noMismatch : Covers NoMismatch where
  backend := by
    rintro operation table cause mismatch ⟨⟩
  audit := by
    rintro e mismatch ⟨⟩

section WritePath

variable {W : World} {h : LanceStore}

theorem requireScope_noMismatch (scope : Scope) (table : Text) :
    Raises NoMismatch (h.requireScope W scope table) := by
  unfold LanceStore.requireScope
  split
  · exact Raises.pure _
  · exact Raises.throw (by rintro mismatch ⟨⟩)

theorem requireWriteRole_noMismatch (operation : String) (table : Text) :
    Raises NoMismatch (h.requireWriteRole operation table) := by
  unfold LanceStore.requireWriteRole
  split
  · exact Raises.pure _
  · exact Raises.throw (by rintro mismatch ⟨⟩)

/-- **The write path** never reports a mismatch. -/
theorem append_raises (table : Text) (batch : Batch) :
    Raises NoMismatch (h.append W table batch) := by
  have hrows : Raises NoMismatch (h.appendRows W table batch) := by
    refine (requireScope_noMismatch _ _).bind fun _ => ?_
    refine (requireWriteRole_noMismatch _ _).bind fun _ => (Covers.found _).bind fun before => ?_
    refine (noMismatch.ask _ _ _ _).bind fun _ => (Covers.commit _ _).bind fun _ => ?_
    exact Raises.pure _
  refine hrows.bind fun appended => (noMismatch.record _ _).bind fun _ => ?_
  exact noMismatch.reconcileAll (requireScope_noMismatch _ _)

end WritePath

/-- A write reports the mismatch of its batch with a declaration, and stores nothing. -/
def Gated (declared : Schema) (batch : Batch) (write : StoreM PUnit) (disk : Disk) : Prop :=
  ∀ mismatch, validate declared batch = .error (.schema mismatch) →
    ∃ disk', write.run disk = .error (.schema mismatch) disk' ∧ disk'.datasets = disk.datasets

/-- **No declaration gates an insert**: whatever the table, the handle and what is below it, a
batch that is not the declared table is not refused for it. -/
theorem insert_ungated {declared : Schema} {batch : Batch} {mismatch : SchemaMismatch}
    (hmismatch : validate declared batch = .error (.schema mismatch)) (W : World) (db : Database)
    (table : Text) (disk : Disk) :
    ¬ Gated declared batch (db.store.append W table batch) disk ∧
      ¬ Gated declared batch (db.insert W table batch) disk := by
  have happend : ¬ Gated declared batch (db.store.append W table batch) disk := by
    intro hgated
    obtain ⟨disk', hrun, -⟩ := hgated mismatch hmismatch
    exact append_raises table batch _ _ _ hrun mismatch rfl
  exact ⟨happend, happend⟩

/-! ## A looser batch -/

/-- A column of numbers, with or without nulls. -/
def idSchema (nullable : Bool) : Schema := ⟨[⟨"id".toList, .uint64, nullable, []⟩], []⟩

/-- One row that permits null in its column. -/
def looserBatch : Batch := ⟨idSchema true, [[.uint64 4218]]⟩

/-- A database in `db`. -/
def plainDatabase : Database := ⟨.openForWriting "db".toList, .none⟩

theorem looser_mismatch : validate (idSchema false) looserBatch =
    .error (.schema (.nullabilityMismatch "id".toList false)) := by decide

/-- Nor where the append would create the table. -/
theorem looser_ungated :
    ¬ Gated (idSchema false) looserBatch
        (plainDatabase.store.append .plain "docs".toList looserBatch) Disk.empty ∧
      ¬ Gated (idSchema false) looserBatch
        (plainDatabase.insert .plain "docs".toList looserBatch) Disk.empty :=
  insert_ungated looser_mismatch .plain plainDatabase "docs".toList Disk.empty

set_option maxRecDepth 8000 in
/-- A batch that permits null in a column declared without it is stored. -/
theorem looser_batch_is_stored : ∃ created written : Disk,
    (plainDatabase.createTable .plain "docs".toList (idSchema false)).run Disk.empty =
      .ok ⟨⟩ created ∧
    (plainDatabase.insert .plain "docs".toList looserBatch).run created = .ok ⟨⟩ written ∧
    (written.datasets (plainDatabase.store.place .plain "docs".toList)).map Dataset.rows =
      some [⟨0, [.uint64 4218]⟩] ∧
    ¬ Gated (idSchema false) looserBatch (plainDatabase.insert .plain "docs".toList looserBatch)
      created := by
  refine ⟨_, _, rfl, rfl, rfl, fun hgated => ?_⟩
  obtain ⟨disk', hrun, -⟩ := hgated _ looser_mismatch
  cases hrun

end EuleDB.Store
