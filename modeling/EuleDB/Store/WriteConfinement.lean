import EuleDB.Store.Isolation
import EuleDB.Store.Readers

/-!
# What a gated handle can change

A handle that carries tokens changes data only where one of them lets it: the directory of a table
it may declare and drop, the table it may write to, and the vectors that go with either.

* `InReach` — the paths that the grants of a handle lead to.
* `perform_outOfReach` — one operation leaves every other path as it is, indexes included.
* `only_granted_tables_change` — a run through gated handles, in terms of the tokens that the
  authority granted.
-/

set_option autoImplicit false

namespace EuleDB.Store

open Crypto Audit Effect LanceStore

/-- A path where a table's vectors may be kept. -/
def CompanionAt (W : World) (h : LanceStore) (table : Text) (path : Path) : Prop :=
  ∃ column, h.place W (vectorTable table column) = path

/-- What holds the role and is permitted to write or declare a table can come to a path. -/
def InReach (W : World) (h : LanceStore) (path : Path) : Prop :=
  h.writeLock ∧ ∃ table,
    (h.permits W .write table ∧ (h.place W table = path ∨ CompanionAt W h table path)) ∨
      (h.permits W .schema table ∧
        ((h.place W table).isPrefixOf path ∨ CompanionAt W h table path))

section OutOfReach

variable {W : World} {h : LanceStore} {path : Path}

theorem place_isPrefixOf (table : Text) (hplace : h.place W table = path) :
    (h.place W table).isPrefixOf path := by
  rw [hplace]
  exact List.isPrefixOf_iff_prefix.2 List.prefix_rfl

/-- What an operation collides with is in reach of its handle. -/
theorem CollidesWrite.inReach {disk : Disk} {w : Write} (h' : CollidesWrite W h disk w path) :
    InReach W h path := by
  rcases h' with ⟨⟨d, hcommits⟩, hplace⟩ | ⟨d, hcommits, -, -, hwrites⟩
  · exact ⟨hcommits.2.1, w.table, .inl ⟨hcommits.1, .inl hplace⟩⟩
  · exact ⟨hcommits.2.1, w.table, .inl ⟨hcommits.1, .inr hwrites.column⟩⟩

/-- An index is built beside what is under a table's or a companion's place. -/
theorem index_outOfReach {table at' : Text} {operation : String} {f : Dataset → StoreM PUnit}
    (hplace : h.place W at' = h.place W table ∨ CompanionAt W h table (h.place W at'))
    (hf : ∀ d disk, (final ((f d).run disk)).datasets path = disk.datasets path ∨
      h.place W at' = path) (hout : ¬ InReach W h path) (disk : Disk) :
    (final ((h.requireScope W .schema table >>= fun _ => h.requireWriteRole operation table >>=
      fun _ => h.open W at' >>= f).run disk)).datasets path = disk.datasets path := by
  rcases (h.requireScope_keeps W .schema table).look_at with hsame | ⟨_, hscope, hrest⟩
  · rw [hsame]
  rw [hrest]
  rcases (h.requireWriteRole_keeps operation table).look_at with hsame | ⟨_, hrole, hrest⟩
  · rw [hsame]
  rw [hrest]
  rcases (h.open_keeps W at').look_at with hsame | ⟨d, -, hrest⟩
  · rw [hsame]
  rw [hrest]
  obtain ⟨hpermits, -⟩ := requireScope_ok.1 hscope
  obtain ⟨hlock, -⟩ := requireWriteRole_ok.1 hrole
  rcases hf d disk with hkept | hat
  · exact hkept
  · refine absurd ⟨hlock, table, .inr ⟨hpermits, ?_⟩⟩ hout
    rcases hplace with hown | hcompanion
    · exact .inl (place_isPrefixOf table (hown.symm.trans hat))
    · rw [hat] at hcompanion
      exact .inr hcompanion

/-- A commit is to one path. -/
theorem commit_elsewhere {at' : Text} {d : Dataset} {rest : StoreM PUnit}
    (hrest : Keeps SameData rest) (disk : Disk) :
    (final ((h.commit W at' d >>= fun _ => rest).run disk)).datasets path = disk.datasets path ∨
      h.place W at' = path := by
  by_cases hplace : h.place W at' = path
  · exact .inr hplace
  · have hkept := congrFun (hrest (disk.put (h.place W at') (some d))) path
    exact .inl (hkept.trans (disk.put_of_ne (some d) (Ne.symm hplace)))

theorem ask_then {operation : String} {about : Text} {call : Call} {d? : Option Dataset}
    {f : PUnit → StoreM PUnit} {P : Prop}
    (hf : ∀ disk, (final ((f ⟨⟩).run disk)).datasets path = disk.datasets path ∨ P) (disk : Disk) :
    (final ((ask W operation about call d? >>= f).run disk)).datasets path =
      disk.datasets path ∨ P := by
  rcases (ask_keeps W operation about call d?).look_at with hsame | ⟨_, -, hrest⟩
  · rw [hsame]
    exact .inl rfl
  · rw [hrest]
    exact hf disk

/-- **Out of reach** of its handle an operation leaves everything as it is. -/
theorem perform_outOfReach (hout : ¬ InReach W h path) (op : Op) (disk : Disk) :
    (final ((h.perform W op).run disk)).datasets path = disk.datasets path := by
  have hlook : ∀ {α : Type} {x : StoreM α} {g : α → Answer}, Keeps SameData x →
      (final ((g <$> x).run disk)).datasets path = disk.datasets path := by
    intro α x g hx
    exact congrFun (hx.map g disk) path
  have hkeeps : ∀ {α : Type} {x : StoreM α}, Keeps Unchanged x → Keeps SameData x := by
    intro α x hx disk
    rw [hx disk]
    exact Std.Refl.refl disk
  have hdone : ∀ {x : StoreM PUnit}, (final (x.run disk)).datasets path = disk.datasets path →
      (final ((x >>= fun _ => pure Answer.done).run disk)).datasets path = disk.datasets path := by
    intro x hx
    rw [EStateM.run_bind]
    cases hrun : x.run disk with
    | ok u disk' =>
      rw [hrun] at hx
      exact hx
    | error e disk' =>
      rw [hrun] at hx
      exact hx
  have hwrite : ∀ w : Write, (final ((h.perform W w.op).run disk)).datasets path =
      disk.datasets path := fun w => write_elsewhere fun hcollides => hout hcollides.inReach
  have hrecord : ∀ {table : Text} (entry : Operation) (rows : UInt64), entry.table = table →
      Keeps SameData (h.record W entry rows) := fun entry rows _ => h.record_sameData W entry rows
  cases op with
  | createTable table definition =>
    refine hdone ?_
    rcases createTable_datasets h table definition disk with hsame | ⟨hcreates, hcreated⟩
    · rw [hsame]
    · rw [hcreated]
      refine Function.update_of_ne ?_ _ _
      intro hplace
      exact hout ⟨hcreates.2.1, table,
        .inr ⟨hcreates.1, .inl (place_isPrefixOf table hplace.symm)⟩⟩
  | append table batch => exact hwrite (.append table batch)
  | update table predicate assignments => exact hwrite (.update table predicate assignments)
  | delete table predicate => exact hwrite (.delete table predicate)
  | dropTable table =>
    refine hdone ?_
    rcases dropTable_datasets h table disk path with hsame | ⟨hdrops, hprefix, -⟩
    · exact hsame
    · exact absurd ⟨hdrops.2.1, table, .inr ⟨hdrops.1, .inl hprefix⟩⟩ hout
  | scan table => exact hlook (scan_without hrecord)
  | scanOrdered table predicate by' order => exact hlook (hkeeps (h.scanOrdered_keeps W _ _ _ _))
  | scanOrderedMeasured table predicate by' order =>
    exact hlook (hkeeps (h.scanOrderedMeasured_keeps W _ _ _ _))
  | rowIds table predicate => exact hlook (hkeeps (h.rowIds_keeps W _ _))
  | rowIdsMeasured table predicate => exact hlook (hkeeps (h.rowIdsMeasured_keeps W _ _))
  | rowIdsAll table matching => exact hlook (hkeeps (h.rowIdsAll_keeps W _ _))
  | rowIdsAny table matching => exact hlook (hkeeps (h.rowIdsAny_keeps W _ _))
  | filteredSearch table filter source limit =>
    exact hlook (hkeeps (h.filteredSearch_keeps W _ _ _ _))
  | vectorsOf table column => exact hlook (hkeeps (h.vectorsOf_keeps W _ _))
  | nearest table column query limit => exact hlook (nearest_without hrecord _ _ _)
  | searchText table column query limit => exact hlook (searchText_without hrecord _ _ _)
  | hybridSearch table column text vector limit =>
    exact hlook (hybridSearch_without hrecord _ _ _ _)
  | createIndex table column =>
    refine hdone (index_outOfReach (.inl rfl) (fun d => ask_then fun disk => ?_) hout disk)
    exact commit_elsewhere (Keeps.pure ⟨⟩ : Keeps SameData (pure ⟨⟩ : StoreM PUnit)) disk
  | createVectorIndex table column kind =>
    refine hdone
      (index_outOfReach (.inr ⟨column, rfl⟩) (fun d => ask_then fun disk => ?_) hout disk)
    exact commit_elsewhere (h.record_sameData W _ _) disk
  | createTextIndex table column language =>
    refine hdone (index_outOfReach (.inl rfl)
      (fun d => ask_then fun disk => ask_then (fun disk => ?_) disk) hout disk)
    exact commit_elsewhere (h.record_sameData W _ _) disk
  | vectorIndexKind table column => exact hlook (hkeeps (h.vectorIndexKind_keeps W _ _))
  | nearestUsesTheIndex table column query limit =>
    exact hlook (hkeeps (h.nearestUsesTheIndex_keeps W _ _ _ _))

end OutOfReach

/-! ## Runs -/

variable {W : World}

theorem performEach_outOfReach {steps : List (LanceStore × Op)} {path : Path}
    (hout : ∀ step ∈ steps, ¬ InReach W step.1 path) (disk : Disk) :
    (performEach W steps disk).datasets path = disk.datasets path := by
  induction steps generalizing disk with
  | nil => rfl
  | cons step steps ih =>
    obtain ⟨h, op⟩ := step
    have hfirst := perform_outOfReach (hout (h, op) List.mem_cons_self) op disk
    exact (ih (fun step hstep => hout step (List.mem_cons_of_mem _ hstep)) _).trans hfirst

/-- **Only granted tables change**: where a run through handles that carry tokens of one authority
has changed anything, some handle with the write role came there by a token of its own, to write to
a table or to declare and drop it. -/
theorem only_granted_tables_change {k : Keyring} {granted : LanceStore → List Capability}
    {steps : List (LanceStore × Op)} (disk : Disk)
    (hgated : ∀ step ∈ steps, step.1.gate = some (.new W.platform k (granted step.1)))
    {path : Path} (hchanged : (performEach W steps disk).datasets path ≠ disk.datasets path) :
    ∃ step ∈ steps, step.1.writeLock ∧ ∃ table,
      (k.grant W.platform table .write ∈ granted step.1 ∧
          (step.1.place W table = path ∨ CompanionAt W step.1 table path)) ∨
        (k.grant W.platform table .schema ∈ granted step.1 ∧
          ((step.1.place W table).isPrefixOf path ∨ CompanionAt W step.1 table path)) := by
  by_contra hnone
  refine hchanged (performEach_outOfReach (fun step hstep hreach => hnone ?_) disk)
  have hpermits : ∀ scope table, step.1.permits W scope table →
      k.grant W.platform table scope ∈ granted step.1 := by
    intro scope table hpermits
    unfold LanceStore.permits at hpermits
    rw [hgated step hstep] at hpermits
    exact (Gate.permits_iff _ _ _ _).1 hpermits
  obtain ⟨hlock, table, ⟨hwrite, hplace⟩ | ⟨hschema, hplace⟩⟩ := hreach
  · exact ⟨step, hstep, hlock, table, .inl ⟨hpermits _ _ hwrite, hplace⟩⟩
  · exact ⟨step, hstep, hlock, table, .inr ⟨hpermits _ _ hschema, hplace⟩⟩

/-! ## Two tokens -/

/-- An authority that holds no data key yet. -/
def authority : Keyring :=
  ⟨∅, .FIRST, padTo KEY_LEN [1], padTo SALT_LEN [], padTo NONCE_LEN [], []⟩

/-- A handle that may write to one table. -/
def writerOf (table : Text) : LanceStore :=
  (LanceStore.openForWriting "db".toList).gated
    (.new .padding authority [authority.grant .padding table .write])

/-- What a handle was given. -/
def tokens (h : LanceStore) : List Capability := (h.gate.map Gate.granted).getD []

/-- Numbers for a table. -/
def numbers (n : Nat) : Batch := ⟨⟨[⟨"id".toList, .uint64, false, []⟩], []⟩, [[.uint64 n]]⟩

/-- Each of two handles fills the table it may write to, and then tries the other one. -/
def docsAndNotes : List (LanceStore × Op) :=
  [(writerOf "docs".toList, .append "docs".toList (numbers 7)),
    (writerOf "notes".toList, .append "notes".toList (numbers 8)),
    (writerOf "docs".toList, .append "notes".toList (numbers 9)),
    (writerOf "notes".toList, .append "docs".toList (numbers 10))]

set_option maxRecDepth 8000 in
/-- What stands in the one table came there by the token for it. -/
theorem docs_changed_by_its_token : ∃ step ∈ docsAndNotes, step.1.writeLock ∧ ∃ table,
    (authority.grant .padding table .write ∈ tokens step.1 ∧
        (step.1.place .plain table = placeIn .plain "db".toList "docs".toList ∨
          CompanionAt .plain step.1 table (placeIn .plain "db".toList "docs".toList))) ∨
      (authority.grant .padding table .schema ∈ tokens step.1 ∧
        ((step.1.place .plain table).isPrefixOf (placeIn .plain "db".toList "docs".toList) ∨
          CompanionAt .plain step.1 table (placeIn .plain "db".toList "docs".toList))) := by
  have hgated : ∀ step ∈ docsAndNotes,
      step.1.gate = some (.new World.plain.platform authority (tokens step.1)) := by
    intro step hstep
    simp only [docsAndNotes, List.mem_cons, List.not_mem_nil, or_false] at hstep
    rcases hstep with rfl | rfl | rfl | rfl <;> rfl
  refine only_granted_tables_change Disk.empty hgated fun hsame => ?_
  have hfilled : ((performEach .plain docsAndNotes Disk.empty).datasets
      (placeIn .plain "db".toList "docs".toList)).map (fun d => d.rows.map Row.values) =
        some [[.uint64 7]] := by decide +kernel
  rw [hsame] at hfilled
  cases hfilled

end EuleDB.Store
