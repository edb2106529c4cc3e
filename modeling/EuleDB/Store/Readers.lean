import EuleDB.Store.Auditing
import EuleDB.Store.Writes

/-!
# Handles without the write role

A handle that was opened for reading leaves a disk as it is, but for its records.

* `LanceStore.requireWriteRole_stops`, `LanceStore.write_stops` — what asks for the role goes no
  further without it.
* `SameData` — no dataset changes; records keep this, and so does whatever only reads.
* `LanceStore.perform_without` — whatever a relation between disks is that its records about a
  table keep, such a handle keeps it in what it is asked about that table.
-/

set_option autoImplicit false

namespace EuleDB.Store

open Crypto Audit Effect

/-- What stands under every path is as it was. -/
def SameData (disk disk' : Disk) : Prop := disk'.datasets = disk.datasets

instance : Std.Refl SameData := ⟨fun _ => rfl⟩

instance : IsTrans Disk SameData := ⟨fun _ _ _ h h' => h'.trans h⟩

namespace LanceStore

theorem record_sameData (W : World) (h : LanceStore) (op : Operation) (rows : UInt64) :
    Keeps SameData (h.record W op rows) := h.record_datasets op rows

section WithoutRole

variable {W : World} {h : LanceStore} {R : Disk → Disk → Prop} [Std.Refl R]

/-- Nothing that comes after asking for the role is done without it. -/
theorem requireWriteRole_stops {α : Type} (hrole : h.writeLock = false) (operation : String)
    (table : Text) (f : PUnit → StoreM α) :
    Keeps R (h.requireWriteRole operation table >>= f) := by
  have hthrow : h.requireWriteRole operation table =
      throw (.storage (.readOnly operation table)) := by
    unfold requireWriteRole
    rw [if_neg (by simp [hrole])]
  rw [hthrow]
  exact fun disk => Std.Refl.refl disk

theorem requireScope_stops {α : Type} (hrole : h.writeLock = false) (scope : Scope)
    (operation : String) (table : Text) (f : PUnit → StoreM α) :
    Keeps R (h.requireScope W scope table >>= fun _ => h.requireWriteRole operation table >>= f) :=
  Keeps.look (h.requireScope_keeps W _ _) fun _ => requireWriteRole_stops hrole _ _ _

/-- No row is committed without it. -/
theorem write_stops (hrole : h.writeLock = false) (w : Write) :
    Keeps R (h.perform W w.op) := by
  intro disk
  rw [perform_write, EStateM.run_bind]
  cases hrun : (h.writeRows W w).run disk with
  | ok n disk' =>
    obtain ⟨d', hcommits, -⟩ := writeRows_ok.1 ⟨n, hrun⟩
    have hlock := hcommits.2.1
    rw [hrole] at hlock
    cases hlock
  | error e disk' =>
    cases h.writeRows_fails w _ _ _ hrun
    exact Std.Refl.refl disk

variable [IsTrans Disk R]

theorem scan_without {table : Text}
    (hrecord : ∀ op rows, op.table = table → Keeps R (h.record W op rows)) :
    Keeps R (h.scan W table) :=
  Keeps.look (h.requireScope_keeps W _ _) fun _ => Keeps.look (h.open_keeps W _) fun _ =>
    Keeps.look (h.collect_keeps W _ _ _ _) fun _ => (hrecord _ _ rfl).bind fun _ => Keeps.pure _

theorem nearest_without {table : Text}
    (hrecord : ∀ op rows, op.table = table → Keeps R (h.record W op rows)) (column : Text)
    (query : List UInt32) (limit : Nat) : Keeps R (h.nearest W table column query limit) := by
  refine Keeps.look (h.requireScope_keeps W _ _) fun _ => ?_
  split_ifs
  · exact Keeps.throw _
  · refine Keeps.look (h.open_keeps W _) fun d => Keeps.look (ask_keeps W _ _ _ _) fun _ => ?_
    refine Keeps.look (ask_keeps W _ _ _ _) fun _ => Keeps.look (ask_keeps W _ _ _ _) fun _ => ?_
    refine Keeps.look (Keeps.ofExcept _) fun found => ?_
    exact (hrecord _ _ rfl).bind fun _ => Keeps.pure _

theorem searchText_without {table : Text}
    (hrecord : ∀ op rows, op.table = table → Keeps R (h.record W op rows))
    (column query : Text) (limit : Nat) :
    Keeps R (h.searchText W table column query limit) := by
  refine Keeps.look (h.requireScope_keeps W _ _) fun _ => Keeps.look (h.open_keeps W _) fun d => ?_
  refine Keeps.look (ask_keeps W _ _ _ _) fun _ => Keeps.look (ask_keeps W _ _ _ _) fun _ => ?_
  refine Keeps.look (ask_keeps W _ _ _ _) fun _ => Keeps.look (ask_keeps W _ _ _ _) fun _ => ?_
  refine Keeps.look (ask_keeps W _ _ _ _) fun _ => ?_
  exact (hrecord _ _ rfl).bind fun _ => Keeps.pure _

theorem hybridSearch_without {table : Text}
    (hrecord : ∀ op rows, op.table = table → Keeps R (h.record W op rows))
    (column text : Text) (vector : List UInt32) (limit : Nat) :
    Keeps R (h.hybridSearch W table column text vector limit) := by
  refine Keeps.look (h.requireScope_keeps W _ _) fun _ => ?_
  refine (nearest_without hrecord _ _ _).bind fun semantic => ?_
  refine (searchText_without hrecord _ _ _).bind fun lexical => ?_
  refine Keeps.look (h.open_keeps W _) fun d => Keeps.look (ask_keeps W _ _ _ _) fun _ => ?_
  exact (hrecord _ _ rfl).bind fun _ => Keeps.pure _

/-- **A handle without the role** does to a disk what its records about the table do, whatever it is
asked for. -/
theorem perform_without (hrole : h.writeLock = false) (op : Op)
    (hrecord : ∀ entry rows, entry.table = op.table → Keeps R (h.record W entry rows)) :
    Keeps R (h.perform W op) := by
  have hlook {α : Type} {x : StoreM α} (hx : Keeps Unchanged x) : Keeps R x := by
    intro disk
    rw [hx disk]
    exact Std.Refl.refl disk
  cases op with
  | createTable table definition =>
    exact (requireScope_stops hrole _ _ _ _).bind fun _ => Keeps.pure _
  | append table batch => exact write_stops hrole (.append table batch)
  | update table predicate assignments =>
    exact write_stops hrole (.update table predicate assignments)
  | delete table predicate => exact write_stops hrole (.delete table predicate)
  | dropTable table => exact (requireScope_stops hrole _ _ _ _).bind fun _ => Keeps.pure _
  | scan table => exact (scan_without hrecord).map _
  | scanOrdered table predicate by' order => exact hlook ((h.scanOrdered_keeps W _ _ _ _).map _)
  | scanOrderedMeasured table predicate by' order =>
    exact hlook ((h.scanOrderedMeasured_keeps W _ _ _ _).map _)
  | rowIds table predicate => exact hlook ((h.rowIds_keeps W _ _).map _)
  | rowIdsMeasured table predicate => exact hlook ((h.rowIdsMeasured_keeps W _ _).map _)
  | rowIdsAll table matching => exact hlook ((h.rowIdsAll_keeps W _ _).map _)
  | rowIdsAny table matching => exact hlook ((h.rowIdsAny_keeps W _ _).map _)
  | filteredSearch table filter source limit =>
    exact hlook ((h.filteredSearch_keeps W _ _ _ _).map _)
  | vectorsOf table column => exact hlook ((h.vectorsOf_keeps W _ _).map _)
  | nearest table column query limit => exact (nearest_without hrecord _ _ _).map _
  | searchText table column query limit => exact (searchText_without hrecord _ _ _).map _
  | hybridSearch table column text vector limit =>
    exact (hybridSearch_without hrecord _ _ _ _).map _
  | createIndex table column => exact (requireScope_stops hrole _ _ _ _).bind fun _ => Keeps.pure _
  | createVectorIndex table column kind =>
    exact (requireScope_stops hrole _ _ _ _).bind fun _ => Keeps.pure _
  | createTextIndex table column language =>
    exact (requireScope_stops hrole _ _ _ _).bind fun _ => Keeps.pure _
  | vectorIndexKind table column => exact hlook ((h.vectorIndexKind_keeps W _ _).map _)
  | nearestUsesTheIndex table column query limit =>
    exact hlook ((h.nearestUsesTheIndex_keeps W _ _ _ _).map _)

end WithoutRole

end LanceStore

end EuleDB.Store
