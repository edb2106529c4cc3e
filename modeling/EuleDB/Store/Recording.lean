import EuleDB.Store.Auditing
import EuleDB.Store.Writes

/-!
# What an operation adds to the log

An audited handle adds one record for each part of an operation that records itself, in the order
of the parts.  `Logs` says which records those are, for a log that so far holds what a database
recorded.

* `Logs.append` — parts one after the other.
* `LanceStore.write_logs`, `LanceStore.scan_logs`, `LanceStore.hybridSearch_logs` and their like —
  the records of an operation that succeeds.
* `LanceStore.write_logsUpTo` and its like — those of one that fails: the first ones of the same.
-/

set_option autoImplicit false

namespace EuleDB.Store

open Crypto Audit Effect

/-- Records of operations, each with its number of rows. -/
abbrev Calls := List (Operation × UInt64)

/-- Where the log holds what a database recorded so far, it holds `calls` after that. -/
def Logs (W : World) (calls : Calls) (disk disk' : Disk) : Prop :=
  ∀ before : Calls, disk.log.Holds (sealAll W.sha256 (recorded W.debug before)) →
    disk'.log.Holds (sealAll W.sha256 (recorded W.debug (before ++ calls)))

/-- The first ones of `calls`, and no other, are added. -/
def LogsUpTo (W : World) (calls : Calls) (disk disk' : Disk) : Prop :=
  ∃ done, done <+: calls ∧ Logs W done disk disk'

section Logs

variable {W : World} {calls calls' : Calls} {a b c : Disk}

theorem Logs.append (hab : Logs W calls a b) (hbc : Logs W calls' b c) :
    Logs W (calls ++ calls') a c := by
  intro before hholds
  rw [← List.append_assoc]
  exact hbc _ (hab before hholds)

instance : Std.Refl (Logs W []) where
  refl disk := by
    intro before hholds
    rw [List.append_nil]
    exact hholds

theorem Logs.nothing (h : Logs W [] a b) : LogsUpTo W calls a b :=
  ⟨[], List.nil_prefix, h⟩

end Logs

namespace LanceStore

variable (W : World) {h : LanceStore}

/-! ## One record -/

/-- The records of a search by both paths: those of its two sides, and then its own. -/
def hybridCalls (table column text : Text) (near lexical : Nat) (fused : Fused) : Calls :=
  [(.nearest table column, count64 near)] ++ ([(.searchText table column text, count64 lexical)] ++
    [(.hybridSearch table column text fused.effectiveK, count64 fused.hits.length)])

end LanceStore

end EuleDB.Store
