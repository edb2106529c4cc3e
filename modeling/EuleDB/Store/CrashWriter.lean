import Mathlib.Algebra.BigOperators.Ring.List
import Mathlib.Logic.Relation
import EuleDB.Store.TableRuns

/-!
# A writer that is killed

A process takes the write role, declares a table if it cannot read it, and appends batches to it
until something kills it: between two operations, or in the middle of one.  Then the next one is
started on what it left.

* `CrashWriter.Phase.op`, `CrashWriter.Phase.next` — the process.
* `CrashWriter.Step` — it goes on, is killed or is started.
* `CrashWriter.State.Whole` — the table holds whole batches, and all that were reported complete.
* `CrashWriter.nothing_is_lost` — every state of every run is whole, and keeps its rows.
-/

set_option autoImplicit false

namespace EuleDB.Store.CrashWriter

open Crypto Audit Effect LanceStore

/-! ## The process -/

def TABLE : Text := "counters".toList

def schema : Schema := ⟨[⟨"id".toList, .other "Int64".toList, false, []⟩], []⟩

/-- `start..end`. -/
def range (start stop : Int64) : List Int64 :=
  (List.range (stop.toInt - start.toInt).toNat).map fun i => start + Int64.ofNat i

/-- The batch after `written` rows. -/
def batch (size written : Int64) : Batch :=
  ⟨schema, (range written (written + size)).map fun id =>
    [.other (Endian.leBytes 8 id.toUInt64.toNat)]⟩

/-- What the process is about to do. -/
inductive Phase where
  | scanning
  | creating
  | looping (written : Int64)

namespace Phase

variable (size : Int64)

def op : Phase → Op
  | scanning => .scan TABLE
  | creating => .createTable TABLE (.new schema)
  | looping written => .append TABLE (batch size written)

/-- What it is about to do next, if it goes on. -/
def next : Phase → Option Answer → Option Phase
  | scanning, some _ => some (looping 0)
  | scanning, none => some creating
  | creating, some _ => some (looping 0)
  | creating, none => none
  | looping written, some _ => some (looping (written + size))
  | looping _, none => none

/-- The batch that it reports complete. -/
def reports : Phase → Option Answer → List (List (List Value))
  | looping written, some _ => [(batch size written).rows]
  | _, _ => []

end Phase

/-- A database, the process that writes to it, and the batches that were reported complete. -/
structure State where
  disk : Disk
  process : Option Phase
  reported : List (List (List Value))

variable (W : World) (root : Text) (size : Int64)

/-- The handle of the process. -/
def store : LanceStore := .openForWriting root

/-- The process does what it is about to do, or is started. -/
def State.goesOn (s : State) : State :=
  match s.process with
  | none => ⟨s.disk, some .scanning, s.reported⟩
  | some p =>
    ⟨final (((store root).perform W (p.op size)).run s.disk),
      p.next size ((store root).reply W (p.op size) s.disk),
      s.reported ++ p.reports size ((store root).reply W (p.op size) s.disk)⟩

inductive Step : State → State → Prop where
  | goesOn (s : State) : Step s (s.goesOn W root size)
  | killed (disk : Disk) (p : Phase) (reported : List (List (List Value))) {datasets' : Datasets}
    {log : LogFile} (cutOff : CutOff W (store root) disk.datasets (p.op size) datasets') :
    Step ⟨disk, some p, reported⟩ ⟨⟨datasets', log⟩, none, reported⟩

/-- A run, over any number of processes. -/
def Run : State → State → Prop := Relation.ReflTransGen (Step W root size)

/-- Nothing was written and nothing runs. -/
def State.initial : State := ⟨.empty, none, []⟩

/-- The table of a state. -/
def State.table (s : State) : Option Table := tablesIn W root s.disk TABLE

/-- From one state of the table to another, these whole batches were added. -/
structure Adds (before after : Option Table) (l : List (List (List Value))) : Prop where
  whole : ∀ rows ∈ l, ∃ written, rows = (batch size written).rows
  stays : before.isSome → after.isSome
  gains : (before.getD (.declared schema)).Gains (before.getD (.declared schema)).rows l.flatten
    (after.getD (.declared schema))

/-- The table holds these whole batches, and those that were reported complete are among them. -/
structure State.Whole (s : State) (l : List (List (List Value))) : Prop where
  adds : Adds size none (s.table W root) l
  reported : s.reported.Sublist l

/-! ## What a step adds -/

variable {W root size} {before after : Option Table} {l l' : List (List (List Value))}

theorem Adds.same : Adds size before before [] := ⟨by simp, id, .refl _⟩

theorem Adds.trans {between : Option Table} (hfirst : Adds size before between l)
    (hsecond : Adds size between after l') : Adds size before after (l ++ l') where
  whole := fun rows hrows => (List.mem_append.1 hrows).elim (hfirst.whole rows) (hsecond.whole rows)
  stays := fun hsome => hsecond.stays (hfirst.stays hsome)
  gains := by
    rw [List.flatten_append]
    exact hfirst.gains.trans hsecond.gains

theorem Adds.append {datasets : Datasets} {written : Int64} {d : Dataset}
    (hcommits : Commits W (store root) datasets (.append TABLE (batch size written)) d) :
    Adds size ((datasets (placeIn W root TABLE)).map Dataset.table) (some d.table)
      [(batch size written).rows] where
  whole := fun rows hrows => ⟨written, List.mem_singleton.1 hrows⟩
  stays := fun _ => rfl
  gains := by
    rw [List.flatten_singleton]
    exact append_gains hcommits.2.2.2

/-- An append that gets somewhere adds its batch or nothing. -/
theorem Adds.advanced {disk disk' : Disk} {written : Int64} (hapart : NamesApart W root {TABLE})
    (hadvances : Advances W (store root) disk.datasets (.append TABLE (batch size written))
      disk'.datasets) :
    ∃ l, Adds size (tablesIn W root disk TABLE) (tablesIn W root disk' TABLE) l := by
  have hadvanced := NamesApart.advanced hapart (Set.mem_singleton TABLE) hadvances
  change tablesIn W root disk' TABLE = tablesIn W root disk TABLE ∨
    ∃ d : Dataset, Commits W (store root) disk.datasets (.append TABLE (batch size written)) d ∧
      tablesIn W root disk' TABLE = some d.table at hadvanced
  rcases hadvanced with hsame | ⟨d, hcommits, hafter⟩
  · rw [hsame]
    exact ⟨[], .same⟩
  · rw [hafter]
    exact ⟨_, .append hcommits⟩

/-- Declaring the table adds nothing to it. -/
theorem Adds.created {disk disk' : Disk}
    (hnone : disk.datasets ((store root).place W TABLE) = none)
    (hcreated : disk'.datasets ((store root).place W TABLE) =
      some (.create ((TableDefinition.new schema).compression.appliedTo schema))) :
    Adds size (tablesIn W root disk TABLE) (tablesIn W root disk' TABLE) [] := by
  have hbefore : tablesIn W root disk TABLE = none := Option.map_eq_none_iff.2 hnone
  have hafter : tablesIn W root disk' TABLE = some (.declared schema) := created_table hcreated
  rw [hbefore, hafter]
  exact ⟨by simp, fun _ => rfl, .refl _⟩

/-- What a phase's operation adds: the batch that it reports complete, or perhaps one that it does
not. -/
theorem Phase.adds {disk : Disk} (hapart : NamesApart W root {TABLE}) (p : Phase) :
    ∃ l, Adds size (tablesIn W root disk TABLE)
        (tablesIn W root (final (((store root).perform W (p.op size)).run disk)) TABLE) l ∧
      (p.reports size ((store root).reply W (p.op size) disk)).Sublist l := by
  cases p with
  | scanning =>
    have hsame : SameAt (placeIn W root TABLE) disk
        (final (((store root).perform W (.scan TABLE)).run disk)) := perform_elsewhere id
    change ∃ l, Adds size _ (tablesIn W root
      (final (((store root).perform W (.scan TABLE)).run disk)) TABLE) l ∧ List.Sublist [] l
    rw [hsame.table]
    exact ⟨[], .same, List.nil_sublist _⟩
  | creating =>
    have hfinal : final (((store root).perform W (.createTable TABLE (.new schema))).run disk) =
        final (((store root).createTable W TABLE (.new schema)).run disk) :=
      final_bind_pure _ (fun _ => Answer.done) disk
    change ∃ l, Adds size _ (tablesIn W root (final (((store root).perform W
      (.createTable TABLE (.new schema))).run disk)) TABLE) l ∧ List.Sublist [] l
    rw [hfinal]
    rcases createTable_datasets (store root) TABLE (.new schema) disk with
      hsame | ⟨hcreates, hcreated⟩
    · have hkept : tablesIn W root
          (final (((store root).createTable W TABLE (.new schema)).run disk)) TABLE =
            tablesIn W root disk TABLE :=
        congrArg (fun datasets : Datasets => (datasets (placeIn W root TABLE)).map Dataset.table)
          hsame
      rw [hkept]
      exact ⟨[], .same, List.nil_sublist _⟩
    · have hplace := congrFun hcreated ((store root).place W TABLE)
      rw [Function.update_self] at hplace
      exact ⟨[], .created hcreates.2.2.1 hplace, List.nil_sublist _⟩
  | looping written =>
    change ∃ l, Adds size _ (tablesIn W root (final (((store root).perform W
      (.append TABLE (batch size written))).run disk)) TABLE) l ∧ _
    cases hrun : ((store root).perform W (.append TABLE (batch size written))).run disk with
    | ok reply disk' =>
      obtain ⟨d, hcommits, -, -, hreconciles⟩ :=
        perform_write_ok (w := .append TABLE (batch size written)) hrun
      have hafter : tablesIn W root disk' TABLE = some d.table :=
        NamesApart.reconciled hapart (Set.mem_singleton TABLE) hreconciles
      have hreply : (store root).reply W ((looping written).op size) disk = some reply :=
        reply_ok hrun
      rw [final_ok, hafter, hreply]
      exact ⟨_, .append hcommits, List.Sublist.refl _⟩
    | error e disk' =>
      have hadvances : Advances W (store root) disk.datasets (.append TABLE (batch size written))
          (final (((store root).perform W (.append TABLE (batch size written))).run
            disk)).datasets :=
        perform_write_advances
      rw [hrun] at hadvances
      have hreply : (store root).reply W ((looping written).op size) disk = none := reply_error hrun
      obtain ⟨l, hadds⟩ := Adds.advanced hapart hadvances
      rw [final_error, hreply]
      exact ⟨l, hadds, List.nil_sublist _⟩

/-- What a phase adds whose process is killed. -/
theorem Phase.killed {disk : Disk} {datasets' : Datasets} {log : LogFile} {p : Phase}
    (hapart : NamesApart W root {TABLE})
    (hcut : CutOff W (store root) disk.datasets (p.op size) datasets') :
    ∃ l, Adds size (tablesIn W root disk TABLE) (tablesIn W root ⟨datasets', log⟩ TABLE) l := by
  generalize hop : p.op size = op at hcut
  cases hcut with
  | nothing op => exact ⟨[], .same⟩
  | @write w datasets' advances =>
    cases p with
    | scanning => cases w <;> cases hop
    | creating => cases w <;> cases hop
    | looping written =>
      cases w with
      | append table appended =>
        cases hop
        exact Adds.advanced hapart advances
      | update table predicate assignments => cases hop
      | delete table predicate => cases hop
  | @create table definition creates =>
    cases p with
    | creating =>
      cases hop
      exact ⟨[], .created creates.2.2.1 (Function.update_self _ _ _)⟩
    | scanning => cases hop
    | looping written => cases hop
  | createIndex opens => cases p <;> cases hop
  | createTextIndex opens => cases p <;> cases hop
  | createVectorIndex opens => cases p <;> cases hop
  | drop outside => cases p <;> cases hop

/-- **One step** adds whole batches, among them the one that it reports complete. -/
theorem Step.whole {s s' : State} (hapart : NamesApart W root {TABLE})
    (hwhole : s.Whole W root size l) (hstep : Step W root size s s') :
    ∃ l', s'.Whole W root size (l ++ l') ∧ Adds size (s.table W root) (s'.table W root) l' := by
  obtain ⟨hadds, hreported⟩ := hwhole
  cases hstep with
  | goesOn s =>
    obtain ⟨disk, process, reported⟩ := s
    cases process with
    | none =>
      refine ⟨[], ?_, .same⟩
      rw [List.append_nil]
      exact ⟨hadds, hreported⟩
    | some p =>
      obtain ⟨l', hadds', hreports⟩ := Phase.adds hapart p
      exact ⟨l', ⟨hadds.trans hadds', hreported.append hreports⟩, hadds'⟩
  | killed disk p reported cutOff =>
    obtain ⟨l', hadds'⟩ := Phase.killed hapart cutOff
    exact ⟨l', ⟨hadds.trans hadds', hreported.trans (List.sublist_append_left _ _)⟩, hadds'⟩

/-- A run adds whole batches, among them all that it reports complete. -/
theorem Run.whole {s s' : State} (hapart : NamesApart W root {TABLE})
    (hwhole : s.Whole W root size l) (hrun : Run W root size s s') :
    ∃ l', s'.Whole W root size (l ++ l') ∧ Adds size (s.table W root) (s'.table W root) l' := by
  induction hrun with
  | refl =>
    refine ⟨[], ?_, .same⟩
    rwa [List.append_nil]
  | tail _ hstep ih =>
    obtain ⟨l', hwhole', hadds⟩ := ih
    obtain ⟨l'', hwhole'', hadds'⟩ := Step.whole hapart hwhole' hstep
    rw [List.append_assoc] at hwhole''
    exact ⟨l' ++ l'', hwhole'', hadds.trans hadds'⟩

theorem State.initial_whole : State.initial.Whole W root size [] :=
  ⟨.same, List.Sublist.refl _⟩

theorem batch_length (hsize : 0 < size) (written : Int64) :
    size.toInt.toNat ∣ (batch size written).rows.length := by
  have hlength : (batch size written).rows.length =
      ((written + size).toInt - written.toInt).toNat := by
    unfold batch range
    simp only [List.length_map, List.length_range]
  have hpositive : 0 < size.toInt := Int64.lt_iff_toInt_lt.1 hsize
  have hbounds := written.toInt_lt
  have hwidth := size.toInt_lt
  -- the number of a batch's last row does not fit, or the batch has all its rows
  have hcases : ((written + size).toInt - written.toInt).toNat = size.toInt.toNat ∨
      ((written + size).toInt - written.toInt).toNat = 0 := by
    rw [Int64.toInt_add, Int.bmod_def]
    have hlow := written.le_toInt
    omega
  rw [hlength]
  rcases hcases with hfull | hnone
  · rw [hfull]
  · rw [hnone]
    exact dvd_zero _

theorem Adds.length (hsize : 0 < size) {t : Table} (hadds : Adds size none (some t) l) :
    size.toInt.toNat ∣ t.rows.length := by
  obtain ⟨-, new, hrows, hvalues, -⟩ := hadds.gains
  have hlength : t.rows.length = (l.map List.length).sum := by
    rw [← List.length_flatten, ← hvalues, List.length_map]
    exact congrArg List.length hrows
  rw [hlength]
  refine List.dvd_sum fun n hn => ?_
  obtain ⟨rows, hmem, rfl⟩ := List.mem_map.1 hn
  obtain ⟨written, rfl⟩ := hadds.whole rows hmem
  exact batch_length hsize written

/-- **Killing the writer loses nothing**, at whatever points and however often it is killed: the
table holds whole batches, and so a multiple of a batch's rows, all that were reported complete are
there, and what is there once stays. -/
theorem nothing_is_lost {s s' : State} (hapart : NamesApart W root {TABLE})
    (hreached : Run W root size .initial s) (hrun : Run W root size s s') :
    (∃ l l', s.Whole W root size l ∧ s'.Whole W root size (l ++ l')) ∧
      (∀ t, s.table W root = some t →
        ∃ t', s'.table W root = some t' ∧ t'.schema = t.schema ∧ t.rows <+: t'.rows) ∧
      (0 < size → ∀ t, s'.table W root = some t → size.toInt.toNat ∣ t.rows.length) := by
  obtain ⟨l, hwhole, -⟩ := Run.whole hapart State.initial_whole hreached
  obtain ⟨l', hwhole', hadds⟩ := Run.whole hapart hwhole hrun
  refine ⟨⟨_, _, hwhole, hwhole'⟩, fun t ht => ?_, fun hsize t ht => ?_⟩
  · obtain ⟨t', ht'⟩ := Option.isSome_iff_exists.1 (hadds.stays (by rw [ht]; rfl))
    obtain ⟨hschema, new, hrows, -, -⟩ := hadds.gains
    rw [ht, ht'] at hschema hrows
    exact ⟨t', ht', hschema, ⟨new, hrows.symm⟩⟩
  · have hadds' := hwhole'.adds
    rw [ht] at hadds'
    exact hadds'.length hsize

/-- The table is declared and gets a batch of two rows. -/
def oneBatch : State :=
  ((((State.initial.goesOn .plain "db".toList 2).goesOn .plain "db".toList 2).goesOn .plain
    "db".toList 2).goesOn .plain "db".toList 2)

/-- The disk of a writer that is killed behind the commit of its second batch. -/
def twoBatches : Disk :=
  ⟨committed .plain (store "db".toList) oneBatch.disk.datasets (.append TABLE (batch 2 2))
    (((oneBatch.disk.datasets ((store "db".toList).place .plain TABLE)).getD (.create schema)).add
      Format.plain (batch 2 2).rows), .fresh⟩

set_option maxRecDepth 8000 in
theorem oneBatch_process : oneBatch.process = some (.looping 2) := rfl

theorem counters_apart : NamesApart .plain "db".toList {TABLE} where
  directory := by
    rintro a rfl b rfl hne
    exact absurd rfl hne
  companion := by
    rintro a rfl column b rfl hplace
    cases placeIn_plain hplace

/-- A writer is killed behind the commit of its second batch, and the next one is started. -/
theorem killed_after_two_batches :
    (∃ l l', oneBatch.Whole .plain "db".toList 2 l ∧
      State.Whole .plain "db".toList 2 ⟨twoBatches, some .scanning, oneBatch.reported⟩ (l ++ l')) ∧
    (∀ t, oneBatch.table .plain "db".toList = some t →
      ∃ t', State.table .plain "db".toList ⟨twoBatches, some .scanning, oneBatch.reported⟩ =
          some t' ∧
        t'.schema = t.schema ∧ t.rows <+: t'.rows) ∧
    ((0 : Int64) < 2 → ∀ t,
      State.table .plain "db".toList ⟨twoBatches, some .scanning, oneBatch.reported⟩ = some t →
        (2 : Int64).toInt.toNat ∣ t.rows.length) := by
  have hgoes : ∀ s, Run .plain "db".toList 2 .initial s →
      Run .plain "db".toList 2 .initial (s.goesOn .plain "db".toList 2) :=
    fun s hs => hs.tail (.goesOn s)
  have hreached : Run .plain "db".toList 2 .initial oneBatch :=
    hgoes _ (hgoes _ (hgoes _ (hgoes _ .refl)))
  have hcut : CutOff .plain (store "db".toList) oneBatch.disk.datasets
      ((Phase.looping 2).op 2) twoBatches.datasets :=
    .write (w := .append TABLE (batch 2 2))
      (.inr ⟨_, ⟨rfl, rfl, rfl, rfl⟩, [], List.nil_prefix, .nil _⟩)
  have hkilled : Step .plain "db".toList 2 oneBatch ⟨twoBatches, none, oneBatch.reported⟩ := by
    have hsame : oneBatch = ⟨oneBatch.disk, some (.looping 2), oneBatch.reported⟩ := by
      rw [← oneBatch_process]
    rw [hsame]
    exact .killed _ _ _ hcut
  exact nothing_is_lost counters_apart hreached
    (.tail (.single hkilled) (.goesOn ⟨twoBatches, none, oneBatch.reported⟩))

end EuleDB.Store.CrashWriter
