import EuleDB.Store.Steps

/-!
# What a write does

A write commits its rows, records itself, and brings the vectors of every auto-embedding column
back into agreement with the text.  Each part can fail, and what was done before it stays done.

* `Commits` — when the rows of a write are committed, and what then stands where the table lives.
* `ReconcilesTo`, `reconcile_ok` — when a column is reconciled, and what stands under the paths
  then.
* `perform_write_ok`, `perform_write_error` — how far a write gets.
-/

set_option autoImplicit false

namespace EuleDB.Store

open Crypto Audit Effect

/-- The operations that change rows. -/
inductive Write where
  | append (table : Text) (batch : Batch)
  | update (table predicate : Text) (assignments : List (Text × Text))
  | delete (table predicate : Text)

namespace Write

def op : Write → Op
  | append table batch => .append table batch
  | update table predicate assignments => .update table predicate assignments
  | delete table predicate => .delete table predicate

def table : Write → Text
  | append table _ | update table _ _ | delete table _ => table

/-- What the audit log is told. -/
def operation : Write → Operation
  | append table _ => .append table
  | update table predicate assignments => .update table predicate (assignments.map Prod.fst)
  | delete table predicate => .delete table predicate

/-- What a write that touched `n` rows returns. -/
def answer : Write → Nat → Answer
  | append _ _, _ => .done
  | update _ _ _, n | delete _ _, n => .rows (count64 n)

end Write

namespace LanceStore

variable (W : World) (h : LanceStore)

/-- The rows of a write, committed. -/
def writeRows : Write → StoreM Nat
  | .append table batch => h.appendRows W table batch
  | .update table predicate assignments => h.updateRows W table predicate assignments
  | .delete table predicate => h.deleteRows W table predicate

/-- Every write is its commit, its record and the reconciliation of its table. -/
theorem perform_write (w : Write) :
    h.perform W w.op = (do
      let n ← h.writeRows W w
      h.record W w.operation (count64 n)
      h.reconcileAll W w.table
      pure (w.answer n)) := by
  cases w with
  | append table batch =>
    change (h.append W table batch >>= fun _ => pure Answer.done) = _
    unfold append
    simp only [bind_assoc]
    rfl
  | update table predicate assignments =>
    change Answer.rows <$> h.update W table predicate assignments = _
    unfold update
    simp only [map_eq_pure_bind, bind_assoc, pure_bind]
    rfl
  | delete table predicate =>
    change Answer.rows <$> h.delete W table predicate = _
    unfold delete
    simp only [map_eq_pure_bind, bind_assoc, pure_bind]
    rfl

/-! ## The commit of a write -/

/-- The rows of a write are committed, and `d'` takes the place of what stands where its table
lives. -/
def Commits (datasets : Datasets) (w : Write) (d' : Dataset) : Prop :=
  h.permits W .write w.table ∧ h.writeLock ∧
    match w with
    | .append table batch =>
      W.format.refuses (h.call table (.append batch)) (datasets (h.place W table)) = none ∧
        d' = ((datasets (h.place W table)).getD (.create batch.schema)).add W.format batch.rows
    | .update table predicate assignments =>
      assignments ≠ [] ∧ ∃ d, Opens W h datasets table d ∧
        Grants W h table d ([.filter predicate] ++ assignments.map (fun a => .set a.1 a.2) ++
          [.planUpdate, .update predicate assignments]) ∧
        d' = d.update W.format (W.format.selects predicate d) (W.format.assigned assignments d)
    | .delete table predicate =>
      ∃ d, Opens W h datasets table d ∧
        Grants W h table d [.count (some predicate), .delete predicate] ∧
        d' = d.delete (W.format.selects predicate d)

variable {W h}

theorem Commits.unique {datasets : Datasets} {w : Write} {d d' : Dataset}
    (hd : Commits W h datasets w d) (hd' : Commits W h datasets w d') : d = d' := by
  obtain ⟨-, -, hd⟩ := hd
  obtain ⟨-, -, hd'⟩ := hd'
  cases w with
  | append table batch => exact hd.2.trans hd'.2.symm
  | update table predicate assignments =>
    obtain ⟨-, before, ⟨hbefore, -⟩, -, rfl⟩ := hd
    obtain ⟨-, before', ⟨hbefore', -⟩, -, rfl⟩ := hd'
    cases hbefore.symm.trans hbefore'
    rfl
  | delete table predicate =>
    obtain ⟨before, ⟨hbefore, -⟩, -, rfl⟩ := hd
    obtain ⟨before', ⟨hbefore', -⟩, -, rfl⟩ := hd'
    cases hbefore.symm.trans hbefore'
    rfl

theorem askEach_ok {table : Text} {d : Dataset} {assignments : List (Text × Text)}
    {disk disk' : Disk} {u : PUnit} :
    (h.askEach W table d assignments).run disk = .ok u disk' ↔
      Grants W h table d (assignments.map fun a => .set a.1 a.2) ∧ disk' = disk := by
  induction assignments generalizing disk u with
  | nil =>
    change (.ok ⟨⟩ disk : EStateM.Result Error Disk PUnit) = _ ↔ _
    simp [Grants, eq_comm]
  | cons a assignments ih =>
    have hcons : Grants W h table d (.set a.1 a.2 :: assignments.map fun a => .set a.1 a.2) ↔
        W.format.refuses (h.call table (.set a.1 a.2)) (some d) = none ∧
          Grants W h table d (assignments.map fun a => .set a.1 a.2) :=
      List.forall_mem_cons
    rw [List.map_cons, hcons]
    unfold askEach
    constructor
    · intro hrun
      obtain ⟨_, s1, hask, hrest⟩ := bind_ok.1 hrun
      obtain ⟨hset, rfl⟩ := ask_ok.1 hask
      obtain ⟨hgrants, rfl⟩ := ih.1 hrest
      exact ⟨⟨hset, hgrants⟩, rfl⟩
    · rintro ⟨⟨hset, hgrants⟩, rfl⟩
      exact bind_ok.2 ⟨⟨⟩, _, ask_ok.2 ⟨hset, rfl⟩, ih.2 ⟨hgrants, rfl⟩⟩

theorem appendRows_ok {table : Text} {batch : Batch} {disk disk' : Disk} {n : Nat} :
    (h.appendRows W table batch).run disk = .ok n disk' ↔ n = batch.rows.length ∧
      ∃ d', Commits W h disk.datasets (.append table batch) d' ∧
        disk' = disk.put (h.place W table) (some d') := by
  unfold appendRows
  constructor
  · intro hrun
    obtain ⟨_, s1, hscope, h1⟩ := bind_ok.1 hrun
    obtain ⟨_, s2, hrole, h2⟩ := bind_ok.1 h1
    obtain ⟨before, s3, hfound, h3⟩ := bind_ok.1 h2
    obtain ⟨_, s4, hask, h4⟩ := bind_ok.1 h3
    obtain ⟨hpermits, rfl⟩ := requireScope_ok.1 hscope
    obtain ⟨hlock, rfl⟩ := requireWriteRole_ok.1 hrole
    cases hfound
    obtain ⟨hrefuses, rfl⟩ := ask_ok.1 hask
    cases h4
    exact ⟨rfl, _, ⟨hpermits, hlock, hrefuses, rfl⟩, rfl⟩
  · rintro ⟨rfl, d', ⟨hpermits, hlock, hrefuses, rfl⟩, rfl⟩
    exact bind_ok.2 ⟨⟨⟩, _, requireScope_ok.2 ⟨hpermits, rfl⟩,
      bind_ok.2 ⟨⟨⟩, _, requireWriteRole_ok.2 ⟨hlock, rfl⟩,
        bind_ok.2 ⟨_, _, found_run table disk,
          bind_ok.2 ⟨⟨⟩, _, ask_ok.2 ⟨hrefuses, rfl⟩, rfl⟩⟩⟩⟩

theorem updateRows_ok {table predicate : Text} {assignments : List (Text × Text)}
    {disk disk' : Disk} :
    (∃ n, (h.updateRows W table predicate assignments).run disk = .ok n disk') ↔
      ∃ d', Commits W h disk.datasets (.update table predicate assignments) d' ∧
        disk' = disk.put (h.place W table) (some d') := by
  unfold updateRows
  constructor
  · rintro ⟨n, hrun⟩
    obtain ⟨_, s1, hscope, h1⟩ := bind_ok.1 hrun
    obtain ⟨_, s2, hrole, h2⟩ := bind_ok.1 h1
    obtain ⟨hpermits, rfl⟩ := requireScope_ok.1 hscope
    obtain ⟨hlock, rfl⟩ := requireWriteRole_ok.1 hrole
    split at h2
    · cases h2
    · rename_i hassignments
      obtain ⟨d, s3, hopen, h3⟩ := bind_ok.1 h2
      obtain ⟨_, s4, hfirst, h4⟩ := bind_ok.1 h3
      obtain ⟨_, s5, heach, h5⟩ := bind_ok.1 h4
      obtain ⟨_, s6, hsecond, h6⟩ := bind_ok.1 h5
      obtain ⟨_, s7, hthird, h7⟩ := bind_ok.1 h6
      obtain ⟨hopens, rfl⟩ := open_ok.1 hopen
      obtain ⟨hfilter, rfl⟩ := ask_ok.1 hfirst
      obtain ⟨hsets, rfl⟩ := askEach_ok.1 heach
      obtain ⟨hplan, rfl⟩ := ask_ok.1 hsecond
      obtain ⟨hupdate, rfl⟩ := ask_ok.1 hthird
      cases h7
      refine ⟨_, ⟨hpermits, hlock, hassignments, d, hopens, ?_, rfl⟩, rfl⟩
      intro request hrequest
      rcases List.mem_append.1 hrequest with hfront | hback
      · rcases List.mem_append.1 hfront with hone | hset
        · cases List.mem_singleton.1 hone
          exact hfilter
        · exact hsets request hset
      · rcases List.mem_cons.1 hback with rfl | hlast
        · exact hplan
        · cases List.mem_singleton.1 hlast
          exact hupdate
  · rintro ⟨d', ⟨hpermits, hlock, hassignments, d, hopens, hgrants, rfl⟩, rfl⟩
    have hsets : Grants W h table d (assignments.map fun a => .set a.1 a.2) := by
      intro request hrequest
      exact hgrants request (by simp [hrequest])
    rw [if_neg hassignments]
    exact ⟨(d.rows.filter (W.format.selects predicate d)).length,
      bind_ok.2 ⟨⟨⟩, _, requireScope_ok.2 ⟨hpermits, rfl⟩,
        bind_ok.2 ⟨⟨⟩, _, requireWriteRole_ok.2 ⟨hlock, rfl⟩,
          bind_ok.2 ⟨d, _, open_ok.2 ⟨hopens, rfl⟩,
            bind_ok.2 ⟨⟨⟩, _, ask_ok.2 ⟨hgrants (.filter predicate) (by simp), rfl⟩,
              bind_ok.2 ⟨⟨⟩, _, askEach_ok.2 ⟨hsets, rfl⟩,
                bind_ok.2 ⟨⟨⟩, _, ask_ok.2 ⟨hgrants .planUpdate (by simp), rfl⟩,
                  bind_ok.2 ⟨⟨⟩, _,
                    ask_ok.2 ⟨hgrants (.update predicate assignments) (by simp), rfl⟩,
                    rfl⟩⟩⟩⟩⟩⟩⟩⟩

theorem deleteRows_ok {table predicate : Text} {disk disk' : Disk} :
    (∃ n, (h.deleteRows W table predicate).run disk = .ok n disk') ↔
      ∃ d', Commits W h disk.datasets (.delete table predicate) d' ∧
        disk' = disk.put (h.place W table) (some d') := by
  unfold deleteRows
  constructor
  · rintro ⟨n, hrun⟩
    obtain ⟨_, s1, hscope, h1⟩ := bind_ok.1 hrun
    obtain ⟨_, s2, hrole, h2⟩ := bind_ok.1 h1
    obtain ⟨d, s3, hopen, h3⟩ := bind_ok.1 h2
    obtain ⟨_, s4, hfirst, h4⟩ := bind_ok.1 h3
    obtain ⟨_, s5, hsecond, h5⟩ := bind_ok.1 h4
    obtain ⟨hpermits, rfl⟩ := requireScope_ok.1 hscope
    obtain ⟨hlock, rfl⟩ := requireWriteRole_ok.1 hrole
    obtain ⟨hopens, rfl⟩ := open_ok.1 hopen
    obtain ⟨hcount, rfl⟩ := ask_ok.1 hfirst
    obtain ⟨hdelete, rfl⟩ := ask_ok.1 hsecond
    cases h5
    refine ⟨_, ⟨hpermits, hlock, d, hopens, ?_, rfl⟩, rfl⟩
    simp [Grants, hcount, hdelete]
  · rintro ⟨d', ⟨hpermits, hlock, d, hopens, hgrants, rfl⟩, rfl⟩
    exact ⟨_, bind_ok.2 ⟨⟨⟩, _, requireScope_ok.2 ⟨hpermits, rfl⟩,
      bind_ok.2 ⟨⟨⟩, _, requireWriteRole_ok.2 ⟨hlock, rfl⟩,
        bind_ok.2 ⟨d, _, open_ok.2 ⟨hopens, rfl⟩,
          bind_ok.2 ⟨⟨⟩, _, ask_ok.2 ⟨hgrants (.count (some predicate)) (by simp), rfl⟩,
            bind_ok.2 ⟨⟨⟩, _, ask_ok.2 ⟨hgrants (.delete predicate) (by simp), rfl⟩, rfl⟩⟩⟩⟩⟩⟩

/-- **The commit of a write**: it succeeds exactly when the rows are committed. -/
theorem writeRows_ok {w : Write} {disk disk' : Disk} :
    (∃ n, (h.writeRows W w).run disk = .ok n disk') ↔
      ∃ d', Commits W h disk.datasets w d' ∧ disk' = disk.put (h.place W w.table) (some d') := by
  cases w with
  | append table batch =>
    constructor
    · rintro ⟨n, hrun⟩
      exact (appendRows_ok.1 hrun).2
    · intro hcommits
      exact ⟨_, appendRows_ok.2 ⟨rfl, hcommits⟩⟩
  | update table predicate assignments => exact updateRows_ok
  | delete table predicate => exact deleteRows_ok

/-- One that fails has done nothing. -/
theorem writeRows_fails (w : Write) : Fails Unchanged (h.writeRows W w) := by
  have hcommit : ∀ table d (n : Nat), Fails Unchanged (do
      h.commit W table d
      pure n : StoreM Nat) := by
    intro table d n disk e disk' hrun
    cases hrun
  cases w with
  | append table batch =>
    refine Fails.look (h.requireScope_keeps W _ _) fun _ => ?_
    refine Fails.look (h.requireWriteRole_keeps _ _) fun _ => ?_
    refine Fails.look (h.found_keeps W _) fun before => ?_
    exact Fails.look (ask_keeps W _ _ _ _) fun _ => hcommit _ _ _
  | update table predicate assignments =>
    refine Fails.look (h.requireScope_keeps W _ _) fun _ => ?_
    refine Fails.look (h.requireWriteRole_keeps _ _) fun _ => ?_
    split_ifs
    · exact (Keeps.throw _).fails
    · refine Fails.look (h.open_keeps W _) fun d => ?_
      refine Fails.look (ask_keeps W _ _ _ _) fun _ => ?_
      refine Fails.look (h.askEach_keeps W _ _ _) fun _ => ?_
      refine Fails.look (ask_keeps W _ _ _ _) fun _ => ?_
      exact Fails.look (ask_keeps W _ _ _ _) fun _ => hcommit _ _ _
  | delete table predicate =>
    refine Fails.look (h.requireScope_keeps W _ _) fun _ => ?_
    refine Fails.look (h.requireWriteRole_keeps _ _) fun _ => ?_
    refine Fails.look (h.open_keeps W _) fun d => ?_
    refine Fails.look (ask_keeps W _ _ _ _) fun _ => ?_
    exact Fails.look (ask_keeps W _ _ _ _) fun _ => hcommit _ _ _

/-! ## The record of a write -/

/-- The disk after a record. -/
theorem record_datasets (op : Operation) (rows : UInt64) :
    Keeps (fun disk disk' => disk'.datasets = disk.datasets) (h.record W op rows) := by
  intro disk
  change (final (h.record W op rows disk)).datasets = _
  unfold record
  cases h.audit with
  | none => rfl
  | some log =>
    dsimp only
    cases (log.append W.sha256 (op.entry W.debug rows)).run disk.log <;> rfl

/-- The audit log takes a record, or none is kept. -/
def Records (W : World) (h : LanceStore) (file : LogFile) : Prop :=
  h.audit.isSome → file.Accepts W.sha256

theorem record_ok {op : Operation} {rows : UInt64} {disk : Disk} :
    (∃ u disk', (h.record W op rows).run disk = .ok u disk') ↔ Records W h disk.log := by
  change (∃ u disk', h.record W op rows disk = _) ↔ _
  unfold record Records
  cases h.audit with
  | none => simp
  | some log =>
    have haccepts : (∃ u file, (log.append W.sha256 (op.entry W.debug rows)).run disk.log =
        .ok u file) ↔ disk.log.Accepts W.sha256 := AuditLog.append_accepts
    rw [← haccepts]
    dsimp only
    cases happend : (log.append W.sha256 (op.entry W.debug rows)).run disk.log with
    | ok u file => simp
    | error e file => simp

/-! ## Reconciliation -/

/-- The vectors a reconciliation finds: none where the companion does not open. -/
def Existing (W : World) (h : LanceStore) (datasets : Datasets) (table column : Text)
    (existing : List RowVector) : Prop :=
  (∃ d, Opens W h datasets (vectorTable table column) d) ∧
      ReadsVectors W h datasets table column existing ∨
    (∀ d, ¬ Opens W h datasets (vectorTable table column) d) ∧ existing = []

theorem existingVectors_ok {table column : Text} {disk disk' : Disk} {existing : List RowVector} :
    (h.existingVectors W table column).run disk = .ok existing disk' ↔
      Existing W h disk.datasets table column existing ∧ disk' = disk := by
  change h.existingVectors W table column disk = _ ↔ _
  unfold existingVectors Existing
  cases hrun : (h.open W (vectorTable table column)).run disk with
  | ok d opened =>
    obtain ⟨hopens, rfl⟩ := open_ok.1 hrun
    dsimp only
    rw [vectorsOf_ok]
    constructor
    · rintro ⟨hreads, rfl⟩
      exact ⟨.inl ⟨⟨d, hopens⟩, hreads⟩, rfl⟩
    · rintro ⟨⟨-, hreads⟩ | ⟨hnone, -⟩, rfl⟩
      · exact ⟨hreads, rfl⟩
      · exact absurd hopens (hnone d)
  | error e opened =>
    have hsame : opened = disk := (h.open_keeps W _).fails _ _ _ hrun
    subst hsame
    have hnone : ∀ d, ¬ Opens W h opened.datasets (vectorTable table column) d := by
      intro d hopens
      have hok := open_ok.2 ⟨hopens, rfl⟩
      rw [hrun] at hok
      cases hok
    dsimp only
    constructor
    · intro hok
      cases hok
      exact ⟨.inr ⟨hnone, rfl⟩, rfl⟩
    · rintro ⟨⟨⟨d, hopens⟩, -⟩ | ⟨-, rfl⟩, rfl⟩
      · exact absurd hopens (hnone d)
      · rfl

/-- What a reconciliation goes by: the handle's embedder, the table, the vectors there are and the
texts there should be vectors for. -/
structure Gathers (W : World) (h : LanceStore) (datasets : Datasets) (table column : Text)
    (embedder : Embedder) (d : Dataset) (existing : List RowVector)
    (present : List (RowId × Text)) : Prop where
  embedder : h.embedder = some embedder
  existing : Existing W h datasets table column existing
  opens : Opens W h datasets table d
  grants : Grants W h table d [.project [column], .stream, .read]
  present : presentTexts table column d = .ok present

theorem Existing.unique {datasets : Datasets} {table column : Text}
    {existing existing' : List RowVector} (hexisting : Existing W h datasets table column existing)
    (hexisting' : Existing W h datasets table column existing') : existing = existing' := by
  have hrun : (h.existingVectors W table column).run ⟨datasets, .fresh⟩ = .ok existing _ :=
    existingVectors_ok.2 ⟨hexisting, rfl⟩
  rw [existingVectors_ok.2 ⟨hexisting', rfl⟩] at hrun
  cases hrun
  rfl

theorem Gathers.unique {datasets : Datasets} {table column : Text} {embedder embedder' : Embedder}
    {d d' : Dataset} {existing existing' : List RowVector} {present present' : List (RowId × Text)}
    (hgathers : Gathers W h datasets table column embedder d existing present)
    (hgathers' : Gathers W h datasets table column embedder' d' existing' present') :
    embedder = embedder' ∧ d = d' ∧ existing = existing' ∧ present = present' := by
  cases hgathers.embedder.symm.trans hgathers'.embedder
  cases hgathers.opens.1.symm.trans hgathers'.opens.1
  cases hgathers.present.symm.trans hgathers'.present
  exact ⟨rfl, rfl, hgathers.existing.unique hgathers'.existing, rfl⟩

/-- The rows that have a vector are those that are there. -/
def Matching (existing : List RowVector) (present : List (RowId × Text)) : Prop :=
  (present.map Prod.fst).toFinset = (existing.map RowVector.row).toFinset

/-- The vectors of one row: those it has, or else those of its text. -/
def rowVectorsOf (embedder : Embedder) (table : Text) (existing : List RowVector)
    (entry : RowId × Text) : List RowVector :=
  chunksOf entry.1 ((embeddingsOf embedder table existing entry.1 entry.2).toOption.getD [])

/-- Every row has its vectors or gets some, all of them as wide as they have to be. -/
def Embeddable (embedder : Embedder) (table : Text) (existing : List RowVector)
    (present : List (RowId × Text)) : Prop :=
  ∀ entry ∈ present, ∃ embeddings,
    embeddingsOf embedder table existing entry.1 entry.2 = .ok embeddings ∧
      ∀ embedding ∈ embeddings, embedding.length = VECTOR_WIDTH

theorem rebuild_ok {embedder : Embedder} {table : Text} {existing : List RowVector}
    {present : List (RowId × Text)} {vectors : List RowVector} :
    rebuild embedder table existing present = .ok vectors ↔
      Embeddable embedder table existing present ∧
        vectors = present.flatMap (rowVectorsOf embedder table existing) := by
  unfold Embeddable
  induction present generalizing vectors with
  | nil => simp [rebuild, eq_comm]
  | cons entry present ih =>
    rw [List.forall_mem_cons, List.flatMap_cons, rebuild]
    unfold rowVectorsOf
    cases hrow : embeddingsOf embedder table existing entry.1 entry.2 with
    | error e => simp [bind, Except.bind]
    | ok embeddings =>
      simp only [bind, Except.bind, Except.ok.injEq, exists_eq_left', Except.toOption,
        Option.getD_some]
      cases hfind : embeddings.find? fun embedding => embedding.length ≠ VECTOR_WIDTH with
      | some embedding =>
        have hmem := List.mem_of_find?_eq_some hfind
        have hwide : embedding.length ≠ VECTOR_WIDTH := by simpa using List.find?_some hfind
        refine iff_of_false (by simp) ?_
        rintro ⟨⟨hwidth, -⟩, -⟩
        exact hwide (hwidth embedding hmem)
      | none =>
        have hwidth : ∀ embedding ∈ embeddings, embedding.length = VECTOR_WIDTH := by
          simpa using List.find?_eq_none.1 hfind
        cases hrest : rebuild embedder table existing present with
        | error e =>
          refine iff_of_false (by simp) ?_
          rintro ⟨⟨-, hpresent⟩, -⟩
          rw [ih.2 ⟨hpresent, rfl⟩] at hrest
          cases hrest
        | ok rest =>
          obtain ⟨hpresent, rfl⟩ := ih.1 hrest
          constructor
          · intro hok
            cases hok
            exact ⟨⟨hwidth, hpresent⟩, rfl⟩
          · rintro ⟨-, rfl⟩
            rfl

/-- What reconciling a column does to what stands under the paths: nothing where the rows match,
and otherwise the companion is written anew. -/
def ReconcilesTo (W : World) (h : LanceStore) (table column : Text)
    (datasets datasets' : Datasets) : Prop :=
  ∃ embedder d existing present,
    Gathers W h datasets table column embedder d existing present ∧
      (Matching existing present ∧ datasets' = datasets ∨
        ¬ Matching existing present ∧ ∃ batch,
          batch = vectorBatch (present.flatMap (rowVectorsOf embedder table existing)) ∧
          Embeddable embedder table existing present ∧
          W.format.refuses
            { h.call (vectorTable table column) (.overwrite batch) with session := none }
            (datasets (h.place W (vectorTable table column))) = none ∧
          datasets' = Function.update datasets (h.place W (vectorTable table column))
            (some (((datasets (h.place W (vectorTable table column))).getD
              (.create vectorSchema)).overwrite W.format batch)))

/-- What a reconciliation does before it decides whether there is anything to do. -/
theorem reconcile_run {embedder : Embedder} (hembedder : h.embedder = some embedder)
    (table column : Text) :
    h.reconcile W table column = (do
      let existing ← h.existingVectors W table column
      let d ← h.open W table
      ask W "project the embedding column of" table (h.call table (.project [column])) (some d)
      ask W "start a scan of the table" table (h.call table .stream) (some d)
      ask W "read the table" table (h.call table .read) (some d)
      let present ← ofExcept (presentTexts table column d)
      if (present.map Prod.fst).toFinset = (existing.map RowVector.row).toFinset then pure ⟨⟩
      else do
        let vectors ← ofExcept (rebuild embedder table existing present)
        let before ← h.found W (vectorTable table column)
        ask W "write the vectors of" table
          { h.call (vectorTable table column) (.overwrite (vectorBatch vectors)) with
            session := none } before
        h.commit W (vectorTable table column)
          ((before.getD (.create vectorSchema)).overwrite W.format (vectorBatch vectors))) := by
  unfold reconcile
  rw [hembedder]
  rfl

/-- **Reconciling a column** succeeds exactly when `ReconcilesTo` has an outcome. -/
theorem reconcile_ok {table column : Text} {disk disk' : Disk} {u : PUnit} :
    (h.reconcile W table column).run disk = .ok u disk' ↔
      ∃ datasets', ReconcilesTo W h table column disk.datasets datasets' ∧
        disk' = { disk with datasets := datasets' } := by
  cases hembedder : h.embedder with
  | none =>
    unfold reconcile
    rw [hembedder]
    refine iff_of_false (by rintro ⟨⟩) ?_
    rintro ⟨_, ⟨embedder, _, _, _, hgathers, -⟩, -⟩
    cases hembedder.symm.trans hgathers.embedder
  | some embedder =>
    rw [reconcile_run hembedder]
    constructor
    · intro hrun
      obtain ⟨existing, s1, hexisting, h1⟩ := bind_ok.1 hrun
      obtain ⟨d, s2, hopen, h2⟩ := bind_ok.1 h1
      obtain ⟨_, s3, hfirst, h3⟩ := bind_ok.1 h2
      obtain ⟨_, s4, hsecond, h4⟩ := bind_ok.1 h3
      obtain ⟨_, s5, hthird, h5⟩ := bind_ok.1 h4
      obtain ⟨present, s6, hpresent, h6⟩ := bind_ok.1 h5
      obtain ⟨hfound, rfl⟩ := existingVectors_ok.1 hexisting
      obtain ⟨hopens, rfl⟩ := open_ok.1 hopen
      obtain ⟨hproject, rfl⟩ := ask_ok.1 hfirst
      obtain ⟨hstream, rfl⟩ := ask_ok.1 hsecond
      obtain ⟨hread, rfl⟩ := ask_ok.1 hthird
      obtain ⟨htexts, rfl⟩ := ofExcept_ok.1 hpresent
      have hgathers : Gathers W h s6.datasets table column embedder d existing present :=
        ⟨hembedder, hfound, hopens, by simp [Grants, hproject, hstream, hread], htexts⟩
      split_ifs at h6 with hmatching
      · cases h6
        exact ⟨_, ⟨embedder, d, existing, present, hgathers, .inl ⟨hmatching, rfl⟩⟩, rfl⟩
      · obtain ⟨vectors, s7, hrebuild, h7⟩ := bind_ok.1 h6
        obtain ⟨before, s8, hbefore, h8⟩ := bind_ok.1 h7
        obtain ⟨_, s9, hfourth, h9⟩ := bind_ok.1 h8
        obtain ⟨hvectors, rfl⟩ := ofExcept_ok.1 hrebuild
        obtain ⟨hembeddable, rfl⟩ := rebuild_ok.1 hvectors
        cases hbefore
        obtain ⟨hrefuses, rfl⟩ := ask_ok.1 hfourth
        cases h9
        exact ⟨_, ⟨embedder, d, existing, present, hgathers,
          .inr ⟨hmatching, _, rfl, hembeddable, hrefuses, rfl⟩⟩, rfl⟩
    · rintro ⟨datasets', ⟨embedder', d, existing, present, hgathers, houtcome⟩, rfl⟩
      cases hembedder.symm.trans hgathers.embedder
      refine bind_ok.2 ⟨existing, disk, existingVectors_ok.2 ⟨hgathers.existing, rfl⟩, ?_⟩
      refine bind_ok.2 ⟨d, disk, open_ok.2 ⟨hgathers.opens, rfl⟩, ?_⟩
      refine bind_ok.2 ⟨⟨⟩, disk,
        ask_ok.2 ⟨hgathers.grants (.project [column]) (by simp), rfl⟩, ?_⟩
      refine bind_ok.2 ⟨⟨⟩, disk, ask_ok.2 ⟨hgathers.grants .stream (by simp), rfl⟩, ?_⟩
      refine bind_ok.2 ⟨⟨⟩, disk, ask_ok.2 ⟨hgathers.grants .read (by simp), rfl⟩, ?_⟩
      refine bind_ok.2 ⟨present, disk, ofExcept_ok.2 ⟨hgathers.present, rfl⟩, ?_⟩
      rcases houtcome with ⟨hmatching, rfl⟩ | ⟨hmatching, batch, rfl, hembeddable, hrefuses, rfl⟩
      · unfold Matching at hmatching
        rw [if_pos hmatching]
        rfl
      · unfold Matching at hmatching
        rw [if_neg hmatching]
        exact bind_ok.2 ⟨_, disk, ofExcept_ok.2 ⟨rebuild_ok.2 ⟨hembeddable, rfl⟩, rfl⟩,
          bind_ok.2 ⟨_, disk, found_run _ disk,
            bind_ok.2 ⟨⟨⟩, disk, ask_ok.2 ⟨hrefuses, rfl⟩, rfl⟩⟩⟩

/-- Reconciling a column comes to write vectors: rows and vectors do not match, and nothing is in
the way. -/
def WritesVectors (W : World) (h : LanceStore) (datasets : Datasets) (table column : Text) :
    Prop :=
  ∃ embedder d existing present, Gathers W h datasets table column embedder d existing present ∧
    ¬ Matching existing present ∧ Embeddable embedder table existing present ∧
    W.format.refuses
      { h.call (vectorTable table column)
          (.overwrite (vectorBatch (present.flatMap (rowVectorsOf embedder table existing)))) with
        session := none }
      (datasets (h.place W (vectorTable table column))) = none

theorem WritesVectors.reconciles {datasets : Datasets} {table column : Text}
    (hwrites : WritesVectors W h datasets table column) :
    ∃ datasets', ReconcilesTo W h table column datasets datasets' := by
  obtain ⟨embedder, d, existing, present, hgathers, hmatching, hembeddable, hrefuses⟩ := hwrites
  exact ⟨_, embedder, d, existing, present, hgathers,
    .inr ⟨hmatching, _, rfl, hembeddable, hrefuses, rfl⟩⟩

/-- A reconciliation that succeeds and does not come to write vectors changes nothing. -/
theorem ReconcilesTo.settled {datasets datasets' : Datasets} {table column : Text}
    (hreconciles : ReconcilesTo W h table column datasets datasets')
    (hwrites : ¬ WritesVectors W h datasets table column) :
    datasets' = datasets ∧ ∃ embedder d existing present,
      Gathers W h datasets table column embedder d existing present ∧
        Matching existing present := by
  obtain ⟨embedder, d, existing, present, hgathers, houtcome⟩ := hreconciles
  rcases houtcome with ⟨hmatching, hsame⟩ | ⟨hmatching, batch, rfl, hembeddable, hrefuses, -⟩
  · exact ⟨hsame, embedder, d, existing, present, hgathers, hmatching⟩
  · exact absurd ⟨embedder, d, existing, present, hgathers, hmatching, hembeddable, hrefuses⟩
      hwrites

/-- One that fails has done nothing. -/
theorem reconcile_fails (table column : Text) : Fails Unchanged (h.reconcile W table column) := by
  cases hembedder : h.embedder with
  | none =>
    unfold reconcile
    rw [hembedder]
    exact (Keeps.throw _).fails
  | some embedder =>
    rw [reconcile_run hembedder]
    refine Fails.look (h.existingVectors_keeps W _ _) fun existing => ?_
    refine Fails.look (h.open_keeps W _) fun d => ?_
    refine Fails.look (ask_keeps W _ _ _ _) fun _ => ?_
    refine Fails.look (ask_keeps W _ _ _ _) fun _ => ?_
    refine Fails.look (ask_keeps W _ _ _ _) fun _ => ?_
    refine Fails.look (Keeps.ofExcept _) fun present => ?_
    split_ifs
    · exact (Keeps.pure _).fails
    · refine Fails.look (Keeps.ofExcept _) fun vectors => ?_
      refine Fails.look (h.found_keeps W _) fun before => ?_
      refine Fails.look (ask_keeps W _ _ _ _) fun _ => ?_
      intro disk e disk' hrun
      cases hrun

/-- Columns that are reconciled one after the other. -/
inductive ReconcilesEach (W : World) (h : LanceStore) (table : Text) :
    List Text → Datasets → Datasets → Prop where
  | nil (datasets : Datasets) : ReconcilesEach W h table [] datasets datasets
  | cons {column : Text} {columns : List Text} {datasets middle datasets' : Datasets}
    (first : ReconcilesTo W h table column datasets middle)
    (rest : ReconcilesEach W h table columns middle datasets') :
    ReconcilesEach W h table (column :: columns) datasets datasets'

/-- On the way through the columns of a table, one of the columns `S` comes to write vectors. -/
inductive WritesSome (W : World) (h : LanceStore) (table : Text) (S : Text → Prop) :
    List Text → Datasets → Prop where
  | here {column : Text} {columns : List Text} {datasets : Datasets} (mem : S column)
    (writes : WritesVectors W h datasets table column) :
    WritesSome W h table S (column :: columns) datasets
  | later {column : Text} {columns : List Text} {datasets middle : Datasets}
    (first : ReconcilesTo W h table column datasets middle)
    (rest : WritesSome W h table S columns middle) :
    WritesSome W h table S (column :: columns) datasets

theorem WritesSome.column {table : Text} {S : Text → Prop} {columns : List Text}
    {datasets : Datasets} (hwrites : WritesSome W h table S columns datasets) :
    ∃ column, S column := by
  induction hwrites with
  | here hmem _ => exact ⟨_, hmem⟩
  | later _ _ ih => exact ih

theorem WritesSome.prefix {table : Text} {S : Text → Prop} {done columns : List Text}
    {datasets : Datasets} (hwrites : WritesSome W h table S done datasets)
    (hdone : done <+: columns) : WritesSome W h table S columns datasets := by
  induction hwrites generalizing columns with
  | @here column done datasets hmem hwrites =>
    obtain ⟨rest, rfl⟩ := hdone
    exact .here hmem hwrites
  | @later column done datasets middle hfirst _ ih =>
    obtain ⟨rest, rfl⟩ := hdone
    exact .later hfirst (ih (List.prefix_append _ _))

theorem reconcileEach_ok {table : Text} {columns : List Text} {disk disk' : Disk} {u : PUnit} :
    (h.reconcileEach W table columns).run disk = .ok u disk' ↔
      ∃ datasets', ReconcilesEach W h table columns disk.datasets datasets' ∧
        disk' = { disk with datasets := datasets' } := by
  induction columns generalizing disk u with
  | nil =>
    change (.ok ⟨⟩ disk : EStateM.Result Error Disk PUnit) = _ ↔ _
    constructor
    · intro hrun
      cases hrun
      exact ⟨_, .nil _, rfl⟩
    · rintro ⟨_, ⟨⟩, rfl⟩
      rfl
  | cons column columns ih =>
    unfold reconcileEach
    constructor
    · intro hrun
      obtain ⟨_, s1, hfirst, hrest⟩ := bind_ok.1 hrun
      obtain ⟨middle, hreconciles, rfl⟩ := reconcile_ok.1 hfirst
      obtain ⟨datasets', heach, rfl⟩ := ih.1 hrest
      exact ⟨datasets', .cons hreconciles heach, rfl⟩
    · rintro ⟨datasets', heach, rfl⟩
      cases heach with
      | cons hfirst hrest =>
        exact bind_ok.2 ⟨⟨⟩, _, reconcile_ok.2 ⟨_, hfirst, rfl⟩, ih.2 ⟨_, hrest, rfl⟩⟩

/-- Where one column fails, those before it have been reconciled. -/
theorem reconcileEach_error {table : Text} {columns : List Text} {disk disk' : Disk} {e : Error}
    (hrun : (h.reconcileEach W table columns).run disk = .error e disk') :
    ∃ done, done <+: columns ∧ ReconcilesEach W h table done disk.datasets disk'.datasets := by
  induction columns generalizing disk with
  | nil => cases hrun
  | cons column columns ih =>
    unfold reconcileEach at hrun
    rcases bind_error.1 hrun with hfirst | ⟨_, s1, hfirst, hrest⟩
    · have hsame : disk' = disk := h.reconcile_fails table column _ _ _ hfirst
      rw [hsame]
      exact ⟨[], List.nil_prefix, .nil _⟩
    · obtain ⟨middle, hreconciles, rfl⟩ := reconcile_ok.1 hfirst
      obtain ⟨done, hdone, heach⟩ := ih hrest
      exact ⟨column :: done, List.cons_prefix_cons.2 ⟨rfl, hdone⟩, .cons hreconciles heach⟩

theorem embeddingColumns_ok {table : Text} {disk disk' : Disk} {columns : List Text} :
    (h.embeddingColumns W table).run disk = .ok columns disk' ↔
      ∃ d, Opens W h disk.datasets table d ∧ columns = d.schema.autoEmbeddingColumns ∧
        disk' = disk := by
  unfold embeddingColumns
  constructor
  · intro hrun
    obtain ⟨d, s1, hopen, hrest⟩ := bind_ok.1 hrun
    obtain ⟨hopens, rfl⟩ := open_ok.1 hopen
    cases hrest
    exact ⟨d, hopens, rfl, rfl⟩
  · rintro ⟨d, hopens, rfl, rfl⟩
    exact bind_ok.2 ⟨d, _, open_ok.2 ⟨hopens, rfl⟩, rfl⟩

/-! ## The whole of a write -/

/-- What stands under the paths once the rows of a write are committed. -/
def committed (W : World) (h : LanceStore) (datasets : Datasets) (w : Write) (d : Dataset) :
    Datasets :=
  Function.update datasets (h.place W w.table) (some d)

/-- A write went through: it was committed and recorded, and every column was reconciled. -/
def Writes (W : World) (h : LanceStore) (disk : Disk) (w : Write) (datasets' : Datasets) : Prop :=
  ∃ d, Commits W h disk.datasets w d ∧ Records W h disk.log ∧
    Opens W h (committed W h disk.datasets w d) w.table d ∧
    ReconcilesEach W h w.table d.schema.autoEmbeddingColumns (committed W h disk.datasets w d)
      datasets'

/-- A write got somewhere: to its commit and the first of its columns, or nowhere. -/
def Advances (W : World) (h : LanceStore) (datasets : Datasets) (w : Write)
    (datasets' : Datasets) : Prop :=
  datasets' = datasets ∨ ∃ d, Commits W h datasets w d ∧
    ∃ done, done <+: d.schema.autoEmbeddingColumns ∧
      ReconcilesEach W h w.table done (committed W h datasets w d) datasets'

/-- A write is committed and recorded, and then one of the columns `S` comes to write vectors. -/
def RewritesVectors (W : World) (h : LanceStore) (disk : Disk) (w : Write) (S : Text → Prop) :
    Prop :=
  ∃ d, Commits W h disk.datasets w d ∧ Records W h disk.log ∧
    Opens W h (committed W h disk.datasets w d) w.table d ∧
    WritesSome W h w.table S d.schema.autoEmbeddingColumns (committed W h disk.datasets w d)

theorem Opens.committed {datasets : Datasets} {w : Write} {d d' : Dataset}
    (hopens : Opens W h (committed W h datasets w d) w.table d') : d = d' := by
  have hplace := hopens.1
  unfold LanceStore.committed at hplace
  rw [Function.update_self] at hplace
  exact Option.some.inj hplace

/-- **A write that succeeds** went through. -/
theorem perform_write_ok {w : Write} {disk disk' : Disk} {answer : Answer}
    (hrun : (h.perform W w.op).run disk = .ok answer disk') :
    Writes W h disk w disk'.datasets := by
  rw [perform_write] at hrun
  obtain ⟨n, s1, hrows, h1⟩ := bind_ok.1 hrun
  obtain ⟨u, s2, hrecord, h2⟩ := bind_ok.1 h1
  obtain ⟨_, s3, hall, h3⟩ := bind_ok.1 h2
  cases h3
  obtain ⟨d, hcommits, rfl⟩ := writeRows_ok.1 ⟨n, hrows⟩
  have hrecords := record_ok.1 ⟨u, s2, hrecord⟩
  have hkept : s2.datasets = committed W h disk.datasets w d :=
    (h.record_datasets _ _).reaches _ _ _ hrecord
  obtain ⟨columns, s4, hcolumns, heach⟩ := bind_ok.1 hall
  obtain ⟨d', hopens, rfl, rfl⟩ := embeddingColumns_ok.1 hcolumns
  obtain ⟨datasets', hreconciles, rfl⟩ := reconcileEach_ok.1 heach
  rw [hkept] at hopens hreconciles
  cases hopens.committed
  exact ⟨d, hcommits, hrecords, hopens, hreconciles⟩

/-- One that goes through succeeds. -/
theorem perform_write_run {w : Write} {disk : Disk} {datasets' : Datasets}
    (hwrites : Writes W h disk w datasets') :
    ∃ answer disk', (h.perform W w.op).run disk = .ok answer disk' ∧
      disk'.datasets = datasets' := by
  obtain ⟨d, hcommits, hrecords, hopens, hreconciles⟩ := hwrites
  obtain ⟨n, hrows⟩ := writeRows_ok.2 ⟨d, hcommits, rfl⟩
  obtain ⟨u, s2, hrecord⟩ : ∃ u s2, (h.record W w.operation (count64 n)).run
      (disk.put (h.place W w.table) (some d)) = .ok u s2 := record_ok.2 hrecords
  have hkept : s2.datasets = committed W h disk.datasets w d :=
    (h.record_datasets _ _).reaches _ _ _ hrecord
  rw [← hkept] at hopens hreconciles
  rw [perform_write]
  exact ⟨w.answer n, { s2 with datasets := datasets' },
    bind_ok.2 ⟨n, _, hrows, bind_ok.2 ⟨u, s2, hrecord, bind_ok.2 ⟨⟨⟩, _,
      bind_ok.2 ⟨_, s2, embeddingColumns_ok.2 ⟨d, hopens, rfl, rfl⟩,
        reconcileEach_ok.2 ⟨datasets', hreconciles, rfl⟩⟩, rfl⟩⟩⟩, rfl⟩

/-- How far a write gets that fails: nowhere, to its commit, or to some of its columns. -/
theorem perform_write_stops {w : Write} {disk disk' : Disk} {e : Error}
    (hrun : (h.perform W w.op).run disk = .error e disk') :
    (disk'.datasets = disk.datasets ∧ ∀ d, ¬ Commits W h disk.datasets w d) ∨
      ∃ d, Commits W h disk.datasets w d ∧ (disk'.datasets = committed W h disk.datasets w d ∨
        Records W h disk.log ∧ Opens W h (committed W h disk.datasets w d) w.table d ∧
          ∃ done, done <+: d.schema.autoEmbeddingColumns ∧
            ReconcilesEach W h w.table done (committed W h disk.datasets w d) disk'.datasets) := by
  rw [perform_write] at hrun
  rcases bind_error.1 hrun with hrows | ⟨n, s1, hrows, h1⟩
  · have hsame : disk' = disk := h.writeRows_fails w _ _ _ hrows
    refine .inl ⟨congrArg Disk.datasets hsame, fun d hcommits => ?_⟩
    obtain ⟨n, hok⟩ := writeRows_ok.2 ⟨d, hcommits, rfl⟩
    rw [hrows] at hok
    cases hok
  · obtain ⟨d, hcommits, rfl⟩ := writeRows_ok.1 ⟨n, hrows⟩
    refine .inr ⟨d, hcommits, ?_⟩
    rcases bind_error.1 h1 with hrecord | ⟨u, s2, hrecord, h2⟩
    · exact .inl ((h.record_datasets _ _).fails _ _ _ hrecord)
    · have hkept : s2.datasets = committed W h disk.datasets w d :=
        (h.record_datasets _ _).reaches _ _ _ hrecord
      have hrecords := record_ok.1 ⟨u, s2, hrecord⟩
      rcases bind_error.1 h2 with hall | ⟨_, s3, -, h3⟩
      · rcases bind_error.1 hall with hcolumns | ⟨columns, s4, hcolumns, heach⟩
        · have hsame : disk' = s2 := (h.embeddingColumns_keeps W _).fails _ _ _ hcolumns
          rw [hsame]
          exact .inl hkept
        · obtain ⟨d', hopens, rfl, rfl⟩ := embeddingColumns_ok.1 hcolumns
          obtain ⟨done, hdone, hreconciles⟩ := reconcileEach_error heach
          rw [hkept] at hopens hreconciles
          cases hopens.committed
          exact .inr ⟨hrecords, hopens, done, hdone, hreconciles⟩
      · cases h3

/-- **A write that fails** got nowhere, or stopped somewhere behind its commit. -/
theorem perform_write_error {w : Write} {disk disk' : Disk} {e : Error}
    (hrun : (h.perform W w.op).run disk = .error e disk') :
    (disk'.datasets = disk.datasets ∧ ∀ d, ¬ Commits W h disk.datasets w d) ∨
      ∃ d, Commits W h disk.datasets w d ∧ ∃ done, done <+: d.schema.autoEmbeddingColumns ∧
        ReconcilesEach W h w.table done (committed W h disk.datasets w d) disk'.datasets := by
  rcases perform_write_stops hrun with hnowhere | ⟨d, hcommits, hsame | ⟨-, -, hcolumns⟩⟩
  · exact .inl hnowhere
  · rw [hsame]
    exact .inr ⟨d, hcommits, [], List.nil_prefix, .nil _⟩
  · exact .inr ⟨d, hcommits, hcolumns⟩

theorem perform_write_advances {w : Write} {disk : Disk} :
    Advances W h disk.datasets w (final ((h.perform W w.op).run disk)).datasets := by
  cases hrun : (h.perform W w.op).run disk with
  | ok answer disk' =>
    obtain ⟨d, hcommits, -, -, hreconciles⟩ := perform_write_ok hrun
    exact .inr ⟨d, hcommits, _, List.prefix_rfl, hreconciles⟩
  | error e disk' => exact (perform_write_error hrun).imp_left And.left

/-- A write succeeds exactly when it can go through. -/
theorem perform_write_succeeds {w : Write} {disk : Disk} :
    (∃ answer disk', (h.perform W w.op).run disk = .ok answer disk') ↔
      ∃ datasets', Writes W h disk w datasets' := by
  constructor
  · rintro ⟨answer, disk', hrun⟩
    exact ⟨_, perform_write_ok hrun⟩
  · rintro ⟨datasets', hwrites⟩
    obtain ⟨answer, disk', hrun, -⟩ := perform_write_run hwrites
    exact ⟨answer, disk', hrun⟩

end LanceStore

end EuleDB.Store
