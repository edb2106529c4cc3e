import EuleDB.Lib.Interleave
import EuleDB.Store.VectorRuns

/-!
# Writes in flight

Several writes can be in flight through one handle, and each is a sequence of parts: it opens its
table, commits its rows, records itself, opens the table for its columns, and for every column
opens the companion, reads its vectors, reads the table's texts and overwrites the companion.
Nothing locks the sequence, so that parts of other writes can come in between.

* `Stage`, `advance` — what a write does next, and what it does then.
* `Rebase` — how the rows of a write that was prepared on one version are committed to another.
* `advance_leads` — where a part of a write can lead.
* `runs_alone` — a write that nothing comes between does what the operation does.
-/

set_option autoImplicit false

namespace EuleDB.Store

open Crypto Audit Effect LanceStore Interleave

/-- What a write in flight does next. -/
inductive Stage where
  | start
  /-- Append rows to the table. -/
  | append (batch : Batch)
  /-- Commit what was prepared on the version that was opened. -/
  | rows (opened : Dataset)
  | record (n : Nat)
  | columns (n : Nat)
  | companion (n : Nat) (column : Text) (rest : List Text)
  | vectors (n : Nat) (column : Text) (rest : List Text)
  | texts (n : Nat) (column : Text) (rest : List Text) (existing : List RowVector)
  | write (n : Nat) (column : Text) (rest : List Text) (opened : Dataset)
    (vectors : List RowVector)
  | done (answer : Answer)
  | failed (e : Error)

variable (W : World)

namespace Write

/-- The rows of a write, committed to the version it was prepared on. -/
def commitOn : Write → Dataset → Dataset
  | append _ batch, d => d.add W.format batch.rows
  | update _ predicate assignments, d =>
    d.update W.format (W.format.selects predicate d) (W.format.assigned assignments d)
  | delete _ predicate, d => d.delete (W.format.selects predicate d)

/-- How many rows a write touches. -/
def touched : Write → Dataset → Nat
  | append _ batch, _ => batch.rows.length
  | update _ predicate _, d | delete _ predicate, d =>
    (d.rows.filter (W.format.selects predicate d)).length

/-- Where a write goes with the columns that are left. -/
def next (w : Write) (n : Nat) : List Text → Stage
  | [] => .done (w.answer n)
  | column :: rest => .companion n column rest

end Write

/-- What the format commits when a write was prepared on one version of a table and another is the
latest: what was prepared, where they are one version; and a dataset that follows the latest.
`touched` is the number of rows that it reports then. -/
structure Rebase where
  rebase : Write → Dataset → Dataset → Dataset
  touched : Write → Dataset → Dataset → Nat
  unmoved : ∀ w d, rebase w d d = w.commitOn W d
  touched_unmoved : ∀ w d, touched w d d = w.touched W d
  follows : ∀ w opened latest, Follows latest (rebase w opened latest)

/-- A row of the version that was opened, and one that the predicate selects there. -/
def picked (predicate : Text) (opened : Dataset) (r : Row) : Bool :=
  decide (r.id ∈ opened.rows.map Row.id) && W.format.selects predicate opened r

/-- What was prepared is done to the rows that are still there. -/
def Write.commitOnto : Write → Dataset → Dataset → Dataset
  | append _ batch, _, latest => latest.add W.format batch.rows
  | update _ predicate assignments, opened, latest =>
    latest.update W.format (picked W predicate opened) (W.format.assigned assignments opened)
  | delete _ predicate, opened, latest => latest.delete (picked W predicate opened)

/-- How many rows these are. -/
def Write.touchedOnto : Write → Dataset → Dataset → Nat
  | append _ batch, _, _ => batch.rows.length
  | update _ predicate _, opened, latest | delete _ predicate, opened, latest =>
    (latest.rows.filter (picked W predicate opened)).length

theorem picked_self {predicate : Text} {d : Dataset} {r : Row} (hr : r ∈ d.rows) :
    picked W predicate d r = W.format.selects predicate d r := by
  unfold picked
  rw [decide_eq_true (List.mem_map_of_mem hr), Bool.true_and]

/-- A format may commit so. -/
def Rebase.onto : Rebase W where
  rebase := Write.commitOnto W
  touched := Write.touchedOnto W
  unmoved := by
    intro w d
    cases w with
    | append table batch => rfl
    | update table predicate assignments =>
      exact Dataset.update_congr W.format fun r hr => picked_self W hr
    | delete table predicate => exact Dataset.delete_congr fun r hr => picked_self W hr
  touched_unmoved := by
    intro w d
    cases w with
    | append table batch => rfl
    | update table predicate assignments | delete table predicate =>
      exact congrArg List.length (List.filter_congr fun r hr => picked_self W hr)
  follows := by
    intro w opened latest
    cases w with
    | append table batch => exact Dataset.add_follows _ _
    | update table predicate assignments => exact Dataset.update_follows _ _ _
    | delete table predicate => exact Dataset.delete_follows _ _

namespace LanceStore

variable (h : LanceStore)

/-! ## The parts of a write -/

/-- What a write does before it commits rows. -/
def prepare : Write → StoreM Stage
  | .append table batch => do
    h.requireScope W .write table
    h.requireWriteRole "append to" table
    pure (.append batch)
  | .update table predicate assignments => do
    h.requireScope W .write table
    h.requireWriteRole "update" table
    if assignments = [] then throw (.storage (.nothingToSet table))
    else do
      let d ← h.open W table
      ask W "apply the predicate to" table (h.call table (.filter predicate)) (some d)
      h.askEach W table d assignments
      ask W "plan the update of" table (h.call table .planUpdate) (some d)
      pure (.rows d)
  | .delete table predicate => do
    h.requireScope W .write table
    h.requireWriteRole "delete from" table
    let d ← h.open W table
    ask W "count the rows to delete from" table (h.call table (.count (some predicate))) (some d)
    pure (.rows d)

/-- Append rows to what is there, or to a new table. -/
def appendTo (table : Text) (batch : Batch) : StoreM PUnit := do
  let before ← h.found W table
  ask W "append to the table" table (h.call table (.append batch)) before
  h.commit W table ((before.getD (.create batch.schema)).add W.format batch.rows)

/-- Whether the format takes the rows of a write. -/
def askCommit : Write → Dataset → StoreM PUnit
  | .append table batch, d =>
    ask W "append to the table" table (h.call table (.append batch)) (some d)
  | .update table predicate assignments, d =>
    ask W "update" table (h.call table (.update predicate assignments)) (some d)
  | .delete table predicate, d =>
    ask W "delete from" table (h.call table (.delete predicate)) (some d)

/-- Whether a column's companion opens. -/
def companionOpens (table column : Text) : StoreM Bool := fun disk =>
  match (h.open W (vectorTable table column)).run disk with
  | .ok _ disk => .ok true disk
  | .error _ disk => .ok false disk

/-- The texts of a column, and with them the version of the table they were read from. -/
def readTexts (table column : Text) : StoreM (Dataset × List (RowId × Text)) := do
  let d ← h.open W table
  ask W "project the embedding column of" table (h.call table (.project [column])) (some d)
  ask W "start a scan of the table" table (h.call table .stream) (some d)
  ask W "read the table" table (h.call table .read) (some d)
  let present ← ofExcept (presentTexts table column d)
  pure (d, present)

/-- Overwrite a column's companion. -/
def overwriteVectors (table column : Text) (vectors : List RowVector) : StoreM PUnit := do
  let before ← h.found W (vectorTable table column)
  ask W "write the vectors of" table
    { h.call (vectorTable table column) (.overwrite (vectorBatch vectors)) with session := none }
    before
  h.commit W (vectorTable table column)
    ((before.getD (.create vectorSchema)).overwrite W.format (vectorBatch vectors))

/-- The part of a write that its stage stands for. -/
def advance (R : Rebase W) (w : Write) : Stage → StoreM Stage
  | .start => h.prepare W w
  | .append batch => do
    h.appendTo W w.table batch
    pure (.record batch.rows.length)
  | .rows opened => do
    h.askCommit W w opened
    let found ← h.found W w.table
    let latest := found.getD opened
    h.commit W w.table (R.rebase w opened latest)
    pure (.record (R.touched w opened latest))
  | .record n => do
    h.record W w.operation (count64 n)
    pure (.columns n)
  | .columns n => do
    let columns ← h.embeddingColumns W w.table
    pure (w.next n columns)
  | .companion n column rest =>
    match h.embedder with
    | none => throw (.backend "embed the auto-embedding column of" w.table NO_EMBEDDER)
    | some _ => do
      let opens ← h.companionOpens W w.table column
      if opens then pure (.vectors n column rest) else pure (.texts n column rest [])
  | .vectors n column rest => do
    let existing ← h.vectorsOf W w.table column
    pure (.texts n column rest existing)
  | .texts n column rest existing =>
    match h.embedder with
    | none => throw (.backend "embed the auto-embedding column of" w.table NO_EMBEDDER)
    | some embedder => do
      let (d, present) ← h.readTexts W w.table column
      if (present.map Prod.fst).toFinset = (existing.map RowVector.row).toFinset then
        pure (w.next n rest)
      else do
        let vectors ← ofExcept (rebuild embedder w.table existing present)
        pure (.write n column rest d vectors)
  | .write n column rest _ vectors => do
    h.overwriteVectors W w.table column vectors
    pure (w.next n rest)
  | .done answer => pure (.done answer)
  | .failed e => throw e

/-! ## What is left to do -/

/-- What a column's reconciliation does with the vectors it found. -/
def reconcileFrom (table column : Text) (existing : List RowVector) : StoreM PUnit :=
  match h.embedder with
  | none => throw (.backend "embed the auto-embedding column of" table NO_EMBEDDER)
  | some embedder => do
    let (_, present) ← h.readTexts W table column
    if (present.map Prod.fst).toFinset = (existing.map RowVector.row).toFinset then pure ⟨⟩
    else do
      let vectors ← ofExcept (rebuild embedder table existing present)
      h.overwriteVectors W table column vectors

/-- Record a write whose rows are committed, and reconcile its table. -/
def finish (w : Write) (n : Nat) : StoreM Answer := do
  h.record W w.operation (count64 n)
  h.reconcileAll W w.table
  pure (w.answer n)

/-- The columns that are left. -/
def finishColumns (w : Write) (n : Nat) (columns : List Text) : StoreM Answer := do
  h.reconcileEach W w.table columns
  pure (w.answer n)

/-- What the operation still has to do at a stage. -/
def remaining (w : Write) : Stage → StoreM Answer
  | .start => h.perform W w.op
  | .append batch => do
    h.appendTo W w.table batch
    h.finish W w batch.rows.length
  | .rows opened => do
    h.askCommit W w opened
    h.commit W w.table (w.commitOn W opened)
    h.finish W w (w.touched W opened)
  | .record n => h.finish W w n
  | .columns n => do
    let columns ← h.embeddingColumns W w.table
    h.finishColumns W w n columns
  | .companion n column rest => h.finishColumns W w n (column :: rest)
  | .vectors n column rest => do
    let existing ← h.vectorsOf W w.table column
    h.reconcileFrom W w.table column existing
    h.finishColumns W w n rest
  | .texts n column rest existing => do
    h.reconcileFrom W w.table column existing
    h.finishColumns W w n rest
  | .write n column rest _ vectors => do
    h.overwriteVectors W w.table column vectors
    h.finishColumns W w n rest
  | .done answer => pure answer
  | .failed e => throw e

variable {W h}

/-- Nothing was committed to the table since the write opened it. -/
def Unmoved (W : World) (h : LanceStore) (w : Write) : Stage → Disk → Prop
  | .rows opened, disk => disk.datasets (h.place W w.table) = some opened
  | _, _ => True

theorem remaining_next (w : Write) (n : Nat) (columns : List Text) :
    h.remaining W w (w.next n columns) = h.finishColumns W w n columns := by
  cases columns with
  | nil => rfl
  | cons column rest => rfl

/-- Rows are committed in two parts. -/
theorem prepare_remaining (w : Write) :
    h.writeRows W w >>= h.finish W w = h.prepare W w >>= h.remaining W w := by
  cases w with
  | append table batch =>
    change h.appendRows W table batch >>= _ = _
    unfold appendRows prepare
    simp only [bind_assoc, pure_bind]
    refine bind_congr fun _ => bind_congr fun _ => ?_
    change _ = h.appendTo W table batch >>= fun _ => h.finish W _ batch.rows.length
    unfold appendTo
    simp only [bind_assoc]
  | update table predicate assignments =>
    change h.updateRows W table predicate assignments >>= _ = _
    unfold updateRows prepare
    simp only [bind_assoc]
    refine bind_congr fun _ => bind_congr fun _ => ?_
    split_ifs
    · rfl
    · simp only [bind_assoc, pure_bind]
      rfl
  | delete table predicate =>
    change h.deleteRows W table predicate >>= _ = _
    unfold deleteRows prepare
    simp only [bind_assoc, pure_bind]
    rfl

/-- Asking whether rows are taken commits nothing. -/
theorem askCommit_ok {w : Write} {d : Dataset} {disk disk' : Disk} {u : PUnit}
    (hrun : (h.askCommit W w d).run disk = .ok u disk') : disk' = disk := by
  cases w <;> exact (ask_ok.1 hrun).2

theorem companionOpens_ok {table column : Text} {disk disk' : Disk} {opens : Bool}
    (hrun : (h.companionOpens W table column).run disk = .ok opens disk') :
    (opens = true ↔ ∃ c, Opens W h disk.datasets (vectorTable table column) c) ∧
      disk' = disk := by
  change h.companionOpens W table column disk = _ at hrun
  unfold companionOpens at hrun
  cases hopen : (h.open W (vectorTable table column)).run disk with
  | ok c opened =>
    rw [hopen] at hrun
    cases hrun
    obtain ⟨hopens, rfl⟩ := open_ok.1 hopen
    exact ⟨iff_of_true rfl ⟨c, hopens⟩, rfl⟩
  | error e opened =>
    rw [hopen] at hrun
    cases hrun
    refine ⟨iff_of_false nofun ?_, (h.open_keeps W _).fails _ _ _ hopen⟩
    rintro ⟨c, hopens⟩
    rw [open_ok.2 ⟨hopens, rfl⟩] at hopen
    cases hopen

theorem readTexts_ok {table column : Text} {disk disk' : Disk} {d : Dataset}
    {present : List (RowId × Text)}
    (hrun : (h.readTexts W table column).run disk = .ok (d, present) disk') :
    Opens W h disk.datasets table d ∧ presentTexts table column d = .ok present ∧
      disk' = disk := by
  obtain ⟨_, s1, hopen, h1⟩ := bind_ok.1 hrun
  obtain ⟨_, s2, hfirst, h2⟩ := bind_ok.1 h1
  obtain ⟨_, s3, hsecond, h3⟩ := bind_ok.1 h2
  obtain ⟨_, s4, hthird, h4⟩ := bind_ok.1 h3
  obtain ⟨_, s5, hpresent, h5⟩ := bind_ok.1 h4
  obtain ⟨hopens, rfl⟩ := open_ok.1 hopen
  obtain ⟨-, rfl⟩ := ask_ok.1 hfirst
  obtain ⟨-, rfl⟩ := ask_ok.1 hsecond
  obtain ⟨-, rfl⟩ := ask_ok.1 hthird
  obtain ⟨htexts, rfl⟩ := ofExcept_ok.1 hpresent
  cases h5
  exact ⟨hopens, htexts, rfl⟩

theorem overwriteVectors_ok {table column : Text} {vectors : List RowVector}
    {disk disk' : Disk} {u : PUnit}
    (hrun : (h.overwriteVectors W table column vectors).run disk = .ok u disk') :
    ∃ before : Dataset, disk'.datasets = Function.update disk.datasets
      (h.place W (vectorTable table column))
      (some (before.overwrite W.format (vectorBatch vectors))) := by
  obtain ⟨before, s1, hfound, h1⟩ := bind_ok.1 hrun
  obtain ⟨_, s2, hask, h2⟩ := bind_ok.1 h1
  cases hfound
  obtain ⟨-, rfl⟩ := ask_ok.1 hask
  cases h2
  exact ⟨_, rfl⟩

theorem existingVectors_parts (table column : Text) :
    h.existingVectors W table column = (do
      let opens ← h.companionOpens W table column
      if opens then h.vectorsOf W table column else pure []) := by
  funext disk
  change h.existingVectors W table column disk = (h.companionOpens W table column >>= _).run disk
  have hopens : (h.companionOpens W table column).run disk =
      match (h.open W (vectorTable table column)).run disk with
      | .ok _ disk => .ok true disk
      | .error _ disk => .ok false disk := rfl
  unfold existingVectors
  rw [EStateM.run_bind, hopens]
  cases hrun : (h.open W (vectorTable table column)).run disk with
  | ok d disk' => rfl
  | error e disk' => rfl

/-- A reconciliation is what it finds and what it does with it. -/
theorem reconcile_from {embedder : Embedder} (hembedder : h.embedder = some embedder)
    (table column : Text) :
    h.reconcile W table column =
      h.existingVectors W table column >>= h.reconcileFrom W table column := by
  rw [reconcile_run hembedder]
  unfold reconcileFrom readTexts overwriteVectors
  rw [hembedder]
  simp only [bind_assoc, pure_bind]

/-- **A write is its parts.** -/
theorem remaining_advance {R : Rebase W} {w : Write} {stage : Stage} {disk : Disk}
    (hunmoved : Unmoved W h w stage disk) :
    (h.remaining W w stage).run disk =
      (h.advance W R w stage >>= h.remaining W w).run disk := by
  cases stage with
  | start =>
    change (h.perform W w.op).run disk = (h.prepare W w >>= h.remaining W w).run disk
    rw [perform_write, ← prepare_remaining]
    rfl
  | append batch =>
    unfold advance
    rw [bind_assoc]
    rfl
  | rows opened =>
    have hlatest : disk.datasets (h.place W w.table) = some opened := hunmoved
    unfold remaining advance
    rw [bind_assoc, EStateM.run_bind, EStateM.run_bind]
    cases hask : (h.askCommit W w opened).run disk with
    | error e disk' => rfl
    | ok u disk' =>
      obtain rfl := askCommit_ok hask
      dsimp only
      rw [bind_assoc, EStateM.run_bind, EStateM.run_bind, found_run, hlatest]
      dsimp only
      rw [Option.getD_some, R.unmoved, R.touched_unmoved]
      rfl
  | record n =>
    unfold remaining finish reconcileAll advance finishColumns
    simp only [bind_assoc, pure_bind]
  | columns n =>
    unfold advance
    rw [bind_assoc]
    simp only [pure_bind, remaining_next]
    rfl
  | companion n column rest =>
    change (h.reconcile W w.table column >>= (fun _ => h.reconcileEach W w.table rest) >>=
      fun _ => pure (w.answer n)).run disk = _
    unfold advance
    cases hembedder : h.embedder with
    | none =>
      unfold reconcile
      rw [hembedder]
      rfl
    | some embedder =>
      rw [reconcile_from hembedder, existingVectors_parts]
      dsimp only
      simp only [bind_assoc]
      refine congrArg (fun x : StoreM Answer => x.run disk) (bind_congr fun opens => ?_)
      cases opens with
      | true => rfl
      | false => rfl
  | vectors n column rest =>
    unfold advance
    rw [bind_assoc]
    rfl
  | texts n column rest existing =>
    change (h.reconcileFrom W w.table column existing >>= fun _ =>
      h.finishColumns W w n rest).run disk = _
    unfold reconcileFrom advance
    cases hembedder : h.embedder with
    | none => rfl
    | some embedder =>
      dsimp only
      simp only [bind_assoc]
      refine congrArg (fun x : StoreM Answer => x.run disk) (bind_congr fun entry => ?_)
      split_ifs
      · rw [pure_bind, pure_bind, remaining_next]
      · rw [bind_assoc, bind_assoc]
        rfl
  | write n column rest opened vectors =>
    unfold advance
    rw [bind_assoc]
    simp only [pure_bind, remaining_next]
    rfl
  | done answer => rfl
  | failed e => rfl

/-! ## Where a part leads -/

/-- What was prepared is for the version that is there. -/
theorem prepare_ok {w : Write} {disk disk' : Disk} {stage : Stage}
    (hrun : (h.prepare W w).run disk = .ok stage disk') :
    disk' = disk ∧ ((∃ table batch, w = .append table batch ∧ stage = .append batch) ∨
      ∃ opened, stage = .rows opened ∧ disk.datasets (h.place W w.table) = some opened) := by
  cases w with
  | append table batch =>
    obtain ⟨_, s1, hscope, h1⟩ := bind_ok.1 hrun
    obtain ⟨_, s2, hrole, h2⟩ := bind_ok.1 h1
    obtain ⟨-, rfl⟩ := requireScope_ok.1 hscope
    obtain ⟨-, rfl⟩ := requireWriteRole_ok.1 hrole
    cases h2
    exact ⟨rfl, .inl ⟨table, batch, rfl, rfl⟩⟩
  | update table predicate assignments =>
    obtain ⟨_, s1, hscope, h1⟩ := bind_ok.1 hrun
    obtain ⟨_, s2, hrole, h2⟩ := bind_ok.1 h1
    obtain ⟨-, rfl⟩ := requireScope_ok.1 hscope
    obtain ⟨-, rfl⟩ := requireWriteRole_ok.1 hrole
    split at h2
    · cases h2
    · obtain ⟨d, s3, hopen, h3⟩ := bind_ok.1 h2
      obtain ⟨_, s4, hfirst, h4⟩ := bind_ok.1 h3
      obtain ⟨_, s5, heach, h5⟩ := bind_ok.1 h4
      obtain ⟨_, s6, hsecond, h6⟩ := bind_ok.1 h5
      obtain ⟨hopens, rfl⟩ := open_ok.1 hopen
      obtain ⟨-, rfl⟩ := ask_ok.1 hfirst
      obtain ⟨-, rfl⟩ := askEach_ok.1 heach
      obtain ⟨-, rfl⟩ := ask_ok.1 hsecond
      cases h6
      exact ⟨rfl, .inr ⟨d, rfl, hopens.1⟩⟩
  | delete table predicate =>
    obtain ⟨_, s1, hscope, h1⟩ := bind_ok.1 hrun
    obtain ⟨_, s2, hrole, h2⟩ := bind_ok.1 h1
    obtain ⟨d, s3, hopen, h3⟩ := bind_ok.1 h2
    obtain ⟨_, s4, hask, h4⟩ := bind_ok.1 h3
    obtain ⟨-, rfl⟩ := requireScope_ok.1 hscope
    obtain ⟨-, rfl⟩ := requireWriteRole_ok.1 hrole
    obtain ⟨hopens, rfl⟩ := open_ok.1 hopen
    obtain ⟨-, rfl⟩ := ask_ok.1 hask
    cases h4
    exact ⟨rfl, .inr ⟨d, rfl, hopens.1⟩⟩

/-- Where a part of a write can lead. -/
def Leads (w : Write) : Stage → Stage → Prop
  | .start, next => (∃ batch, next = .append batch) ∨ ∃ opened, next = .rows opened
  | .append _, next | .rows _, next => ∃ n, next = .record n
  | .record n, next => next = .columns n
  | .columns n, next => ∃ columns, next = w.next n columns
  | .companion n column rest, next =>
    next = .vectors n column rest ∨ next = .texts n column rest []
  | .vectors n column rest, next => ∃ existing, next = .texts n column rest existing
  | .texts n column rest _, next =>
    next = w.next n rest ∨ ∃ d vectors, next = .write n column rest d vectors
  | .write n _ rest _ _, next => next = w.next n rest
  | .done answer, next => next = .done answer
  | .failed _, _ => False

theorem advance_companion_ok {R : Rebase W} {w : Write} {n : Nat} {column : Text}
    {rest : List Text} {next : Stage} {disk disk' : Disk}
    (hrun : (h.advance W R w (.companion n column rest)).run disk = .ok next disk') :
    ∃ opens, (h.companionOpens W w.table column).run disk = .ok opens disk' ∧
      next = if opens then .vectors n column rest else .texts n column rest [] := by
  unfold advance at hrun
  cases hembedder : h.embedder with
  | none =>
    rw [hembedder] at hrun
    cases hrun
  | some embedder =>
    rw [hembedder] at hrun
    obtain ⟨opens, s1, hopens, h1⟩ := bind_ok.1 hrun
    cases opens <;> cases h1 <;> exact ⟨_, hopens, rfl⟩

theorem advance_texts_ok {R : Rebase W} {w : Write} {n : Nat} {column : Text}
    {rest : List Text} {existing : List RowVector} {next : Stage} {disk disk' : Disk}
    (hrun : (h.advance W R w (.texts n column rest existing)).run disk = .ok next disk') :
    ∃ embedder d present, h.embedder = some embedder ∧
      (h.readTexts W w.table column).run disk = .ok (d, present) disk' ∧
      ((present.map Prod.fst).toFinset = (existing.map RowVector.row).toFinset ∧
          next = w.next n rest ∨
        ∃ vectors, rebuild embedder w.table existing present = .ok vectors ∧
          next = .write n column rest d vectors) := by
  unfold advance at hrun
  cases hembedder : h.embedder with
  | none =>
    rw [hembedder] at hrun
    cases hrun
  | some embedder =>
    rw [hembedder] at hrun
    obtain ⟨⟨d, present⟩, s1, htexts, h1⟩ := bind_ok.1 hrun
    dsimp only at h1
    split_ifs at h1 with hmatching
    · cases h1
      exact ⟨embedder, d, present, rfl, htexts, .inl ⟨hmatching, rfl⟩⟩
    · obtain ⟨vectors, s2, hvectors, h2⟩ := bind_ok.1 h1
      obtain ⟨hrebuild, rfl⟩ := ofExcept_ok.1 hvectors
      cases h2
      exact ⟨embedder, d, present, rfl, htexts, .inr ⟨vectors, hrebuild, rfl⟩⟩

/-- **A part of a write leads where its stage says.** -/
theorem advance_leads {R : Rebase W} {w : Write} {stage next : Stage} {disk disk' : Disk}
    (hrun : (h.advance W R w stage).run disk = .ok next disk') : Leads w stage next := by
  cases stage with
  | start =>
    obtain ⟨-, ⟨table, batch, -, hstage⟩ | ⟨opened, hstage, -⟩⟩ := prepare_ok hrun
    · exact .inl ⟨batch, hstage⟩
    · exact .inr ⟨opened, hstage⟩
  | append batch =>
    obtain ⟨_, s1, -, h1⟩ := bind_ok.1 hrun
    cases h1
    exact ⟨_, rfl⟩
  | rows opened =>
    obtain ⟨_, s1, -, h1⟩ := bind_ok.1 hrun
    obtain ⟨_, s2, -, h2⟩ := bind_ok.1 h1
    obtain ⟨_, s3, -, h3⟩ := bind_ok.1 h2
    cases h3
    exact ⟨_, rfl⟩
  | record n =>
    obtain ⟨_, s1, -, h1⟩ := bind_ok.1 hrun
    cases h1
    rfl
  | columns n =>
    obtain ⟨columns, s1, -, h1⟩ := bind_ok.1 hrun
    exact ⟨columns, (EStateM.Result.ok.inj h1).1.symm⟩
  | companion n column rest =>
    obtain ⟨opens, -, rfl⟩ := advance_companion_ok hrun
    cases opens with
    | true => exact .inl rfl
    | false => exact .inr rfl
  | vectors n column rest =>
    obtain ⟨existing, s1, -, h1⟩ := bind_ok.1 hrun
    cases h1
    exact ⟨existing, rfl⟩
  | texts n column rest existing =>
    obtain ⟨_, d, _, -, -, ⟨-, rfl⟩ | ⟨vectors, -, rfl⟩⟩ := advance_texts_ok hrun
    · exact .inl rfl
    · exact .inr ⟨d, vectors, rfl⟩
  | write n column rest opened vectors =>
    obtain ⟨_, s1, -, h1⟩ := bind_ok.1 hrun
    exact (EStateM.Result.ok.inj h1).1.symm
  | done answer => exact (EStateM.Result.ok.inj hrun).1.symm
  | failed e => cases hrun

/-- Only the first part of a write prepares rows. -/
theorem advance_rows {R : Rebase W} {w : Write} {stage : Stage} {disk disk' : Disk}
    {opened : Dataset} (hrun : (h.advance W R w stage).run disk = .ok (.rows opened) disk') :
    stage = .start := by
  have hnext : ∀ {n columns}, .rows opened ≠ w.next n columns := by
    intro n columns
    cases columns <;> exact Stage.noConfusion
  have hleads := advance_leads hrun
  cases stage with
  | start => rfl
  | append batch => exact hleads.elim nofun
  | rows opened' => exact hleads.elim nofun
  | record n => cases hleads
  | columns n => exact hleads.elim fun columns heq => absurd heq hnext
  | companion n column rest => rcases hleads with hleads | hleads <;> cases hleads
  | vectors n column rest => exact hleads.elim nofun
  | texts n column rest existing =>
    rcases hleads with heq | ⟨d, vectors, heq⟩
    · exact absurd heq hnext
    · cases heq
  | write n column rest opened' vectors => exact absurd hleads hnext
  | done answer => cases hleads
  | failed e => cases hleads

theorem advance_unmoved {R : Rebase W} {w : Write} {stage next : Stage} {disk disk' : Disk}
    (hrun : (h.advance W R w stage).run disk = .ok next disk') : Unmoved W h w next disk' := by
  cases next with
  | rows opened =>
    cases advance_rows hrun
    obtain ⟨rfl, ⟨table, batch, -, hstage⟩ | ⟨opened', hstage, hplace⟩⟩ := prepare_ok hrun
    · cases hstage
    · cases hstage
      exact hplace
  | _ => trivial

/-- **A write that nothing comes between** does what the operation does. -/
theorem runs_alone {R : Rebase W} {w : Write} {disk : Disk} {stage : Stage} {disk' : Disk}
    (halone : Alone (h.advance W R w) .failed (.start, disk) (stage, disk')) :
    (h.perform W w.op).run disk = (h.remaining W w stage).run disk' := by
  have hfailed : ∀ e s, Unmoved W h w (.failed e) s ∧
      (h.remaining W w (.failed e)).run s = .error e s := fun e s => ⟨trivial, rfl⟩
  exact halone.remaining (fun _ _ => remaining_advance) (fun _ _ _ _ _ => advance_unmoved) hfailed
    trivial

end LanceStore

end EuleDB.Store
