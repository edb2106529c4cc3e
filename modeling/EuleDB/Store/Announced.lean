import EuleDB.Store.Interleaving

/-!
# The rows that a delete announces

A delete counts the rows that it is about to remove, logs the number, and then removes them.  A
commit of another write can come between, and the format then decides what is removed.

* `Rebase.Reports` — what the format does with a delete that was prepared on an older version.
* `Rebase.Reports.agrees_iff` — when the number removed is the number announced.
* `Told`, `tell` — a write in flight, with what it has logged and removed.
* `announced_is_removed` — the two numbers agree in every run in which no delete loses a row
  that it counted to another commit, or it then finds as many.
* `delete_after_count` — two deletes of one row announce it twice and remove it once.
-/

set_option autoImplicit false

namespace EuleDB.Store

open Crypto Audit Effect LanceStore Interleave

/-! ## Deletes on an older version -/

variable (W : World)

/-- The rows of a version that a predicate selects. -/
def selected (predicate : Text) (d : Dataset) : List Row :=
  d.rows.filter (W.format.selects predicate d)

/-- The rows of the version that was opened are all still there. -/
def AllThere (predicate : Text) (opened latest : Dataset) : Prop :=
  ∀ r ∈ selected W predicate opened, r ∈ latest.rows

instance (predicate : Text) (opened latest : Dataset) :
    Decidable (AllThere W predicate opened latest) :=
  List.decidableBAll _ _

variable {W}

/-- What the format does with a delete that was prepared on one version when another is the
latest: it removes the rows that it found, where they are all still there; it is run again on the
latest version, where another commit has taken one of them; and it reports how many rows it
removed. -/
structure Rebase.Reports (R : Rebase W) : Prop where
  merged : ∀ table predicate opened latest, AllThere W predicate opened latest →
    R.rebase (.delete table predicate) opened latest =
      latest.delete fun r => decide (r ∈ selected W predicate opened)
  retried : ∀ table predicate opened latest, ¬AllThere W predicate opened latest →
    R.rebase (.delete table predicate) opened latest =
      latest.delete (W.format.selects predicate latest)
  reported : ∀ table predicate opened latest,
    (R.rebase (.delete table predicate) opened latest).rows.length +
      R.touched (.delete table predicate) opened latest = latest.rows.length

theorem Dataset.length_delete (d : Dataset) (p : Row → Bool) :
    (d.delete p).rows.length + (d.rows.filter p).length = d.rows.length := by
  rw [Dataset.delete_rows, Nat.add_comm]
  exact List.length_eq_length_filter_add p |>.symm

/-- Rows that are all there are as many as there are of them. -/
theorem Dataset.length_filter_mem (d : Dataset) {rows : List Row} (hnodup : rows.Nodup)
    (hthere : ∀ r ∈ rows, r ∈ d.rows) :
    (d.rows.filter fun r => decide (r ∈ rows)).length = rows.length := by
  apply List.Perm.length_eq
  rw [List.perm_ext_iff_of_nodup (d.nodup.of_map.filter _) hnodup]
  intro r
  rw [List.mem_filter, decide_eq_true_iff]
  exact ⟨And.right, fun hr => ⟨hthere r hr, hr⟩⟩

theorem nodup_selected (predicate : Text) (d : Dataset) : (selected W predicate d).Nodup :=
  d.nodup.of_map.filter _

namespace Rebase.Reports

variable {R : Rebase W}

/-- How many rows a delete removes. -/
theorem touched_eq (hreports : R.Reports) (table predicate : Text) (opened latest : Dataset) :
    R.touched (.delete table predicate) opened latest =
      if AllThere W predicate opened latest then (selected W predicate opened).length
      else (selected W predicate latest).length := by
  have hreported := hreports.reported table predicate opened latest
  split
  case isTrue hall =>
    have hlength := latest.length_delete fun r => decide (r ∈ selected W predicate opened)
    rw [latest.length_filter_mem (nodup_selected _ _) hall,
      ← hreports.merged table predicate opened latest hall] at hlength
    omega
  case isFalse hlost =>
    have hlength := latest.length_delete (W.format.selects predicate latest)
    rw [← hreports.retried table predicate opened latest hlost] at hlength
    change _ = (latest.rows.filter (W.format.selects predicate latest)).length
    omega

/-- **When the number removed is the number announced**: no other commit has taken a row that was
counted, or the predicate selects as many of the rows that are there now. -/
theorem agrees_iff (hreports : R.Reports) (table predicate : Text) (opened latest : Dataset) :
    count64 (R.touched (.delete table predicate) opened latest) =
        count64 (selected W predicate opened).length ↔
      AllThere W predicate opened latest ∨
        count64 (selected W predicate latest).length =
          count64 (selected W predicate opened).length := by
  rw [hreports.touched_eq]
  split
  case isTrue hall => simp [hall]
  case isFalse hlost => simp [hlost]

end Rebase.Reports

/-! ## What a write in flight has told -/

variable (W)

/-- What a write logs before it changes rows: the number of rows that a delete counted. -/
def Write.announcement : Write → Dataset → Option UInt64
  | delete _ predicate, opened => some (count64 (selected W predicate opened).length)
  | append _ _, _ | update _ _ _, _ => none

/-- A write in flight, the number that it has logged, and how many rows its commit removed. -/
structure Told where
  stage : Stage
  announced : Option UInt64
  removed : Option Nat

def Told.start : Told := ⟨.start, none, none⟩

def Told.failed (e : Error) : Told := ⟨.failed e, none, none⟩

/-- What a write has told after a part that led from one table to another. -/
def Told.next (w : Write) (t : Told) (before after : Option Dataset) (stage : Stage) : Told :=
  match t.stage, stage with
  | .start, .rows opened => ⟨stage, w.announcement W opened, t.removed⟩
  | .rows opened, _ =>
    ⟨stage, t.announced,
      some ((before.getD opened).rows.length - (after.getD opened).rows.length)⟩
  | _, _ => ⟨stage, t.announced, t.removed⟩

/-- The part of a write that comes next, with what it tells. -/
def LanceStore.tell (h : LanceStore) (R : Rebase W) (w : Write) (t : Told) : StoreM Told := do
  let before ← h.found W w.table
  let stage ← h.advance W R w t.stage
  let after ← h.found W w.table
  pure (t.next W w before after stage)

/-- The number that a write is going to return, or has returned. -/
def Stage.counted : Stage → Option UInt64
  | .record n | .columns n | .companion n _ _ | .vectors n _ _ | .texts n _ _ _ |
    .write n _ _ _ _ => some (count64 n)
  | .done (.rows n) => some n
  | _ => none

/-- What a delete has told agrees: it has logged how many rows it opened to remove, and what it
is going to return is what it has logged and what it has removed. -/
def Agrees (predicate : Text) (t : Told) : Prop :=
  match t.stage with
  | .append _ => False
  | .rows opened => t.announced = some (count64 (selected W predicate opened).length)
  | stage => ∀ n, stage.counted = some n →
    t.announced = some n ∧ ∃ rows, t.removed = some rows ∧ count64 rows = n

variable {W} {h : LanceStore} {R : Rebase W}

/-! ## The parts of a delete -/

theorem tell_ok {w : Write} {t t' : Told} {disk disk' : Disk}
    (hrun : (h.tell W R w t).run disk = .ok t' disk') :
    ∃ stage, (h.advance W R w t.stage).run disk = .ok stage disk' ∧
      t' = t.next W w (disk.datasets (h.place W w.table)) (disk'.datasets (h.place W w.table))
        stage := by
  obtain ⟨before, s1, hbefore, h1⟩ := bind_ok.1 hrun
  obtain ⟨stage, s2, hadvance, h2⟩ := bind_ok.1 h1
  obtain ⟨after, s3, hafter, h3⟩ := bind_ok.1 h2
  cases hbefore
  cases hafter
  cases h3
  exact ⟨stage, hadvance, rfl⟩

/-- What the commit of a write does. -/
theorem advance_commit {w : Write} {opened : Dataset} {disk disk' : Disk} {next : Stage}
    (hrun : (h.advance W R w (.rows opened)).run disk = .ok next disk') :
    next = .record (R.touched w opened ((disk.datasets (h.place W w.table)).getD opened)) ∧
      disk'.datasets (h.place W w.table) =
        some (R.rebase w opened ((disk.datasets (h.place W w.table)).getD opened)) := by
  obtain ⟨_, s1, hask, h1⟩ := bind_ok.1 hrun
  obtain rfl := askCommit_ok hask
  obtain ⟨found, s2, hfound, h2⟩ := bind_ok.1 h1
  obtain ⟨_, s3, hcommit, h3⟩ := bind_ok.1 h2
  cases hfound
  cases hcommit
  cases h3
  exact ⟨rfl, Function.update_self _ _ _⟩

/-- The columns that are left change nothing that was told. -/
theorem agrees_next {table predicate : Text} {n : Nat} {columns : List Text}
    {announced : Option UInt64} {removed : Option Nat}
    (htold : announced = some (count64 n) ∧
      ∃ rows, removed = some rows ∧ count64 rows = count64 n) :
    Agrees W predicate ⟨(Write.delete table predicate).next n columns, announced, removed⟩ := by
  cases columns with
  | nil =>
    rintro _ ⟨⟩
    exact htold
  | cons column rest =>
    rintro _ ⟨⟩
    exact htold

/-- **A commit tells the truth** where no row that was counted is lost to another commit, or as
many rows are found. -/
theorem Agrees.commit (hreports : R.Reports) {table predicate : Text} {opened latest : Dataset}
    {announced : Option UInt64}
    (hannounced : announced = some (count64 (selected W predicate opened).length))
    (hmeets : AllThere W predicate opened latest ∨
      count64 (selected W predicate latest).length = count64 (selected W predicate opened).length) :
    Agrees W predicate ⟨.record (R.touched (.delete table predicate) opened latest), announced,
      some (latest.rows.length -
        (R.rebase (.delete table predicate) opened latest).rows.length)⟩ := by
  have htouched := (hreports.agrees_iff table predicate opened latest).2 hmeets
  have hremoved : latest.rows.length -
      (R.rebase (.delete table predicate) opened latest).rows.length =
        R.touched (.delete table predicate) opened latest := by
    have := hreports.reported table predicate opened latest
    omega
  rintro _ ⟨⟩
  rw [htouched]
  exact ⟨hannounced, _, rfl, by rw [hremoved, htouched]⟩

/-- What every part of a delete preserves. -/
theorem Agrees.tell (hreports : R.Reports) {table predicate : Text} {t t' : Told}
    {disk disk' : Disk} (hagrees : Agrees W predicate t)
    (hmeets : ∀ opened latest, t.stage = .rows opened →
      latest = (disk.datasets (h.place W table)).getD opened →
      AllThere W predicate opened latest ∨
        count64 (selected W predicate latest).length =
          count64 (selected W predicate opened).length)
    (hrun : (h.tell W R (.delete table predicate) t).run disk = .ok t' disk') :
    Agrees W predicate t' := by
  obtain ⟨next, hadvance, rfl⟩ := tell_ok hrun
  obtain ⟨stage, announced, removed⟩ := t
  have hleads := advance_leads hadvance
  cases stage with
  | start =>
    have hprepare : (h.prepare W (.delete table predicate)).run disk = .ok next disk' := hadvance
    obtain ⟨-, ⟨table', batch, hw, -⟩ | ⟨opened, rfl, -⟩⟩ := prepare_ok hprepare
    · cases hw
    · rfl
  | append batch => exact hagrees.elim
  | rows opened =>
    obtain ⟨rfl, hafter⟩ := advance_commit hadvance
    change Agrees W predicate ⟨_, announced, some _⟩
    rw [hafter, Option.getD_some]
    exact Agrees.commit hreports hagrees (hmeets opened _ rfl rfl)
  | record n =>
    cases hleads
    rintro _ ⟨⟩
    exact hagrees _ rfl
  | columns n =>
    obtain ⟨columns, rfl⟩ := hleads
    exact agrees_next (hagrees _ rfl)
  | companion n column rest =>
    rcases hleads with rfl | rfl
    · rintro _ ⟨⟩
      exact hagrees _ rfl
    · rintro _ ⟨⟩
      exact hagrees _ rfl
  | vectors n column rest =>
    obtain ⟨existing, rfl⟩ := hleads
    rintro _ ⟨⟩
    exact hagrees _ rfl
  | texts n column rest existing =>
    rcases hleads with rfl | ⟨d, vectors, rfl⟩
    · exact agrees_next (hagrees _ rfl)
    · rintro _ ⟨⟩
      exact hagrees _ rfl
  | write n column rest opened vectors =>
    cases hleads
    exact agrees_next (hagrees _ rfl)
  | done answer =>
    cases hleads
    exact hagrees
  | failed e => exact hleads.elim

/-! ## Every interleaving -/

section Runs

variable {ι : Type} [DecidableEq ι] (calls : ι → Write)

/-- The commit of a delete comes when the rows that it counted are all still there, or as many are
selected. -/
def CommitsAsCounted (W : World) (h : LanceStore) (calls : ι → Write) (s : Threads Disk ι Told)
    (i : ι) : Prop :=
  match calls i, (s.stage i).stage with
  | .delete table predicate, .rows opened =>
    let latest := (s.shared.datasets (h.place W table)).getD opened
    AllThere W predicate opened latest ∨
      count64 (selected W predicate latest).length = count64 (selected W predicate opened).length
  | _, _ => True

variable {calls}

/-- **The number announced is the number removed.**  However the parts of any number of appends,
updates and deletes through one handle come between one another: where every delete commits while
the rows that it counted are all there, or the predicate selects as many, a delete that returns
has logged the number that it returns, and removed as many rows. -/
theorem announced_is_removed (hreports : R.Reports) {disk : Disk} {s : Threads Disk ι Told}
    (hreached : Interleave.Reached (fun i => h.tell W R (calls i)) Told.failed
      (CommitsAsCounted W h calls) ⟨disk, fun _ => .start⟩ s) {i : ι} {table predicate : Text}
    (hcall : calls i = .delete table predicate) {n : UInt64}
    (hdone : (s.stage i).stage = .done (.rows n)) :
    (s.stage i).announced = some n ∧
      ∃ rows, (s.stage i).removed = some rows ∧ count64 rows = n := by
  have hagrees := hreached.invariant (fun s => ∀ j table predicate,
      calls j = .delete table predicate → Agrees W predicate (s.stage j))
    (by rintro _ _ _ - _ ⟨⟩) ?_ i table predicate hcall
  · unfold Agrees at hagrees
    rw [hdone] at hagrees
    exact hagrees n rfl
  · intro s j hs hmeets k table predicate hk
    by_cases hkj : k = j
    · subst hkj
      unfold Threads.step advanceOne
      cases hrun : (h.tell W R (calls k) (s.stage k)).run s.shared with
      | ok t disk' =>
        dsimp only
        rw [Function.update_self]
        rw [hk] at hrun
        refine (hs k table predicate hk).tell hreports ?_ hrun
        rintro opened latest hrows rfl
        unfold CommitsAsCounted at hmeets
        rwa [hk, hrows] at hmeets
      | error e disk' =>
        dsimp only
        rw [Function.update_self]
        rintro _ ⟨⟩
    · unfold Threads.step
      dsimp only
      rw [Function.update_of_ne hkj]
      exact hs k table predicate hk

end Runs

/-! ## A format that runs a delete again -/

section Retrying

variable (W)

/-- The version that the rows of a write are found in: the one that was opened, or the latest where
one of them is no longer there. -/
def foundIn (predicate : Text) (opened latest : Dataset) : Dataset :=
  if AllThere W predicate opened latest then opened else latest

/-- What was found is done to the latest version. -/
def Write.commitFound : Write → Dataset → Dataset → Dataset
  | append _ batch, _, latest => latest.add W.format batch.rows
  | update _ predicate assignments, opened, latest =>
    let d := foundIn W predicate opened latest
    latest.update W.format (fun r => decide (r ∈ selected W predicate d))
      (W.format.assigned assignments d)
  | delete _ predicate, opened, latest =>
    latest.delete fun r => decide (r ∈ selected W predicate (foundIn W predicate opened latest))

def Write.touchedFound : Write → Dataset → Dataset → Nat
  | append _ batch, _, _ => batch.rows.length
  | update _ predicate _, opened, latest | delete _ predicate, opened, latest =>
    (selected W predicate (foundIn W predicate opened latest)).length

theorem foundIn_self (predicate : Text) (d : Dataset) : foundIn W predicate d d = d := ite_self d

theorem mem_selected_self {predicate : Text} {d : Dataset} {r : Row} (hr : r ∈ d.rows) :
    decide (r ∈ selected W predicate d) = W.format.selects predicate d r := by
  rw [Bool.eq_iff_iff, decide_eq_true_iff, selected, List.mem_filter]
  exact and_iff_right hr

/-- A format may commit so, too. -/
def Rebase.retrying : Rebase W where
  rebase := Write.commitFound W
  touched := Write.touchedFound W
  unmoved := by
    intro w d
    cases w with
    | append table batch => rfl
    | update table predicate assignments =>
      simp only [Write.commitFound, foundIn_self]
      exact Dataset.update_congr W.format fun r hr => mem_selected_self W hr
    | delete table predicate =>
      simp only [Write.commitFound, foundIn_self]
      exact Dataset.delete_congr fun r hr => mem_selected_self W hr
  touched_unmoved := by
    intro w d
    cases w with
    | append table batch => rfl
    | update table predicate assignments | delete table predicate =>
      simp only [Write.touchedFound, foundIn_self]
      rfl
  follows := by
    intro w opened latest
    cases w with
    | append table batch => exact Dataset.add_follows _ _
    | update table predicate assignments => exact Dataset.update_follows _ _ _
    | delete table predicate => exact Dataset.delete_follows _ _

theorem retrying_reports : (Rebase.retrying W).Reports where
  merged table predicate opened latest hall := by
    change latest.delete _ = _
    rw [foundIn, if_pos hall]
  retried table predicate opened latest hlost := by
    change latest.delete _ = _
    rw [foundIn, if_neg hlost]
    exact Dataset.delete_congr fun r hr => mem_selected_self W hr
  reported table predicate opened latest := by
    have hthere : ∀ r ∈ selected W predicate (foundIn W predicate opened latest),
        r ∈ latest.rows := by
      unfold foundIn
      split
      case isTrue hall => exact hall
      case isFalse => exact fun r hr => (List.mem_filter.1 hr).1
    change (latest.delete _).rows.length + (selected W predicate _).length = _
    rw [← latest.length_filter_mem (nodup_selected _ _) hthere]
    exact latest.length_delete _

end Retrying

/-! ## A row that is deleted twice -/

def keeper : LanceStore := .openForWriting "db".toList

def appendNote (text : Text) : Write :=
  .append "notes".toList ⟨⟨[⟨"text".toList, .utf8, false, []⟩], []⟩, [[.utf8 text]]⟩

/-- A table with one row. -/
def oneNote : Disk := final ((keeper.perform .plain (appendNote "a".toList).op).run Disk.empty)

/-- A delete of every row, and another write. -/
def deleting (other : Write) : Bool → Write
  | false => .delete "notes".toList "true".toList
  | true => other

def deletingRun (other : Write) (schedule : List Bool) : Threads Disk Bool Told :=
  Threads.run (fun i => keeper.tell .plain (Rebase.retrying .plain) (deleting other i)) Told.failed
    ⟨oneNote, fun _ => .start⟩ schedule

/-- The first write counts, the second is run as a whole, and the first commits. -/
def overtakenDelete : List Bool := [false, true, true, true, true, false, false, false]

/-- A row that is added after the count stays. -/
theorem append_after_count :
    ((deletingRun (appendNote "b".toList) overtakenDelete).stage false).announced = some 1 ∧
      ∃ rows, ((deletingRun (appendNote "b".toList) overtakenDelete).stage false).removed =
        some rows ∧ count64 rows = 1 := by
  have hmeet : AllMeet
      (fun i => keeper.tell .plain (Rebase.retrying .plain) (deleting (appendNote "b".toList) i))
      Told.failed (CommitsAsCounted .plain keeper (deleting (appendNote "b".toList)))
      ⟨oneNote, fun _ => .start⟩ overtakenDelete := by
    refine ⟨trivial, trivial, trivial, trivial, trivial, .inl ?_, trivial, trivial, trivial⟩
    decide
  have hreached := Interleave.Reached.start.run hmeet
  exact announced_is_removed (retrying_reports _) hreached (i := false) rfl rfl

/-- The second delete takes the row that the first has counted, and the first removes, and
returns, less than it has announced. -/
theorem delete_after_count :
    (deletingRun (.delete "notes".toList "true".toList) overtakenDelete).stage false =
        ⟨.done (.rows 0), some 1, some 0⟩ ∧
      (deletingRun (.delete "notes".toList "true".toList) overtakenDelete).stage true =
        ⟨.done (.rows 1), some 1, some 1⟩ ∧
      (Rebase.retrying .plain).Reports :=
  ⟨rfl, rfl, retrying_reports _⟩

end EuleDB.Store
