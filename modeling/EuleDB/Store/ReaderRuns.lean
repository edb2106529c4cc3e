import EuleDB.Store.WriteRole

/-!
# Readers beside a writer

Handles without the write role come and go as they like.  What they leave on the machine are the
records that audited ones among them make.

* `System.Recorded` — records about some tables, one after the other, and nothing else.
* `System.ByReaders`, `System.OnlyReaders` — what such handles do and what happens to them.
* `System.Traceless` — between two states no table, lock file or lock has changed.
* `System.ByReaders.step`, `System.OnlyReaders.traceless` — one act, and a run.
* `System.readers_leave_no_trace` — from every state that is reached.
-/

set_option autoImplicit false

namespace EuleDB.Store

open Crypto Audit Effect AdvisoryLock

namespace System

variable {W : World}

/-! ## What readers do -/

/-- Records about these tables, one after the other, and nothing else. -/
def Recorded (W : World) (tables : Set Text) : Disk → Disk → Prop :=
  Relation.ReflTransGen fun disk disk' => ∃ (h : LanceStore) (op : Operation) (rows : UInt64),
    op.table ∈ tables ∧ disk' = final ((h.record W op rows).run disk)

instance (tables : Set Text) : Std.Refl (Recorded W tables) := ⟨fun _ => .refl⟩

instance (tables : Set Text) : IsTrans Disk (Recorded W tables) :=
  ⟨fun _ _ _ h h' => h.trans h'⟩

theorem Recorded.mono {tables tables' : Set Text} (hsub : tables ⊆ tables') {disk disk' : Disk}
    (h : Recorded W tables disk disk') : Recorded W tables' disk disk' := by
  refine Relation.ReflTransGen.mono ?_ _ _ h
  rintro a b ⟨h, op, rows, hop, heq⟩
  exact ⟨h, op, rows, hsub hop, heq⟩

theorem Recorded.sameData {tables : Set Text} {disk disk' : Disk}
    (h : Recorded W tables disk disk') : SameData disk disk' := by
  induction h with
  | refl => exact Std.Refl.refl _
  | tail _ hlast ih =>
    obtain ⟨h, op, rows, -, rfl⟩ := hlast
    exact IsTrans.trans _ _ _ ih (h.record_sameData W op rows _)

/-- What handles without the role are asked, and what happens to them. -/
def ByReaders (s : System) : Act → Prop
  | .new _ _ => True
  | .openForWriting _ _ _ => False
  | .clone i | .give i _ | .drop i | .perform i _ =>
    ∀ h, s.handles i = some h → h.store.writeLock = false
  | .kill process => ∀ i h, s.handles i = some h → h.process = process → h.store.writeLock = false

/-- The table that an audited handle is asked about. -/
def audits (s : System) : Act → List Text
  | .perform i op =>
    match s.handles i with
    | some h => if h.store.audit.isSome then [op.table] else []
    | none => []
  | _ => []

variable (W) in
/-- In a run every act is one of readers. -/
def OnlyReaders : System → List Act → Prop
  | _, [] => True
  | s, act :: acts => ByReaders s act ∧ OnlyReaders (step W s act).1 acts

variable (W) in
/-- The tables that audited handles are asked about in a run. -/
def audited : System → List Act → List Text
  | _, [] => []
  | s, act :: acts => audits s act ++ audited (step W s act).1 acts

/-- No table is changed, no file created and no lock taken or given back; what is new on the disk
are records about these tables. -/
structure Traceless (W : World) (tables : List Text) (s s' : System) : Prop where
  recorded : Recorded W {table | table ∈ tables} s.disk s'.disk
  names : s'.files.names = s.files.names
  files : s'.files.files = s.files.files
  holder : s'.files.holder = s.files.holder

theorem Traceless.of_same {tables : List Text} {s s' : System} (hdisk : s'.disk = s.disk)
    (hfiles : s'.files = s.files) : Traceless W tables s s' :=
  ⟨hdisk ▸ .refl, by rw [hfiles], by rw [hfiles], by rw [hfiles]⟩

theorem Traceless.trans {tables tables' : List Text} {s s' s'' : System}
    (h : Traceless W tables s s') (h' : Traceless W tables' s' s'') :
    Traceless W (tables ++ tables') s s'' where
  recorded := by
    have hfirst : Recorded W {table | table ∈ tables ++ tables'} s.disk s'.disk :=
      h.recorded.mono fun table htable => List.mem_append_left _ htable
    exact hfirst.trans (h'.recorded.mono fun table htable => List.mem_append_right _ htable)
  names := h'.names.trans h.names
  files := h'.files.trans h.files
  holder := h'.holder.trans h.holder

/-! ## One act -/

/-- Every lock is held by a handle. -/
def LocksHeld (s : System) : Prop :=
  ∀ file d, s.files.holder file = some d → ∃ i h, s.handles i = some h ∧ h.lock = some d

theorem dropTable_role {h : LanceStore} {table : Text} {disk disk' : Disk} {answer : Answer}
    (hrun : (h.perform W (.dropTable table)).run disk = .ok answer disk') : h.writeLock := by
  obtain ⟨_, _, hdrop, -⟩ := bind_ok.1 hrun
  obtain ⟨_, _, hscope, hrest⟩ := bind_ok.1 hdrop
  obtain ⟨_, _, hrole, -⟩ := bind_ok.1 hrest
  exact (LanceStore.requireWriteRole_ok.1 hrole).1

/-- Readers that go hold no lock. -/
theorem only_holder {s : System} (hs : LocksHeld s) (stays : Nat → Held → Bool)
    (hgone : ∀ i h, s.handles i = some h → stays i h = false → h.store.writeLock = false) :
    (s.only stays).files.holder = s.files.holder := by
  funext file
  change (s.files.holder file).filter _ = s.files.holder file
  cases hholder : s.files.holder file with
  | none => rfl
  | some d =>
    obtain ⟨i, h, hi, hlock⟩ := hs file d hholder
    have hstays : stays i h = true := by
      rw [← Bool.not_eq_false]
      intro hgoes
      have hrole := hgone i h hi hgoes
      rw [h.role, hlock] at hrole
      cases hrole
    refine Option.filter_eq_some_iff.2 ⟨rfl, ?_⟩
    exact (refersTo_iff (s.only stays).used).2
      ⟨i, h, Option.filter_eq_some_iff.2 ⟨hi, hstays⟩, hlock⟩

/-- An operation through a reader: records about its table where the reader is audited. -/
theorem perform_traceless {s : System} {i : Nat} {h : Held} (hi : s.handles i = some h)
    (hrole : h.store.writeLock = false) (op : Op) :
    Traceless W (audits s (.perform i op)) s (step W s (.perform i op)).1 := by
  have hfiles : filesAfter W h.store s.files op ((h.store.perform W op).run s.disk) = s.files := by
    unfold filesAfter
    split
    · rename_i table answer disk' hrun
      have := dropTable_role hrun
      rw [hrole] at this
      cases this
    · rfl
  have hkeeps : Keeps (Recorded W {table | table ∈ audits s (.perform i op)})
      (h.store.perform W op) := by
    refine LanceStore.perform_without hrole op fun entry rows htable disk => ?_
    cases haudit : h.store.audit with
    | none =>
      have hsame : final ((h.store.record W entry rows).run disk) = disk := by
        change final (h.store.record W entry rows disk) = disk
        unfold LanceStore.record
        rw [haudit]
        rfl
      rw [hsame]
      exact .refl
    | some log =>
      refine .single ⟨h.store, entry, rows, ?_, rfl⟩
      unfold audits
      simp [hi, haudit, htable]
  unfold step
  dsimp only
  rw [hi]
  dsimp only
  exact ⟨hkeeps s.disk, by rw [hfiles], by rw [hfiles], by rw [hfiles]⟩

/-- **One act of readers** leaves records at most, and every lock to the handle that held it. -/
theorem ByReaders.step {s : System} {act : Act} (hs : LocksHeld s) (hreads : ByReaders s act) :
    Traceless W (audits s act) s (System.step W s act).1 ∧
      LocksHeld (System.step W s act).1 := by
  cases act with
  | new process root =>
    refine ⟨.of_same rfl rfl, fun file d hholder => ?_⟩
    obtain ⟨i, h, hi, hlock⟩ := hs file d hholder
    exact ⟨i, h, add_old hi, hlock⟩
  | openForWriting process root trouble => exact hreads.elim
  | clone i =>
    unfold System.step
    dsimp only
    split
    · refine ⟨.of_same rfl rfl, fun file d hholder => ?_⟩
      obtain ⟨j, h, hj, hlock⟩ := hs file d hholder
      exact ⟨j, h, add_old hj, hlock⟩
    · exact ⟨.of_same rfl rfl, hs⟩
  | give i setting =>
    refine ⟨.of_same rfl rfl, fun file d hholder => ?_⟩
    obtain ⟨j, h, hj, hlock⟩ := hs file d hholder
    have hne : j ≠ i := by
      rintro rfl
      have hrole := hreads h hj
      rw [h.role, hlock] at hrole
      cases hrole
    refine ⟨j, h, ?_, hlock⟩
    change (if j = i then (s.handles j).map (Held.given · setting) else s.handles j) = _
    rw [if_neg hne, hj]
  | drop i =>
    have hholder := only_holder hs (fun j _ => decide (j ≠ i)) fun j h hj hgoes => by
      have heq : j = i := by simpa using hgoes
      exact hreads h (heq ▸ hj)
    refine ⟨⟨.refl, rfl, rfl, hholder⟩, fun file d hfile => ?_⟩
    exact (refersTo_iff (s.only _).used).1 (Files.keep_holder.1 hfile).2
  | kill process =>
    have hholder := only_holder hs (fun _ h => decide (h.process ≠ process))
      fun j h hj hgoes => hreads j h hj (by simpa using hgoes)
    refine ⟨⟨.refl, rfl, rfl, hholder⟩, fun file d hfile => ?_⟩
    exact (refersTo_iff (s.only _).used).1 (Files.keep_holder.1 hfile).2
  | perform i op =>
    cases hi : s.handles i with
    | none =>
      unfold System.step
      dsimp only
      rw [hi]
      exact ⟨.of_same rfl rfl, hs⟩
    | some h =>
      have htrace := perform_traceless (W := W) hi (hreads h hi) op
      refine ⟨htrace, fun file d hholder => ?_⟩
      rw [htrace.holder] at hholder
      obtain ⟨j, other, hj, hlock⟩ := hs file d hholder
      refine ⟨j, other, ?_, hlock⟩
      unfold System.step
      dsimp only
      rw [hi]
      exact hj

/-! ## A run -/

/-- A run of readers does so too. -/
theorem OnlyReaders.traceless {s : System} {acts : List Act} (hs : LocksHeld s)
    (hreads : OnlyReaders W s acts) : Traceless W (audited W s acts) s (run W s acts) := by
  induction acts generalizing s with
  | nil => exact .of_same rfl rfl
  | cons act acts ih =>
    obtain ⟨htrace, hheld⟩ := hreads.1.step hs
    exact htrace.trans (ih hheld hreads.2)

/-- **Readers leave no trace**: from any state reached, a run in which handles without the role are
opened, cloned, given settings, asked anything, dropped or killed changes no table, creates no file,
takes no lock and gives none back; all that it adds are records about the tables that audited ones
among them were asked about. -/
theorem readers_leave_no_trace {s : System} (hreached : Reached W s) {acts : List Act}
    (hreads : OnlyReaders W s acts) :
    Traceless W (audited W s acts) s (run W s acts) ∧
      (run W s acts).disk.datasets = s.disk.datasets := by
  have htrace := hreads.traceless hreached.exclusive.held
  exact ⟨htrace, htrace.recorded.sameData⟩

/-! ## A reader beside a writer -/

/-- The writer has declared a table. -/
def writerAtWork : System :=
  run .plain writerAndClone
    [.perform 0 (.createTable "docs".toList (.new ⟨[⟨"id".toList, .uint64, false, []⟩], []⟩))]

theorem writerAtWork_reached : Reached .plain writerAtWork :=
  .step writerAndClone_reached _ (by rintro _ _ _ ⟨⟩)

/-- Another process opens the database to read, records its scan, and goes. -/
def aReader : List Act :=
  [.new 8 "db".toList, .give 2 .audited, .perform 2 (.scan "docs".toList), .clone 2, .drop 2,
    .kill 8]

theorem aReader_only : OnlyReaders .plain writerAtWork aReader := by
  refine ⟨trivial, ?_, ?_, ?_, ?_, ?_, trivial⟩
  · rintro h ⟨⟩
    rfl
  · rintro h ⟨⟩
    rfl
  · rintro h ⟨⟩
    rfl
  · rintro h ⟨⟩
    rfl
  · -- the writer and its clone are in another process, and the third handle was dropped
    intro i h hi hprocess
    have hused : i < 4 := System.used _ i h hi
    match i, hused with
    | 0, _ | 1, _ =>
      cases hi
      cases hprocess
    | 2, _ => cases hi
    | 3, _ =>
      cases hi
      rfl

/-- While a writer is there. -/
theorem reader_beside_the_writer :
    Traceless .plain ["docs".toList] writerAtWork (run .plain writerAtWork aReader) ∧
      (run .plain writerAtWork aReader).disk.datasets = writerAtWork.disk.datasets :=
  readers_leave_no_trace writerAtWork_reached aReader_only

end System

end EuleDB.Store
