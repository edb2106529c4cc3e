import EuleDB.Lib.AdvisoryLock
import EuleDB.Store.Readers

/-!
# One writer

The write role of a database is the lock of a file beside its tables, held by an open description
that the clones of a handle share.  `System` is what runs on one machine: processes with their
handles, the disk they share, and the lock files.

* `WriteLock.acquire`, `System.step` — taking the role; opening, cloning and dropping a handle,
  killing a process, and any operation through a handle.
* `System.Exclusive` — the invariant: a handle with the role holds the lock of its database's file,
  and every lock is held by a handle.
* `System.one_writer`, `System.refused_while_held` — the results.
-/

set_option autoImplicit false

namespace EuleDB.Store

open Crypto Audit Effect AdvisoryLock

/-! ## The lock -/

def LOCK_FILE : Text := ".euledb-writer.lock".toList

/-- What the file system can object to while the lock is taken. -/
inductive Trouble where
  | createDirAll (cause : Cause)
  | «open» (cause : Cause)
  | tryLock (cause : Cause)

inductive LockError where
  | busy (root : Text)
  | unavailable (root : Text) (cause : Cause)
  deriving DecidableEq

/-- What a handle that cannot be opened for writing is refused with. -/
inductive OpenError where
  | alreadyOpenForWriting (root : Text)
  | backend (operation : String) (table : Text) (cause : LockError)
  deriving DecidableEq

/-- Where the lock file of a database is. -/
def lockPath (W : World) (root : Text) : Path := W.format.resolve (joinPath root LOCK_FILE)

/-- Take the write role for the database under `root`: the description that holds it, or why not.
A description that does not get the lock is closed again. -/
def WriteLock.acquire (W : World) (files : Files Path) (root : Text) :
    Option Trouble → Files Path × Except LockError Nat
  | some (.createDirAll cause) => (files, .error (.unavailable root cause))
  | some (.open cause) => (files, .error (.unavailable root cause))
  | some (.tryLock cause) =>
    ((files.openOrCreate (lockPath W root)).keep fun d => decide (d ≠ files.descriptions),
      .error (.unavailable root cause))
  | none =>
    let locked := (files.openOrCreate (lockPath W root)).tryLock files.descriptions
    if locked.2 then (locked.1, .ok files.descriptions)
    else (locked.1.keep fun d => decide (d ≠ files.descriptions), .error (.busy root))

/-- What `open_for_writing` makes of it. -/
def OpenError.of : LockError → OpenError
  | .busy root => .alreadyOpenForWriting root
  | .unavailable root cause =>
    .backend "take the write lock for" root (.unavailable root cause)

/-! ## Processes and their handles -/

/-- A handle that a process has. -/
structure Held where
  process : Nat
  store : LanceStore
  /-- The open description whose lock is the write role; clones share it. -/
  lock : Option Nat
  role : store.writeLock = lock.isSome

/-- What a handle is given after it was opened. -/
inductive Setting where
  | encrypted (frame : BlockFrame)
  | embedding (embedder : Embedder)
  | audited
  | gated (gate : Gate)

def LanceStore.given (h : LanceStore) : Setting → LanceStore
  | .encrypted frame => h.encrypted frame
  | .embedding embedder => h.embedding embedder
  | .audited => h.audited
  | .gated gate => h.gated gate

@[simp] theorem LanceStore.given_root (h : LanceStore) (setting : Setting) :
    (h.given setting).root = h.root := by
  cases setting <;> rfl

@[simp] theorem LanceStore.given_writeLock (h : LanceStore) (setting : Setting) :
    (h.given setting).writeLock = h.writeLock := by
  cases setting <;> rfl

def Held.given (h : Held) (setting : Setting) : Held where
  process := h.process
  store := h.store.given setting
  lock := h.lock
  role := by rw [LanceStore.given_writeLock, h.role]

/-- What runs on one machine. -/
structure System where
  disk : Disk
  files : Files Path
  handles : Nat → Option Held
  /-- How many handles there were so far. -/
  made : Nat
  used : ∀ i h, handles i = some h → i < made

namespace System

/-- Something that a process does, or that happens to it. -/
inductive Act where
  | new (process : Nat) (root : Text)
  | openForWriting (process : Nat) (root : Text) (trouble : Option Trouble)
  | clone (i : Nat)
  | give (i : Nat) (setting : Setting)
  | drop (i : Nat)
  | kill (process : Nat)
  | perform (i : Nat) (op : Op)

inductive Outcome where
  | nothing
  | handle (i : Nat)
  | refused (e : OpenError)
  | answered (a : Except Error Answer)

/-- One more handle. -/
def add (s : System) (h : Held) : System where
  disk := s.disk
  files := s.files
  handles := Function.update s.handles s.made (some h)
  made := s.made + 1
  used := by
    intro i other hother
    rcases eq_or_ne i s.made with rfl | hne
    · omega
    · rw [Function.update_of_ne hne] at hother
      have := s.used i other hother
      omega

/-- Whether some handle still refers to a description. -/
def refersTo (made : Nat) (handles : Nat → Option Held) (d : Nat) : Bool :=
  (List.range made).any fun i =>
    match handles i with
    | some h => decide (h.lock = some d)
    | none => false

/-- Only the handles that stay; a description that none of them refers to is closed. -/
def only (s : System) (stays : Nat → Held → Bool) : System where
  disk := s.disk
  files := s.files.keep (refersTo s.made fun i => (s.handles i).filter (stays i))
  handles := fun i => (s.handles i).filter (stays i)
  made := s.made
  used := fun i h hi => s.used i h (Option.filter_eq_some_iff.1 hi).1

/-- A handle with one more setting in place of what it was. -/
def give (s : System) (i : Nat) (setting : Setting) : System where
  disk := s.disk
  files := s.files
  handles := fun j => if j = i then (s.handles j).map (Held.given · setting) else s.handles j
  made := s.made
  used := by
    intro j h hj
    split at hj
    · obtain ⟨h', hj', -⟩ := Option.map_eq_some_iff.1 hj
      exact s.used j h' hj'
    · exact s.used j h hj

/-- The lock files once an operation has ended: a table's directory goes with all that is in it. -/
def filesAfter (W : World) (h : LanceStore) (files : Files Path) :
    Op → EStateM.Result Error Disk Answer → Files Path
  | .dropTable table, .ok _ _ => files.unlink fun path => (h.place W table).isPrefixOf path
  | _, _ => files

variable (W : World)

def step (s : System) : Act → System × Outcome
  | .new process root => (s.add ⟨process, .new root, none, rfl⟩, .handle s.made)
  | .openForWriting process root trouble =>
    match WriteLock.acquire W s.files root trouble with
    | (files, .ok d) =>
      ({ s with files := files }.add ⟨process, .openForWriting root, some d, rfl⟩, .handle s.made)
    | (files, .error e) => ({ s with files := files }, .refused (.of e))
  | .clone i =>
    match s.handles i with
    | some h => (s.add h, .handle s.made)
    | none => (s, .nothing)
  | .give i setting => (s.give i setting, .handle i)
  | .drop i => (s.only fun j _ => decide (j ≠ i), .nothing)
  | .kill process => (s.only fun _ h => decide (h.process ≠ process), .nothing)
  | .perform i op =>
    match s.handles i with
    | some h =>
      let result := (h.store.perform W op).run s.disk
      ({ s with disk := final result, files := filesAfter W h.store s.files op result },
        .answered (answer result))
    | none => (s, .nothing)

def run (s : System) (acts : List Act) : System :=
  acts.foldl (fun s act => (step W s act).1) s

/-- No drop takes the lock file of a database that is open for writing. -/
def SparesLocks (s : System) (act : Act) : Prop :=
  ∀ i table h, act = .perform i (.dropTable table) → s.handles i = some h →
    ∀ j other, s.handles j = some other → other.lock.isSome →
      (h.store.place W table).isPrefixOf (lockPath W other.store.root) = false

/-- What can be reached on a machine where no lock was held. -/
inductive Reached : System → Prop where
  | start (disk : Disk) (files : Files Path) (free : ∀ file, files.holder file = none) :
    Reached ⟨disk, files, fun _ => none, 0, by rintro _ _ ⟨⟩⟩
  | step {s : System} (before : Reached s) (act : Act) (spares : SparesLocks W s act) :
    Reached (step W s act).1

/-! ## The invariant -/

/-- A handle with the write role holds the lock of its database's file, handles that share a lock
are clones of one another, and no lock is held but by a handle. -/
structure Exclusive (s : System) : Prop where
  holds : ∀ i h d, s.handles i = some h → h.lock = some d →
    ∃ file, s.files.names (lockPath W h.store.root) = some file ∧ s.files.holder file = some d
  clones : ∀ i j h h' d, s.handles i = some h → s.handles j = some h' →
    h.lock = some d → h'.lock = some d → h.process = h'.process ∧ h.store.root = h'.store.root
  held : ∀ file d, s.files.holder file = some d → ∃ i h, s.handles i = some h ∧ h.lock = some d

variable {W}

theorem refersTo_iff {made d : Nat} {handles : Nat → Option Held}
    (hused : ∀ i h, handles i = some h → i < made) :
    refersTo made handles d ↔ ∃ i h, handles i = some h ∧ h.lock = some d := by
  unfold refersTo
  rw [List.any_eq_true]
  constructor
  · rintro ⟨i, -, hi⟩
    cases hhandle : handles i with
    | none => simp [hhandle] at hi
    | some h => exact ⟨i, h, hhandle, by simpa [hhandle] using hi⟩
  · rintro ⟨i, h, hhandle, hlock⟩
    exact ⟨i, List.mem_range.2 (hused i h hhandle), by simp [hhandle, hlock]⟩

theorem add_handles {s : System} {h : Held} {i : Nat} {h' : Held}
    (hi : (s.add h).handles i = some h') : h' = h ∧ i = s.made ∨ s.handles i = some h' := by
  change Function.update s.handles s.made (some h) i = some h' at hi
  rcases eq_or_ne i s.made with rfl | hne
  · rw [Function.update_self] at hi
    exact .inl ⟨(Option.some.inj hi).symm, rfl⟩
  · rw [Function.update_of_ne hne] at hi
    exact .inr hi

theorem add_old {s : System} {h h' : Held} {i : Nat} (hi : s.handles i = some h') :
    (s.add h).handles i = some h' := by
  have := s.used i h' hi
  exact (Function.update_of_ne (by omega) _ _).trans hi

theorem add_new {s : System} {h : Held} : (s.add h).handles s.made = some h :=
  Function.update_self _ _ _

/-- A handle that has no lock, or the lock of one that is there. -/
theorem Exclusive.add {s : System} (hs : Exclusive W s) {h : Held}
    (hlock : ∀ d, h.lock = some d → ∃ i h', s.handles i = some h' ∧ h'.lock = some d ∧
      h'.process = h.process ∧ h'.store.root = h.store.root) : Exclusive W (s.add h) where
  holds := by
    intro i h' d hi hd
    rcases add_handles hi with ⟨rfl, -⟩ | hold
    · obtain ⟨j, other, hj, hother, -, hroot⟩ := hlock d hd
      rw [← hroot]
      exact hs.holds j other d hj hother
    · exact hs.holds i h' d hold hd
  clones := by
    -- the new handle is traced back to the one that it shares its lock with
    have hold : ∀ i h' d, (s.add h).handles i = some h' → h'.lock = some d →
        ∃ j other, s.handles j = some other ∧ other.lock = some d ∧
          other.process = h'.process ∧ other.store.root = h'.store.root := by
      intro i h' d hi hd
      rcases add_handles hi with ⟨rfl, -⟩ | hi
      · exact hlock d hd
      · exact ⟨i, h', hi, hd, rfl, rfl⟩
    intro i j first second d hi hj hfirst hsecond
    obtain ⟨i', first', hi', hfirst', hprocess, hroot⟩ := hold i first d hi hfirst
    obtain ⟨j', second', hj', hsecond', hprocess', hroot'⟩ := hold j second d hj hsecond
    have hsame := hs.clones i' j' first' second' d hi' hj' hfirst' hsecond'
    exact ⟨hprocess.symm.trans (hsame.1.trans hprocess'), hroot.symm.trans (hsame.2.trans hroot')⟩
  held := by
    intro file d hholder
    obtain ⟨i, h', hi, hd⟩ := hs.held file d hholder
    exact ⟨i, h', add_old hi, hd⟩

/-- Handles that go take with them the locks that no other refers to. -/
theorem Exclusive.only {s : System} (hs : Exclusive W s) (stays : Nat → Held → Bool) :
    Exclusive W (s.only stays) where
  holds := by
    intro i h d hi hd
    obtain ⟨file, hname, hholder⟩ := hs.holds i h d (Option.filter_eq_some_iff.1 hi).1 hd
    refine ⟨file, hname, Files.keep_holder.2 ⟨hholder, ?_⟩⟩
    exact (refersTo_iff (s.only stays).used).2 ⟨i, h, hi, hd⟩
  clones := by
    intro i j h h' d hi hj
    exact hs.clones i j h h' d (Option.filter_eq_some_iff.1 hi).1 (Option.filter_eq_some_iff.1 hj).1
  held := by
    intro file d hholder
    exact (refersTo_iff (s.only stays).used).1 (Files.keep_holder.1 hholder).2

theorem give_handles {s : System} {i j : Nat} {setting : Setting} {h : Held}
    (hj : (s.give i setting).handles j = some h) :
    ∃ h', s.handles j = some h' ∧ h.lock = h'.lock ∧ h.process = h'.process ∧
      h.store.root = h'.store.root := by
  change (if j = i then (s.handles j).map (Held.given · setting) else s.handles j) = some h at hj
  split at hj
  · obtain ⟨h', hj', rfl⟩ := Option.map_eq_some_iff.1 hj
    exact ⟨h', hj', rfl, rfl, LanceStore.given_root _ _⟩
  · exact ⟨h, hj, rfl, rfl, rfl⟩

theorem Exclusive.give {s : System} (hs : Exclusive W s) (i : Nat) (setting : Setting) :
    Exclusive W (s.give i setting) where
  holds := by
    intro j h d hj hd
    obtain ⟨h', hj', hlock, -, hroot⟩ := give_handles hj
    rw [hroot]
    exact hs.holds j h' d hj' (hlock ▸ hd)
  clones := by
    intro j k h h' d hj hk hd hd'
    obtain ⟨first, hj', hlock, hprocess, hroot⟩ := give_handles hj
    obtain ⟨second, hk', hlock', hprocess', hroot'⟩ := give_handles hk
    rw [hprocess, hprocess', hroot, hroot']
    exact hs.clones j k first second d hj' hk' (hlock ▸ hd) (hlock' ▸ hd')
  held := by
    intro file d hholder
    obtain ⟨j, h, hj, hd⟩ := hs.held file d hholder
    by_cases heq : j = i
    · refine ⟨j, h.given setting, ?_, hd⟩
      change (if j = i then (s.handles j).map (Held.given · setting) else s.handles j) = _
      rw [if_pos heq, hj, Option.map_some]
    · refine ⟨j, h, ?_, hd⟩
      change (if j = i then (s.handles j).map (Held.given · setting) else s.handles j) = _
      rw [if_neg heq, hj]

/-- Names that lead to more files, and no lock given or taken. -/
theorem Exclusive.files {s : System} (hs : Exclusive W s) {files : Files Path}
    (hholder : files.holder = s.files.holder)
    (hnames : ∀ i h, s.handles i = some h → h.lock.isSome →
      ∀ file, s.files.names (lockPath W h.store.root) = some file →
        files.names (lockPath W h.store.root) = some file) :
    Exclusive W { s with files := files } where
  holds := by
    intro i h d hi hd
    obtain ⟨file, hname, hfile⟩ := hs.holds i h d hi hd
    refine ⟨file, hnames i h hi (by simp [hd]) file hname, ?_⟩
    rw [hholder]
    exact hfile
  clones := hs.clones
  held := by
    intro file d hd
    rw [hholder] at hd
    exact hs.held file d hd

/-! ## Taking the role -/

/-- A description that was just opened holds no lock. -/
theorem openOrCreate_keep_holder {files : Files Path} {path : Path} :
    ((files.openOrCreate path).keep fun d => decide (d ≠ files.descriptions)).holder =
      files.holder := by
  funext file
  change (files.holder file).filter _ = files.holder file
  cases hholder : files.holder file with
  | none => rfl
  | some d =>
    have := (Files.holder_lt hholder).1
    rw [Option.filter_some, if_pos (by simp; omega)]

theorem acquire_ok {files files' : Files Path} {root : Text} {trouble : Option Trouble} {d : Nat}
    (h : WriteLock.acquire W files root trouble = (files', .ok d)) :
    d = files.descriptions ∧ files.holder (files.fileAt (lockPath W root)) = none ∧
      files'.holder = Function.update files.holder (files.fileAt (lockPath W root)) (some d) ∧
      files'.names = (files.openOrCreate (lockPath W root)).names := by
  match trouble, h with
  | none, h =>
    unfold WriteLock.acquire at h
    dsimp only at h
    split at h
    · rename_i hlocked
      have hfree := (Files.tryLock_fresh (lockPath W root)).1 hlocked
      cases h
      refine ⟨rfl, hfree, ?_, Files.tryLock_names _⟩
      rw [Files.tryLock_holder (Files.openOrCreate_opened _) hfree, Files.openOrCreate_holder]
    · cases h

theorem acquire_error {files files' : Files Path} {root : Text} {trouble : Option Trouble}
    {e : LockError} (h : WriteLock.acquire W files root trouble = (files', .error e)) :
    files'.holder = files.holder ∧
      ∀ path file, files.names path = some file → files'.names path = some file := by
  match trouble, h with
  | some (.createDirAll cause), h =>
    cases h
    exact ⟨rfl, fun _ _ => id⟩
  | some (.open cause), h =>
    cases h
    exact ⟨rfl, fun _ _ => id⟩
  | some (.tryLock cause), h =>
    cases h
    exact ⟨openOrCreate_keep_holder, fun _ _ => Files.openOrCreate_names⟩
  | none, h =>
    unfold WriteLock.acquire at h
    dsimp only at h
    split at h
    · cases h
    · rename_i hlocked
      cases h
      rw [Files.tryLock_refused (by simpa using hlocked)]
      exact ⟨openOrCreate_keep_holder, fun _ _ => Files.openOrCreate_names⟩

theorem acquire_none (files : Files Path) (root : Text) :
    (WriteLock.acquire W files root none).2 =
      if files.holder (files.fileAt (lockPath W root)) = none then .ok files.descriptions
      else .error (.busy root) := by
  have hfresh := Files.tryLock_fresh (s := files) (lockPath W root)
  unfold WriteLock.acquire
  dsimp only
  by_cases hfree : files.holder (files.fileAt (lockPath W root)) = none
  · rw [if_pos (hfresh.2 hfree), if_pos hfree]
  · rw [if_neg (fun hlocked => hfree (hfresh.1 hlocked)), if_neg hfree]

/-- A handle that took the role under a description of its own. -/
theorem Exclusive.openForWriting {s : System} (hs : Exclusive W s) {files : Files Path} {d : Nat}
    {process : Nat} {root : Text} {trouble : Option Trouble}
    (hacquire : WriteLock.acquire W s.files root trouble = (files, .ok d)) :
    Exclusive W ({ s with files := files }.add
      ⟨process, .openForWriting root, some d, rfl⟩) := by
  obtain ⟨rfl, hfree, hholder, hnames⟩ := acquire_ok hacquire
  -- no handle that was there refers to the new description
  have hother : ∀ i h d, s.handles i = some h → h.lock = some d → d ≠ s.files.descriptions := by
    intro i h d hi hd
    obtain ⟨file, -, hfile⟩ := hs.holds i h d hi hd
    have := (Files.holder_lt hfile).1
    omega
  constructor
  · intro i h d hi hd
    change ∃ file, files.names _ = some file ∧ files.holder file = some d
    rw [hnames, hholder]
    rcases add_handles hi with ⟨rfl, -⟩ | hold
    · cases hd
      exact ⟨_, Files.openOrCreate_self _, Function.update_self _ _ _⟩
    · obtain ⟨file, hname, hfile⟩ := hs.holds i h d hold hd
      refine ⟨file, Files.openOrCreate_names hname, ?_⟩
      have hne : file ≠ s.files.fileAt (lockPath W root) := by
        rintro rfl
        rw [hfree] at hfile
        cases hfile
      exact (Function.update_of_ne hne _ _).trans hfile
  · intro i j h h' d hi hj hd hd'
    rcases add_handles hi with ⟨rfl, -⟩ | hold
    · rcases add_handles hj with ⟨rfl, -⟩ | hold'
      · exact ⟨rfl, rfl⟩
      · cases hd
        exact absurd rfl (hother j h' _ hold' hd')
    · rcases add_handles hj with ⟨rfl, -⟩ | hold'
      · cases hd'
        exact absurd rfl (hother i h _ hold hd)
      · exact hs.clones i j h h' d hold hold' hd hd'
  · intro file d hd
    change files.holder file = some d at hd
    rw [hholder] at hd
    rcases eq_or_ne file (s.files.fileAt (lockPath W root)) with rfl | hne
    · rw [Function.update_self] at hd
      cases hd
      exact ⟨_, _, add_new, rfl⟩
    · rw [Function.update_of_ne hne] at hd
      obtain ⟨i, h, hi, hlock⟩ := hs.held file d hd
      exact ⟨i, h, add_old hi, hlock⟩

/-! ## Every step -/

theorem filesAfter_holder (h : LanceStore) (files : Files Path) (op : Op)
    (result : EStateM.Result Error Disk Answer) :
    (filesAfter W h files op result).holder = files.holder := by
  unfold filesAfter
  split
  · rfl
  · rfl

/-- A drop that spares the lock files of open databases leaves their names. -/
theorem filesAfter_names {s : System} {i : Nat} {h : Held} {op : Op}
    (hi : s.handles i = some h) (hspares : SparesLocks W s (.perform i op))
    (result : EStateM.Result Error Disk Answer) {j : Nat} {other : Held} {file : Nat}
    (hj : s.handles j = some other) (hlock : other.lock.isSome)
    (hname : s.files.names (lockPath W other.store.root) = some file) :
    (filesAfter W h.store s.files op result).names (lockPath W other.store.root) = some file := by
  unfold filesAfter
  split
  · rename_i table _ _
    rw [Files.unlink_names (hspares i table h rfl hi j other hj hlock)]
    exact hname
  · exact hname

theorem Exclusive.step {s : System} (hs : Exclusive W s) {act : Act}
    (hspares : SparesLocks W s act) : Exclusive W (s.step W act).1 := by
  cases act with
  | new process root =>
    refine Exclusive.add hs ?_
    rintro d ⟨⟩
  | openForWriting process root trouble =>
    unfold System.step
    dsimp only
    split
    · rename_i files d hacquire
      exact hs.openForWriting hacquire
    · rename_i files e hacquire
      obtain ⟨hholder, hnames⟩ := acquire_error hacquire
      exact hs.files hholder fun _ _ _ _ file => hnames _ file
  | clone i =>
    unfold System.step
    dsimp only
    split
    · rename_i h hi
      exact hs.add fun d hd => ⟨i, h, hi, hd, rfl, rfl⟩
    · exact hs
  | give i setting => exact hs.give i setting
  | drop i => exact hs.only _
  | kill process => exact hs.only _
  | perform i op =>
    unfold System.step
    dsimp only
    split
    · rename_i h hi
      have hfiles := hs.files (filesAfter_holder h.store s.files op
        ((h.store.perform W op).run s.disk)) fun j other hj hlock file =>
          filesAfter_names hi hspares _ hj hlock
      exact ⟨hfiles.holds, hfiles.clones, hfiles.held⟩
    · exact hs

theorem Reached.exclusive {s : System} (hreached : Reached W s) : Exclusive W s := by
  induction hreached with
  | start disk files free =>
    refine ⟨by rintro _ _ _ ⟨⟩, by rintro _ _ _ _ _ ⟨⟩, ?_⟩
    intro file d hd
    rw [free file] at hd
    cases hd
  | step before act spares ih => exact ih.step spares

/-! ## One writer -/

theorem Held.lock_of_role (h : Held) (hrole : h.store.writeLock) : ∃ d, h.lock = some d := by
  rw [h.role] at hrole
  exact Option.isSome_iff_exists.1 hrole

/-- Two handles with the role on one database have the same lock. -/
theorem Exclusive.same_lock {s : System} (hs : Exclusive W s) {i j : Nat} {h other : Held}
    (hi : s.handles i = some h) (hj : s.handles j = some other) (hrole : h.store.writeLock)
    (hrole' : other.store.writeLock)
    (hdatabase : lockPath W other.store.root = lockPath W h.store.root) :
    other.lock = h.lock := by
  obtain ⟨d, hd⟩ := Held.lock_of_role h hrole
  obtain ⟨d', hd'⟩ := Held.lock_of_role other hrole'
  obtain ⟨file, hname, hholder⟩ := hs.holds i h d hi hd
  obtain ⟨file', hname', hholder'⟩ := hs.holds j other d' hj hd'
  rw [hdatabase, hname] at hname'
  cases hname'
  rw [hholder] at hholder'
  cases hholder'
  exact hd'.trans hd.symm

/-- What a handle changes it changes with the role. -/
theorem writes_with_role {s : System} {j : Nat} {other : Held} (hj : s.handles j = some other)
    {op : Op} (hchange : (step W s (.perform j op)).1.disk.datasets ≠ s.disk.datasets) :
    other.store.writeLock := by
  cases hrole : other.store.writeLock with
  | true => rfl
  | false =>
    refine absurd ?_ hchange
    have hsame : Keeps SameData (other.store.perform W op) :=
      LanceStore.perform_without hrole op fun entry rows _ =>
        other.store.record_sameData W entry rows
    unfold step
    dsimp only
    rw [hj]
    exact hsame s.disk

/-- Where a handle with the role comes from: it was opened for writing just now, it is a clone of
one that has the role, or it had the role before. -/
theorem role_origin {s : System} {act : Act} {i : Nat} {h : Held}
    (hi : (step W s act).1.handles i = some h) (hrole : h.store.writeLock) :
    (∃ trouble, act = .openForWriting h.process h.store.root trouble) ∨
      ∃ j other, (j = i ∨ act = .clone j) ∧ s.handles j = some other ∧ other.lock = h.lock ∧
        other.process = h.process ∧ other.store.root = h.store.root := by
  cases act with
  | new process root =>
    rcases add_handles hi with ⟨rfl, -⟩ | hold
    · cases hrole
    · exact .inr ⟨i, h, .inl rfl, hold, rfl, rfl, rfl⟩
  | openForWriting process root trouble =>
    unfold step at hi
    dsimp only at hi
    split at hi
    · rcases add_handles hi with ⟨rfl, -⟩ | hold
      · exact .inl ⟨trouble, rfl⟩
      · exact .inr ⟨i, h, .inl rfl, hold, rfl, rfl, rfl⟩
    · exact .inr ⟨i, h, .inl rfl, hi, rfl, rfl, rfl⟩
  | clone j =>
    unfold step at hi
    dsimp only at hi
    split at hi
    · rename_i other hj
      rcases add_handles hi with ⟨rfl, -⟩ | hold
      · exact .inr ⟨j, h, .inr rfl, hj, rfl, rfl, rfl⟩
      · exact .inr ⟨i, h, .inl rfl, hold, rfl, rfl, rfl⟩
    · exact .inr ⟨i, h, .inl rfl, hi, rfl, rfl, rfl⟩
  | give j setting =>
    obtain ⟨other, hother, hlock, hprocess, hroot⟩ := give_handles hi
    exact .inr ⟨i, other, .inl rfl, hother, hlock.symm, hprocess.symm, hroot.symm⟩
  | drop j => exact .inr ⟨i, h, .inl rfl, (Option.filter_eq_some_iff.1 hi).1, rfl, rfl, rfl⟩
  | kill process =>
    exact .inr ⟨i, h, .inl rfl, (Option.filter_eq_some_iff.1 hi).1, rfl, rfl, rfl⟩
  | perform j op =>
    unfold step at hi
    dsimp only at hi
    split at hi <;> exact .inr ⟨i, h, .inl rfl, hi, rfl, rfl, rfl⟩

/-- **One writer**: in every state reached, two handles that hold the write role of one database are
clones in one process, of one description of its lock file; a handle that changes any data holds the
role; and the role comes from opening for writing, or from a handle that has it. -/
theorem one_writer {s : System} (hreached : Reached W s) :
    (∀ i j h other, s.handles i = some h → s.handles j = some other → h.store.writeLock →
      other.store.writeLock → lockPath W other.store.root = lockPath W h.store.root →
        other.lock = h.lock ∧ other.process = h.process ∧ other.store.root = h.store.root) ∧
    (∀ j other op, s.handles j = some other →
      (step W s (.perform j op)).1.disk.datasets ≠ s.disk.datasets → other.store.writeLock) ∧
    ∀ act i h, (step W s act).1.handles i = some h → h.store.writeLock →
      (∃ trouble, act = .openForWriting h.process h.store.root trouble) ∨
        ∃ j other, (j = i ∨ act = .clone j) ∧ s.handles j = some other ∧ other.lock = h.lock ∧
          other.process = h.process ∧ other.store.root = h.store.root := by
  have hs := hreached.exclusive
  refine ⟨fun i j h other hi hj hrole hrole' hdatabase => ?_,
    fun j other op hj hchange => writes_with_role hj hchange, fun act i h => role_origin⟩
  have hlock := hs.same_lock hi hj hrole hrole' hdatabase
  obtain ⟨d, hd⟩ := Held.lock_of_role h hrole
  exact ⟨hlock, hs.clones j i other h d hj hi (hlock.trans hd) hd⟩

/-- A machine on which nothing was opened yet. -/
def started : System := ⟨Disk.empty, .empty, fun _ => none, 0, by rintro _ _ ⟨⟩⟩

theorem started_reached : Reached W started := .start Disk.empty .empty fun _ => rfl

/-- A writer and its clone. -/
def writerAndClone : System :=
  run .plain started [.openForWriting 7 "db".toList none, .clone 0]

theorem writerAndClone_reached : Reached .plain writerAndClone :=
  .step (.step started_reached _ (by rintro _ _ _ ⟨⟩)) _ (by rintro _ _ _ ⟨⟩)

theorem clone_is_the_writer : ∃ h other, writerAndClone.handles 0 = some h ∧
    writerAndClone.handles 1 = some other ∧
      (other.lock = h.lock ∧ other.process = h.process ∧ other.store.root = h.store.root) :=
  ⟨_, _, rfl, rfl, (one_writer writerAndClone_reached).1 0 1 _ _ rfl rfl rfl rfl rfl⟩

-- a drop that takes the lock file with it lets a second writer in: the table's directory is the
-- database's own, which an absolute name leads to
example : ∃ h other : Held,
    let s := run .plain started
      [.openForWriting 7 "/db.lance".toList none, .perform 0 (.dropTable "/db".toList),
        .openForWriting 8 "/db.lance".toList none]
    s.handles 0 = some h ∧ s.handles 1 = some other ∧ h.store.writeLock ∧ other.store.writeLock ∧
      h.store.root = other.store.root ∧ h.process ≠ other.process :=
  ⟨_, _, rfl, rfl, rfl, rfl, rfl, by decide⟩

/-! ## Who is refused -/

/-- The lock of a database is held exactly when some handle has the role. -/
theorem Exclusive.holder_iff {s : System} (hs : Exclusive W s) (root : Text) :
    s.files.holder (s.files.fileAt (lockPath W root)) ≠ none ↔
      ∃ i h, s.handles i = some h ∧ h.store.writeLock ∧
        lockPath W h.store.root = lockPath W root := by
  constructor
  · intro hheld
    obtain ⟨d, hd⟩ := Option.ne_none_iff_exists'.1 hheld
    obtain ⟨i, h, hi, hlock⟩ := hs.held _ d hd
    obtain ⟨file, hname, hholder⟩ := hs.holds i h d hi hlock
    refine ⟨i, h, hi, by rw [h.role, hlock]; rfl, ?_⟩
    have hfile := Files.holder_inj hd hholder
    unfold Files.fileAt at hfile
    cases hpath : s.files.names (lockPath W root) with
    | none =>
      -- a file that is not there yet has no holder
      rw [hpath, Option.getD_none] at hfile
      have := (Files.holder_lt hholder).2
      omega
    | some file' =>
      rw [hpath, Option.getD_some] at hfile
      subst hfile
      exact s.files.names_inj _ _ _ hname hpath
  · rintro ⟨i, h, hi, hrole, hdatabase⟩
    obtain ⟨d, hd⟩ := Held.lock_of_role h hrole
    obtain ⟨file, hname, hholder⟩ := hs.holds i h d hi hd
    unfold Files.fileAt
    rw [← hdatabase, hname, Option.getD_some, hholder]
    exact Option.some_ne_none d

theorem Exclusive.openForWriting_iff {s : System} (hs : Exclusive W s) (process : Nat)
    (root : Text) :
    (s.step W (.openForWriting process root none)).2 = .refused (.alreadyOpenForWriting root) ↔
      ∃ i h, s.handles i = some h ∧ h.store.writeLock ∧
        lockPath W h.store.root = lockPath W root := by
  rw [← hs.holder_iff root]
  have hanswer := acquire_none (W := W) s.files root
  unfold System.step
  dsimp only
  split
  · rename_i files d hacquire
    rw [hacquire] at hanswer
    split_ifs at hanswer with hfree
    simp [hfree]
  · rename_i files e hacquire
    rw [hacquire] at hanswer
    split_ifs at hanswer with hfree
    cases hanswer
    simp [hfree, OpenError.of]

/-- What is not refused is a new handle. -/
theorem openForWriting_answer (s : System) (process : Nat) (root : Text) :
    (step W s (.openForWriting process root none)).2 = .handle s.made ∨
      (step W s (.openForWriting process root none)).2 =
        .refused (.alreadyOpenForWriting root) := by
  have hanswer := acquire_none (W := W) s.files root
  unfold step
  dsimp only
  split
  · exact .inl rfl
  · rename_i files e hacquire
    rw [hacquire] at hanswer
    split_ifs at hanswer with hfree
    cases hanswer
    exact .inr rfl

/-- Where no handle that stays has the role, the database can be opened for writing. -/
theorem Exclusive.freed {s : System} (hs : Exclusive W s) {stays : Nat → Held → Bool}
    {root : Text} (process : Nat)
    (hgone : ∀ i h, s.handles i = some h → h.store.writeLock →
      lockPath W h.store.root = lockPath W root → stays i h = false) :
    ((s.only stays).step W (.openForWriting process root none)).2 = .handle s.made := by
  rcases openForWriting_answer (W := W) (s.only stays) process root with hopens | hrefused
  · exact hopens
  · obtain ⟨i, h, hi, hrole, hdatabase⟩ :=
      ((hs.only stays).openForWriting_iff process root).1 hrefused
    obtain ⟨hi, hstays⟩ := Option.filter_eq_some_iff.1 hi
    rw [hgone i h hi hrole hdatabase] at hstays
    cases hstays

/-- **A writer is refused exactly while there is one**, at once and with nothing done to the data
or to any handle; and the role is free again as soon as the last handle with it is dropped, or the
process that has them all is killed. -/
theorem refused_while_held {s : System} (hreached : Reached W s) (process : Nat) (root : Text) :
    ((step W s (.openForWriting process root none)).2 = .refused (.alreadyOpenForWriting root) ↔
      ∃ i h, s.handles i = some h ∧ h.store.writeLock ∧
        lockPath W h.store.root = lockPath W root) ∧
    ((step W s (.openForWriting process root none)).2 = .refused (.alreadyOpenForWriting root) →
      (step W s (.openForWriting process root none)).1.disk = s.disk ∧
        (step W s (.openForWriting process root none)).1.handles = s.handles) ∧
    (∀ last, (∀ i h, s.handles i = some h → h.store.writeLock →
        lockPath W h.store.root = lockPath W root → i = last) →
      (step W (step W s (.drop last)).1 (.openForWriting process root none)).2 =
        .handle s.made) ∧
    ∀ killed, (∀ i h, s.handles i = some h → h.store.writeLock →
        lockPath W h.store.root = lockPath W root → h.process = killed) →
      (step W (step W s (.kill killed)).1 (.openForWriting process root none)).2 =
        .handle s.made := by
  have hs := hreached.exclusive
  refine ⟨hs.openForWriting_iff process root, ?_, ?_, ?_⟩
  · intro hrefused
    unfold step at hrefused ⊢
    dsimp only at hrefused ⊢
    split
    · rename_i files d hacquire
      rw [hacquire] at hrefused
      cases hrefused
    · exact ⟨rfl, rfl⟩
  · intro last hlast
    refine hs.freed process fun i h hi hrole hdatabase => ?_
    simp [hlast i h hi hrole hdatabase]
  · intro killed hkilled
    refine hs.freed process fun i h hi hrole hdatabase => ?_
    simp [hkilled i h hi hrole hdatabase]

/-- While a writer and its clone are there no other process opens the database for writing. -/
theorem second_writer_is_refused :
    (step .plain writerAndClone (.openForWriting 8 "db".toList none)).2 =
      .refused (.alreadyOpenForWriting "db".toList) :=
  (refused_while_held writerAndClone_reached 8 "db".toList).1.2 ⟨0, _, rfl, rfl, rfl⟩

end System

end EuleDB.Store
