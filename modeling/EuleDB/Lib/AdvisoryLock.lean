import Mathlib.Logic.Function.Basic

/-!
# Advisory locks on files

Names lead to files, and a description is open on a file.  At most one description holds a file's
lock; it is held as long as the description is open, whatever becomes of the file's name.

* `Files.openOrCreate`, `Files.tryLock`, `Files.keep`, `Files.unlink` — the operations; every
  `Files` is one that they can have made: what is in use was handed out, and who holds a lock has
  the file open.
* `Files.tryLock_fresh` — a description that was just opened gets the lock exactly when none holds
  it.
-/

set_option autoImplicit false

namespace AdvisoryLock

/-- Names, open descriptions and who holds the lock of a file. -/
structure Files (π : Type) where
  /-- The file that a name leads to. -/
  names : π → Option Nat
  /-- The file that a description is open on, where it is open. -/
  opened : Nat → Option Nat
  /-- The description that holds a file's lock. -/
  holder : Nat → Option Nat
  /-- How many files there were so far. -/
  files : Nat
  /-- How many descriptions there were so far. -/
  descriptions : Nat
  names_lt : ∀ name file, names name = some file → file < files
  names_inj : ∀ name name' file, names name = some file → names name' = some file → name = name'
  opened_lt : ∀ d file, opened d = some file → d < descriptions ∧ file < files
  holder_opened : ∀ file d, holder file = some d → opened d = some file

namespace Files

variable {π : Type}

/-- No file, and nothing open. -/
def empty : Files π where
  names := fun _ => none
  opened := fun _ => none
  holder := fun _ => none
  files := 0
  descriptions := 0
  names_lt := by rintro _ _ ⟨⟩
  names_inj := by rintro _ _ _ ⟨⟩
  opened_lt := by rintro _ _ ⟨⟩
  holder_opened := by rintro _ _ ⟨⟩

/-- The file under a name, or else a new one. -/
def fileAt (s : Files π) (name : π) : Nat := (s.names name).getD s.files

/-- Open the file under a name, which is created where it is not there. -/
def openOrCreate [DecidableEq π] (s : Files π) (name : π) : Files π where
  names := Function.update s.names name (some (s.fileAt name))
  opened := Function.update s.opened s.descriptions (some (s.fileAt name))
  holder := s.holder
  files := max s.files (s.fileAt name + 1)
  descriptions := s.descriptions + 1
  names_lt := by
    intro other file hother
    rcases eq_or_ne other name with rfl | hne
    · rw [Function.update_self] at hother
      cases hother
      omega
    · rw [Function.update_of_ne hne] at hother
      have := s.names_lt _ _ hother
      omega
  names_inj := by
    -- a file that is new is under no other name, and one that is not was under this name before
    have hfile : ∀ other file, other ≠ name → s.names other = some file → file ≠ s.fileAt name := by
      intro other file hne hother heq
      unfold fileAt at heq
      cases hname : s.names name with
      | none =>
        rw [hname] at heq
        have := s.names_lt _ _ hother
        simp only [Option.getD_none] at heq
        omega
      | some file' =>
        rw [hname, Option.getD_some] at heq
        subst heq
        exact hne (s.names_inj _ _ _ hother hname)
    intro first second file hfirst hsecond
    rcases eq_or_ne first name with rfl | hne
    · rcases eq_or_ne second first with rfl | hne'
      · rfl
      · rw [Function.update_self] at hfirst
        rw [Function.update_of_ne hne'] at hsecond
        cases hfirst
        exact absurd rfl (hfile _ _ hne' hsecond)
    · rw [Function.update_of_ne hne] at hfirst
      rcases eq_or_ne second name with rfl | hne'
      · rw [Function.update_self] at hsecond
        cases hsecond
        exact absurd rfl (hfile _ _ hne hfirst)
      · rw [Function.update_of_ne hne'] at hsecond
        exact s.names_inj _ _ _ hfirst hsecond
  opened_lt := by
    intro d file hd
    rcases eq_or_ne d s.descriptions with rfl | hne
    · rw [Function.update_self] at hd
      cases hd
      omega
    · rw [Function.update_of_ne hne] at hd
      have := s.opened_lt _ _ hd
      omega
  holder_opened := by
    intro file d hholder
    have hopened := s.holder_opened _ _ hholder
    have hlt := (s.opened_lt _ _ hopened).1
    rw [Function.update_of_ne (by omega)]
    exact hopened

/-- Ask for the lock of the file that `d` is open on, without waiting. -/
def tryLock (s : Files π) (d : Nat) : Files π × Bool :=
  match hopened : s.opened d with
  | none => (s, false)
  | some file =>
    match s.holder file with
    | some holding => (s, decide (holding = d))
    | none =>
      ({ s with
          holder := Function.update s.holder file (some d)
          holder_opened := by
            intro file' d' hholder
            rcases eq_or_ne file' file with rfl | hne
            · rw [Function.update_self] at hholder
              cases hholder
              exact hopened
            · rw [Function.update_of_ne hne] at hholder
              exact s.holder_opened _ _ hholder }, true)

/-- Every description but those of `live` is closed, and with it goes the lock that it held. -/
def keep (s : Files π) (live : Nat → Bool) : Files π where
  names := s.names
  opened := fun d => if live d then s.opened d else none
  holder := fun file => (s.holder file).filter live
  files := s.files
  descriptions := s.descriptions
  names_lt := s.names_lt
  names_inj := s.names_inj
  opened_lt := by
    intro d file hd
    split at hd
    · exact s.opened_lt _ _ hd
    · cases hd
  holder_opened := by
    intro file d hholder
    obtain ⟨hholder, hlive⟩ := Option.filter_eq_some_iff.1 hholder
    rw [if_pos hlive]
    exact s.holder_opened _ _ hholder

/-- The names that are `gone` lead nowhere; files that are open under them stay open. -/
def unlink (s : Files π) (gone : π → Bool) : Files π where
  names := fun name => if gone name then none else s.names name
  opened := s.opened
  holder := s.holder
  files := s.files
  descriptions := s.descriptions
  names_lt := by
    intro name file hname
    split at hname
    · cases hname
    · exact s.names_lt _ _ hname
  names_inj := by
    intro name name' file hname hname'
    split at hname
    · cases hname
    · split at hname'
      · cases hname'
      · exact s.names_inj _ _ _ hname hname'
  opened_lt := s.opened_lt
  holder_opened := s.holder_opened

variable {s : Files π}

@[simp] theorem openOrCreate_holder [DecidableEq π] (name : π) :
    (s.openOrCreate name).holder = s.holder := rfl

@[simp] theorem openOrCreate_opened [DecidableEq π] (name : π) :
    (s.openOrCreate name).opened s.descriptions = some (s.fileAt name) :=
  Function.update_self _ _ _

@[simp] theorem openOrCreate_self [DecidableEq π] (name : π) :
    (s.openOrCreate name).names name = some (s.fileAt name) := Function.update_self _ _ _

/-- A name that led to a file still leads there. -/
theorem openOrCreate_names [DecidableEq π] {name other : π} {file : Nat}
    (h : s.names other = some file) :
    (s.openOrCreate name).names other = some file := by
  rcases eq_or_ne other name with rfl | hne
  · rw [openOrCreate_self, fileAt, h, Option.getD_some]
  · exact (Function.update_of_ne hne _ _).trans h

theorem keep_holder {live : Nat → Bool} {file d : Nat} :
    (s.keep live).holder file = some d ↔ s.holder file = some d ∧ live d :=
  Option.filter_eq_some_iff

theorem unlink_names {gone : π → Bool} {name : π} (h : gone name = false) :
    (s.unlink gone).names name = s.names name := by
  change (if gone name then none else s.names name) = _
  rw [if_neg (by simp [h])]

/-- A lock is held by a description that was opened. -/
theorem holder_lt {file d : Nat} (h : s.holder file = some d) :
    d < s.descriptions ∧ file < s.files :=
  s.opened_lt _ _ (s.holder_opened _ _ h)

/-- A description holds the lock of one file at most. -/
theorem holder_inj {file file' d : Nat} (h : s.holder file = some d)
    (h' : s.holder file' = some d) : file = file' := by
  have hopened := s.holder_opened _ _ h
  have hopened' := s.holder_opened _ _ h'
  rw [hopened] at hopened'
  exact Option.some.inj hopened'

/-- **A description that was just opened** gets the lock exactly when no other holds it. -/
theorem tryLock_fresh [DecidableEq π] (name : π) :
    ((s.openOrCreate name).tryLock s.descriptions).2 = true ↔ s.holder (s.fileAt name) = none := by
  unfold tryLock
  split
  · rename_i hopened
    simp at hopened
  · rename_i file hopened
    rw [openOrCreate_opened, Option.some.injEq] at hopened
    subst hopened
    cases hholder : s.holder (s.fileAt name) with
    | none => simp [hholder]
    | some holding =>
      have hne : holding ≠ s.descriptions := by
        have := (holder_lt hholder).1
        omega
      simp [hholder, hne]

/-- Who holds what once it was asked for. -/
theorem tryLock_holder {d file : Nat} (hopened : s.opened d = some file)
    (hfree : s.holder file = none) :
    (s.tryLock d).1.holder = Function.update s.holder file (some d) := by
  unfold tryLock
  split
  · rename_i hnone
    rw [hopened] at hnone
    cases hnone
  · rename_i file' hsome
    rw [hopened] at hsome
    cases hsome
    simp [hfree]

@[simp] theorem tryLock_names (d : Nat) : (s.tryLock d).1.names = s.names := by
  unfold tryLock
  split
  · rfl
  · split <;> rfl

/-- Where the lock is not given nothing changes. -/
theorem tryLock_refused {d : Nat} (h : (s.tryLock d).2 = false) : (s.tryLock d).1 = s := by
  unfold tryLock at h ⊢
  split
  · rfl
  · rename_i file hopened
    split at h
    · rename_i hnone
      rw [hopened] at hnone
      cases hnone
    · rename_i file' hsome
      rw [hopened] at hsome
      cases hsome
      cases hholder : s.holder file with
      | none => simp [hholder] at h
      | some holding => rfl

end Files

end AdvisoryLock
