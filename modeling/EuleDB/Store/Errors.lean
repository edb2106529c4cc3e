import EuleDB.Store.Steps

/-!
# Which errors the parts of an operation can end with

* `LanceStore.rowVectors_error`, `LanceStore.presentTexts_error`, `LanceStore.rebuild_error` — what
  goes wrong in a reconciliation is reported as a failure from below; `LanceStore.rebuild_refused` —
  and where it is a text that is not embedded, which one.
* `Covers` — a kind of error that those from below and from the audit log are of; every part that
  checks nothing itself raises such errors only.
* `Covers.reconcileAll` — so does all of a reconciliation, where its one check does.
-/

set_option autoImplicit false

namespace EuleDB.Store

open Crypto Audit Effect LanceStore

namespace LanceStore

theorem rowVectors_error {operation notFloat : String} {table : Text} {s : Schema}
    {rows : List Row} {e : Error} (herror : rowVectors operation notFloat table s rows = .error e) :
    ∃ cause, e = .backend operation table cause := by
  obtain ⟨r, -, hr⟩ := mapM_error herror
  unfold rowVector at hr
  split at hr <;> cases hr <;> exact ⟨_, rfl⟩

theorem presentTexts_error {table column : Text} {d : Dataset} {e : Error}
    (herror : presentTexts table column d = .error e) :
    ∃ cause, e = .backend "read the embedding column of" table cause := by
  obtain ⟨r, -, hr⟩ := mapM_error herror
  split at hr
  · cases hr
    exact ⟨_, rfl⟩
  · cases hr

/-- Where the vectors of some rows cannot be made, the text of one of them is refused, or it has or
gets a vector of the wrong width. -/
theorem rebuild_refused {embedder : Embedder} {table : Text} {existing : List RowVector}
    {present : List (RowId × Text)} {e : Error}
    (herror : rebuild embedder table existing present = .error e) :
    ∃ entry ∈ present, ∃ cause, e = .backend "embed the text of" table cause ∧
      (embedder.embedPassage entry.2 = .error cause ∨
        ∃ embeddings, embeddingsOf embedder table existing entry.1 entry.2 = .ok embeddings ∧
          ∃ embedding ∈ embeddings, embedding.length ≠ VECTOR_WIDTH ∧
            cause = wrongWidth embedding.length) := by
  induction present with
  | nil => cases herror
  | cons entry present ih =>
    rw [rebuild] at herror
    cases hrow : embeddingsOf embedder table existing entry.1 entry.2 with
    | error e' =>
      rw [hrow] at herror
      cases herror
      unfold embeddingsOf at hrow
      dsimp only at hrow
      split at hrow
      · cases hembed : embedder.embedPassage entry.2 with
        | error cause =>
          rw [hembed] at hrow
          cases hrow
          exact ⟨entry, List.mem_cons_self, cause, rfl, .inl hembed⟩
        | ok embeddings =>
          rw [hembed] at hrow
          cases hrow
      · cases hrow
    | ok embeddings =>
      rw [hrow] at herror
      simp only [bind, Except.bind] at herror
      cases hfind : embeddings.find? fun embedding => embedding.length ≠ VECTOR_WIDTH with
      | some embedding =>
        rw [hfind] at herror
        cases herror
        have hwide : embedding.length ≠ VECTOR_WIDTH := by simpa using List.find?_some hfind
        exact ⟨entry, List.mem_cons_self, _, rfl,
          .inr ⟨embeddings, hrow, embedding, List.mem_of_find?_eq_some hfind, hwide, rfl⟩⟩
      | none =>
        rw [hfind] at herror
        cases hrest : rebuild embedder table existing present with
        | error e' =>
          rw [hrest] at herror
          cases herror
          obtain ⟨entry', hmem, hcause⟩ := ih hrest
          exact ⟨entry', List.mem_cons_of_mem _ hmem, hcause⟩
        | ok vectors =>
          rw [hrest] at herror
          cases herror

theorem rebuild_error {embedder : Embedder} {table : Text} {existing : List RowVector}
    {present : List (RowId × Text)} {e : Error}
    (herror : rebuild embedder table existing present = .error e) :
    ∃ cause, e = .backend "embed the text of" table cause := by
  obtain ⟨-, -, cause, hcause, -⟩ := rebuild_refused herror
  exact ⟨cause, hcause⟩

section Checks

variable {W : World} {h : LanceStore} {E : Error → Prop} {table : Text}

/-- A check raises its refusal only. -/
theorem requireScope_raises {scope : Scope} (hE : E (.storage (.notPermitted scope table))) :
    Raises E (h.requireScope W scope table) := by
  unfold requireScope
  split_ifs
  · exact Raises.pure _
  · exact Raises.throw hE

theorem requireWriteRole_raises {operation : String}
    (hE : E (.storage (.readOnly operation table))) :
    Raises E (h.requireWriteRole operation table) := by
  unfold requireWriteRole
  split_ifs
  · exact Raises.pure _
  · exact Raises.throw hE

end Checks

end LanceStore

/-- Errors from below a handle and errors of its audit log are of this kind. -/
structure Covers (E : Error → Prop) : Prop where
  backend : ∀ operation table cause, E (.backend operation table cause)
  audit : ∀ e, E (.audit e)

namespace Covers

variable {W : World} {h : LanceStore} {E : Error → Prop} (hE : Covers E)

include hE

theorem ask (operation : String) (about : Text) (call : Call) (d : Option Dataset) :
    Raises E (ask W operation about call d) := by
  unfold LanceStore.ask
  split
  · exact Raises.pure _
  · exact Raises.throw (hE.backend _ _ _)

omit hE in
theorem found (table : Text) : Raises E (h.found W table) := by
  intro disk e disk' hrun
  cases hrun

omit hE in
theorem commit (table : Text) (d : Dataset) : Raises E (h.commit W table d) := by
  intro disk e disk' hrun
  cases hrun

theorem «open» (table : Text) : Raises E (h.open W table) := by
  refine (found table).bind fun d => (hE.ask _ _ _ _).bind fun _ => ?_
  split
  · exact Raises.pure _
  · exact Raises.throw (hE.backend _ _ _)

theorem collect (table about : Text) (d : Dataset) (rows : List Row) :
    Raises E (h.collect W table about d rows) :=
  (hE.ask _ _ _ _).bind fun _ => (hE.ask _ _ _ _).bind fun _ => Raises.pure _

theorem record (op : Operation) (rows : UInt64) : Raises E (h.record W op rows) := by
  intro disk e disk' hrun
  change h.record W op rows disk = _ at hrun
  unfold LanceStore.record at hrun
  split at hrun
  · cases hrun
  · split at hrun
    · cases hrun
    · cases hrun
      exact hE.audit _

theorem rowVectors (operation notFloat : String) (table : Text) (s : Schema) (rows : List Row) :
    Raises E (ofExcept (rowVectors operation notFloat table s rows) : StoreM (List RowVector)) := by
  refine Raises.ofExcept fun e herror => ?_
  obtain ⟨cause, rfl⟩ := rowVectors_error herror
  exact hE.backend _ _ _

theorem presentTexts (table column : Text) (d : Dataset) :
    Raises E (ofExcept (presentTexts table column d) : StoreM (List (RowId × Text))) := by
  refine Raises.ofExcept fun e herror => ?_
  obtain ⟨cause, rfl⟩ := presentTexts_error herror
  exact hE.backend _ _ _

theorem rebuild (embedder : Embedder) (table : Text) (existing : List RowVector)
    (present : List (RowId × Text)) :
    Raises E (ofExcept (rebuild embedder table existing present) : StoreM (List RowVector)) := by
  refine Raises.ofExcept fun e herror => ?_
  obtain ⟨cause, rfl⟩ := rebuild_error herror
  exact hE.backend _ _ _

section Reconciliation

variable {table : Text} (hread : Raises E (h.requireScope W .read table))

include hread

theorem vectorsOf (column : Text) : Raises E (h.vectorsOf W table column) :=
  hread.bind fun _ => (hE.open _).bind fun _ => (hE.collect _ _ _ _).bind fun _ =>
    (hE.rowVectors _ _ _ _ _).bind fun _ => Raises.pure _

theorem existingVectors (column : Text) : Raises E (h.existingVectors W table column) := by
  intro disk e disk' hrun
  change h.existingVectors W table column disk = _ at hrun
  unfold LanceStore.existingVectors at hrun
  split at hrun
  · exact hE.vectorsOf hread column _ _ _ hrun
  · cases hrun

theorem reconcile (column : Text) : Raises E (h.reconcile W table column) := by
  unfold LanceStore.reconcile
  split
  · exact Raises.throw (hE.backend _ _ _)
  · refine (hE.existingVectors hread column).bind fun existing => (hE.open _).bind fun d => ?_
    refine (hE.ask _ _ _ _).bind fun _ => (hE.ask _ _ _ _).bind fun _ => ?_
    refine (hE.ask _ _ _ _).bind fun _ => (hE.presentTexts _ _ _).bind fun present => ?_
    split
    · exact Raises.pure _
    · refine (hE.rebuild _ _ _ _).bind fun vectors => (found _).bind fun before => ?_
      exact (hE.ask _ _ _ _).bind fun _ => commit _ _

theorem reconcileEach (columns : List Text) : Raises E (h.reconcileEach W table columns) := by
  induction columns with
  | nil => exact Raises.pure _
  | cons column columns ih => exact (hE.reconcile hread column).bind fun _ => ih

/-- **A whole reconciliation** raises what its check raises, and errors from below. -/
theorem reconcileAll : Raises E (h.reconcileAll W table) :=
  ((hE.open _).bind fun _ => Raises.pure _).bind fun _ => hE.reconcileEach hread _

end Reconciliation

end Covers

end EuleDB.Store
