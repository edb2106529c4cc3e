import EuleDB.Store.Errors

/-!
# What a read depends on

A gated handle is to see the tables it holds a read token for, and the vectors derived from them.
A column's vectors are found by a name put together from the table's and the column's, and only
the table is checked.

* `perform_agrees` — a read depends on the places it looks at, and on the log.
* `confined_iff` — when a read depends on permitted tables alone, and when two columns share one
  companion name.
-/

set_option autoImplicit false

namespace EuleDB.Store

open Crypto Audit Effect

/-- The operations that answer from rows or vectors. -/
inductive Read where
  | vectorsOf (table column : Text)
  | nearest (table column : Text) (query : List UInt32) (limit : Nat)
  | hybridSearch (table column text : Text) (vector : List UInt32) (limit : Nat)
  | vectorIndexKind (table column : Text)
  | nearestUsesTheIndex (table column : Text) (query : List UInt32) (limit : Nat)
  | scan (table : Text)
  | scanOrdered (table predicate by' : Text) (order : Order)
  | rowIds (table predicate : Text)

namespace Read

def op : Read → Op
  | vectorsOf table column => .vectorsOf table column
  | nearest table column query limit => .nearest table column query limit
  | hybridSearch table column text vector limit => .hybridSearch table column text vector limit
  | vectorIndexKind table column => .vectorIndexKind table column
  | nearestUsesTheIndex table column query limit => .nearestUsesTheIndex table column query limit
  | scan table => .scan table
  | scanOrdered table predicate by' order => .scanOrdered table predicate by' order
  | rowIds table predicate => .rowIds table predicate

def table : Read → Text
  | vectorsOf table _ | nearest table _ _ _ | hybridSearch table _ _ _ _ | vectorIndexKind table _
  | nearestUsesTheIndex table _ _ _ | scan table | scanOrdered table _ _ _ | rowIds table _ => table

/-- The column whose companion a read opens.  A search for a vector of the wrong width is refused
before it opens one. -/
def column? : Read → Option Text
  | vectorsOf _ column | vectorIndexKind _ column | nearestUsesTheIndex _ column _ _ => some column
  | nearest _ column query _ => if query.length = VECTOR_WIDTH then some column else none
  | hybridSearch _ column _ vector _ => if vector.length = VECTOR_WIDTH then some column else none
  | scan _ | scanOrdered _ _ _ _ | rowIds _ _ => none

end Read

variable (W : World) (h : LanceStore)

/-- Two databases that agree on the permitted tables: on their rows, and on the vectors of their
auto-embedding columns. -/
structure Agree (disk disk' : Disk) : Prop where
  log : disk.log = disk'.log
  tables : ∀ table, h.permits W .read table →
    disk.datasets (h.place W table) = disk'.datasets (h.place W table)
  vectors : ∀ table d column, h.permits W .read table →
    disk.datasets (h.place W table) = some d → column ∈ d.schema.autoEmbeddingColumns →
      disk.datasets (h.place W (LanceStore.vectorTable table column)) =
        disk'.datasets (h.place W (LanceStore.vectorTable table column))

/-- What a read answers depends only on permitted tables. -/
def Confined (r : Read) (disk : Disk) : Prop :=
  ∀ disk', Agree W h disk disk' →
    answer ((h.perform W r.op).run disk) = answer ((h.perform W r.op).run disk')

/-- A place is a permitted table's, or that of the vectors of a permitted table's column. -/
def Covered (disk : Disk) (path : Path) : Prop :=
  ∃ table, h.permits W .read table ∧ (path = h.place W table ∨
    ∃ d column, disk.datasets (h.place W table) = some d ∧
      column ∈ d.schema.autoEmbeddingColumns ∧
      path = h.place W (LanceStore.vectorTable table column))

/-! ## A read depends on the places it looks at -/

/-- The disks have the same log, and the same in the places `S`. -/
def Same (S : Path → Prop) (disk disk' : Disk) : Prop :=
  disk.log = disk'.log ∧ ∀ path, S path → disk.datasets path = disk'.datasets path

variable {W h}

theorem Agree.same {disk disk' : Disk} (hagree : Agree W h disk disk') :
    Same (Covered W h disk) disk disk' := by
  refine ⟨hagree.log, ?_⟩
  rintro path ⟨table, hpermits, rfl | ⟨d, column, hd, hcolumn, rfl⟩⟩
  · exact hagree.tables table hpermits
  · exact hagree.vectors table d column hpermits hd hcolumn

namespace LanceStore

variable {S : Path → Prop}

theorem ask_agrees (operation : String) (about : Text) (call : Call) (d : Option Dataset) :
    Agrees (Same S) (ask W operation about call d) := by
  unfold ask
  split
  · exact Agrees.pure _
  · exact Agrees.throw _

theorem open_agrees {table : Text} (hS : S (h.place W table)) :
    Agrees (Same S) (h.open W table) := by
  have hfound : Agrees (Same S) (h.found W table) := by
    intro disk disk' hsame
    rw [found_run, found_run]
    exact ⟨congrArg Except.ok (hsame.2 _ hS), hsame⟩
  refine hfound.bind fun d => (ask_agrees _ _ _ _).bind fun _ => ?_
  split
  · exact Agrees.pure _
  · exact Agrees.throw _

theorem collect_agrees (table about : Text) (d : Dataset) (rows : List Row) :
    Agrees (Same S) (h.collect W table about d rows) :=
  (ask_agrees _ _ _ _).bind fun _ => (ask_agrees _ _ _ _).bind fun _ => Agrees.pure _

theorem record_agrees (op : Operation) (rows : UInt64) :
    Agrees (Same S) (h.record W op rows) := by
  intro disk disk' hsame
  change answer (h.record W op rows disk) = answer (h.record W op rows disk') ∧
    Same S (final (h.record W op rows disk)) (final (h.record W op rows disk'))
  unfold record
  cases h.audit with
  | none => exact ⟨rfl, hsame⟩
  | some log =>
    dsimp only
    rw [hsame.1]
    cases (log.append W.sha256 (op.entry W.debug rows)).run disk'.log with
    | ok u file => exact ⟨rfl, rfl, hsame.2⟩
    | error e file => exact ⟨rfl, rfl, hsame.2⟩

/-- Without a token nothing that follows has a part in the answer. -/
theorem requireScope_agrees {α : Type} {table : Text} {f : PUnit → StoreM α}
    (hf : h.permits W .read table → Agrees (Same S) (f ⟨⟩)) :
    Agrees (Same S) (h.requireScope W .read table >>= f) := by
  unfold requireScope
  split
  · rename_i hpermits
    exact (Agrees.pure _).bind fun _ => hf hpermits
  · exact Agrees.throw_bind _

theorem searchText_agrees {table : Text} (column query : Text) (limit : Nat)
    (hS : h.permits W .read table → S (h.place W table)) :
    Agrees (Same S) (h.searchText W table column query limit) := by
  refine requireScope_agrees fun hpermits => (open_agrees (hS hpermits)).bind fun d => ?_
  refine (ask_agrees _ _ _ _).bind fun _ => (ask_agrees _ _ _ _).bind fun _ => ?_
  refine (ask_agrees _ _ _ _).bind fun _ => (ask_agrees _ _ _ _).bind fun _ => ?_
  exact (ask_agrees _ _ _ _).bind fun _ => (record_agrees _ _).bind fun _ => Agrees.pure _

theorem nearest_agrees {table column : Text} {query : List UInt32} (limit : Nat)
    (hS : h.permits W .read table → query.length = VECTOR_WIDTH →
      S (h.place W (vectorTable table column))) :
    Agrees (Same S) (h.nearest W table column query limit) := by
  refine requireScope_agrees fun hpermits => ?_
  split_ifs with hwidth
  · exact Agrees.throw _
  · refine (open_agrees (hS hpermits (not_not.1 hwidth))).bind fun d => ?_
    refine (ask_agrees _ _ _ _).bind fun _ => (ask_agrees _ _ _ _).bind fun _ => ?_
    refine (ask_agrees _ _ _ _).bind fun _ => (Agrees.ofExcept _).bind fun found => ?_
    exact (record_agrees _ _).bind fun _ => Agrees.pure _

end LanceStore

open LanceStore

/-- **A read depends on the log and on what is in the places it looks at**: its table's, and the
companion's of its column. -/
theorem perform_agrees {S : Path → Prop} {r : Read}
    (htable : h.permits W .read r.table → S (h.place W r.table))
    (hcolumn : ∀ column, r.column? = some column → h.permits W .read r.table →
      S (h.place W (vectorTable r.table column))) :
    Agrees (Same S) (h.perform W r.op) := by
  cases r with
  | vectorsOf table column =>
    refine Agrees.map (requireScope_agrees fun hpermits => ?_) _
    refine (open_agrees (hcolumn column rfl hpermits)).bind fun d => ?_
    exact (collect_agrees _ _ _ _).bind fun _ => (Agrees.ofExcept _).bind fun _ => Agrees.pure _
  | nearest table column query limit =>
    exact (nearest_agrees limit fun hpermits hwidth =>
      hcolumn column (if_pos hwidth) hpermits).map _
  | hybridSearch table column text vector limit =>
    refine Agrees.map (requireScope_agrees fun hpermits => ?_) _
    refine (nearest_agrees _ fun hpermits hwidth =>
      hcolumn column (if_pos hwidth) hpermits).bind fun semantic => ?_
    refine (searchText_agrees _ _ _ htable).bind fun lexical => ?_
    refine (open_agrees (htable hpermits)).bind fun d => (ask_agrees _ _ _ _).bind fun _ => ?_
    exact (record_agrees _ _).bind fun _ => Agrees.pure _
  | vectorIndexKind table column =>
    refine Agrees.map (requireScope_agrees fun hpermits => ?_) _
    refine (open_agrees (hcolumn column rfl hpermits)).bind fun d => ?_
    split
    · exact Agrees.pure _
    · split_ifs <;> exact Agrees.pure _
  | nearestUsesTheIndex table column query limit =>
    refine Agrees.map (requireScope_agrees fun hpermits => ?_) _
    refine (open_agrees (hcolumn column rfl hpermits)).bind fun d => ?_
    exact (ask_agrees _ _ _ _).bind fun _ => (ask_agrees _ _ _ _).bind fun _ => Agrees.pure _
  | scan table =>
    refine Agrees.map (requireScope_agrees fun hpermits => ?_) _
    refine (open_agrees (htable hpermits)).bind fun d => (collect_agrees _ _ _ _).bind fun b => ?_
    exact (record_agrees _ _).bind fun _ => Agrees.pure _
  | scanOrdered table predicate by' order =>
    refine Agrees.map (requireScope_agrees fun hpermits => ?_) _
    refine (open_agrees (htable hpermits)).bind fun d => Agrees.bind ?_ fun _ =>
      collect_agrees _ _ _ _
    exact (ask_agrees _ _ _ _).bind fun _ => (ask_agrees _ _ _ _).bind fun _ => Agrees.pure _
  | rowIds table predicate =>
    refine Agrees.map (requireScope_agrees fun hpermits => ?_) _
    refine (open_agrees (htable hpermits)).bind fun d => Agrees.bind ?_ fun rows => ?_
    · exact (ask_agrees _ _ _ _).bind fun _ => (ask_agrees _ _ _ _).bind fun _ => Agrees.pure _
    · exact (ask_agrees _ _ _ _).bind fun _ => (ask_agrees _ _ _ _).bind fun _ => Agrees.pure _

/-! ## What a read does at its companion -/

/-- The error is not that the table `companion` could not be opened. -/
def NotOpening (companion : Text) (e : Error) : Prop :=
  ∀ cause, e ≠ .backend "open the table" companion cause

theorem NotOpening.backend {companion about : Text} {operation : String} {cause : Cause}
    (hoperation : operation ≠ "open the table" ∨ about ≠ companion) :
    NotOpening companion (.backend operation about cause) := by
  intro cause' heq
  cases heq
  exact hoperation.elim (fun hne => hne rfl) (fun hne => hne rfl)

namespace LanceStore

variable {companion : Text}

theorem vectorTable_ne (table column : Text) : table ≠ vectorTable table column := by
  intro heq
  have := congrArg List.length heq
  unfold vectorTable at this
  simp at this

theorem ask_raises {operation : String} (hoperation : operation ≠ "open the table")
    (about : Text) (call : Call) (d : Option Dataset) :
    Raises (NotOpening companion) (ask W operation about call d) := by
  unfold ask
  split
  · exact Raises.pure _
  · exact Raises.throw (NotOpening.backend (.inl hoperation))

theorem open_raises {table : Text} (htable : table ≠ companion) :
    Raises (NotOpening companion) (h.open W table) := by
  have hask : ∀ call d, Raises (NotOpening companion) (ask W "open the table" table call d) := by
    intro call d
    unfold ask
    split
    · exact Raises.pure _
    · exact Raises.throw (NotOpening.backend (.inr htable))
  have hfound : Raises (NotOpening companion) (h.found W table) := by
    intro disk e disk' hrun
    cases hrun
  refine hfound.bind fun d => (hask _ _).bind fun _ => ?_
  split
  · exact Raises.pure _
  · exact Raises.throw (NotOpening.backend (.inr htable))

theorem collect_raises (table about : Text) (d : Dataset) (rows : List Row) :
    Raises (NotOpening companion) (h.collect W table about d rows) :=
  (ask_raises (by decide) _ _ _).bind fun _ => (ask_raises (by decide) _ _ _).bind fun _ =>
    Raises.pure _

theorem record_raises (op : Operation) (rows : UInt64) :
    Raises (NotOpening companion) (h.record W op rows) := by
  intro disk e disk' hrun
  change h.record W op rows disk = _ at hrun
  unfold record at hrun
  split at hrun
  · cases hrun
  · split at hrun
    · cases hrun
    · cases hrun
      intro cause heq
      cases heq

theorem rowVectors_raises {operation notFloat : String} (hoperation : operation ≠ "open the table")
    (table : Text) (s : Schema) (rows : List Row) :
    Raises (NotOpening companion)
      (ofExcept (rowVectors operation notFloat table s rows) : StoreM (List RowVector)) := by
  refine Raises.ofExcept fun e herror => ?_
  obtain ⟨cause, rfl⟩ := rowVectors_error herror
  exact NotOpening.backend (.inl hoperation)

/-- Where a table is missing opening it fails. -/
theorem open_missing {table : Text} {disk : Disk}
    (hmissing : disk.datasets (h.place W table) = none) :
    ∃ cause, (h.open W table).run disk = .error (.backend "open the table" table cause) disk := by
  unfold LanceStore.open
  rw [EStateM.run_bind, found_run]
  dsimp only
  rw [hmissing]
  unfold ask
  cases W.format.refuses (h.call table .load) none with
  | none => exact ⟨_, rfl⟩
  | some cause => exact ⟨cause, rfl⟩

/-- A computation opens `companion` first, and no later error says that it could not be opened. -/
def OpensFirst (W : World) (h : LanceStore) (companion : Text) {α : Type} (x : StoreM α) : Prop :=
  ∃ rest : Dataset → StoreM α, x = h.open W companion >>= rest ∧
    ∀ d, Raises (NotOpening companion) (rest d)

theorem OpensFirst.bind {α β : Type} {x : StoreM α} {f : α → StoreM β}
    (hx : OpensFirst W h companion x) (hf : ∀ a, Raises (NotOpening companion) (f a)) :
    OpensFirst W h companion (x >>= f) := by
  obtain ⟨rest, rfl, hrest⟩ := hx
  exact ⟨fun d => rest d >>= f, bind_assoc _ _ _, fun d => (hrest d).bind hf⟩

theorem OpensFirst.map {α β : Type} {x : StoreM α} (hx : OpensFirst W h companion x) (g : α → β) :
    OpensFirst W h companion (g <$> x) := by
  rw [map_eq_pure_bind]
  exact hx.bind fun a => Raises.pure (g a)

theorem OpensFirst.permitted {α : Type} {table : Text} {f : PUnit → StoreM α}
    (hpermits : h.permits W .read table) (hf : OpensFirst W h companion (f ⟨⟩)) :
    OpensFirst W h companion (h.requireScope W .read table >>= f) := by
  unfold requireScope
  rw [if_pos hpermits, pure_bind]
  exact hf

theorem nearest_opens {table column : Text} {query : List UInt32} (limit : Nat)
    (hpermits : h.permits W .read table) (hwidth : query.length = VECTOR_WIDTH) :
    OpensFirst W h (vectorTable table column) (h.nearest W table column query limit) := by
  refine OpensFirst.permitted hpermits ?_
  rw [if_neg (not_not.2 hwidth)]
  refine ⟨_, rfl, fun d => ?_⟩
  refine (ask_raises (by decide) _ _ _).bind fun _ => ?_
  refine (ask_raises (by decide) _ _ _).bind fun _ => ?_
  refine (ask_raises (by decide) _ _ _).bind fun _ => ?_
  refine (rowVectors_raises (by decide) _ _ _).bind fun found => ?_
  exact (record_raises _ _).bind fun _ => Raises.pure _

theorem searchText_raises {table : Text} (htable : table ≠ companion)
    (hpermits : h.permits W .read table) (column query : Text) (limit : Nat) :
    Raises (NotOpening companion) (h.searchText W table column query limit) := by
  have hscope : h.requireScope W .read table = pure ⟨⟩ := if_pos hpermits
  unfold searchText
  rw [hscope, pure_bind]
  refine (open_raises htable).bind fun d => ?_
  refine (ask_raises (by decide) _ _ _).bind fun _ => ?_
  refine (ask_raises (by decide) _ _ _).bind fun _ => ?_
  refine (ask_raises (by decide) _ _ _).bind fun _ => ?_
  refine (ask_raises (by decide) _ _ _).bind fun _ => ?_
  refine (ask_raises (by decide) _ _ _).bind fun _ => ?_
  exact (record_raises _ _).bind fun _ => Raises.pure _

end LanceStore

/-- A permitted read of vectors opens the companion first. -/
theorem perform_opens {r : Read} {column : Text} (hcolumn : r.column? = some column)
    (hpermits : h.permits W .read r.table) :
    OpensFirst W h (vectorTable r.table column) (h.perform W r.op) := by
  cases r with
  | vectorsOf table _ =>
    cases hcolumn
    refine (OpensFirst.permitted hpermits ⟨_, rfl, fun d => ?_⟩).map _
    refine (collect_raises _ _ _ _).bind fun _ => ?_
    exact (rowVectors_raises (by decide) _ _ _).bind fun _ => Raises.pure _
  | nearest table _ query limit =>
    obtain ⟨hwidth, hsome⟩ := Option.ite_none_right_eq_some.1 hcolumn
    cases hsome
    exact (nearest_opens limit hpermits hwidth).map _
  | hybridSearch table _ text vector limit =>
    obtain ⟨hwidth, hsome⟩ := Option.ite_none_right_eq_some.1 hcolumn
    cases hsome
    have htable : table ≠ vectorTable table column := vectorTable_ne table column
    refine (OpensFirst.permitted hpermits ?_).map _
    refine (nearest_opens _ hpermits hwidth).bind fun semantic => ?_
    refine (searchText_raises htable hpermits _ _ _).bind fun lexical => ?_
    refine (open_raises htable).bind fun d => (ask_raises (by decide) _ _ _).bind fun _ => ?_
    exact (record_raises _ _).bind fun _ => Raises.pure _
  | vectorIndexKind table _ =>
    cases hcolumn
    refine (OpensFirst.permitted hpermits ⟨_, rfl, fun d => ?_⟩).map _
    split
    · exact Raises.pure _
    · split_ifs <;> exact Raises.pure _
  | nearestUsesTheIndex table _ query limit =>
    cases hcolumn
    refine (OpensFirst.permitted hpermits ⟨_, rfl, fun d => ?_⟩).map _
    refine (ask_raises (by decide) _ _ _).bind fun _ => ?_
    exact (ask_raises (by decide) _ _ _).bind fun _ => Raises.pure _
  | scan _ => cases hcolumn
  | scanOrdered _ _ _ _ => cases hcolumn
  | rowIds _ _ => cases hcolumn

/-! ## Confinement -/

/-- Changing what is in a place that no permitted table covers. -/
theorem agree_put {disk : Disk} {path : Path} (huncovered : ¬ Covered W h disk path)
    (d : Option Dataset) : Agree W h disk (disk.put path d) := by
  refine ⟨rfl, fun table hpermits => ?_, fun table d' column hpermits hd hcolumn => ?_⟩
  · have hne : h.place W table ≠ path := by
      rintro rfl
      exact huncovered ⟨table, hpermits, .inl rfl⟩
    exact (Function.update_of_ne hne _ _).symm
  · have hne : h.place W (vectorTable table column) ≠ path := by
      rintro rfl
      exact huncovered ⟨table, hpermits, .inr ⟨d', column, hd, hcolumn, rfl⟩⟩
    exact (Function.update_of_ne hne _ _).symm

/-- A permitted read of vectors in a place that no permitted table covers is not confined: it
tells whether there are any. -/
theorem not_confined {r : Read} {column : Text} {disk : Disk} (hcolumn : r.column? = some column)
    (hpermits : h.permits W .read r.table)
    (hload : W.format.refuses (h.call (vectorTable r.table column) .load)
      (some (.create vectorSchema)) = none)
    (huncovered : ¬ Covered W h disk (h.place W (vectorTable r.table column))) :
    ¬ Confined W h r disk := by
  intro hconfined
  obtain ⟨rest, hperform, hraises⟩ := perform_opens hcolumn hpermits
  have hnone := hconfined _ (agree_put huncovered none)
  have hsome := hconfined _ (agree_put huncovered (some (.create vectorSchema)))
  rw [hnone, hperform] at hsome
  -- without the companion opening it fails, and with an empty one it does not
  obtain ⟨cause, hmissing⟩ : ∃ cause, (h.open W (vectorTable r.table column)).run
      (disk.put (h.place W (vectorTable r.table column)) none) =
        .error (.backend "open the table" (vectorTable r.table column) cause) _ :=
    open_missing (Disk.put_self _ _ _)
  have hpresent : (h.open W (vectorTable r.table column)).run
      (disk.put (h.place W (vectorTable r.table column)) (some (.create vectorSchema))) =
        .ok (.create vectorSchema) _ :=
    open_ok.2 ⟨⟨Disk.put_self _ _ _, hload⟩, rfl⟩
  rw [EStateM.run_bind, EStateM.run_bind, hmissing, hpresent] at hsome
  dsimp only at hsome
  cases hrest : (rest (.create vectorSchema)).run
      (disk.put (h.place W (vectorTable r.table column)) (some (.create vectorSchema))) with
  | ok a disk' =>
    rw [hrest] at hsome
    cases hsome
  | error e disk' =>
    rw [hrest] at hsome
    cases hsome
    exact hraises _ _ _ _ hrest cause rfl

/-- **A read is confined to permitted tables exactly when** it opens no companion, or is refused
for want of a token, or the companion's place is a permitted table's or that of the vectors of a
permitted table's column.  **Two columns share a companion name exactly when** their tables and
columns spell one text with a dot between them. -/
theorem confined_iff {r : Read} {disk : Disk}
    (hload : ∀ column, W.format.refuses (h.call (vectorTable r.table column) .load)
      (some (.create vectorSchema)) = none) :
    (Confined W h r disk ↔ ∀ column, r.column? = some column → h.permits W .read r.table →
        Covered W h disk (h.place W (vectorTable r.table column))) ∧
      ∀ table column table' column',
        vectorTable table column = vectorTable table' column' ↔
          table ++ ".".toList ++ column = table' ++ ".".toList ++ column' := by
  refine ⟨⟨fun hconfined column hcolumn hpermits => ?_, fun hcovered disk' hagree => ?_⟩,
    fun table column table' column' => List.append_left_inj _⟩
  · by_contra huncovered
    exact not_confined hcolumn hpermits (hload column) huncovered hconfined
  · have hagrees : Agrees (Same (Covered W h disk)) (h.perform W r.op) :=
      perform_agrees (fun hpermits => ⟨r.table, hpermits, .inl rfl⟩) hcovered
    exact (hagrees disk disk' hagree.same).1

/-! ## A handle for one table -/

/-- A handle whose only token is to read the table `a`. -/
def readerOfA : LanceStore :=
  let key := padTo MAC_LEN []
  (LanceStore.new "db".toList).gated ⟨key, [⟨"a".toList, .read,
    Platform.padding.hmac key.1 (Capability.message "a".toList .read)⟩]⟩

/-- Another table, `a.b`, has one vector for its column `c`. -/
def vectorsOfAB : Disk :=
  Disk.empty.put (readerOfA.place .plain (vectorTable "a.b".toList "c".toList))
    (some ((Dataset.create vectorSchema).add .plain
      [[.uint64 0, .uint32 0, .vector (List.replicate VECTOR_WIDTH 0)]]))

theorem readerOfA_permits {table : Text} (hpermits : readerOfA.permits .plain .read table) :
    table = "a".toList := by
  have hgranted := (Gate.permits_iff _ _ _ _).1 hpermits
  have hcapability := List.mem_singleton.1 hgranted
  exact congrArg Capability.table hcapability

theorem vectorsOfAB_uncovered : ¬ Covered .plain readerOfA vectorsOfAB
    (readerOfA.place .plain (vectorTable "a".toList "b.c".toList)) := by
  rintro ⟨table, hpermits, hplace | ⟨d, column, hd, -, -⟩⟩
  · rw [readerOfA_permits hpermits] at hplace
    exact absurd hplace (by decide)
  · rw [readerOfA_permits hpermits] at hd
    have hnone : vectorsOfAB.datasets (readerOfA.place .plain "a".toList) = none := rfl
    rw [hnone] at hd
    cases hd

/-- The table `a` itself, with a column that embeds itself and a vector for it. -/
def vectorsOfA : Disk :=
  (Disk.empty.put (readerOfA.place .plain "a".toList)
    (some (.create (.autoEmbedding ⟨[⟨"text".toList, .utf8, false, []⟩], []⟩ "text".toList)))).put
      (readerOfA.place .plain (vectorTable "a".toList "text".toList))
      (some ((Dataset.create vectorSchema).add .plain
        [[.uint64 0, .uint32 0, .vector (List.replicate VECTOR_WIDTH 0)]]))

/-- The vectors of a permitted table's column are read alone. -/
theorem vectors_of_a_confined :
    Confined .plain readerOfA (.vectorsOf "a".toList "text".toList) vectorsOfA := by
  refine (confined_iff fun _ => rfl).1.2 fun column hcolumn hpermits => ?_
  cases hcolumn
  exact ⟨"a".toList, hpermits, .inr ⟨_, "text".toList, rfl, by decide, rfl⟩⟩

/-- The vectors of `a.b` are read with a token for `a`. -/
theorem vectors_of_another_table : ∃ disk disk' : Disk,
    Agree .plain readerOfA disk disk' ∧ readerOfA.permits .plain .read "a.b".toList = false ∧
      vectorTable "a".toList "b.c".toList = vectorTable "a.b".toList "c".toList ∧
      answer ((readerOfA.perform .plain (.vectorsOf "a".toList "b.c".toList)).run disk) =
        .ok (.vectors [⟨0, 0, List.replicate VECTOR_WIDTH 0⟩]) ∧
      answer ((readerOfA.perform .plain (.vectorsOf "a".toList "b.c".toList)).run disk') =
        .ok (.vectors []) := by
  refine ⟨vectorsOfAB, _, agree_put vectorsOfAB_uncovered (some (.create vectorSchema)), ?_, rfl,
    ?_, ?_⟩
  · rw [Bool.eq_false_iff]
    intro hpermits
    exact absurd (readerOfA_permits hpermits) (by decide)
  · have hrun : (readerOfA.vectorsOf .plain "a".toList "b.c".toList).run vectorsOfAB =
        .ok [⟨0, 0, List.replicate VECTOR_WIDTH 0⟩] vectorsOfAB :=
      vectorsOf_ok.2 ⟨⟨rfl, _, [⟨0, 0, List.replicate VECTOR_WIDTH 0⟩], ⟨rfl, rfl⟩,
        fun _ _ => rfl, rfl, (List.mergeSort_singleton _).symm⟩, rfl⟩
    exact congrArg answer (run_map_ok hrun Answer.vectors)
  · have hrun : (readerOfA.vectorsOf .plain "a".toList "b.c".toList).run
        (vectorsOfAB.put (readerOfA.place .plain (vectorTable "a".toList "b.c".toList))
          (some (.create vectorSchema))) = .ok [] _ :=
      vectorsOf_ok.2 ⟨⟨rfl, .create vectorSchema, [], ⟨Disk.put_self _ _ _, rfl⟩,
        fun _ _ => rfl, rfl, List.mergeSort_nil.symm⟩, rfl⟩
    exact congrArg answer (run_map_ok hrun Answer.vectors)

end EuleDB.Store
