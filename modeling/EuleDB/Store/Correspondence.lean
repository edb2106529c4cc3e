import EuleDB.Store.Validation

/-!
# The check against the declaration

The check looks columns up by name, and where a batch carries a name twice it sees the first of
them only.

* `Corresponds` — the columns of the batch are the declared ones, one for one.
* `corresponds_iff` — they are exactly where the batch carries no name twice and what the check
  looks at conforms.
* `validate_violated` — an error is about a column that is not as declared, in every case.
* `validate_exact_iff` — the check accepts exactly the declared table, unless it accepts a batch
  that carries a name twice.
-/

set_option autoImplicit false

namespace EuleDB.Store

open Crypto TableSchema

/-! ## Looking a column up -/

theorem Schema.columnWithName_find (s : Schema) (name : Text) :
    (s.columnWithName name).map Prod.snd = s.fields.find? fun field => field.name = name := by
  rw [List.find?_eq_bind_findIdx?_getElem?]
  unfold Schema.columnWithName
  cases s.fields.findIdx? fun field => field.name = name with
  | none => rfl
  | some i => simp

theorem Schema.columnWithName_isSome {s : Schema} {name : Text} :
    (s.columnWithName name).isSome ↔ ∃ field ∈ s.fields, field.name = name := by
  have hfind := congrArg Option.isSome (s.columnWithName_find name)
  rw [Option.isSome_map] at hfind
  simp [hfind]

theorem Schema.columnWithName_mem {s : Schema} {name : Text} {i : Nat} {field : Field}
    (h : s.columnWithName name = some (i, field)) : field ∈ s.fields ∧ field.name = name := by
  have hfind := s.columnWithName_find name
  simp only [h, Option.map_some] at hfind
  have hname := List.find?_some hfind.symm
  exact ⟨List.mem_of_find?_eq_some hfind.symm, by simpa using hname⟩

theorem Schema.columnWithName_none {s : Schema} {name : Text} (h : s.columnWithName name = none) :
    ∀ field ∈ s.fields, field.name ≠ name := by
  intro field hfield hname
  have hsome := Schema.columnWithName_isSome.2 ⟨field, hfield, hname⟩
  simp [h] at hsome

/-- Columns of one name are one column where no name stands twice. -/
theorem eq_of_name {fields : List Field} (hnodup : (fields.map Field.name).Nodup) {a b : Field}
    (ha : a ∈ fields) (hb : b ∈ fields) (h : a.name = b.name) : a = b :=
  List.inj_on_of_nodup_map hnodup ha hb h

/-! ## One for one -/

/-- A column of the batch is as it was declared, or stricter about nulls. -/
def Field.Accepts (declared present : Field) : Prop :=
  present.name = declared.name ∧ present.dataType = declared.dataType ∧
    (present.nullable → declared.nullable)

/-- The columns of the batch, in some order, are the declared ones. -/
def Corresponds (declared present : Schema) : Prop :=
  ∃ ordered : List Field, ordered.Perm present.fields ∧
    List.Forall₂ Field.Accepts declared.fields ordered

theorem names_of_accepts {declared ordered : List Field}
    (h : List.Forall₂ Field.Accepts declared ordered) :
    ordered.map Field.name = declared.map Field.name := by
  induction h with
  | nil => rfl
  | cons hfield _ ih => simp [ih, hfield.1]

/-- A declared column that holds is accepted by a column of the batch. -/
theorem Holds.accepts {present : Schema} {declared : Field} (h : Holds present declared) :
    ∃ found ∈ present.fields, declared.Accepts found := by
  obtain ⟨i, found, hfound, htype, hnull⟩ := h
  obtain ⟨hmem, hname⟩ := Schema.columnWithName_mem hfound
  exact ⟨found, hmem, hname, htype, hnull⟩

/-- Columns that hold one after the other are accepted one after the other. -/
theorem exists_ordered {present : Schema} {fields : List Field}
    (h : ∀ field ∈ fields, Holds present field) :
    ∃ ordered : List Field, List.Forall₂ Field.Accepts fields ordered ∧
      ∀ found ∈ ordered, found ∈ present.fields := by
  induction fields with
  | nil => exact ⟨[], .nil, by simp⟩
  | cons field rest ih =>
    obtain ⟨found, hmem, haccepts⟩ := (h field (by simp)).accepts
    obtain ⟨ordered, hordered, hall⟩ := ih fun other hother => h other (by simp [hother])
    refine ⟨found :: ordered, .cons haccepts hordered, ?_⟩
    simp only [List.mem_cons, forall_eq_or_imp]
    exact ⟨hmem, hall⟩

/-- **The columns are the declared ones** exactly where no name stands twice in the batch and what
the check looks at conforms. -/
theorem corresponds_iff {declared present : Schema}
    (hdistinct : (declared.fields.map Field.name).Nodup) :
    Corresponds declared present ↔
      (present.fields.map Field.name).Nodup ∧ Conforms declared present := by
  constructor
  · rintro ⟨ordered, hperm, haccepts⟩
    have hnames := names_of_accepts haccepts
    have hnodup : (present.fields.map Field.name).Nodup := by
      rw [← (hperm.map Field.name).nodup_iff, hnames]
      exact hdistinct
    refine ⟨hnodup, ⟨fun field hfield => ?_, fun found hfound => ?_⟩⟩
    · -- the partner of a declared column is the one that its name finds
      obtain ⟨i, hi, rfl⟩ := List.getElem_of_mem hfield
      have hlen := haccepts.length_eq
      have haccept := haccepts.get hi (by omega)
      have hpartner : ordered[i] ∈ present.fields := hperm.mem_iff.1 (List.getElem_mem _)
      have hsome := Schema.columnWithName_isSome.2 ⟨_, hpartner, haccept.1⟩
      obtain ⟨⟨j, found⟩, hfound⟩ := Option.isSome_iff_exists.1 hsome
      obtain ⟨hmem, hname⟩ := Schema.columnWithName_mem hfound
      have hsame := eq_of_name hnodup hmem hpartner (hname.trans haccept.1.symm)
      refine ⟨j, found, hfound, ?_⟩
      rw [hsame]
      exact haccept.2
    · have hname : found.name ∈ declared.fields.map Field.name := by
        rw [← hnames, (hperm.map Field.name).mem_iff]
        exact List.mem_map_of_mem hfound
      obtain ⟨field, hfield, hname⟩ := List.mem_map.1 hname
      exact Schema.columnWithName_isSome.2 ⟨field, hfield, hname⟩
  · rintro ⟨hnodup, hconforms⟩
    obtain ⟨ordered, haccepts, hall⟩ := exists_ordered hconforms.holds
    have hnames := names_of_accepts haccepts
    refine ⟨ordered, ?_, haccepts⟩
    have hordered : ordered.Nodup := by
      apply List.Nodup.of_map Field.name
      rw [hnames]
      exact hdistinct
    apply (List.perm_ext_iff_of_nodup hordered (hnodup.of_map Field.name)).2
    refine fun found => ⟨hall found, fun hfound => ?_⟩
    -- its name is declared, and the partner of that declaration can only be it
    obtain ⟨field, hfield, hname⟩ := Schema.columnWithName_isSome.1 (hconforms.known found hfound)
    have hmem : found.name ∈ ordered.map Field.name := by
      rw [hnames, ← hname]
      exact List.mem_map_of_mem hfield
    obtain ⟨other, hother, hsame⟩ := List.mem_map.1 hmem
    rw [← eq_of_name hnodup (hall other hother) hfound hsame]
    exact hother

/-! ## What an error says -/

/-- A mismatch is true of the batch: the column that it names is not as declared, in the way that
it says. -/
def SchemaMismatch.Violated (declared present : Schema) : SchemaMismatch → Prop
  | .missingColumn column =>
    (∃ field ∈ declared.fields, field.name = column) ∧
      ∀ found ∈ present.fields, found.name ≠ column
  | .undeclaredColumn column =>
    (∃ found ∈ present.fields, found.name = column) ∧
      ∀ field ∈ declared.fields, field.name ≠ column
  | .typeMismatch column type other =>
    ∃ field ∈ declared.fields, ∃ found ∈ present.fields, field.name = column ∧
      found.name = column ∧ field.dataType = type ∧ found.dataType = other ∧ other ≠ type
  | .nullabilityMismatch column declaredNullable =>
    ∃ field ∈ declared.fields, ∃ found ∈ present.fields, field.name = column ∧
      found.name = column ∧ found.nullable ∧ field.nullable = declaredNullable ∧
        declaredNullable = false

theorem validateDeclared_violated {declared present : Schema} {fields : List Field} {e : Error}
    (hfields : ∀ field ∈ fields, field ∈ declared.fields)
    (herror : validateDeclared present fields = .error e) :
    ∃ mismatch, e = .schema mismatch ∧ mismatch.Violated declared present := by
  induction fields with
  | nil => cases herror
  | cons field rest ih =>
    have hfield := hfields field (by simp)
    rw [validateDeclared] at herror
    split at herror
    · rename_i hnone
      cases herror
      exact ⟨_, rfl, ⟨field, hfield, rfl⟩, Schema.columnWithName_none hnone⟩
    · rename_i i found hsome
      obtain ⟨hmem, hname⟩ := Schema.columnWithName_mem hsome
      split_ifs at herror with htype hnull
      · cases herror
        exact ⟨_, rfl, field, hfield, found, hmem, rfl, hname, rfl, rfl, htype⟩
      · cases herror
        simp only [Bool.and_eq_true, Bool.not_eq_true'] at hnull
        exact ⟨_, rfl, field, hfield, found, hmem, rfl, hname, hnull.1, hnull.2, rfl⟩
      · exact ih (fun other hother => hfields other (by simp [hother])) herror

theorem validatePresent_violated {declared present : Schema} {fields : List Field} {e : Error}
    (hfields : ∀ field ∈ fields, field ∈ present.fields)
    (herror : validatePresent declared fields = .error e) :
    ∃ mismatch, e = .schema mismatch ∧ mismatch.Violated declared present := by
  induction fields with
  | nil => cases herror
  | cons field rest ih =>
    rw [validatePresent] at herror
    split at herror
    · rename_i hnone
      cases herror
      exact ⟨_, rfl, ⟨field, hfields field (by simp), rfl⟩, Schema.columnWithName_none hnone⟩
    · exact ih (fun other hother => hfields other (by simp [hother])) herror

/-- **What the check reports is true** of the column that it names. -/
theorem validate_violated {declared : Schema} {batch : Batch} {e : Error}
    (herror : validate declared batch = .error e) :
    ∃ mismatch, e = .schema mismatch ∧ mismatch.Violated declared batch.schema := by
  unfold validate at herror
  cases hdeclared : validateDeclared batch.schema declared.fields with
  | error e' =>
    rw [hdeclared] at herror
    cases herror
    exact validateDeclared_violated (fun _ h => h) hdeclared
  | ok u =>
    rw [hdeclared] at herror
    exact validatePresent_violated (fun _ h => h) herror

/-! ## The declared table -/

/-- The check accepts the batch exactly where it is the declared table, and what it reports
otherwise is true. -/
def ValidatesExactly (declared : Schema) (batch : Batch) : Prop :=
  (validate declared batch = .ok ⟨⟩ ↔ Corresponds declared batch.schema) ∧
    ∀ e, validate declared batch = .error e →
      ∃ mismatch, e = .schema mismatch ∧ mismatch.Violated declared batch.schema

/-- **The check is exact** for every batch that carries no name twice, and for those that do and
are refused for another reason: the first column of some declared name is missing, of another type
or looser about nulls, or some column is not declared. -/
theorem validate_exact_iff {declared : Schema}
    (hdistinct : (declared.fields.map Field.name).Nodup) (batch : Batch) :
    ValidatesExactly declared batch ↔
      (batch.schema.fields.map Field.name).Nodup ∨ ¬ Conforms declared batch.schema := by
  have herrors : ∀ e, validate declared batch = .error e →
      ∃ mismatch, e = .schema mismatch ∧ mismatch.Violated declared batch.schema :=
    fun e => validate_violated
  unfold ValidatesExactly
  rw [validate_ok_iff, corresponds_iff hdistinct]
  constructor
  · rintro ⟨hexact, -⟩
    by_cases hconforms : Conforms declared batch.schema
    · exact .inl (hexact.1 hconforms).1
    · exact .inr hconforms
  · rintro (hnodup | hrefused)
    · exact ⟨⟨fun hconforms => ⟨hnodup, hconforms⟩, fun h => h.2⟩, herrors⟩
    · exact ⟨⟨fun hconforms => absurd hconforms hrefused, fun h => absurd h.2 hrefused⟩, herrors⟩

/-! ## A name that stands twice -/

/-- Two columns of one name, the second with texts. -/
def twiceNamed : Schema :=
  ⟨[⟨"id".toList, .uint64, false, []⟩, ⟨"id".toList, .utf8, true, []⟩], []⟩

/-- The columns of `twiceNamed` in the other order are refused, for the type of the first. -/
theorem exact_where_refused : ValidatesExactly (idSchema false)
    ⟨⟨twiceNamed.fields.reverse, []⟩, [[.utf8 "a".toList, .uint64 1]]⟩ := by
  refine (validate_exact_iff (by decide) _).2 (.inr fun hconforms => ?_)
  obtain ⟨i, found, hfound, htype, -⟩ := hconforms.holds _ List.mem_cons_self
  cases hfound
  cases htype

/-- A batch with a second column of a declared name, which is of another type and looser, is
accepted. -/
theorem second_column_is_accepted :
    validate (idSchema false) ⟨twiceNamed, [[.uint64 1, .utf8 "a".toList]]⟩ = .ok ⟨⟩ ∧
      ¬ ValidatesExactly (idSchema false) ⟨twiceNamed, [[.uint64 1, .utf8 "a".toList]]⟩ := by
  have hok : validate (idSchema false) ⟨twiceNamed, [[.uint64 1, .utf8 "a".toList]]⟩ = .ok ⟨⟩ := by
    decide
  refine ⟨hok, fun hexact => ?_⟩
  obtain ⟨ordered, hperm, haccepts⟩ := hexact.1.1 hok
  have hlen := haccepts.length_eq
  rw [hperm.length_eq] at hlen
  cases hlen

end EuleDB.Store
