import EuleDB.Store.Auditing
import EuleDB.Store.Correspondence
import EuleDB.Store.Searches
import EuleDB.Store.Vectors

/-!
# Which column a full-text search is about

A search by words names a column to the store, and the store names none to the format.

* `Format.RanksText` — a format that ranks over every column that has a text index.
* `AnswersAbout` — a search that depends on one column only, and is refused without its index.
* `answers_about_iff` — that is so exactly where no other column of the table has a text index.
-/

set_option autoImplicit false

namespace EuleDB.Store

open Crypto Audit Effect LanceStore

/-! ## What a query without a column is ranked over -/

def isInverted : IndexKind → Bool
  | .inverted _ _ => true
  | _ => false

/-- The text columns that have a text index. -/
def textColumns (s : Schema) (indexes : List (Text × IndexKind)) : List Text :=
  (indexes.filter fun entry =>
    isInverted entry.2 && (typedColumn s entry.1 (· = .utf8)).isSome).map Prod.fst

/-- Every row with its texts in these columns. -/
def indexedTexts (d : Dataset) : List (RowId × List Text) :=
  d.rows.map fun r =>
    (r.id, (textColumns d.schema d.indexes).map fun column => textOf d.schema column r)

/-- What a search by words asks of the format. -/
def isSearch : Request → Bool
  | .load | .fullText _ | .limit _ | .project [] | .stream | .read => true
  | _ => false

/-- The format ranks over the texts of every text-indexed column. -/
structure Format.RanksText (F : Format) where
  rank : Schema → List (Text × IndexKind) → Text → List (RowId × List Text) → Nat → List RowId
  fullText_eq : ∀ d query limit,
    F.fullText d query limit = rank d.schema d.indexes query (indexedTexts d) limit
  /-- Without a text index there is nothing to search. -/
  unindexed : ∀ call d query, textColumns d.schema d.indexes = [] → call.request = .fullText query →
    F.refuses call (some d) ≠ none
  /-- With one, nothing stands against a search. -/
  granted : ∀ call d, textColumns d.schema d.indexes ≠ [] → isSearch call.request →
    F.refuses call (some d) = none
  /-- Some word finds the text it is, and does not find an empty one. -/
  finds : ∀ s indexes, ∃ query word, word ≠ [] ∧
    ∀ id texts, (∀ text ∈ texts, text = word ∨ text = []) →
    rank s indexes query [(id, texts)] 1 = if word ∈ texts then [id] else []

/-- What a row holds in a column. -/
def valueIn (s : Schema) (column : Text) (r : Row) : Value :=
  match s.columnWithName column with
  | some (i, _) => r.value i
  | none => .null

/-- The rows of two tables of one shape, with the same values in a column. -/
structure AgreeOn (column : Text) (d d' : Dataset) : Prop where
  schema : d'.schema = d.schema
  indexes : d'.indexes = d.indexes
  rows : d'.rows.map (fun r => (r.id, valueIn d.schema column r)) =
    d.rows.map fun r => (r.id, valueIn d.schema column r)

/-- The table of this shape under a name. -/
def Stored (W : World) (h : LanceStore) (disk : Disk) (table : Text) (s : Schema)
    (indexes : List (Text × IndexKind)) (d : Dataset) : Prop :=
  disk.datasets (h.place W table) = some d ∧ d.schema = s ∧ d.indexes = indexes

/-- The searches of a column depend on it alone, and are refused where it has no text index. -/
structure AnswersAbout (W : World) (h : LanceStore) (table column : Text) (s : Schema)
    (indexes : List (Text × IndexKind)) : Prop where
  search : ∀ disk disk' d d', Stored W h disk table s indexes d →
    Stored W h disk' table s indexes d' → AgreeOn column d d' →
    ∀ query limit hits hits' after after',
      (h.searchText W table column query limit).run disk = .ok hits after →
      (h.searchText W table column query limit).run disk' = .ok hits' after' → hits = hits'
  hybrid : ∀ disk disk' d d', Stored W h disk table s indexes d →
    Stored W h disk' table s indexes d' → AgreeOn column d d' →
    disk.datasets (h.place W (vectorTable table column)) =
      disk'.datasets (h.place W (vectorTable table column)) →
    ∀ text vector limit fused fused' after after',
      (h.hybridSearch W table column text vector limit).run disk = .ok fused after →
      (h.hybridSearch W table column text vector limit).run disk' = .ok fused' after' →
      fused = fused'
  refused : column ∉ textColumns s indexes → ∀ disk d, Stored W h disk table s indexes d →
    (∀ query limit hits after,
      (h.searchText W table column query limit).run disk ≠ .ok hits after) ∧
    ∀ text vector limit fused after,
      (h.hybridSearch W table column text vector limit).run disk ≠ .ok fused after

variable {W : World} {h : LanceStore} {table column : Text} {s : Schema}
  {indexes : List (Text × IndexKind)}

/-! ## Where no other column is indexed -/

/-- A hybrid search fuses what both searches find in one state, over the rows of the table. -/
theorem LanceStore.hybridSearch_ok {text : Text} {vector : List UInt32} {limit : Nat}
    {disk disk' : Disk} {fused : Fused}
    (hrun : (h.hybridSearch W table column text vector limit).run disk = .ok fused disk') :
    ∃ semantic lexical d,
      FindsNearest W h disk.datasets table column vector (max (limit * 2) limit) semantic ∧
        FindsText W h disk.datasets table text (max (limit * 2) limit) lexical ∧
        Opens W h disk.datasets table d ∧
        fused = fuse (semantic.map RowVector.row) lexical d.rows.length limit := by
  unfold hybridSearch at hrun
  obtain ⟨semantic, lexical, d, later, hsemantic, hlexical, hopens, hrest⟩ := gathered hrun
  obtain ⟨_, recorded, -, hfused⟩ := bind_ok.1 hrest
  cases hfused
  exact ⟨semantic, lexical, d, hsemantic, hlexical, hopens, rfl⟩

/-- A row's text in a column is the text of its value there. -/
theorem textOf_of_valueIn {r r' : Row} (hsame : valueIn s column r = valueIn s column r') :
    textOf s column r = textOf s column r' := by
  unfold valueIn at hsame
  unfold textOf typedColumn
  cases hcolumn : s.columnWithName column with
  | none => rfl
  | some found =>
    rw [hcolumn] at hsame
    dsimp only at hsame ⊢
    split_ifs
    · exact congrArg Value.text hsame
    · rfl

/-- Rows that agree on a column have the same texts wherever no other column is indexed. -/
theorem indexedTexts_congr {d d' : Dataset} (hagree : AgreeOn column d d')
    (honly : ∀ other ∈ textColumns d.schema d.indexes, other = column) :
    indexedTexts d' = indexedTexts d := by
  obtain ⟨hschema, hindexes, hrows⟩ := hagree
  unfold indexedTexts
  rw [hschema, hindexes]
  generalize d.rows = rows at hrows ⊢
  generalize d'.rows = rows' at hrows ⊢
  induction rows generalizing rows' with
  | nil =>
    rw [List.map_nil, List.map_eq_nil_iff] at hrows
    rw [hrows]
  | cons r rows ih =>
    cases rows' with
    | nil => cases hrows
    | cons r' rows' =>
      rw [List.map_cons, List.map_cons, List.cons.injEq, Prod.mk.injEq] at hrows
      obtain ⟨⟨hid, hvalue⟩, hrest⟩ := hrows
      rw [List.map_cons, List.map_cons, ih rows' hrest, hid]
      congr 2
      apply List.map_congr_left
      intro other hother
      rw [honly other hother]
      exact textOf_of_valueIn hvalue

theorem AgreeOn.length {d d' : Dataset} (hagree : AgreeOn column d d') :
    d'.rows.length = d.rows.length := by
  have := congrArg List.length hagree.rows
  rwa [List.length_map, List.length_map] at this

/-- What is found in the texts of tables that agree on the only indexed column. -/
theorem findsText_congr (T : W.format.RanksText)
    (honly : ∀ other ∈ textColumns s indexes, other = column) {disk disk' : Disk} {d d' : Dataset}
    (hd : Stored W h disk table s indexes d) (hd' : Stored W h disk' table s indexes d')
    (hagree : AgreeOn column d d') {query : Text} {limit : Nat} {hits hits' : List RowId}
    (hfinds : FindsText W h disk.datasets table query limit hits)
    (hfinds' : FindsText W h disk'.datasets table query limit hits') : hits = hits' := by
  obtain ⟨hplace, rfl, rfl⟩ := hd
  obtain ⟨-, found, hopens, -, rfl⟩ := hfinds
  obtain ⟨-, found', hopens', -, rfl⟩ := hfinds'
  cases hplace.symm.trans hopens.1
  cases hd'.1.symm.trans hopens'.1
  rw [T.fullText_eq, T.fullText_eq, hagree.schema, hagree.indexes,
    indexedTexts_congr hagree honly]

theorem not_findsText (T : W.format.RanksText) (hnone : textColumns s indexes = []) {disk : Disk}
    {d : Dataset} (hd : Stored W h disk table s indexes d) {query : Text} {limit : Nat}
    {hits : List RowId} : ¬FindsText W h disk.datasets table query limit hits := by
  rintro ⟨-, found, hopens, hgrants, -⟩
  obtain ⟨hplace, rfl, rfl⟩ := hd
  cases hplace.symm.trans hopens.1
  exact T.unindexed _ d query hnone rfl (hgrants (.fullText query) (by simp))

theorem answersAbout_of_only (T : W.format.RanksText)
    (honly : ∀ other ∈ textColumns s indexes, other = column) :
    AnswersAbout W h table column s indexes where
  search := by
    intro disk disk' d d' hd hd' hagree query limit hits hits' after after' hrun hrun'
    exact findsText_congr T honly hd hd' hagree (searchText_ok.1 hrun).1 (searchText_ok.1 hrun').1
  hybrid := by
    intro disk disk' d d' hd hd' hagree hcompanion text vector limit fused fused' after after' hrun
      hrun'
    obtain ⟨semantic, lexical, c, hsemantic, hlexical, hopens, rfl⟩ := hybridSearch_ok hrun
    obtain ⟨semantic', lexical', c', hsemantic', hlexical', hopens', rfl⟩ := hybridSearch_ok hrun'
    have htexts := findsText_congr T honly hd hd' hagree hlexical hlexical'
    cases hd.1.symm.trans hopens.1
    cases hd'.1.symm.trans hopens'.1
    -- The companion is the same, and so is what is found in it.
    obtain ⟨-, -, n, ⟨hplace, -⟩, -, hvectors⟩ := hsemantic
    obtain ⟨-, -, n', ⟨hplace', -⟩, -, hvectors'⟩ := hsemantic'
    rw [hcompanion, hplace'] at hplace
    cases hplace
    cases hvectors.symm.trans hvectors'
    rw [htexts, hagree.length]
  refused := by
    intro hcolumn disk d hd
    have hnone : textColumns s indexes = [] := by
      apply List.eq_nil_iff_forall_not_mem.2
      intro other hother
      exact hcolumn (honly other hother ▸ hother)
    constructor
    · intro query limit hits after hrun
      exact not_findsText T hnone hd (searchText_ok.1 hrun).1
    · intro text vector limit fused after hrun
      obtain ⟨_, _, _, -, hlexical, -⟩ := hybridSearch_ok hrun
      exact not_findsText T hnone hd hlexical

/-! ## Where another column is indexed -/

/-- A table with one row, whose value at one place is a text and elsewhere null. -/
def oneText (s : Schema) (indexes : List (Text × IndexKind)) (place : Nat) (text : Text) :
    Dataset where
  schema := s
  rows := [⟨0, List.replicate place .null ++ [.utf8 text]⟩]
  issued := [0]
  indexes := indexes
  nodup := by simp
  known := by simp

theorem value_oneText (place i : Nat) (text : Text) :
    (Row.mk 0 (List.replicate place .null ++ [.utf8 text])).value i =
      if i = place then .utf8 text else .null := by
  unfold Row.value
  rw [List.getD_eq_getElem?_getD, List.getElem?_append, List.length_replicate]
  split_ifs with h1 h2 h2
  · omega
  · simp [h1]
  · simp [h2]
  · rw [List.getElem?_eq_none (by simp; omega)]
    rfl

/-- Two names do not stand at one place. -/
theorem columnWithName_inj {a b : Text} {i : Nat} {f g : Field}
    (ha : s.columnWithName a = some (i, f)) (hb : s.columnWithName b = some (i, g)) : a = b := by
  have hplace : ∀ {name field}, s.columnWithName name = some (i, field) →
      s.fields[i]? = some field := by
    intro name field hcolumn
    unfold Schema.columnWithName at hcolumn
    obtain ⟨j, -, hrest⟩ := Option.bind_eq_some_iff.1 hcolumn
    obtain ⟨found, hfound, hpure⟩ := Option.bind_eq_some_iff.1 hrest
    cases hpure
    exact hfound
  have hsame : f = g := Option.some.inj ((hplace ha).symm.trans (hplace hb))
  rw [← (Schema.columnWithName_mem ha).2, hsame, (Schema.columnWithName_mem hb).2]

/-- The place of a text column. -/
theorem place_of_textColumn {other : Text} (hother : other ∈ textColumns s indexes) :
    ∃ i field, s.columnWithName other = some (i, field) ∧
      typedColumn s other (· = .utf8) = some i := by
  unfold textColumns at hother
  obtain ⟨entry, hentry, rfl⟩ := List.mem_map.1 hother
  obtain ⟨i, hi⟩ := Option.isSome_iff_exists.1
    ((Bool.and_eq_true _ _).mp (List.mem_filter.1 hentry).2).2
  have htyped := hi
  unfold typedColumn at hi
  split at hi
  · rename_i field hcolumn
    split_ifs at hi
    cases hi
    exact ⟨_, field, hcolumn, htyped⟩
  · cases hi

theorem textOf_oneText {other : Text} (hother : other ∈ textColumns s indexes) (place : Nat)
    (text : Text) : ∃ i field, s.columnWithName other = some (i, field) ∧
      textOf s other ⟨0, List.replicate place .null ++ [.utf8 text]⟩ =
        if i = place then text else [] := by
  obtain ⟨i, field, hcolumn, htyped⟩ := place_of_textColumn hother
  refine ⟨i, field, hcolumn, ?_⟩
  unfold textOf
  rw [htyped]
  dsimp only
  rw [value_oneText]
  split_ifs <;> rfl

/-- Another column at the same place is not there, so its value is null whatever the text. -/
theorem agreeOn_oneText {other : Text} {place : Nat} {field : Field}
    (hplace : s.columnWithName other = some (place, field)) (hother : other ≠ column)
    (text text' : Text) :
    AgreeOn column (oneText s indexes place text) (oneText s indexes place text') where
  schema := rfl
  indexes := rfl
  rows := by
    have hnull : ∀ text, valueIn s column ⟨0, List.replicate place .null ++ [.utf8 text]⟩ =
        .null := by
      intro text
      unfold valueIn
      cases hcolumn : s.columnWithName column with
      | none => rfl
      | some found =>
        obtain ⟨i, g⟩ := found
        dsimp only
        rw [value_oneText, if_neg]
        rintro rfl
        exact hother (columnWithName_inj hplace hcolumn)
    show [((0 : RowId), valueIn s column _)] = [(0, valueIn s column _)]
    rw [hnull, hnull]

/-- What is found in the one row. -/
theorem fullText_oneText (T : W.format.RanksText) {other : Text}
    (hother : other ∈ textColumns s indexes) {place : Nat} {field : Field}
    (hplace : s.columnWithName other = some (place, field)) :
    ∃ query word, W.format.fullText (oneText s indexes place word) query 1 = [0] ∧
      W.format.fullText (oneText s indexes place []) query 1 = [] := by
  obtain ⟨query, word, hword, hfinds⟩ := T.finds s indexes
  have htexts : ∀ text,
      ∀ t ∈ (textColumns s indexes).map fun c =>
        textOf s c ⟨0, List.replicate place .null ++ [.utf8 text]⟩, t = text ∨ t = [] := by
    intro text t ht
    obtain ⟨c, hc, rfl⟩ := List.mem_map.1 ht
    obtain ⟨i, -, -, htext⟩ := textOf_oneText hc place text
    rw [htext]
    split_ifs
    · exact .inl rfl
    · exact .inr rfl
  refine ⟨query, word, ?_, ?_⟩
  · obtain ⟨i, g, hcolumn, htext⟩ := textOf_oneText hother place word
    cases hplace.symm.trans hcolumn
    rw [T.fullText_eq]
    apply (hfinds 0 _ (htexts word)).trans
    rw [if_pos]
    exact List.mem_map.2 ⟨other, hother, by rw [htext, if_pos rfl]⟩
  · rw [T.fullText_eq]
    apply (hfinds 0 _ fun t ht => .inr ((htexts [] t ht).elim id id)).trans
    rw [if_neg]
    intro hmem
    exact hword ((htexts [] word hmem).elim id id)

/-- The database that holds one table, and has recorded nothing. -/
def holding (W : World) (h : LanceStore) (table : Text) (d : Dataset) : Disk :=
  Disk.empty.put (h.place W table) (some d)

/-- A search of a table with a text index is answered. -/
theorem searchText_holding (T : W.format.RanksText) (hpermits : h.permits W .read table)
    (column : Text) {d : Dataset} (hindexed : textColumns d.schema d.indexes ≠ []) (query : Text)
    (limit : Nat) :
    ∃ after, (h.searchText W table column query limit).run (holding W h table d) =
      .ok (W.format.fullText d query limit) after := by
  obtain ⟨after, hrecord⟩ := h.record_fresh W (.searchText table column query)
    (count64 (W.format.fullText d query limit).length) (holding W h table d) rfl
  refine ⟨after, searchText_ok.2 ⟨⟨hpermits, d, ⟨Disk.put_self _ _ _, ?_⟩, ?_, rfl⟩, hrecord⟩⟩
  · exact T.granted _ d hindexed rfl
  · intro request hmem
    apply T.granted _ d hindexed
    simp only [List.mem_cons, List.not_mem_nil, or_false] at hmem
    rcases hmem with rfl | rfl | rfl | rfl | rfl <;> rfl

/-- Another indexed column decides what a search finds. -/
theorem not_answersAbout (T : W.format.RanksText) (hpermits : h.permits W .read table)
    (other : Text) (hother : other ∈ textColumns s indexes) (hne : other ≠ column) :
    ¬AnswersAbout W h table column s indexes := by
  intro habout
  obtain ⟨place, field, hplace, -⟩ := place_of_textColumn hother
  obtain ⟨query, word, hfound, hmissed⟩ := fullText_oneText T hother hplace
  have hindexed : textColumns s indexes ≠ [] := List.ne_nil_of_mem hother
  have hstored : ∀ text, Stored W h (holding W h table (oneText s indexes place text)) table s
      indexes (oneText s indexes place text) := fun _ => ⟨Disk.put_self _ _ _, rfl, rfl⟩
  obtain ⟨after, hrun⟩ := searchText_holding T hpermits column
    (d := oneText s indexes place word) hindexed query 1
  obtain ⟨after', hrun'⟩ := searchText_holding T hpermits column
    (d := oneText s indexes place []) hindexed query 1
  have hsame := habout.search _ _ _ _ (hstored word) (hstored []) (agreeOn_oneText hplace hne _ _)
    query 1 _ _ _ _ hrun hrun'
  rw [hfound, hmissed] at hsame
  cases hsame

/-- **Full text answers about the column asked for** exactly where no other column of the table
has a text index. -/
theorem answers_about_iff (W : World) (T : W.format.RanksText) (h : LanceStore)
    (table column : Text) (s : Schema) (indexes : List (Text × IndexKind))
    (hpermits : h.permits W .read table) :
    AnswersAbout W h table column s indexes ↔ ∀ other ∈ textColumns s indexes, other = column := by
  constructor
  · intro habout other hother
    by_contra hne
    exact not_answersAbout T hpermits other hother hne habout
  · exact answersAbout_of_only T

/-! ## A title and a body -/

/-- A format that finds the rows with a text that contains the query. -/
def Format.texting : Format :=
  { Format.plain with
    refuses := fun call d => match call.request, d with
      | .fullText _, some d =>
        if textColumns d.schema d.indexes = [] then some "no text index".toList else none
      | _, _ => none
    fullText := fun d query limit => (((indexedTexts d).filter fun entry =>
      entry.2.any fun text => contains text query).map Prod.fst).take limit }

def textingRanks : Format.texting.RanksText where
  rank := fun _ _ query rows limit => ((rows.filter fun entry =>
    entry.2.any fun text => contains text query).map Prod.fst).take limit
  fullText_eq := fun _ _ _ => rfl
  unindexed := by
    intro call d query hnone hrequest
    show (match call.request, some d with
      | .fullText _, some d =>
        if textColumns d.schema d.indexes = [] then some "no text index".toList else none
      | _, _ => none) ≠ none
    rw [hrequest]
    dsimp only
    rw [if_pos hnone]
    exact Option.some_ne_none _
  granted := by
    intro call d hindexed _
    show (match call.request, some d with
      | .fullText _, some d =>
        if textColumns d.schema d.indexes = [] then some "no text index".toList else none
      | _, _ => none) = none
    cases call.request with
    | fullText query => exact if_neg hindexed
    | _ => rfl
  finds := by
    intro s indexes
    refine ⟨"flut".toList, "flut".toList, by decide, fun id texts htexts => ?_⟩
    have hany : texts.any (fun text => contains text "flut".toList) =
        decide ("flut".toList ∈ texts) := by
      rw [Bool.eq_iff_iff, List.any_eq_true, decide_eq_true_eq]
      constructor
      · rintro ⟨text, hmem, hcontains⟩
        rcases htexts text hmem with rfl | rfl
        · exact hmem
        · exact absurd hcontains (by decide)
      · exact fun hmem => ⟨_, hmem, by decide⟩
    simp only [List.filter_cons, hany, decide_eq_true_eq, List.filter_nil]
    split_ifs <;> rfl

def World.texting : World := { World.plain with format := .texting }

/-- Two columns of text. -/
def articles : Schema :=
  ⟨[⟨"title".toList, .utf8, false, []⟩, ⟨"body".toList, .utf8, false, []⟩], []⟩

/-- The body alone is indexed, and searched. -/
theorem body_alone_is_searched :
    AnswersAbout .texting (.new "db".toList) "articles".toList "body".toList articles
      [("body".toList, .inverted "German" true)] := by
  apply (answers_about_iff .texting textingRanks _ _ _ _ _ rfl).2
  decide

/-- The title is indexed too, and a search of the body finds what stands in the title. -/
theorem title_is_searched :
    ¬ ∀ (W : World) (_ : W.format.RanksText) (h : LanceStore) (table column : Text) (s : Schema)
      (indexes : List (Text × IndexKind)), h.permits W .read table →
      AnswersAbout W h table column s indexes := by
  intro hall
  have habout := hall .texting textingRanks (.new "db".toList) "articles".toList "body".toList
    articles [("title".toList, .inverted "German" true), ("body".toList, .inverted "German" true)]
    rfl
  exact not_answersAbout textingRanks rfl "title".toList (by decide) (by decide) habout

end EuleDB.Store
