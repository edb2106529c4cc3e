import EuleDB.Store.Writes

/-!
# What a search answers

* `LanceStore.nearest_ok`, `LanceStore.searchText_ok` — a search answers with what the format found
  in one dataset, and leaves a record.
* `Format.Ranked` — a format that answers any limit from one ranking.
* `rows_of_nearest` — the rows of the vectors that were found.
* `LanceStore.gathered` — what a search by vectors and by words fuses.
-/

set_option autoImplicit false

namespace EuleDB.Store

open Crypto Audit Effect LanceStore

/-- The format answers a query from one ranking, whatever the limit. -/
structure Format.Ranked (F : Format) where
  vectors : Dataset → List UInt32 → List Row
  texts : Dataset → Text → List RowId
  nearest_eq : ∀ d query limit, F.nearest d query limit = (vectors d query).take limit
  fullText_eq : ∀ d query limit, F.fullText d query limit = (texts d query).take limit

/-- The row that a row of a companion table belongs to. -/
def ownerOf (s : Schema) (r : Row) : RowId :=
  match typedColumn s "row".toList (· = .uint64) with
  | some row => (r.value row).number
  | none => 0

theorem rowVector_row {operation notFloat : String} {table : Text} {s : Schema} {r : Row}
    {v : RowVector} (h : rowVector operation notFloat table s r = .ok v) :
    v.row = ownerOf s r := by
  unfold rowVector at h
  unfold ownerOf
  split at h
  · cases h
  · cases h
  · cases h
  · cases h
  · rename_i row _ _ _ hrow _ _ _
    cases h
    rw [hrow]

theorem rows_of_nearest {operation notFloat : String} {table : Text} {s : Schema}
    {rows : List Row} {found : List RowVector}
    (h : rowVectors operation notFloat table s rows = .ok found) :
    found.map RowVector.row = rows.map (ownerOf s) := by
  unfold rowVectors at h
  induction rows generalizing found with
  | nil =>
    cases h
    rfl
  | cons r rows ih =>
    rw [List.mapM_cons] at h
    cases hv : rowVector operation notFloat table s r with
    | error e =>
      rw [hv] at h
      cases h
    | ok v =>
      cases hrest : rows.mapM (rowVector operation notFloat table s) with
      | error e =>
        rw [hv, hrest] at h
        cases h
      | ok rest =>
        rw [hv, hrest] at h
        cases h
        rw [List.map_cons, List.map_cons, rowVector_row hv, ih hrest]

namespace LanceStore

variable {W : World} {h : LanceStore}

/-- What it takes to search a column's vectors, and what is found. -/
def FindsNearest (W : World) (h : LanceStore) (datasets : Datasets) (table column : Text)
    (query : List UInt32) (limit : Nat) (found : List RowVector) : Prop :=
  h.permits W .read table ∧ query.length = VECTOR_WIDTH ∧
    ∃ d, Opens W h datasets (vectorTable table column) d ∧
      (W.format.refuses (h.call (vectorTable table column) (.nearest query limit)) (some d) = none ∧
        Grants W h (vectorTable table column) d [.stream, .read]) ∧
      rowVectors "read the search results of" "not f32" table d.schema
        (W.format.nearest d query limit) = .ok found

theorem nearest_ok {table column : Text} {query : List UInt32} {limit : Nat} {disk disk' : Disk}
    {found : List RowVector} :
    (h.nearest W table column query limit).run disk = .ok found disk' ↔
      FindsNearest W h disk.datasets table column query limit found ∧
        (h.record W (.nearest table column) (count64 found.length)).run disk = .ok ⟨⟩ disk' := by
  unfold nearest FindsNearest
  constructor
  · intro hrun
    obtain ⟨_, s1, hscope, h1⟩ := bind_ok.1 hrun
    obtain ⟨hpermits, rfl⟩ := requireScope_ok.1 hscope
    split_ifs at h1 with hwidth
    · cases h1
    · obtain ⟨d, s2, hopen, h2⟩ := bind_ok.1 h1
      obtain ⟨_, s3, hfirst, h3⟩ := bind_ok.1 h2
      obtain ⟨_, s4, hsecond, h4⟩ := bind_ok.1 h3
      obtain ⟨_, s5, hthird, h5⟩ := bind_ok.1 h4
      obtain ⟨vectors, s6, hdecode, h6⟩ := bind_ok.1 h5
      obtain ⟨_, s7, hrecord, h7⟩ := bind_ok.1 h6
      obtain ⟨hopens, rfl⟩ := open_ok.1 hopen
      obtain ⟨hnearest, rfl⟩ := ask_ok.1 hfirst
      obtain ⟨hstream, rfl⟩ := ask_ok.1 hsecond
      obtain ⟨hread, rfl⟩ := ask_ok.1 hthird
      obtain ⟨hvectors, rfl⟩ := ofExcept_ok.1 hdecode
      cases h7
      exact ⟨⟨hpermits, not_not.1 hwidth, d, hopens,
        ⟨hnearest, by simp [Grants, hstream, hread]⟩, hvectors⟩, hrecord⟩
  · rintro ⟨⟨hpermits, hwidth, d, hopens, ⟨hnearest, hgrants⟩, hvectors⟩, hrecord⟩
    have hstream := hgrants .stream (by simp)
    have hread := hgrants .read (by simp)
    refine bind_ok.2 ⟨⟨⟩, _, requireScope_ok.2 ⟨hpermits, rfl⟩, ?_⟩
    rw [if_neg (not_not.2 hwidth)]
    refine bind_ok.2 ⟨d, _, open_ok.2 ⟨hopens, rfl⟩, ?_⟩
    refine bind_ok.2 ⟨⟨⟩, _, ask_ok.2 ⟨hnearest, rfl⟩, ?_⟩
    refine bind_ok.2 ⟨⟨⟩, _, ask_ok.2 ⟨hstream, rfl⟩, ?_⟩
    refine bind_ok.2 ⟨⟨⟩, _, ask_ok.2 ⟨hread, rfl⟩, ?_⟩
    exact bind_ok.2 ⟨found, _, ofExcept_ok.2 ⟨hvectors, rfl⟩,
      bind_ok.2 ⟨⟨⟩, _, hrecord, rfl⟩⟩

/-- What it takes to search a table's text, and what is found. -/
def FindsText (W : World) (h : LanceStore) (datasets : Datasets) (table query : Text)
    (limit : Nat) (hits : List RowId) : Prop :=
  h.permits W .read table ∧ ∃ d, Opens W h datasets table d ∧
    Grants W h table d [.fullText query, .limit limit, .project [], .stream, .read] ∧
    hits = W.format.fullText d query limit

theorem searchText_ok {table column query : Text} {limit : Nat} {disk disk' : Disk}
    {hits : List RowId} :
    (h.searchText W table column query limit).run disk = .ok hits disk' ↔
      FindsText W h disk.datasets table query limit hits ∧
        (h.record W (.searchText table column query) (count64 hits.length)).run disk =
          .ok ⟨⟩ disk' := by
  unfold searchText FindsText
  constructor
  · intro hrun
    obtain ⟨_, s1, hscope, h1⟩ := bind_ok.1 hrun
    obtain ⟨d, s2, hopen, h2⟩ := bind_ok.1 h1
    obtain ⟨_, s3, hfirst, h3⟩ := bind_ok.1 h2
    obtain ⟨_, s4, hsecond, h4⟩ := bind_ok.1 h3
    obtain ⟨_, s5, hthird, h5⟩ := bind_ok.1 h4
    obtain ⟨_, s6, hfourth, h6⟩ := bind_ok.1 h5
    obtain ⟨_, s7, hfifth, h7⟩ := bind_ok.1 h6
    obtain ⟨_, s8, hrecord, h8⟩ := bind_ok.1 h7
    obtain ⟨hpermits, rfl⟩ := requireScope_ok.1 hscope
    obtain ⟨hopens, rfl⟩ := open_ok.1 hopen
    obtain ⟨htext, rfl⟩ := ask_ok.1 hfirst
    obtain ⟨hlimit, rfl⟩ := ask_ok.1 hsecond
    obtain ⟨hproject, rfl⟩ := ask_ok.1 hthird
    obtain ⟨hstream, rfl⟩ := ask_ok.1 hfourth
    obtain ⟨hread, rfl⟩ := ask_ok.1 hfifth
    cases h8
    exact ⟨⟨hpermits, d, hopens, by simp [Grants, htext, hlimit, hproject, hstream, hread], rfl⟩,
      hrecord⟩
  · rintro ⟨⟨hpermits, d, hopens, hgrants, rfl⟩, hrecord⟩
    have hgranted : ∀ operation, ∀ request ∈
        [.fullText query, .limit limit, .project [], .stream, .read],
          (ask W operation table (h.call table request) (some d)).run disk = .ok ⟨⟩ disk :=
      fun _ request hmem => ask_ok.2 ⟨hgrants request hmem, rfl⟩
    refine bind_ok.2 ⟨⟨⟩, _, requireScope_ok.2 ⟨hpermits, rfl⟩, ?_⟩
    refine bind_ok.2 ⟨d, _, open_ok.2 ⟨hopens, rfl⟩, ?_⟩
    refine bind_ok.2 ⟨⟨⟩, _, hgranted _ (.fullText query) (by simp), ?_⟩
    refine bind_ok.2 ⟨⟨⟩, _, hgranted _ (.limit limit) (by simp), ?_⟩
    refine bind_ok.2 ⟨⟨⟩, _, hgranted _ (.project []) (by simp), ?_⟩
    refine bind_ok.2 ⟨⟨⟩, _, hgranted _ .stream (by simp), ?_⟩
    refine bind_ok.2 ⟨⟨⟩, _, hgranted _ .read (by simp), ?_⟩
    exact bind_ok.2 ⟨⟨⟩, _, hrecord, rfl⟩

/-- A search by vectors and by words gathers what both find in one state, and the table. -/
theorem gathered {α : Type} {table column text : Text} {vector : List UInt32} {breadth : Nat}
    {rest : List RowVector → List RowId → Dataset → StoreM α} {disk disk' : Disk} {a : α}
    (hrun : (do
      h.requireScope W .read table
      let semantic ← h.nearest W table column vector breadth
      let lexical ← h.searchText W table column text breadth
      let d ← h.open W table
      ask W "count the rows of" table (h.call table (.count none)) (some d)
      rest semantic lexical d : StoreM α).run disk = .ok a disk') :
    ∃ semantic lexical d later,
      FindsNearest W h disk.datasets table column vector breadth semantic ∧
        FindsText W h disk.datasets table text breadth lexical ∧
        Opens W h disk.datasets table d ∧ (rest semantic lexical d).run later = .ok a disk' := by
  obtain ⟨_, s1, hscope, h1⟩ := bind_ok.1 hrun
  obtain ⟨semantic, s2, hnearest, h2⟩ := bind_ok.1 h1
  obtain ⟨lexical, s3, htext, h3⟩ := bind_ok.1 h2
  obtain ⟨d, s4, hopen, h4⟩ := bind_ok.1 h3
  obtain ⟨_, s5, -, h5⟩ := bind_ok.1 h4
  obtain ⟨-, rfl⟩ := requireScope_ok.1 hscope
  obtain ⟨hsemantic, hrecord⟩ := nearest_ok.1 hnearest
  obtain ⟨hlexical, hrecord'⟩ := searchText_ok.1 htext
  -- Both searches leave a record, and no dataset changes.
  have hs2 : s2.datasets = s1.datasets := (h.record_datasets _ _).reaches _ _ _ hrecord
  have hs3 : s3.datasets = s2.datasets := (h.record_datasets _ _).reaches _ _ _ hrecord'
  obtain ⟨hopens, -⟩ := open_ok.1 hopen
  rw [hs2] at hlexical
  rw [hs3, hs2] at hopens
  exact ⟨semantic, lexical, d, s5, hsemantic, hlexical, hopens, h5⟩

end LanceStore

end EuleDB.Store
