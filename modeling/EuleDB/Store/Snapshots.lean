import EuleDB.Lib.Truth
import EuleDB.Store.VectorRuns

/-!
# Predicates and snapshots

A call with several predicates opens the table anew for each of them, and the writer may commit
between one and the next.  The sets it combines are then of different versions of the table.

* `During` — what a call has asked so far, with commits of the writer in between.
* `During.ordered` — every version the table had during the call follows the ones before it.
* `During.mem_answer` — what a call answers, by rows.
* `one_snapshot_iff` — when the answer is that of one version the table had during the call.
* `one_version_one_snapshot` — it is where all predicates were asked of one version.
-/

set_option autoImplicit false

namespace EuleDB.Store

open Crypto Audit Effect LanceStore ThreeValued

/-- How the answers to several predicates are combined. -/
inductive Combine where
  | all
  | any

namespace Combine

/-- The operation that combines so. -/
def rowIds (W : World) (h : LanceStore) : Combine → Text → List Text → StoreM (Finset RowId)
  | all => h.rowIdsAll W
  | any => h.rowIdsAny W

/-- What a call without predicates is told it cannot do. -/
def operation : Combine → String
  | all => "intersect"
  | any => "unite"

def answer : Combine → List (Finset RowId) → Finset RowId
  | _, [] => ∅
  | all, first :: rest => rest.foldl (· ∩ ·) first
  | any, first :: rest => rest.foldl (· ∪ ·) first

def truth : Combine → List Truth → Truth
  | all => Truth.conj
  | any => Truth.disj

end Combine

section Calls

variable (W : World) (h : LanceStore) (table : Text)

/-- One predicate of a call: the disk it was asked on, and the identities it was answered. -/
structure Ask where
  predicate : Text
  disk : Disk
  ids : List RowId

/-- How far a call has come: the disk, the disks before it since the call began, latest first, and
what was asked. -/
structure Progress where
  current : Disk
  before : List Disk
  asked : List Ask

namespace Progress

/-- A version that the table had during the call. -/
def Current (p : Progress) (d : Dataset) : Prop :=
  ∃ disk ∈ p.current :: p.before, disk.datasets (h.place W table) = some d

/-- A commit makes a version that follows the current one, or the first since the call began. -/
def Commits (p : Progress) (next : Disk) : Prop :=
  ∀ d', next.datasets (h.place W table) = some d' →
    (∃ d, p.current.datasets (h.place W table) = some d ∧ Follows d d') ∨
      ∀ d, ¬ p.Current W h table d

end Progress

/-- A call on a table with commits of the writer in between. -/
inductive During (start : Disk) : Progress → Prop where
  | start : During start ⟨start, [], []⟩
  | commit {p : Progress} {next : Disk} (sofar : During start p)
    (commits : p.Commits W h table next) : During start ⟨next, p.current :: p.before, p.asked⟩
  | ask {p : Progress} {predicate : Text} {ids : List RowId} {disk : Disk}
    (sofar : During start p) (run : (h.rowIds W table predicate).run p.current = .ok ids disk) :
    During start ⟨disk, p.before, p.asked ++ [⟨predicate, p.current, ids⟩]⟩

/-- What the table is on one disk follows what it is on another. -/
def Later (later earlier : Disk) : Prop :=
  ∀ d d', earlier.datasets (h.place W table) = some d →
    later.datasets (h.place W table) = some d' → Follows d d'

/-- What the call answers. -/
def Combine.answered (combine : Combine) (asked : List Ask) : Finset RowId :=
  combine.answer (asked.map fun ask => ask.ids.toFinset)

variable {W h table}

/-! ## A call by itself -/

theorem sets_during {start : Disk} {p : Progress} (hduring : During W h table start p)
    {predicates : List Text} {found : List (Finset RowId)} {disk : Disk}
    (hrun : (h.sets W table predicates).run p.current = .ok found disk) :
    ∃ asked, During W h table start ⟨disk, p.before, p.asked ++ asked⟩ ∧ disk = p.current ∧
      asked.map Ask.predicate = predicates ∧
      found = asked.map fun ask => ask.ids.toFinset := by
  induction predicates generalizing p found with
  | nil =>
    cases hrun
    refine ⟨[], ?_, rfl, rfl, rfl⟩
    rwa [List.append_nil]
  | cons predicate predicates ih =>
    obtain ⟨ids, s1, hids, h1⟩ := bind_ok.1 hrun
    obtain ⟨rest, s2, hrest, h2⟩ := bind_ok.1 h1
    cases h2
    have hask := hduring.ask hids
    obtain ⟨-, d, -, -, -, rfl⟩ := rowIds_ok.1 hids
    obtain ⟨asked, hafter, rfl, rfl, rfl⟩ := ih hask hrest
    refine ⟨⟨predicate, p.current, ids⟩ :: asked, ?_, rfl, rfl, rfl⟩
    rwa [List.append_assoc] at hafter

theorem Combine.rowIds_eachSet (combine : Combine) (matching : List Text) :
    combine.rowIds W h table matching = (do
      let (first, rest) ← h.eachSet W table matching combine.operation
      pure (combine.answer (first :: rest))) := by
  cases combine <;> rfl

/-- **A call that nothing comes between** asks its predicates one by one and answers what it
combines. -/
theorem rowIds_during {combine : Combine} {matching : List Text} {start disk : Disk}
    {found : Finset RowId}
    (hrun : (combine.rowIds W h table matching).run start = .ok found disk) :
    ∃ asked, During W h table start ⟨disk, [], asked⟩ ∧ disk = start ∧ asked ≠ [] ∧
      asked.map Ask.predicate = matching ∧ found = combine.answered asked := by
  rw [Combine.rowIds_eachSet] at hrun
  obtain ⟨⟨first, rest⟩, s1, hsets, h1⟩ := bind_ok.1 hrun
  cases h1
  cases matching with
  | nil => cases hsets
  | cons head tail =>
    obtain ⟨ids, s2, hids, h2⟩ := bind_ok.1 hsets
    obtain ⟨found, s3, hfound, h3⟩ := bind_ok.1 h2
    cases h3
    have hask := During.start.ask hids
    obtain ⟨-, d, -, -, -, rfl⟩ := rowIds_ok.1 hids
    obtain ⟨asked, hafter, rfl, rfl, rfl⟩ := sets_during hask hfound
    exact ⟨_, hafter, rfl, by simp, rfl, rfl⟩

/-- The filter step of a search is the conjunction of its predicates. -/
theorem filteredSearch_within {filter : List Text}
    {source : Finset RowId → Nat → Except Error (List RowId)} {limit : Nat} {disk disk' : Disk}
    {ids : List RowId}
    (hrun : (h.filteredSearch W table filter source limit).run disk = .ok ids disk') :
    ∃ within, (Combine.all.rowIds W h table filter).run disk = .ok within disk' ∧
      source within limit = .ok ids := by
  obtain ⟨within, s1, hwithin, h1⟩ := bind_ok.1 hrun
  obtain ⟨hsource, rfl⟩ := ofExcept_ok.1 h1
  exact ⟨within, hwithin, hsource⟩

/-! ## The versions during a call -/

/-- A dataset that follows another has its rows under its identities, and no others. -/
theorem Follows.row_eq {d d' : Dataset} (hfollows : Follows d d') {r r' : Row} (hr : r ∈ d.rows)
    (hr' : r' ∈ d'.rows) (hid : r'.id = r.id) : r' = r := by
  rcases hfollows.rows r' hr' with hold | hnew
  · exact List.inj_on_of_nodup_map d.nodup hold hr hid
  · rw [hid] at hnew
    exact absurd (d.known r hr) hnew

theorem Follows.trans {d d' d'' : Dataset} (hfirst : Follows d d') (hsecond : Follows d' d'') :
    Follows d d'' := by
  refine ⟨hsecond.schema.trans hfirst.schema, fun id hid => ?_, fun r hr => ?_⟩
  · exact hsecond.issued id (hfirst.issued id hid)
  · rcases hsecond.rows r hr with hold | hnew
    · exact hfirst.rows r hold
    · exact .inr fun hid => hnew (hfirst.issued _ hid)

/-- **Every version the table had during a call** follows the ones before it. -/
theorem During.ordered {start : Disk} {p : Progress} (hduring : During W h table start p) :
    (p.current :: p.before).Pairwise (Later W h table) := by
  induction hduring with
  | start => simp
  | @commit p next sofar hcommits ih =>
    refine List.pairwise_cons.2 ⟨fun earlier hearlier d d' hd hd' => ?_, ih⟩
    rcases hcommits d' hd' with ⟨latest, hlatest, hfollows⟩ | hnone
    · rcases List.mem_cons.1 hearlier with rfl | hbefore
      · cases hd.symm.trans hlatest
        exact hfollows
      · exact ((List.pairwise_cons.1 ih).1 earlier hbefore d latest hd hlatest).trans hfollows
    · exact absurd ⟨earlier, hearlier, hd⟩ (hnone d)
  | ask sofar hrun ih =>
    obtain ⟨-, d, -, -, -, rfl⟩ := rowIds_ok.1 hrun
    exact ih

/-- Of two versions during a call one follows the other. -/
theorem During.comparable {start : Disk} {p : Progress} (hduring : During W h table start p)
    {d d' : Dataset} (hd : p.Current W h table d) (hd' : p.Current W h table d') :
    Follows d d' ∨ Follows d' d := by
  obtain ⟨disk, hmem, hd⟩ := hd
  obtain ⟨disk', hmem', hd'⟩ := hd'
  have hall := List.Pairwise.forall_of_forall_of_flip
    (R := fun disk disk' => Later W h table disk disk' ∨ Later W h table disk' disk)
    (fun disk _ => .inl fun d d' hd hd' => by
      cases hd.symm.trans hd'
      exact Follows.refl d)
    (hduring.ordered.imp .inl) (hduring.ordered.imp .inr)
  rcases hall hmem hmem' with hlater | hlater
  · exact .inr (hlater d' d hd' hd)
  · exact .inl (hlater d d' hd hd')

theorem During.schema_eq {start : Disk} {p : Progress} (hduring : During W h table start p)
    {d d' : Dataset} (hd : p.Current W h table d) (hd' : p.Current W h table d') :
    d'.schema = d.schema := by
  rcases hduring.comparable hd hd' with hfollows | hfollows
  · exact hfollows.schema
  · exact hfollows.schema.symm

/-- **One identity is one row** in all versions during a call. -/
theorem During.row_eq {start : Disk} {p : Progress} (hduring : During W h table start p)
    {d d' : Dataset} (hd : p.Current W h table d) (hd' : p.Current W h table d') {r r' : Row}
    (hr : r ∈ d.rows) (hr' : r' ∈ d'.rows) (hid : r'.id = r.id) : r' = r := by
  rcases hduring.comparable hd hd' with hfollows | hfollows
  · exact hfollows.row_eq hr hr' hid
  · exact (hfollows.row_eq hr' hr hid.symm).symm

/-- Every predicate was asked of a version during the call, and was answered what it selects
there. -/
theorem During.asks {start : Disk} {p : Progress} (hduring : During W h table start p) :
    ∀ ask ∈ p.asked, ∃ d, p.Current W h table d ∧
      ask.disk.datasets (h.place W table) = some d ∧
      ask.ids = (d.rows.filter (W.format.selects ask.predicate d)).map Row.id := by
  induction hduring with
  | start => simp
  | @commit p next sofar hcommits ih =>
    intro ask hask
    obtain ⟨d, ⟨disk, hmem, hd⟩, hopened, hids⟩ := ih ask hask
    exact ⟨d, ⟨disk, List.mem_cons_of_mem _ hmem, hd⟩, hopened, hids⟩
  | @ask p predicate ids disk sofar hrun ih =>
    obtain ⟨-, d, hopens, -, rfl, rfl⟩ := rowIds_ok.1 hrun
    intro ask hask
    rcases List.mem_append.1 hask with hold | hnew
    · exact ih ask hold
    · cases List.mem_singleton.1 hnew
      exact ⟨d, ⟨_, List.mem_cons_self, hopens.1⟩, hopens.1, rfl⟩

/-! ## What a call answers -/

theorem mem_foldl_inter {id : RowId} {rest : List (Finset RowId)} {first : Finset RowId} :
    id ∈ rest.foldl (· ∩ ·) first ↔ ∀ set ∈ first :: rest, id ∈ set := by
  induction rest generalizing first with
  | nil => simp
  | cons next rest ih =>
    rw [List.foldl_cons, ih]
    simp [and_assoc]

theorem mem_foldl_union {id : RowId} {rest : List (Finset RowId)} {first : Finset RowId} :
    id ∈ rest.foldl (· ∪ ·) first ↔ ∃ set ∈ first :: rest, id ∈ set := by
  induction rest generalizing first with
  | nil => simp
  | cons next rest ih =>
    rw [List.foldl_cons, ih]
    simp [or_assoc]

section Predicates

variable (eval : Text → Schema → Row → Truth)

/-- A scan selects exactly the rows of the version it opened of which the predicate is true. -/
def Scans (W : World) : Prop :=
  ∀ predicate d r, W.format.selects predicate d r = true ↔ eval predicate d.schema r = .true

namespace Combine

/-- The combination of the predicates is true of a row. -/
def Holds (combine : Combine) (predicates : List Text) (s : Schema) (r : Row) : Prop :=
  combine.truth (predicates.map fun predicate => eval predicate s r) = .true

instance (combine : Combine) (predicates : List Text) (s : Schema) (r : Row) :
    Decidable (combine.Holds eval predicates s r) :=
  inferInstanceAs (Decidable (_ = Truth.true))

/-- The identities of the rows of a version of which the combination is true. -/
def idsIn (combine : Combine) (predicates : List Text) (d : Dataset) : Finset RowId :=
  ((d.rows.filter fun r => combine.Holds eval predicates d.schema r).map Row.id).toFinset

/-- The row was there when it mattered: for every predicate, or for one that is true of it. -/
def Counts (W : World) (h : LanceStore) (table : Text) (asked : List Ask) (r : Row) :
    Combine → Prop
  | all => ∀ ask ∈ asked, ∃ d, ask.disk.datasets (h.place W table) = some d ∧ r ∈ d.rows
  | any => ∃ ask ∈ asked, ∃ d, ask.disk.datasets (h.place W table) = some d ∧ r ∈ d.rows ∧
      eval ask.predicate d.schema r = .true

theorem mem_idsIn {combine : Combine} {predicates : List Text} {d : Dataset} {id : RowId} :
    id ∈ combine.idsIn eval predicates d ↔
      ∃ r ∈ d.rows, combine.Holds eval predicates d.schema r ∧ r.id = id := by
  unfold idsIn
  simp [and_assoc]

theorem holds_all {asked : List Ask} {s : Schema} {r : Row} :
    all.Holds eval (asked.map Ask.predicate) s r ↔
      ∀ ask ∈ asked, eval ask.predicate s r = .true := by
  change Truth.conj _ = _ ↔ _
  rw [Truth.conj_eq_true]
  simp

theorem holds_any {asked : List Ask} {s : Schema} {r : Row} :
    any.Holds eval (asked.map Ask.predicate) s r ↔
      ∃ ask ∈ asked, eval ask.predicate s r = .true := by
  change Truth.disj _ = _ ↔ _
  rw [Truth.disj_eq_true]
  simp

end Combine

variable {eval}

/-- What an answer to one predicate says of a row. -/
theorem During.mem_ids {start : Disk} {p : Progress} (hduring : During W h table start p)
    (hscans : Scans eval W) {ask : Ask} (hask : ask ∈ p.asked) {id : RowId} :
    id ∈ ask.ids ↔ ∃ d r, p.Current W h table d ∧
      ask.disk.datasets (h.place W table) = some d ∧ r ∈ d.rows ∧
      eval ask.predicate d.schema r = .true ∧ r.id = id := by
  obtain ⟨d, hcurrent, hopened, hids⟩ := hduring.asks ask hask
  rw [hids, List.mem_map]
  constructor
  · rintro ⟨r, hr, hid⟩
    obtain ⟨hr, hselects⟩ := List.mem_filter.1 hr
    exact ⟨d, r, hcurrent, hopened, hr, (hscans _ _ _).1 hselects, hid⟩
  · rintro ⟨d', r, -, hopened', hr, htrue, hid⟩
    cases hopened.symm.trans hopened'
    exact ⟨r, List.mem_filter.2 ⟨hr, (hscans _ _ _).2 htrue⟩, hid⟩

/-- What was opened for a predicate is a version during the call. -/
theorem During.current {start : Disk} {p : Progress} (hduring : During W h table start p)
    {ask : Ask} (hask : ask ∈ p.asked) {d : Dataset}
    (hopened : ask.disk.datasets (h.place W table) = some d) : p.Current W h table d := by
  obtain ⟨d', hcurrent, hopened', -⟩ := hduring.asks ask hask
  cases hopened.symm.trans hopened'
  exact hcurrent

theorem Combine.mem_answered_all {asked : List Ask} (hasked : asked ≠ []) {id : RowId} :
    id ∈ all.answered asked ↔ ∀ ask ∈ asked, id ∈ ask.ids := by
  obtain ⟨first, rest, rfl⟩ := List.exists_cons_of_ne_nil hasked
  change id ∈ (rest.map fun ask => ask.ids.toFinset).foldl (· ∩ ·) first.ids.toFinset ↔ _
  rw [mem_foldl_inter]
  simp

theorem Combine.mem_answered_any {asked : List Ask} (hasked : asked ≠ []) {id : RowId} :
    id ∈ any.answered asked ↔ ∃ ask ∈ asked, id ∈ ask.ids := by
  obtain ⟨first, rest, rfl⟩ := List.exists_cons_of_ne_nil hasked
  change id ∈ (rest.map fun ask => ask.ids.toFinset).foldl (· ∪ ·) first.ids.toFinset ↔ _
  rw [mem_foldl_union]
  simp

/-- **What a call answers**: the rows of which the combination is true and that were there when it
mattered. -/
theorem During.mem_answered {start : Disk} {p : Progress} (hduring : During W h table start p)
    (hscans : Scans eval W) (hasked : p.asked ≠ []) {d : Dataset}
    (hd : p.Current W h table d) (combine : Combine) {id : RowId} :
    id ∈ combine.answered p.asked ↔
      ∃ r, combine.Holds eval (p.asked.map Ask.predicate) d.schema r ∧
        combine.Counts eval W h table p.asked r ∧ r.id = id := by
  have hsame : ∀ {d' : Dataset}, p.Current W h table d' → d'.schema = d.schema :=
    hduring.schema_eq hd
  cases combine with
  | all =>
    rw [Combine.mem_answered_all hasked]
    simp only [Combine.holds_all]
    constructor
    · intro hall
      obtain ⟨first, hfirst⟩ := List.exists_mem_of_ne_nil _ hasked
      obtain ⟨d₁, r, hcurrent, -, hr, -, hid⟩ := (hduring.mem_ids hscans hfirst).1 (hall _ hfirst)
      -- every predicate was answered the same row
      have hrow : ∀ ask ∈ p.asked, ∃ d', ask.disk.datasets (h.place W table) = some d' ∧
          r ∈ d'.rows ∧ eval ask.predicate d.schema r = .true := by
        intro ask hask
        obtain ⟨d', r', hcurrent', hopened, hr', htrue, hid'⟩ :=
          (hduring.mem_ids hscans hask).1 (hall ask hask)
        cases hduring.row_eq hcurrent hcurrent' hr hr' (hid'.trans hid.symm)
        rw [hsame hcurrent'] at htrue
        exact ⟨d', hopened, hr', htrue⟩
      refine ⟨r, fun ask hask => ?_, fun ask hask => ?_, hid⟩
      · obtain ⟨-, -, -, htrue⟩ := hrow ask hask
        exact htrue
      · obtain ⟨d', hopened, hr', -⟩ := hrow ask hask
        exact ⟨d', hopened, hr'⟩
    · rintro ⟨r, htrue, hcounts, hid⟩ ask hask
      obtain ⟨d', hopened, hr⟩ := hcounts ask hask
      have hcurrent := hduring.current hask hopened
      refine (hduring.mem_ids hscans hask).2 ⟨d', r, hcurrent, hopened, hr, ?_, hid⟩
      rw [hsame hcurrent]
      exact htrue ask hask
  | any =>
    rw [Combine.mem_answered_any hasked]
    simp only [Combine.holds_any]
    constructor
    · rintro ⟨ask, hask, hids⟩
      obtain ⟨d', r, hcurrent, hopened, hr, htrue, hid⟩ := (hduring.mem_ids hscans hask).1 hids
      refine ⟨r, ⟨ask, hask, ?_⟩, ⟨ask, hask, d', hopened, hr, htrue⟩, hid⟩
      rw [← hsame hcurrent]
      exact htrue
    · rintro ⟨r, -, ⟨ask, hask, d', hopened, hr, htrue⟩, hid⟩
      have hcurrent := hduring.current hask hopened
      exact ⟨ask, hask,
        (hduring.mem_ids hscans hask).2 ⟨d', r, hcurrent, hopened, hr, htrue, hid⟩⟩

/-- A row that counts was in a version during the call. -/
theorem During.counts_current {start : Disk} {p : Progress}
    (hduring : During W h table start p) (hasked : p.asked ≠ []) {combine : Combine} {r : Row}
    (hcounts : combine.Counts eval W h table p.asked r) :
    ∃ d, p.Current W h table d ∧ r ∈ d.rows := by
  cases combine with
  | all =>
    obtain ⟨first, hfirst⟩ := List.exists_mem_of_ne_nil _ hasked
    obtain ⟨d, hopened, hr⟩ := hcounts first hfirst
    exact ⟨d, hduring.current hfirst hopened, hr⟩
  | any =>
    obtain ⟨ask, hask, d, hopened, hr, -⟩ := hcounts
    exact ⟨d, hduring.current hask hopened, hr⟩

/-- **Combined predicates and snapshots.**  However the writer's commits come between the
predicates of a call: its answer is that of one version the table had during the call exactly when
there is a version whose rows are, among those of which the combination is true, the ones that were
there when it mattered. -/
theorem one_snapshot_iff {start : Disk} {p : Progress} (hduring : During W h table start p)
    (hscans : Scans eval W) (hasked : p.asked ≠ []) (combine : Combine) :
    (∃ d, p.Current W h table d ∧
        combine.answered p.asked = combine.idsIn eval (p.asked.map Ask.predicate) d) ↔
      ∃ d, p.Current W h table d ∧
        ∀ r, combine.Holds eval (p.asked.map Ask.predicate) d.schema r →
          (r ∈ d.rows ↔ combine.Counts eval W h table p.asked r) := by
  refine exists_congr fun d => and_congr_right fun hd => ?_
  have hanswered : ∀ id, id ∈ combine.answered p.asked ↔
      ∃ r, combine.Holds eval (p.asked.map Ask.predicate) d.schema r ∧
        combine.Counts eval W h table p.asked r ∧ r.id = id :=
    fun id => hduring.mem_answered hscans hasked hd combine
  constructor
  · intro heq r hholds
    have hid : r.id ∈ combine.answered p.asked ↔
        r.id ∈ combine.idsIn eval (p.asked.map Ask.predicate) d := by rw [heq]
    rw [hanswered, Combine.mem_idsIn] at hid
    constructor
    · intro hr
      obtain ⟨r', -, hcounts, hid'⟩ := hid.2 ⟨r, hr, hholds, rfl⟩
      obtain ⟨d', hcurrent, hr'⟩ := hduring.counts_current hasked hcounts
      cases hduring.row_eq hd hcurrent hr hr' hid'
      exact hcounts
    · intro hcounts
      obtain ⟨r', hr', -, hid'⟩ := hid.1 ⟨r, hholds, hcounts, rfl⟩
      obtain ⟨d', hcurrent, hr⟩ := hduring.counts_current hasked hcounts
      cases hduring.row_eq hcurrent hd hr hr' hid'
      exact hr'
  · intro hrows
    ext id
    rw [hanswered, Combine.mem_idsIn]
    constructor
    · rintro ⟨r, hholds, hcounts, hid⟩
      exact ⟨r, (hrows r hholds).2 hcounts, hholds, hid⟩
    · rintro ⟨r, hr, hholds, hid⟩
      exact ⟨r, hholds, (hrows r hholds).1 hr, hid⟩

/-- Where all predicates were asked of one version, the answer is that version's. -/
theorem one_version_one_snapshot {start : Disk} {p : Progress}
    (hduring : During W h table start p) (hscans : Scans eval W) (hasked : p.asked ≠ [])
    {d : Dataset} (hone : ∀ ask ∈ p.asked, ask.disk.datasets (h.place W table) = some d)
    (combine : Combine) :
    combine.answered p.asked = combine.idsIn eval (p.asked.map Ask.predicate) d := by
  obtain ⟨first, hfirst⟩ := List.exists_mem_of_ne_nil _ hasked
  have hd := hduring.current hfirst (hone first hfirst)
  ext id
  rw [hduring.mem_answered hscans hasked hd, Combine.mem_idsIn]
  constructor
  · rintro ⟨r, hholds, hcounts, hid⟩
    refine ⟨r, ?_, hholds, hid⟩
    cases combine with
    | all =>
      obtain ⟨d', hopened, hr⟩ := hcounts first hfirst
      cases (hone first hfirst).symm.trans hopened
      exact hr
    | any =>
      obtain ⟨ask, hask, d', hopened, hr, -⟩ := hcounts
      cases (hone ask hask).symm.trans hopened
      exact hr
  · rintro ⟨r, hr, hholds, hid⟩
    refine ⟨r, hholds, ?_, hid⟩
    cases combine with
    | all => exact fun ask hask => ⟨d, hone ask hask, hr⟩
    | any =>
      obtain ⟨ask, hask, htrue⟩ := (Combine.holds_any eval).1 hholds
      exact ⟨ask, hask, d, hone ask hask, hr, htrue⟩

/-- A conjunction is answered from a version that was asked, where the rows it has of which all
predicates are true are in every version that was asked: commits that only add such rows, or only
remove some, do no harm. -/
theorem kept_rows_one_snapshot {start : Disk} {p : Progress}
    (hduring : During W h table start p) (hscans : Scans eval W) {ask : Ask} (hask : ask ∈ p.asked)
    {d : Dataset} (hopened : ask.disk.datasets (h.place W table) = some d)
    (hkept : ∀ r ∈ d.rows, Combine.all.Holds eval (p.asked.map Ask.predicate) d.schema r →
      ∀ other ∈ p.asked, ∃ d', other.disk.datasets (h.place W table) = some d' ∧ r ∈ d'.rows) :
    Combine.all.answered p.asked = Combine.all.idsIn eval (p.asked.map Ask.predicate) d := by
  have hd := hduring.current hask hopened
  ext id
  rw [hduring.mem_answered hscans (List.ne_nil_of_mem hask) hd, Combine.mem_idsIn]
  constructor
  · rintro ⟨r, hholds, hcounts, hid⟩
    obtain ⟨d', hopened', hr⟩ := hcounts ask hask
    cases hopened.symm.trans hopened'
    exact ⟨r, hr, hholds, hid⟩
  · rintro ⟨r, hr, hholds, hid⟩
    exact ⟨r, hholds, hkept r hr hholds, hid⟩

end Predicates

/-! ## Commits of the writer -/

/-- A commit elsewhere leaves the table as it is. -/
theorem Progress.Commits.elsewhere {p : Progress} {next : Disk}
    (hsame : next.datasets (h.place W table) = p.current.datasets (h.place W table)) :
    p.Commits W h table next := by
  intro d' hd'
  rw [hsame] at hd'
  exact .inl ⟨d', hd', Follows.refl d'⟩

/-- The commit of an append, an update or a delete is one, where it does not create the table
anew. -/
theorem Progress.Commits.write {p : Progress} {g : LanceStore} {w : Write} {d' : Dataset}
    {log : LogFile} (hcommits : LanceStore.Commits W g p.current.datasets w d')
    (hnew : p.current.datasets (g.place W w.table) = none → ∀ d, ¬ p.Current W h table d) :
    p.Commits W h table ⟨committed W g p.current.datasets w d', log⟩ := by
  by_cases hplace : h.place W table = g.place W w.table
  · intro d'' hd''
    unfold committed at hd''
    dsimp only at hd''
    rw [hplace, Function.update_self] at hd''
    cases hd''
    rw [hplace]
    rcases hcommits.follows with hnone | hthere
    · exact .inr (hnew hnone)
    · exact .inl hthere
  · exact .elsewhere (Function.update_of_ne hplace _ _)

end Calls

/-! ## A commit between two predicates -/

def reader : LanceStore := LanceStore.new "db".toList

/-- A table with one row. -/
def noted : Disk :=
  final (((LanceStore.openForWriting "db".toList).perform .plain
    (.append "notes".toList ⟨⟨[⟨"text".toList, .utf8, false, []⟩], []⟩, [[.utf8 "a".toList]]⟩)).run
      Disk.empty)

/-- The row is written again. -/
def renoted : Disk :=
  final (((LanceStore.openForWriting "db".toList).perform .plain
    (.update "notes".toList "true".toList [("text".toList, "'a'".toList)])).run noted)

/-- Another row is added. -/
def extended : Disk :=
  final (((LanceStore.openForWriting "db".toList).perform .plain
    (.append "notes".toList ⟨⟨[⟨"text".toList, .utf8, false, []⟩], []⟩, [[.utf8 "b".toList]]⟩)).run
      noted)

/-- Every predicate is true of every row, as this world's format has it. -/
theorem plain_scans : Scans (fun _ _ _ => .true) .plain := fun _ _ _ => iff_of_true rfl rfl

/-- The first predicate is asked of the table as it was, the second as the writer left it. -/
def overUpdate : Progress :=
  ⟨renoted, [noted], [⟨"text = 'a'".toList, noted, [0]⟩, ⟨"true".toList, renoted, [1]⟩]⟩

def overAppend : Progress :=
  ⟨extended, [noted], [⟨"text = 'a'".toList, noted, [0]⟩, ⟨"true".toList, extended, [0, 1]⟩]⟩

theorem asked_noted : During .plain reader "notes".toList noted
    ⟨noted, [], [⟨"text = 'a'".toList, noted, [0]⟩]⟩ := by
  have hrun : (reader.rowIds .plain "notes".toList "text = 'a'".toList).run noted =
      .ok [0] noted := rfl
  exact .ask .start hrun

/-- The row of the table. -/
def noteRows : Dataset :=
  (Dataset.create ⟨[⟨"text".toList, .utf8, false, []⟩], []⟩).add Format.plain [[.utf8 "a".toList]]

theorem noted_table : noted.datasets (reader.place .plain "notes".toList) = some noteRows := rfl

theorem overUpdate_during : During .plain reader "notes".toList noted overUpdate := by
  have hcommits : Progress.Commits .plain reader "notes".toList
      ⟨noted, [], [⟨"text = 'a'".toList, noted, [0]⟩]⟩ renoted := by
    intro d' hd'
    cases hd'
    exact .inl ⟨noteRows, rfl, Dataset.update_follows _ _ _⟩
  have hrun : (reader.rowIds .plain "notes".toList "true".toList).run renoted =
      .ok [1] renoted := rfl
  exact .ask (.commit asked_noted hcommits) hrun

theorem overAppend_during : During .plain reader "notes".toList noted overAppend := by
  have hcommits : Progress.Commits .plain reader "notes".toList
      ⟨noted, [], [⟨"text = 'a'".toList, noted, [0]⟩]⟩ extended := by
    intro d' hd'
    cases hd'
    exact .inl ⟨noteRows, rfl, Dataset.add_follows _ _⟩
  have hrun : (reader.rowIds .plain "notes".toList "true".toList).run extended =
      .ok [0, 1] extended := rfl
  exact .ask (.commit asked_noted hcommits) hrun

/-- The row was there all along, and neither of its identities is answered. -/
theorem update_between_predicates :
    (∃ answer, ((LanceStore.openForWriting "db".toList).perform .plain
      (.update "notes".toList "true".toList [("text".toList, "'a'".toList)])).run noted =
        .ok answer renoted) ∧
      During .plain reader "notes".toList noted overUpdate ∧
      Combine.all.answered overUpdate.asked = ∅ ∧
      ¬ ∃ d, overUpdate.Current .plain reader "notes".toList d ∧
        Combine.all.answered overUpdate.asked =
          Combine.all.idsIn (fun _ _ _ => .true) (overUpdate.asked.map Ask.predicate) d := by
  refine ⟨⟨_, rfl⟩, overUpdate_during, by decide, ?_⟩
  rintro ⟨d, ⟨disk, hdisk, hd⟩, heq⟩
  rcases List.mem_cons.1 hdisk with rfl | hdisk
  · cases hd
    revert heq
    decide
  · cases List.mem_singleton.1 hdisk
    cases hd
    revert heq
    decide

/-- A row that was added between the predicates is left out, as it was not there at first. -/
theorem append_between_predicates : ∃ d,
    overAppend.Current .plain reader "notes".toList d ∧
      Combine.all.answered overAppend.asked =
        Combine.all.idsIn (fun _ _ _ => .true) (overAppend.asked.map Ask.predicate) d := by
  refine (one_snapshot_iff overAppend_during plain_scans (by decide) .all).2 ⟨noteRows,
    ⟨noted, by simp [overAppend], noted_table⟩, fun r _ => ?_⟩
  constructor
  · intro hr ask hask
    rcases List.mem_cons.1 hask with rfl | hask
    · exact ⟨noteRows, noted_table, hr⟩
    · cases List.mem_singleton.1 hask
      exact ⟨_, rfl, List.mem_append_left _ hr⟩
  · intro hcounts
    obtain ⟨d, hd, hr⟩ := hcounts _ List.mem_cons_self
    cases noted_table.symm.trans hd
    exact hr

end EuleDB.Store
