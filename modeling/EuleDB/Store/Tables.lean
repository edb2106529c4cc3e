import Mathlib.Data.Set.Basic
import EuleDB.Store.Auditing

/-!
# Tables as their users know them

What a database is for, without files, handles, logs or vectors: a set of named tables, each with a
declared schema and rows that have identities.

* `Table` — a table; no two of its rows have one identity.
* `Semantics` — what predicates, assignments and orders mean.
* `Changes`, `Reads` — what the operations do to a table, and what they say about it.
* `Tables.Step`, `Tables.Run` — one operation on a set of tables; a run of them with the replies.
* `Tables.Run.gains` — a run that only adds to a table keeps its rows and adds whole batches.
-/

set_option autoImplicit false

namespace EuleDB.Store

open Crypto Audit

structure Table where
  schema : Schema
  rows : List Row
  nodup : (rows.map Row.id).Nodup

/-- A set of tables by name. -/
abbrev Tables := Text → Option Table

/-- What predicates and assignments mean for a row of a table with these columns. -/
structure Semantics where
  sat : Text → Schema → Row → Bool
  assign : List (Text × Text) → Schema → Row → List Value
  order : Text → Order → Schema → List Row → List Row

namespace Table

/-- A table that was just declared. -/
def declared (schema : Schema) : Table := ⟨schema, [], List.nodup_nil⟩

variable (S : Semantics) (t : Table)

/-- The rows that a predicate selects. -/
def selected (predicate : Text) : List Row := t.rows.filter (S.sat predicate t.schema)

/-- The rows that it does not. -/
def unselected (predicate : Text) : List Row := t.rows.filter fun r => !S.sat predicate t.schema r

/-- The table without the rows that a predicate selects. -/
def without (predicate : Text) : Table :=
  ⟨t.schema, t.unselected S predicate, t.nodup.sublist (List.filter_sublist.map Row.id)⟩

/-- `t'` has these rows of `t`, and new ones with these values under identities of their own. -/
def Gains (kept : List Row) (values : List (List Value)) (t' : Table) : Prop :=
  t'.schema = t.schema ∧ ∃ new : List Row, t'.rows = kept ++ new ∧ new.map Row.values = values ∧
    ∀ r ∈ new, ∀ old ∈ t.rows, r.id ≠ old.id

/-- The ids of the rows that satisfy every predicate. -/
def IdsOfAll (matching : List Text) (ids : Finset RowId) : Prop :=
  matching ≠ [] ∧ ∀ id, id ∈ ids ↔
    ∃ r ∈ t.rows, r.id = id ∧ ∀ predicate ∈ matching, S.sat predicate t.schema r

/-- The ids of the rows that satisfy any predicate. -/
def IdsOfAny (matching : List Text) (ids : Finset RowId) : Prop :=
  matching ≠ [] ∧ ∀ id, id ∈ ids ↔
    ∃ r ∈ t.rows, r.id = id ∧ ∃ predicate ∈ matching, S.sat predicate t.schema r

variable {t}

theorem Gains.refl (t : Table) : t.Gains t.rows [] t := ⟨rfl, [], by simp⟩

theorem Gains.trans {t' t'' : Table} {values values' : List (List Value)}
    (hfirst : t.Gains t.rows values t') (hsecond : t'.Gains t'.rows values' t'') :
    t.Gains t.rows (values ++ values') t'' := by
  obtain ⟨hschema, new, hrows, rfl, hnew⟩ := hfirst
  obtain ⟨hschema', new', hrows', rfl, hnew'⟩ := hsecond
  refine ⟨hschema'.trans hschema, new ++ new', ?_, List.map_append, ?_⟩
  · rw [hrows', hrows, List.append_assoc]
  · intro r hr old hold
    rcases List.mem_append.1 hr with hearlier | hlater
    · exact hnew r hearlier old hold
    · exact hnew' r hlater old (hrows ▸ List.mem_append_left _ hold)

end Table

variable (S : Semantics)

/-- What an operation makes of its table, and what it answers. -/
inductive Changes : Op → Option Table → Answer → Option Table → Prop where
  | createTable (name : Text) (definition : TableDefinition) :
    Changes (.createTable name definition) none .done
      (some (.declared (Compression.strippedFrom definition.schema)))
  | append (name : Text) (batch : Batch) {t? : Option Table} {t' : Table}
    (gains : (t?.getD (.declared (Compression.strippedFrom batch.schema))).Gains
      (t?.getD (.declared (Compression.strippedFrom batch.schema))).rows batch.rows t') :
    Changes (.append name batch) t? .done (some t')
  | update (name predicate : Text) (assignments : List (Text × Text)) {t t' : Table}
    (gains : t.Gains (t.unselected S predicate)
      ((t.selected S predicate).map (S.assign assignments t.schema)) t') :
    Changes (.update name predicate assignments) (some t)
      (.rows (count64 (t.selected S predicate).length)) (some t')
  | delete (name predicate : Text) (t : Table) :
    Changes (.delete name predicate) (some t)
      (.rows (count64 (t.selected S predicate).length)) (some (t.without S predicate))
  | dropTable (name : Text) (t? : Option Table) : Changes (.dropTable name) t? .done none

/-- The batches hold these rows one after the other, and each carries the columns of the table.
There may be none. -/
structure Table.Hands (t : Table) (rows : List Row) (batches : List Batch) : Prop where
  rows : batches.flatMap Batch.rows = rows.map Row.values
  fields : ∀ batch ∈ batches, batch.schema.fields = t.schema.fields

/-- What an operation says about the rows of its table. -/
inductive Reads : Op → Table → Answer → Prop where
  | scan (name : Text) {t : Table} {batches : List Batch} (hands : t.Hands t.rows batches) :
    Reads (.scan name) t (.batches batches)
  | scanOrdered (name predicate by' : Text) (order : Order) {t : Table} {batches : List Batch}
    (hands : t.Hands (S.order by' order t.schema (t.selected S predicate)) batches) :
    Reads (.scanOrdered name predicate by' order) t (.batches batches)
  | scanOrderedMeasured (name predicate by' : Text) (order : Order) {t : Table}
    {batches : List Batch} (examined : Nat)
    (hands : t.Hands (S.order by' order t.schema (t.selected S predicate)) batches) :
    Reads (.scanOrderedMeasured name predicate by' order) t (.measuredBatches (batches, examined))
  | rowIds (name predicate : Text) (t : Table) :
    Reads (.rowIds name predicate) t (.ids ((t.selected S predicate).map Row.id))
  | rowIdsMeasured (name predicate : Text) (t : Table) (examined : Nat) :
    Reads (.rowIdsMeasured name predicate) t
      (.measuredIds ((t.selected S predicate).map Row.id, examined))
  | rowIdsAll (name : Text) (matching : List Text) {t : Table} {ids : Finset RowId}
    (all : t.IdsOfAll S matching ids) : Reads (.rowIdsAll name matching) t (.set ids)
  | rowIdsAny (name : Text) (matching : List Text) {t : Table} {ids : Finset RowId}
    (any : t.IdsOfAny S matching ids) : Reads (.rowIdsAny name matching) t (.set ids)
  | filteredSearch (name : Text) (filter : List Text)
    (source : Finset RowId → Nat → Except Error (List RowId)) (limit : Nat) {t : Table}
    {within : Finset RowId} {found : List RowId} (all : t.IdsOfAll S filter within)
    (searched : source within limit = .ok found) :
    Reads (.filteredSearch name filter source limit) t (.ids found)

/-- What an operation answers comes from vectors, a text index or the indexes themselves. -/
def Op.isDerived : Op → Bool
  | .vectorsOf _ _ | .nearest _ _ _ _ | .searchText _ _ _ _ | .hybridSearch _ _ _ _ _
  | .createIndex _ _ | .createVectorIndex _ _ _ | .createTextIndex _ _ _ | .vectorIndexKind _ _
  | .nearestUsesTheIndex _ _ _ _ => true
  | _ => false

/-- An operation that is no update, delete or drop. -/
def Op.addsOnly : Op → Bool
  | .update _ _ _ | .delete _ _ | .dropTable _ => false
  | _ => true

def Op.isDrop : Op → Bool
  | .dropTable _ => true
  | _ => false

/-- The rows that an operation adds. -/
def Op.adds : Op → List (List Value)
  | .append _ batch => batch.rows
  | _ => []

variable {S}

/-- What only adds to a table adds its rows. -/
theorem Changes.gains {op : Op} {t : Table} {answer : Answer} {t'? : Option Table}
    (hchanges : Changes S op (some t) answer t'?) (hadds : op.addsOnly) :
    ∃ t', t'? = some t' ∧ t.Gains t.rows op.adds t' := by
  cases hchanges with
  | append name batch gains => exact ⟨_, rfl, gains⟩
  | update name predicate assignments gains => cases hadds
  | delete name predicate t => cases hadds
  | dropTable name t? => cases hadds

theorem Reads.adds {op : Op} {t : Table} {answer : Answer} (hreads : Reads S op t answer) :
    op.adds = [] := by
  cases hreads <;> rfl

theorem Op.isDerived_adds (op : Op) (hderived : op.isDerived) : op.adds = [] := by
  cases op with
  | append name batch => cases hderived
  | _ => rfl

namespace Tables

variable (S)

/-- What one operation does to its own table, and what it replies.  One that fails, or that never
comes back, may have made its change all the same; of a drop there may be anything left. -/
def StepAt (op : Op) (before : Option Table) (reply : Option Answer) (after : Option Table) :
    Prop :=
  match reply with
  | some answer => Changes S op before answer after ∨
      (after = before ∧ (op.isDerived ∨ ∃ t, before = some t ∧ Reads S op t answer))
  | none => after = before ∨ (∃ answer, Changes S op before answer after) ∨ op.isDrop

/-- One operation on the tables of these names. -/
structure Step (names : Set Text) (before : Tables) (op : Op) (reply : Option Answer)
    (after : Tables) : Prop where
  here : StepAt S op (before op.table) reply (after op.table)
  elsewhere : ∀ name ∈ names, name ≠ op.table → after name = before name

/-- Operations one after the other, with their replies. -/
inductive Run (names : Set Text) : Tables → List (Op × Option Answer) → Tables → Prop where
  | nil (tables : Tables) : Run names tables [] tables
  | cons {before middle after : Tables} {op : Op} {reply : Option Answer}
    {replies : List (Op × Option Answer)} (first : Step S names before op reply middle)
    (rest : Run names middle replies after) : Run names before ((op, reply) :: replies) after

variable {S} {names : Set Text} {before after : Tables} {replies : List (Op × Option Answer)}

/-- An operation that changes nothing answers what its table says. -/
theorem StepAt.unchanged {op : Op} {t? t'? : Option Table} {reply : Option Answer}
    (hsame : t'? = t?)
    (hreads : op.isDerived ∨
      ∀ answer, reply = some answer → ∃ t, t? = some t ∧ Reads S op t answer) :
    StepAt S op t? reply t'? := by
  cases reply with
  | some answer => exact .inr ⟨hsame, hreads.imp_right fun hread => hread answer rfl⟩
  | none => exact .inl hsame

/-- The rows that the operations on a table add, for each of the operations. -/
def attempted (name : Text) (replies : List (Op × Option Answer)) :
    List (List (List Value)) :=
  (replies.filter fun e => e.1.table = name).map fun e => e.1.adds

/-- The rows that those add that succeed. -/
def acknowledged (name : Text) (replies : List (Op × Option Answer)) :
    List (List (List Value)) :=
  attempted name (replies.filter fun e => e.2.isSome)

theorem attempted_here {name : Text} {op : Op} {reply : Option Answer}
    (hname : op.table = name) :
    attempted name ((op, reply) :: replies) = [op.adds] ++ attempted name replies := by
  unfold attempted
  rw [List.filter_cons_of_pos (by simpa using hname)]
  rfl

theorem attempted_elsewhere {name : Text} {op : Op} {reply : Option Answer}
    (hname : op.table ≠ name) :
    attempted name ((op, reply) :: replies) = attempted name replies := by
  unfold attempted
  rw [List.filter_cons_of_neg (by simpa using hname)]

theorem acknowledged_elsewhere {name : Text} {op : Op} {reply : Option Answer}
    (hname : op.table ≠ name) :
    acknowledged name ((op, reply) :: replies) = acknowledged name replies := by
  unfold acknowledged
  rw [List.filter_cons]
  split_ifs
  · exact attempted_elsewhere hname
  · rfl

/-- What one operation adds: its rows, or nothing where it fails. -/
theorem StepAt.gains {op : Op} {t : Table} {reply : Option Answer} {t'? : Option Table}
    (hstep : StepAt S op (some t) reply t'?) (hadds : op.addsOnly) :
    ∃ t' l, t'? = some t' ∧ t.Gains t.rows l.flatten t' ∧ l.Sublist [op.adds] ∧
      (reply.isSome → l = [op.adds]) := by
  have hsame : ∀ l : List (List (List Value)), l.flatten = [] → t.Gains t.rows l.flatten t := by
    intro l hl
    rw [hl]
    exact .refl t
  cases reply with
  | some answer =>
    rcases hstep with hchanges | ⟨heq, hreads⟩
    · obtain ⟨t', ht', hgains⟩ := hchanges.gains hadds
      exact ⟨t', [op.adds], ht', by simpa using hgains, List.Sublist.refl _, fun _ => rfl⟩
    · have hnone : op.adds = [] := by
        rcases hreads with hderived | ⟨t, -, hreads⟩
        · exact op.isDerived_adds hderived
        · exact hreads.adds
      exact ⟨t, [op.adds], heq, hsame _ (by simpa using hnone), List.Sublist.refl _, fun _ => rfl⟩
  | none =>
    rcases hstep with heq | ⟨answer, hchanges⟩ | hdrop
    · exact ⟨t, [], heq, hsame _ rfl, List.nil_sublist _, nofun⟩
    · obtain ⟨t', ht', hgains⟩ := hchanges.gains hadds
      exact ⟨t', [op.adds], ht', by simpa using hgains, List.Sublist.refl _, fun _ => rfl⟩
    · -- a drop is not among what only adds
      cases op <;> cases hdrop
      cases hadds

/-- **A run that only adds** to a table, whatever it does to others, keeps every row of it and adds
whole batches: those of the operations that succeeded, and perhaps some of those that did not. -/
theorem Run.gains {name : Text} {t : Table} (hrun : Run S names before replies after)
    (hname : name ∈ names) (hadds : ∀ e ∈ replies, e.1.table = name → e.1.addsOnly)
    (hbefore : before name = some t) :
    ∃ t' l, after name = some t' ∧ t.Gains t.rows l.flatten t' ∧
      (acknowledged name replies).Sublist l ∧ l.Sublist (attempted name replies) := by
  induction hrun generalizing t with
  | nil tables => exact ⟨t, [], hbefore, .refl t, List.Sublist.refl _, List.Sublist.refl _⟩
  | @cons before middle after op reply replies first rest ih =>
    have hlater := fun e he => hadds e (List.mem_cons_of_mem _ he)
    by_cases htable : op.table = name
    · have hstep := first.here
      rw [htable, hbefore] at hstep
      obtain ⟨t', l, hmiddle, hgains, hone, hall⟩ :=
        hstep.gains (hadds (op, reply) List.mem_cons_self htable)
      obtain ⟨t'', l', hafter, hgains', hacknowledged, hattempted⟩ := ih hlater hmiddle
      refine ⟨t'', l ++ l', hafter, ?_, ?_, ?_⟩
      · rw [List.flatten_append]
        exact hgains.trans hgains'
      · unfold acknowledged
        rw [List.filter_cons]
        split_ifs with hsome
        · rw [attempted_here htable, hall hsome]
          exact (List.Sublist.refl _).append hacknowledged
        · exact hacknowledged.trans (List.sublist_append_right _ _)
      · rw [attempted_here htable]
        exact hone.append hattempted
    · have hmiddle := (first.elsewhere name hname (Ne.symm htable)).trans hbefore
      obtain ⟨t', l, hafter, hgains, hacknowledged, hattempted⟩ := ih hlater hmiddle
      rw [acknowledged_elsewhere htable, attempted_elsewhere htable]
      exact ⟨t', l, hafter, hgains, hacknowledged, hattempted⟩

end Tables

end EuleDB.Store
