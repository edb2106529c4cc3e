import EuleDB.Audit.Chain

/-!
# What a database records

One `Operation` for each kind of entry a database writes into its audit log: the texts are put
together from the table, the column and what the caller asked for.

* `Operation.names_table` — every entry names its table, in backquotes.
* `Operation.not_reanchor` — no entry can be taken for a re-anchor.
* `Operation.plan_getLast?` — which texts of a caller end an entry.
-/

set_option autoImplicit false

namespace EuleDB.Audit

open Crypto

/-- How a vector column is indexed. -/
inductive VectorIndexKind where
  | graph
  | quantised
  deriving DecidableEq

/-- How an index of this kind is called. -/
def VectorIndexKind.name : VectorIndexKind → String
  | graph => "graph"
  | quantised => "quantised"

/-- The language a text index stems and removes stop words for. -/
inductive StemmingLanguage where
  | none
  | german
  | english
  | french
  | spanish
  | italian
  | dutch
  | portuguese
  deriving DecidableEq

/-- The tokeniser's language, and whether it stems. -/
def StemmingLanguage.asParts : StemmingLanguage → String × Bool
  | .none => ("English", false)
  | .german => ("German", true)
  | .english => ("English", true)
  | .french => ("French", true)
  | .spanish => ("Spanish", true)
  | .italian => ("Italian", true)
  | .dutch => ("Dutch", true)
  | .portuguese => ("Portuguese", true)

inductive Operation where
  | createTable (table : Text)
  | append (table : Text)
  | update (table predicate : Text) (columns : List Text)
  | delete (table predicate : Text)
  | dropTable (table : Text)
  | scan (table : Text)
  | createVectorIndex (table column : Text) (kind : VectorIndexKind)
  | nearest (table column : Text)
  | hybridSearch (table column text : Text) (effectiveK : UInt32)
  | createTextIndex (table column : Text) (language : StemmingLanguage)
  | searchText (table column query : Text)
  deriving DecidableEq

namespace Operation

/-- A name in backquotes. -/
def quoted (name : Text) : Text := "`".toList ++ name ++ "`".toList

def table : Operation → Text
  | createTable table | append table | update table _ _ | delete table _ | dropTable table
  | scan table | createVectorIndex table _ _ | nearest table _ | hybridSearch table _ _ _
  | createTextIndex table _ _ | searchText table _ _ => table

/-- What stands before the table. -/
def verb : Operation → Text
  | createTable _ => "create table ".toList
  | append _ => "insert into ".toList
  | update _ _ _ => "update ".toList
  | delete _ _ => "delete from ".toList
  | dropTable _ => "drop table ".toList
  | scan _ => "scan ".toList
  | createVectorIndex _ _ _ => "index the vectors of ".toList
  | nearest _ _ => "search the vectors of ".toList
  | hybridSearch _ _ _ _ => "hybrid search of ".toList
  | createTextIndex _ _ _ => "index the text of ".toList
  | searchText _ _ _ => "search the text of ".toList

/-- What stands after it.  `debug` is how a text is written for debugging. -/
def rest (debug : Text → Text) : Operation → Text
  | createTable _ | append _ | dropTable _ | scan _ => []
  | update _ predicate _ | delete _ predicate => " where ".toList ++ predicate
  | createVectorIndex _ column _ | nearest _ column | createTextIndex _ column _
  | searchText _ column _ => ".".toList ++ quoted column
  | hybridSearch _ column text _ => ".".toList ++ quoted column ++ " for ".toList ++ debug text

/-- What was asked. -/
def query (debug : Text → Text) (op : Operation) : Text :=
  op.verb ++ quoted op.table ++ op.rest debug

/-- How it resolved. -/
def plan : Operation → Text
  | createTable _ | append _ | delete _ _ | dropTable _ | scan _ | nearest _ _ => []
  | update _ _ columns => List.intercalate ", ".toList columns
  | createVectorIndex _ _ kind => kind.name.toList
  | hybridSearch _ _ _ effectiveK => "rrf k=".toList ++ Nat.toDigits 10 effectiveK.toNat
  | createTextIndex _ _ language => language.asParts.1.toList
  | searchText _ _ query => query

def entry (debug : Text → Text) (op : Operation) (rows : UInt64) : Entry :=
  ⟨op.query debug, op.plan, rows⟩

theorem not_reanchor (debug : Text → Text) (op : Operation) :
    REANCHOR.isPrefixOf (op.query debug) = false := by
  unfold query
  rw [List.append_assoc]
  -- no verb begins with the marker's first letter
  cases op <;> rfl

/-- Which texts of a caller can end a plan with a carriage return. -/
theorem plan_getLast? {op : Operation} (h : op.plan.getLast? = some '\r') :
    (∃ table column query, op = .searchText table column query ∧ query.getLast? = some '\r') ∨
      ∃ table predicate columns, op = .update table predicate columns ∧
        (List.intercalate ", ".toList columns).getLast? = some '\r' := by
  cases op with
  | searchText table column query => exact .inl ⟨table, column, query, rfl, h⟩
  | update table predicate columns => exact .inr ⟨table, predicate, columns, rfl, h⟩
  | hybridSearch table column text effectiveK =>
    change ("rrf k=".toList ++ Nat.toDigits 10 effectiveK.toNat).getLast? = _ at h
    rw [List.getLast?_append_of_ne_nil _ Nat.toDigits_ne_nil] at h
    have hdigit := Nat.isDigit_of_mem_toDigits (by decide) (by decide) (List.mem_of_getLast? h)
    exact absurd hdigit (by decide)
  | createVectorIndex table column kind =>
    change kind.name.toList.getLast? = _ at h
    cases kind <;> exact absurd h (by decide)
  | createTextIndex table column language =>
    change language.asParts.1.toList.getLast? = _ at h
    cases language <;> exact absurd h (by decide)
  -- every other plan is empty
  | createTable table | append table | dropTable table | scan table | delete table predicate
  | nearest table column =>
    change [].getLast? = _ at h
    cases h

end Operation

end EuleDB.Audit
