import EuleDB.Embed.Plans
import EuleDB.Store.Database
import EuleDB.Store.Refusals
import EuleDB.Store.Semantic

/-!
# The embedder behind the storage layer's port

The storage layer decides when text is embedded and refuses vectors of the wrong width; the
embedder decides how, and is handed over behind a port that knows neither of the other's errors.

* `Model.port` — the port: vectors as their bits, failures as what they say.
* `only_the_model_refuses` — after every run on tables that lie apart from the vectors, a write
  through a handle with this embedder reports that a text could not be embedded only where the model
  failed on the text of a row, with what it said, and never for a width.
* `queries_fit` — nor is a query refused for its width.
-/

set_option autoImplicit false

namespace EuleDB.Embed

open Crypto Effect Store Store.LanceStore

/-- What a failure says. -/
def EmbedError.display : EmbedError → Text
  | .tokenizer cause => "the text could not be tokenised: ".toList ++ cause
  | .inference cause => "the model could not be evaluated: ".toList ++ cause

/-- An answer as it goes through the port: in the layer's own terms, or what the failure says. -/
def ported {α β : Type} (inTerms : α → β) (answer : Except EmbedError α) : Except Cause β :=
  (answer.map inTerms).mapError EmbedError.display

theorem ported_ok {α β : Type} {inTerms : α → β} {answer : Except EmbedError α} {b : β} :
    ported inTerms answer = .ok b ↔ ∃ a, answer = .ok a ∧ inTerms a = b := by
  cases answer with
  | ok a => simp [ported, Except.map, Except.mapError]
  | error e => simp [ported, Except.map, Except.mapError]

theorem ported_error {α β : Type} {inTerms : α → β} {answer : Except EmbedError α}
    {cause : Cause} :
    ported inTerms answer = .error cause ↔ ∃ e, answer = .error e ∧ cause = e.display := by
  cases answer with
  | ok a => simp [ported, Except.map, Except.mapError]
  | error e => simp [ported, Except.map, Except.mapError, eq_comm]

/-- The storage layer's port, implemented by a model: vectors as their bits, failures as texts. -/
def Model.port (M : Model Float32) : Store.Embedder where
  embedPassage := fun text => ported (List.map (List.map Float32.toBits)) (M.embedPassage text)
  embedQuery := fun text => ported (List.map Float32.toBits) (M.embedQuery text)

section Port

variable {M : Model Float32} {text : Text}

/-- What the port gives for a passage is as wide as a companion table's vectors. -/
theorem Model.port_width {embeddings : List (List UInt32)}
    (h : M.port.embedPassage text = .ok embeddings) :
    ∀ embedding ∈ embeddings, embedding.length = VECTOR_WIDTH := by
  obtain ⟨vectors, hpassage, rfl⟩ := ported_ok.1 h
  intro embedding hembedding
  obtain ⟨vector, hvector, rfl⟩ := List.mem_map.1 hembedding
  have hanswer : M.answer (.passage text) = .ok vectors := hpassage
  rw [List.length_map]
  exact Model.answer_width hanswer vector hvector

theorem Model.port_query_width {vector : List UInt32}
    (h : M.port.embedQuery text = .ok vector) : vector.length = VECTOR_WIDTH := by
  obtain ⟨found, hquery, rfl⟩ := ported_ok.1 h
  rw [List.length_map]
  exact Model.run_length hquery

end Port

/-! ## Writes -/

section Writes

variable {W : World} {h : LanceStore} {M : Model Float32}

/-- **Only the model refuses a text.**  After every run of operations through any handles, failed,
cut off or not, a write through a handle that embeds with a model reports that a text could not be
embedded only once its rows are committed; it names its own table, and says what the model said of
the text of one of the rows that are there.  No vector that the model makes, nor any that was kept,
is refused for its width. -/
theorem only_the_model_refuses {names : Set Text} {disk disk' : Disk}
    {replies : List (Op × Option Answer)} (hran : Ran W h.root names Disk.empty replies disk)
    (hembedder : ∀ embedder, h.embedder = some embedder → embedder = M.port) {w : Write}
    (hname : w.table ∈ names) (hapart : VectorsApart W h names disk.datasets w)
    {about : Text} {cause : Cause}
    (hrun : (h.perform W w.op).run disk =
      .error (.backend "embed the text of" about cause) disk') :
    about = w.table ∧ ∃ d, disk'.datasets (h.place W w.table) = some d ∧
      Commits W h disk.datasets w d ∧ ∃ column ∈ d.schema.autoEmbeddingColumns, ∃ r ∈ d.rows,
        ∃ e, M.embedPassage (textOf d.schema column r) = .error e ∧ cause = e.display := by
  obtain ⟨habout, d, hd, hcommits, column, hcolumn, r, hr, hrefused⟩ :=
    refusal_is_about_a_row hran hembedder hname hapart hrun
  refine ⟨habout, d, hd, hcommits, column, hcolumn, r, hr, ?_⟩
  rcases hrefused with hfailed | ⟨embeddings, hembeddings, embedding, hmem, hnarrow, -⟩
  · exact ported_error.1 hfailed
  · exact absurd (Model.port_width hembeddings embedding hmem) hnarrow

end Writes

/-- Characters as tokens, and a graph without an output. -/
def outputless : Model Float32 where
  toEmbedder := characters
  special := ones.special
  plan := fun _ _ _ _ => .error "the graph produced no output".toList

/-- A writing handle that embeds with it. -/
def embeddingWriter : LanceStore :=
  (LanceStore.openForWriting "db".toList).embedding outputless.port

/-- A table is made, dropped and made again. -/
def madeAgain : List (LanceStore × Op) :=
  [(writer, .createTable "docs".toList ⟨embeddedText, .none⟩),
    (writer, .dropTable "docs".toList),
    (embeddingWriter, .createTable "docs".toList ⟨embeddedText, .none⟩)]

theorem madeAgain_stays : Stays "db".toList {"docs".toList} madeAgain := by
  unfold madeAgain Stays
  simp only [List.forall_mem_cons]
  exact ⟨⟨rfl, rfl⟩, ⟨rfl, rfl⟩, ⟨rfl, rfl⟩, by simp⟩

/-- Two rows with a text. -/
def appendTwo : Write :=
  .append "docs".toList ⟨embeddedText, [[.utf8 "a".toList], [.utf8 "bb".toList]]⟩

set_option maxRecDepth 8000 in
theorem madeAgain_table : (performEach .plain madeAgain Disk.empty).datasets
    (embeddingWriter.place .plain "docs".toList) =
      some (.create (Compression.none.appliedTo embeddedText)) := rfl

theorem appendTwo_apart : VectorsApart .plain embeddingWriter {"docs".toList}
    (performEach .plain madeAgain Disk.empty).datasets appendTwo := by
  rintro d hcommits column hcolumn name rfl
  obtain ⟨-, -, -, rfl⟩ := hcommits
  rw [madeAgain_table] at hcolumn
  cases List.mem_singleton.1 hcolumn
  decide

set_option maxRecDepth 8000 in
theorem appendTwo_run : ∃ disk',
    (embeddingWriter.perform .plain appendTwo.op).run (performEach .plain madeAgain Disk.empty) =
      .error (.backend "embed the text of" "docs".toList
        "the model could not be evaluated: the graph produced no output".toList) disk' := ⟨_, rfl⟩

/-- The row that is reported is one of those that were appended. -/
theorem appended_is_reported : ∃ (disk' : Disk) (d : Dataset),
    ∃ column ∈ d.schema.autoEmbeddingColumns, ∃ r ∈ d.rows,
    disk'.datasets (embeddingWriter.place .plain "docs".toList) = some d ∧
      ∃ e, outputless.embedPassage (textOf d.schema column r) = .error e ∧
        "the model could not be evaluated: the graph produced no output".toList = e.display := by
  obtain ⟨disk', hrun⟩ := appendTwo_run
  have hembedder : ∀ embedder, embeddingWriter.embedder = some embedder →
      embedder = outputless.port := by
    rintro embedder ⟨⟩
    rfl
  obtain ⟨-, d, hd, -, column, hcolumn, r, hr, hfailed⟩ :=
    only_the_model_refuses madeAgain_stays.ran hembedder (Set.mem_singleton _) appendTwo_apart hrun
  exact ⟨disk', d, column, hcolumn, r, hr, hd, hfailed⟩

/-! ## Queries -/

section Queries

variable {W : World} {h : LanceStore} {M : Model Float32} {table column : Text} {limit : Nat}

/-- Not the refusal of a vector for its width. -/
def Fitting (e : Error) : Prop := ∀ given wanted, e ≠ .storage (.wrongVectorWidth given wanted)

theorem fitting : Covers Fitting where
  backend := nofun
  audit := nofun

theorem nearest_fitting {vector : List UInt32} (hwidth : vector.length = VECTOR_WIDTH) :
    Raises Fitting (h.nearest W table column vector limit) := by
  refine (requireScope_raises nofun).bind fun _ => ?_
  rw [if_neg (not_not.2 hwidth)]
  refine (fitting.open _).bind fun d => (fitting.ask _ _ _ _).bind fun _ => ?_
  refine (fitting.ask _ _ _ _).bind fun _ => (fitting.ask _ _ _ _).bind fun _ => ?_
  refine (fitting.rowVectors _ _ _ _ _).bind fun found => ?_
  exact (fitting.record _ _).bind fun _ => Raises.pure _

theorem searchText_fitting (query : Text) :
    Raises Fitting (h.searchText W table column query limit) := by
  refine (requireScope_raises nofun).bind fun _ => (fitting.open _).bind fun d => ?_
  refine (fitting.ask _ _ _ _).bind fun _ => (fitting.ask _ _ _ _).bind fun _ => ?_
  refine (fitting.ask _ _ _ _).bind fun _ => (fitting.ask _ _ _ _).bind fun _ => ?_
  exact (fitting.ask _ _ _ _).bind fun _ => (fitting.record _ _).bind fun _ => Raises.pure _

theorem hybridSearch_fitting (text : Text) {vector : List UInt32}
    (hwidth : vector.length = VECTOR_WIDTH) :
    Raises Fitting (h.hybridSearch W table column text vector limit) := by
  refine (requireScope_raises nofun).bind fun _ => (nearest_fitting hwidth).bind fun semantic => ?_
  refine (searchText_fitting _).bind fun lexical => (fitting.open _).bind fun d => ?_
  exact (fitting.ask _ _ _ _).bind fun _ => (fitting.record _ _).bind fun _ => Raises.pure _

/-- An embedded query has the width that a search wants, and one that is not embedded is not
refused for it. -/
theorem embedQuery_fitting (hembedder : h.embedder = some M.port) (query : Text) :
    (∀ vector, h.embedQuery query = .ok vector → vector.length = VECTOR_WIDTH) ∧
      Raises Fitting (ofExcept (h.embedQuery query) : StoreM (List UInt32)) := by
  unfold LanceStore.embedQuery
  rw [hembedder]
  dsimp only
  cases hquery : M.port.embedQuery query with
  | error cause => exact ⟨nofun, Raises.throw nofun⟩
  | ok vector =>
    refine ⟨fun found hfound => ?_, Raises.pure _⟩
    cases hfound
    exact Model.port_query_width hquery

/-- **No query is refused for its width**, whichever way it is asked. -/
theorem queries_fit {db : Database} (hembedder : db.store.embedder = some M.port)
    (query : Text) :
    Raises Fitting (db.semanticSearch W table column query limit) ∧
      Raises Fitting (db.hybridSearch W table column query limit) := by
  obtain ⟨hwidth, hraises⟩ := embedQuery_fitting hembedder query
  constructor
  · intro disk e disk' hrun
    rcases bind_error.1 hrun with hquery | ⟨vector, s1, hquery, hrest⟩
    · exact hraises _ _ _ hquery
    · have hnearest : Raises Fitting (db.store.nearest W table column vector limit) :=
        nearest_fitting (hwidth vector (ofExcept_ok.1 hquery).1)
      exact hnearest.bind (fun _ => Raises.pure _) _ _ _ hrest
  · intro disk e disk' hrun
    rcases bind_error.1 hrun with hquery | ⟨vector, s1, hquery, hrest⟩
    · exact hraises _ _ _ hquery
    · exact hybridSearch_fitting query (hwidth vector (ofExcept_ok.1 hquery).1) _ _ _ hrest

end Queries

end EuleDB.Embed
