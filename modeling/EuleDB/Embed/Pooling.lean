import Mathlib.Algebra.Order.Field.Rat
import EuleDB.Embed.Chunks
import EuleDB.Lib.Slice

/-!
# Pooling a model's output

The graph is compiled for a few lengths, so a text is padded to the next of them, and a mask says
which positions are text.  The rows that the mask keeps are averaged.

* `meanPool` — the loop of `mean_pool`, over any arithmetic.
* `meanPool_eq` — it is an average of the rows that the mask keeps, and of nothing else.
* `padding_not_pooled` — padding changes nothing, whatever its rows hold and however long it is.
* `embeddings_ignore_padding` — so what the graph says of it never reaches an embedding.
-/

set_option autoImplicit false

namespace EuleDB.Embed

open Crypto Slice

/-- The model's hidden size. -/
def DIMENSIONS : Nat := 384

/-- The lengths the graph is compiled for. -/
def BUCKETS : List Nat := [16, 32, 64, 128, 256, TOKEN_LIMIT]

/-- The prefix E5 expects on a query. -/
def QUERY_PREFIX : Text := "query: ".toList

/-- The token the model pads with. -/
def PAD_TOKEN : Int := 1

/-! ## The pooling -/

/-- What the pooling asks of its numbers. -/
structure Arithmetic (F : Type) where
  zero : F
  one : F
  add : F → F → F
  div : F → F → F
  /-- More than zero. -/
  positive : F → Bool

/-- Single floats. -/
def Arithmetic.single : Arithmetic Float32 := ⟨0, 1, (· + ·), (· / ·), fun a => 0 < a⟩

/-- Exact rationals. -/
def Arithmetic.exact : Arithmetic ℚ := ⟨0, 1, (· + ·), (· / ·), fun a => 0 < a⟩

section Pool

variable {F : Type} (A : Arithmetic F)

/-- `slice::as_chunks`: the pieces of `n` values, without the rest. -/
def asChunks (n : Nat) (values : List F) : List (List F) :=
  (chunks n values).filter fun row => row.length = n

/-- What the loop carries. -/
structure Pool (F : Type) where
  summed : List F
  counted : F

def Pool.empty : Pool F := ⟨List.replicate DIMENSIONS A.zero, A.zero⟩

/-- One row that is kept. -/
def Pool.add (pool : Pool F) (row : List F) : Pool F :=
  ⟨List.zipWith A.add pool.summed row, A.add pool.counted A.one⟩

/-- One row, and whether it is kept. -/
def Pool.turn (pool : Pool F) (token : List F × Int) : Pool F :=
  if token.2 = 0 then pool else pool.add A token.1

/-- The average, where a row was kept. -/
def Pool.average (pool : Pool F) : List F :=
  if A.positive pool.counted then pool.summed.map fun slot => A.div slot pool.counted
  else pool.summed

/-- Average the token vectors the attention mask keeps. -/
def meanPool (values : List F) (mask : List Int) : List F :=
  (((asChunks DIMENSIONS values).zip mask).foldl (Pool.turn A) (Pool.empty A)).average A

/-- The rows a mask keeps. -/
def kept {R : Type} (rows : List R) (mask : List Int) : List R :=
  ((rows.zip mask).filter fun token => token.2 ≠ 0).map Prod.fst

variable {A}

theorem foldl_turn (tokens : List (List F × Int)) (pool : Pool F) :
    tokens.foldl (Pool.turn A) pool =
      ((tokens.filter fun token => token.2 ≠ 0).map Prod.fst).foldl (Pool.add A) pool := by
  induction tokens generalizing pool with
  | nil => rfl
  | cons token tokens ih =>
    rw [List.foldl_cons, ih, Pool.turn]
    by_cases hkeep : token.2 = 0
    · rw [if_pos hkeep, List.filter_cons_of_neg (by simpa using hkeep)]
    · rw [if_neg hkeep, List.filter_cons_of_pos (by simpa using hkeep), List.map_cons,
        List.foldl_cons]

/-- **The pooling averages the rows that the mask keeps**, and looks at no other. -/
theorem meanPool_eq (values : List F) (mask : List Int) :
    meanPool A values mask =
      ((kept (asChunks DIMENSIONS values) mask).foldl (Pool.add A) (Pool.empty A)).average A := by
  unfold meanPool kept
  rw [foldl_turn]

end Pool

/-! ## What a mask keeps -/

section Kept

variable {R : Type} {rows rows' : List R} {mask : List Int}

/-- The first row is kept or not, and then the rest is looked at. -/
theorem kept_cons (rows : List R) (keep : Int) (mask : List Int) :
    kept rows (keep :: mask) =
      (if keep = 0 then [] else rows.head?.toList) ++ kept rows.tail mask := by
  unfold kept
  cases rows with
  | nil => simp
  | cons row rows =>
    rw [List.zip_cons_cons, List.tail_cons]
    split_ifs with hkeep
    · rw [List.filter_cons_of_neg (by simpa using hkeep), List.nil_append]
    · rw [List.filter_cons_of_pos (by simpa using hkeep), List.map_cons]
      rfl

/-- Rows that are the same wherever the mask keeps one. -/
def AgreeOn (mask : List Int) (rows rows' : List R) : Prop :=
  ∀ (i : Nat) (keep : Int), mask[i]? = some keep → keep ≠ 0 → rows[i]? = rows'[i]?

theorem AgreeOn.tail {keep : Int} (h : AgreeOn (keep :: mask) rows rows') :
    AgreeOn mask rows.tail rows'.tail := by
  intro i k hmask hkeep
  have hnext := h (i + 1) k hmask hkeep
  simpa using hnext

/-- What a mask keeps is decided by the rows it keeps. -/
theorem kept_congr (h : AgreeOn mask rows rows') : kept rows mask = kept rows' mask := by
  induction mask generalizing rows rows' with
  | nil => simp [kept]
  | cons keep mask ih =>
    rw [kept_cons, kept_cons, ih h.tail]
    split_ifs with hkeep
    · rfl
    · have hhead := h 0 keep rfl hkeep
      rw [List.head?_eq_getElem?, List.head?_eq_getElem?, hhead]

/-- Rows behind a mask's own that it does not keep. -/
theorem kept_append_zeros (h : rows.length = mask.length) (further : List R) :
    kept (rows ++ further) (mask ++ List.replicate further.length 0) = kept rows mask := by
  have hnone : (further.zip (List.replicate further.length (0 : Int))).filter
      (fun token => token.2 ≠ 0) = [] := by
    rw [List.filter_eq_nil_iff]
    intro token htoken
    have hzero := List.eq_of_mem_replicate (List.of_mem_zip htoken).2
    simp [hzero]
  unfold kept
  rw [List.zip_append h, List.filter_append, hnone, List.append_nil]

end Kept

/-! ## Padding -/

/-- The vector of one token. -/
abbrev TokenRow (F : Type) := { row : List F // row.length = DIMENSIONS }

/-- Rows as the graph gives them, one value after another. -/
def flat {F : Type} (rows : List (TokenRow F)) : List F := rows.flatMap Subtype.val

/-- A text of `real` tokens, padded to a bucket: what is text. -/
def maskOf (bucket real : Nat) : List Int :=
  List.replicate (min real bucket) 1 ++ List.replicate (bucket - real) 0

section Padding

variable {F : Type} {A : Arithmetic F}

theorem asChunks_flat (rows : List (TokenRow F)) :
    asChunks DIMENSIONS (flat rows) = rows.map Subtype.val := by
  have hfull : ∀ row ∈ rows.map Subtype.val, row.length = DIMENSIONS := by
    intro row hrow
    obtain ⟨tokenRow, -, rfl⟩ := List.mem_map.1 hrow
    exact tokenRow.2
  have hchunks : chunks DIMENSIONS (flat rows) = rows.map Subtype.val := by
    unfold flat
    rw [List.flatMap_def, chunks_flatten_full (by decide) _ hfull]
  unfold asChunks
  rw [hchunks, List.filter_eq_self]
  simpa using hfull

/-- Outputs that agree where the mask keeps a row pool to the same vector. -/
theorem meanPool_congr {values values' : List F} {mask : List Int}
    (h : AgreeOn mask (asChunks DIMENSIONS values) (asChunks DIMENSIONS values')) :
    meanPool A values mask = meanPool A values' mask := by
  rw [meanPool_eq, meanPool_eq, kept_congr h]

/-- Rows behind a mask's own that it does not keep change nothing. -/
theorem meanPool_append_zeros {rows : List (TokenRow F)} {mask : List Int}
    (h : rows.length = mask.length) (further : List (TokenRow F)) :
    meanPool A (flat (rows ++ further)) (mask ++ List.replicate further.length 0) =
      meanPool A (flat rows) mask := by
  have hlength : (rows.map Subtype.val).length = mask.length := by simpa using h
  have hkept := kept_append_zeros hlength (further.map Subtype.val)
  rw [List.length_map] at hkept
  rw [meanPool_eq, meanPool_eq, asChunks_flat, asChunks_flat, List.map_append, hkept]

/-- What a text pools to in a bucket that fits it: what it pools to by itself. -/
theorem meanPool_bucket {bucket : Nat} {hidden padding : List (TokenRow F)}
    (hfits : hidden.length + padding.length = bucket) :
    meanPool A (flat (hidden ++ padding)) (maskOf bucket hidden.length) =
      meanPool A (flat hidden) (List.replicate hidden.length 1) := by
  have hmask : maskOf bucket hidden.length =
      List.replicate hidden.length 1 ++ List.replicate padding.length 0 := by
    rw [maskOf, Nat.min_eq_left (by omega), show bucket - hidden.length = padding.length by omega]
  rw [hmask, meanPool_append_zeros List.length_replicate.symm]

/-- **Padding is not pooled.**  Rows whose mask is 0 can be added to an input and change nothing;
inputs that agree where the mask is not 0 pool to the same vector; and a text pools to the same
vector in every bucket that fits it, whatever the graph says of the padding. -/
theorem padding_not_pooled (A : Arithmetic F) :
    (∀ (tokens : List (TokenRow F × Int)) (further : List (TokenRow F)),
      meanPool A (flat (tokens.map Prod.fst ++ further))
          (tokens.map Prod.snd ++ List.replicate further.length 0) =
        meanPool A (flat (tokens.map Prod.fst)) (tokens.map Prod.snd)) ∧
    (∀ (mask : List Int) (rows rows' : List (TokenRow F)), AgreeOn mask rows rows' →
      meanPool A (flat rows) mask = meanPool A (flat rows') mask) ∧
    ∀ (hidden padding padding' : List (TokenRow F)) (bucket bucket' : Nat),
      hidden.length + padding.length = bucket → hidden.length + padding'.length = bucket' →
      meanPool A (flat (hidden ++ padding)) (maskOf bucket hidden.length) =
        meanPool A (flat (hidden ++ padding')) (maskOf bucket' hidden.length) := by
  refine ⟨fun tokens further => ?_, fun mask rows rows' hagree => ?_,
    fun hidden padding padding' bucket bucket' hfits hfits' => ?_⟩
  · exact meanPool_append_zeros (by simp) further
  · apply meanPool_congr
    intro i keep hmask hkeep
    rw [asChunks_flat, asChunks_flat, List.getElem?_map, List.getElem?_map,
      hagree i keep hmask hkeep]
  · rw [meanPool_bucket hfits, meanPool_bucket hfits']

end Padding

/-- A token whose values are all the same. -/
def constantRow (q : ℚ) : TokenRow ℚ := ⟨List.replicate DIMENSIONS q, List.length_replicate⟩

/-- One token in the two smallest buckets, over padding that the graph gives different values;
and two tokens with one between them that is masked. -/
theorem one_token_in_two_buckets :
    meanPool .exact (flat ([constantRow 5] ++ List.replicate 15 (constantRow 1))) (maskOf 16 1) =
        meanPool .exact (flat ([constantRow 5] ++ List.replicate 31 (constantRow 2)))
          (maskOf 32 1) ∧
      meanPool .exact (flat [constantRow 5, constantRow 1, constantRow 7]) [1, 0, 1] =
        meanPool .exact (flat [constantRow 5, constantRow 2, constantRow 7]) [1, 0, 1] := by
  obtain ⟨-, hagree, hbuckets⟩ := padding_not_pooled Arithmetic.exact
  refine ⟨hbuckets [constantRow 5] _ _ 16 32 (by simp) (by simp), hagree _ _ _ ?_⟩
  intro i keep hmask hkeep
  match i with
  | 0 | 2 => rfl
  | 1 => exact absurd (Option.some.inj hmask).symm hkeep
  | i + 3 => cases hmask

/-! ## The embedder -/

/-- The embedding model: how it splits text, what a text is to the graph, and what the graph
compiled for a length answers to ids, a mask and token types. -/
structure Model (F : Type) extends Embedder where
  special : Text → Except Text (List UInt32)
  plan : Nat → List Int → List Int → List Int → Except Text (List F)

/-- The smallest bucket that fits, or the largest. -/
def bucketOf (real : Nat) : Nat :=
  (BUCKETS.find? fun candidate => candidate ≥ real).getD TOKEN_LIMIT

/-- The ids, padded to the bucket. -/
def padded (bucket : Nat) (ids : List UInt32) : List Int :=
  (ids.take bucket).map (fun id => (id.toNat : Int)) ++
    List.replicate (bucket - ids.length) PAD_TOKEN

/-- One forward pass, mean-pooled over the attention mask. -/
def Model.pooled {F : Type} (A : Arithmetic F) (M : Model F) (text : Text) :
    Except EmbedError (List F) := do
  let ids ← (M.special text).mapError .tokenizer
  let real := ids.length
  let bucket := bucketOf real
  let mask := maskOf bucket real
  let values ← (M.plan bucket (padded bucket ids) mask (List.replicate bucket 0)).mapError
    .inference
  return meanPool A values mask

/-- Scale a vector to length one. -/
def normalise (vector : List Float32) : List Float32 :=
  let norm := (vector.foldl (fun sum value => sum + value * value) 0).sqrt
  if 0 < norm then vector.map (· / norm) else vector

variable (M M' : Model Float32)

/-- One forward pass, mean-pooled and L2-normalised. -/
def Model.run (text : Text) : Except EmbedError (List Float32) := do
  let pooled ← M.pooled .single text
  return normalise pooled

/-- Embed stored text, one vector per chunk. -/
def Model.embedPassage (text : Text) : Except EmbedError (List (List Float32)) := do
  let chunks ← M.chunks text
  chunks.mapM fun chunk => M.run (PASSAGE_PREFIX ++ chunk)

/-- Embed a query, which is never chunked. -/
def Model.embedQuery (text : Text) : Except EmbedError (List Float32) :=
  M.run (QUERY_PREFIX ++ text)

/-- Two models that split text alike, and whose graphs answer alike wherever the mask is not 0. -/
structure Model.Alike {F : Type} (M M' : Model F) : Prop where
  embedder : M.toEmbedder = M'.toEmbedder
  special : M.special = M'.special
  error : ∀ bucket ids mask types e,
    M.plan bucket ids mask types = .error e ↔ M'.plan bucket ids mask types = .error e
  values : ∀ bucket ids mask types values values', M.plan bucket ids mask types = .ok values →
    M'.plan bucket ids mask types = .ok values' →
    AgreeOn mask (asChunks DIMENSIONS values) (asChunks DIMENSIONS values')

variable {M M'}

theorem Model.Alike.pooled {F : Type} {A : Arithmetic F} {M M' : Model F} (h : M.Alike M')
    (text : Text) : M.pooled A text = M'.pooled A text := by
  unfold Model.pooled
  rw [h.special]
  cases M'.special text with
  | error e => rfl
  | ok ids =>
    simp only [Except.mapError, bind, Except.bind]
    generalize hbucket : bucketOf ids.length = bucket
    have herror := h.error bucket (padded bucket ids) (maskOf bucket ids.length)
      (List.replicate bucket 0)
    have hvalues := h.values bucket (padded bucket ids) (maskOf bucket ids.length)
      (List.replicate bucket 0)
    cases hplan : M.plan bucket (padded bucket ids) (maskOf bucket ids.length)
        (List.replicate bucket 0) with
    | error e => rw [(herror e).1 hplan]
    | ok values =>
      cases hplan' : M'.plan bucket (padded bucket ids) (maskOf bucket ids.length)
          (List.replicate bucket 0) with
      | error e =>
        rw [(herror e).2 hplan'] at hplan
        cases hplan
      | ok values' =>
        exact congrArg Except.ok (meanPool_congr (hvalues values values' hplan hplan'))

theorem Model.Alike.run (h : M.Alike M') (text : Text) : M.run text = M'.run text := by
  unfold Model.run
  rw [h.pooled]

/-- **What a graph says of the padding never reaches an embedding.** -/
theorem embeddings_ignore_padding (h : M.Alike M') (text : Text) :
    M.embedPassage text = M'.embedPassage text ∧ M.embedQuery text = M'.embedQuery text := by
  refine ⟨?_, h.run _⟩
  have hrun : (fun chunk => M.run (PASSAGE_PREFIX ++ chunk)) =
      fun chunk => M'.run (PASSAGE_PREFIX ++ chunk) := funext fun chunk => h.run _
  unfold Model.embedPassage
  rw [h.embedder, hrun]

end EuleDB.Embed
