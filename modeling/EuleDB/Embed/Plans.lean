import EuleDB.Embed.Pooling
import EuleDB.Lib.Interleave
import EuleDB.Lib.Memo
import EuleDB.Store.LanceStore

/-!
# The plans of an embedder

The graph is compiled for a bucket when a text first needs it, from the file as it is then, and the
plan is kept.  Any number of callers share the plans.

* `Files.plan`, `run` — a pass with the plan from the cache.
* `Stage`, `Files.advance` — a caller's request, one pass at a time: a pass looks at the plans once,
  under their lock.  `Files.runs_alone` — alone it is `embedPassage` or `embedQuery`.
* `answers_are_of_one_model` — in any order of the passes, and however the file is changed in
  between, what one embedder answers it answers as one model: a plan for each bucket.
* `plans_make_no_difference` — where the file is not changed, the cache makes no difference.
* `run_length` — every vector has `DIMENSIONS` components, which is what a companion table holds.
-/

set_option autoImplicit false

namespace EuleDB.Embed

open Crypto Effect Cache Interleave

/-! ## The embedder -/

/-- A graph compiled for one bucket: what it answers to ids, a mask and token types. -/
abbrev Plan := List Int → List Int → List Int → Except Text (List Float32)

/-- What an embedder is loaded from: the vocabulary, and the file of the graph, which it compiles
for a length as the file is when it does so for the `time`-th time. -/
structure Files extends Embedder where
  special : Text → Except Text (List UInt32)
  compile : (time : Nat) → (length : Nat) → Except Text Plan

/-- One compiled plan per bucket. -/
abbrev Plans := Memo Nat Plan

abbrev PlanM := EStateM EmbedError Plans

/-- One vector for a query, one per chunk for stored text. -/
inductive Request where
  | passage (text : Text)
  | query (text : Text)

/-- How far a request has come. -/
inductive Stage where
  | asked (request : Request)
  | embedding (todo : List Text) (vectors : List (List Float32))
  | finished (vectors : List (List Float32))
  | failed (e : EmbedError)

namespace Files

variable (E : Files)

/-- The compiled plan for a bucket, building it on first use. -/
def plan (length : Nat) : PlanM Plan :=
  fetch (fun time length => (E.compile time length).mapError .inference) length

/-- One forward pass, mean-pooled and L2-normalised. -/
def run (text : Text) : PlanM (List Float32) := do
  let ids ← ofExcept ((E.special text).mapError .tokenizer)
  let real := ids.length
  let bucket := bucketOf real
  let mask := maskOf bucket real
  let plan ← E.plan bucket
  let values ← ofExcept
    ((plan (padded bucket ids) mask (List.replicate bucket 0)).mapError .inference)
  pure (normalise (meanPool .single values mask))

/-- Embed stored text, one vector per chunk. -/
def embedPassage (text : Text) : PlanM (List (List Float32)) := do
  let chunks ← ofExcept (E.chunks text)
  chunks.mapM fun chunk => E.run (PASSAGE_PREFIX ++ chunk)

/-- Embed a query, which is never chunked. -/
def embedQuery (text : Text) : PlanM (List Float32) := E.run (QUERY_PREFIX ++ text)

/-- What a request does next: its chunks are split off, and then embedded one at a time. -/
def advance : Stage → PlanM Stage
  | .asked (.passage text) => do
    let chunks ← ofExcept (E.chunks text)
    pure (.embedding chunks [])
  | .asked (.query text) => do
    let vector ← E.run (QUERY_PREFIX ++ text)
    pure (.finished [vector])
  | .embedding [] vectors => pure (.finished vectors)
  | .embedding (chunk :: todo) vectors => do
    let vector ← E.run (PASSAGE_PREFIX ++ chunk)
    pure (.embedding todo (vectors ++ [vector]))
  | .finished vectors => pure (.finished vectors)
  | .failed e => throw e

/-- The model whose plans are those of the cache. -/
def model (plans : Plans) : Model Float32 where
  toEmbedder := E.toEmbedder
  special := E.special
  plan := fun bucket => (plans.built[bucket]?).getD fun _ _ _ => .error []

/-- The model that compiles the graph for every text, the `time`-th time. -/
def freshModel (time : Nat) : Model Float32 where
  toEmbedder := E.toEmbedder
  special := E.special
  plan := fun bucket ids mask types => do
    let plan ← E.compile time bucket
    plan ids mask types

end Files

/-- What a model answers to a request. -/
def Model.answer (M : Model Float32) : Request → Except EmbedError (List (List Float32))
  | .passage text => M.embedPassage text
  | .query text => do
    let vector ← M.embedQuery text
    pure [vector]

/-- What is still to be done of a request. -/
def Files.remaining (E : Files) : Stage → PlanM (List (List Float32))
  | .asked (.passage text) => E.embedPassage text
  | .asked (.query text) => do
    let vector ← E.embedQuery text
    pure [vector]
  | .embedding todo vectors => do
    let rest ← todo.mapM fun chunk => E.run (PASSAGE_PREFIX ++ chunk)
    pure (vectors ++ rest)
  | .finished vectors => pure vectors
  | .failed e => throw e

/-! ## One pass -/

section Pass

variable {E : Files} {plans plans' : Plans} {text : Text} {vector : List Float32}

/-- A pass leaves the plans that are there. -/
theorem Files.run_within (E : Files) (text : Text) : Keeps Memo.Within (E.run text) := by
  refine Keeps.bind (Keeps.ofExcept _) fun ids => ?_
  dsimp only
  refine Keeps.bind (fetch_within _ _) fun plan => ?_
  exact Keeps.bind (Keeps.ofExcept _) fun values => Keeps.pure _

/-- What is handed to a plan, and what is made of its answer. -/
def pass (plan : Plan) (ids : List UInt32) : Except EmbedError (List Float32) :=
  let bucket := bucketOf ids.length
  let mask := maskOf bucket ids.length
  match plan (padded bucket ids) mask (List.replicate bucket 0) with
  | .ok values => .ok (normalise (meanPool .single values mask))
  | .error cause => .error (.inference cause)

theorem Model.run_eq (M : Model Float32) (text : Text) :
    M.run text = match M.special text with
      | .ok ids => pass (M.plan (bucketOf ids.length)) ids
      | .error cause => .error (.tokenizer cause) := by
  unfold Model.run Model.pooled pass
  cases M.special text with
  | error e => rfl
  | ok ids =>
    dsimp only [Except.mapError, bind, Except.bind]
    cases M.plan (bucketOf ids.length) (padded (bucketOf ids.length) ids)
      (maskOf (bucketOf ids.length) ids.length) (List.replicate (bucketOf ids.length) 0) <;> rfl

theorem Files.run_eq (E : Files) (text : Text) (plans : Plans) :
    (E.run text).run plans = match E.special text with
      | .ok ids => (E.plan (bucketOf ids.length) >>= fun plan => ofExcept (pass plan ids)).run plans
      | .error cause => .error (.tokenizer cause) plans := by
  unfold Files.run pass
  cases E.special text with
  | error e => rfl
  | ok ids =>
    dsimp only [Except.mapError]
    rw [EStateM.run_bind, run_ofExcept_ok]
    dsimp only
    rw [EStateM.run_bind, EStateM.run_bind]
    cases (E.plan (bucketOf ids.length)).run plans with
    | error e plans' => rfl
    | ok plan plans' =>
      dsimp only
      cases plan (padded (bucketOf ids.length) ids) (maskOf (bucketOf ids.length) ids.length)
        (List.replicate (bucketOf ids.length) 0) <;> rfl

/-- The model of a cache has the plans that are in it. -/
theorem Files.model_plan {length : Nat} {plan : Plan} (h : plans.built[length]? = some plan) :
    (E.model plans).plan length = plan := by
  unfold Files.model
  dsimp only
  rw [h]
  rfl

/-- **A pass that succeeds answers as the model of the plans it leaves.** -/
theorem Files.run_ok (h : (E.run text).run plans = .ok vector plans') :
    (E.model plans').run text = .ok vector := by
  rw [Files.run_eq] at h
  rw [Model.run_eq, show (E.model plans').special = E.special from rfl]
  cases hids : E.special text with
  | error e =>
    rw [hids] at h
    cases h
  | ok ids =>
    rw [hids] at h
    obtain ⟨plan, plans1, hplan, hrest⟩ := bind_ok.1 h
    obtain ⟨hpass, rfl⟩ := ofExcept_ok.1 hrest
    dsimp only
    rw [Files.model_plan (fetch_returns hplan)]
    exact hpass

/-- A bucket without a plan gives no vector. -/
theorem Files.model_unplanned {ids : List UInt32}
    (h : plans.built[bucketOf ids.length]? = none) :
    pass ((E.model plans).plan (bucketOf ids.length)) ids = .error (.inference []) := by
  unfold Files.model pass
  dsimp only
  rw [h]
  rfl

/-- More plans answer what fewer did. -/
theorem Files.model_within (h : plans.Within plans')
    (hrun : (E.model plans).run text = .ok vector) :
    (E.model plans').run text = .ok vector := by
  rw [Model.run_eq, show (E.model plans).special = E.special from rfl] at hrun
  rw [Model.run_eq, show (E.model plans').special = E.special from rfl]
  cases hids : E.special text with
  | error e =>
    rw [hids] at hrun
    cases hrun
  | ok ids =>
    rw [hids] at hrun
    dsimp only at hrun ⊢
    cases hplan : plans.built[bucketOf ids.length]? with
    | none =>
      rw [Files.model_unplanned hplan] at hrun
      cases hrun
    | some plan =>
      rw [Files.model_plan hplan] at hrun
      rw [Files.model_plan (h _ _ hplan)]
      exact hrun

/-- Every plan in the cache is one that the graph once compiled to. -/
def Files.Compiled (E : Files) (plans : Plans) : Prop :=
  plans.Holds fun length plan => ∃ time, E.compile time length = .ok plan

/-- **A pass keeps to plans that the graph compiled to.** -/
theorem Files.run_compiled (h : E.Compiled plans) (text : Text) :
    E.Compiled (final ((E.run text).run plans)) := by
  rw [Files.run_eq]
  cases E.special text with
  | error e => exact h
  | ok ids =>
    have hbuild : ∀ time length plan,
        (E.compile time length).mapError EmbedError.inference = .ok plan →
          ∃ time, E.compile time length = .ok plan := by
      intro time length plan hplan
      cases hcompile : E.compile time length with
      | error e =>
        rw [hcompile] at hplan
        cases hplan
      | ok plan' =>
        rw [hcompile] at hplan
        cases hplan
        exact ⟨time, hcompile⟩
    have hkept := fetch_holds hbuild h (bucketOf ids.length)
    dsimp only
    rw [EStateM.run_bind]
    unfold Files.plan
    cases hrun : (fetch (fun time length => (E.compile time length).mapError EmbedError.inference)
        (bucketOf ids.length)).run plans with
    | error e plans1 =>
      rw [hrun] at hkept
      exact hkept
    | ok plan plans1 =>
      rw [hrun] at hkept
      dsimp only
      cases pass plan ids <;> exact hkept

/-- **A pass answers as the graph compiled afresh**, where the file compiles alike every time. -/
theorem Files.run_fresh (hsame : ∀ time, E.compile time = E.compile 0) (h : E.Compiled plans)
    (text : Text) : answer ((E.run text).run plans) = (E.freshModel 0).run text := by
  rw [Files.run_eq, Model.run_eq, show (E.freshModel 0).special = E.special from rfl]
  cases E.special text with
  | error e => rfl
  | ok ids =>
    have hplan : answer ((E.plan (bucketOf ids.length)).run plans) =
        (E.compile 0 (bucketOf ids.length)).mapError EmbedError.inference := by
      refine fetch_answer (f := fun length => (E.compile 0 length).mapError EmbedError.inference)
        (fun time => by rw [hsame time]) (fun length plan hkept => ?_) _
      obtain ⟨time, hcompile⟩ := h length plan hkept
      rw [hsame time] at hcompile
      rw [hcompile]
      rfl
    dsimp only
    rw [EStateM.run_bind]
    cases hrun : (E.plan (bucketOf ids.length)).run plans with
    | error e plans1 =>
      rw [hrun] at hplan
      unfold Files.freshModel pass
      dsimp only [bind, Except.bind]
      cases hcompile : E.compile 0 (bucketOf ids.length) with
      | error cause =>
        rw [hcompile] at hplan
        cases hplan
        rfl
      | ok plan =>
        rw [hcompile] at hplan
        cases hplan
    | ok plan plans1 =>
      rw [hrun] at hplan
      have hfresh : (E.freshModel 0).plan (bucketOf ids.length) = plan := by
        unfold Files.freshModel
        dsimp only [bind, Except.bind]
        cases hcompile : E.compile 0 (bucketOf ids.length) with
        | error cause =>
          rw [hcompile] at hplan
          cases hplan
        | ok plan' =>
          rw [hcompile] at hplan
          cases hplan
          rfl
      rw [hfresh]
      dsimp only
      cases pass plan ids <;> rfl

end Pass

/-! ## Requests side by side -/

/-- How far a request has come, as the model `M` answers: what is finished is its answer, what is
embedded are its vectors so far, and where `exact` holds what failed is its error. -/
def Stage.Agrees (M : Model Float32) (exact : Prop) (request : Request) : Stage → Prop
  | .asked given => given = request
  | .embedding todo vectors => ∃ text before, request = .passage text ∧
      M.chunks text = .ok (before ++ todo) ∧
      before.mapM (fun chunk => M.run (PASSAGE_PREFIX ++ chunk)) = .ok vectors
  | .finished vectors => M.answer request = .ok vectors
  | .failed e => exact → M.answer request = .error e

/-- The text that is passed through the graph next. -/
def Stage.next : Stage → Option Text
  | .asked (.query text) => some (QUERY_PREFIX ++ text)
  | .embedding (chunk :: _) _ => some (PASSAGE_PREFIX ++ chunk)
  | _ => none

section Requests

variable {E : Files} {M : Model Float32} {exact : Prop} {request : Request} {stage : Stage}
  {plans : Plans}

/-- A part of a request changes the plans as its pass does. -/
theorem Files.advance_final (E : Files) (stage : Stage) (plans : Plans) :
    final ((E.advance stage).run plans) =
      match stage.next with
      | some text => final ((E.run text).run plans)
      | none => plans := by
  cases stage with
  | asked request =>
    cases request with
    | passage text =>
      unfold Files.advance
      rw [final_bind_pure]
      cases E.chunks text <;> rfl
    | query text => exact final_bind_pure _ _ _
  | embedding todo vectors =>
    cases todo with
    | nil => rfl
    | cons chunk todo => exact final_bind_pure _ _ _
  | finished vectors => rfl
  | failed e => rfl

/-- **A part of a request keeps to the model**, where its pass does. -/
theorem Stage.Agrees.advance (h : stage.Agrees M exact request)
    (hM : M.toEmbedder = E.toEmbedder)
    (hpass : ∀ text, stage.next = some text →
      (∀ vector plans', (E.run text).run plans = .ok vector plans' → M.run text = .ok vector) ∧
        ∀ e plans', (E.run text).run plans = .error e plans' → exact → M.run text = .error e) :
    (advanceOne E.advance .failed stage plans).1.Agrees M exact request := by
  unfold advanceOne
  cases stage with
  | asked given =>
    cases h
    cases request with
    | passage text =>
      unfold Files.advance
      dsimp only
      cases hchunks : E.chunks text with
      | error e =>
        show exact → M.embedPassage text = .error e
        intro _
        unfold Model.embedPassage
        rw [hM, hchunks]
        rfl
      | ok chunks =>
        refine ⟨text, [], rfl, ?_, rfl⟩
        rw [hM]
        exact hchunks
    | query text =>
      obtain ⟨hok, herror⟩ := hpass _ rfl
      unfold Files.advance
      rw [EStateM.run_bind]
      cases hrun : (E.run (QUERY_PREFIX ++ text)).run plans with
      | error e plans' =>
        show exact → (do let vector ← M.run (QUERY_PREFIX ++ text); pure [vector]) = .error e
        intro hexact
        rw [herror e plans' hrun hexact]
        rfl
      | ok vector plans' =>
        show (do let vector ← M.run (QUERY_PREFIX ++ text); pure [vector]) = .ok [vector]
        rw [hok vector plans' hrun]
        rfl
  | embedding todo vectors =>
    obtain ⟨text, before, rfl, hchunks, hvectors⟩ := h
    cases todo with
    | nil =>
      show M.embedPassage text = .ok vectors
      unfold Model.embedPassage
      rw [hchunks, List.append_nil]
      exact hvectors
    | cons chunk todo =>
      obtain ⟨hok, herror⟩ := hpass _ rfl
      unfold Files.advance
      rw [EStateM.run_bind]
      cases hrun : (E.run (PASSAGE_PREFIX ++ chunk)).run plans with
      | error e plans' =>
        show exact → M.embedPassage text = .error e
        intro hexact
        unfold Model.embedPassage
        rw [hchunks]
        dsimp only [bind, Except.bind]
        rw [mapM_stops hvectors (herror e plans' hrun hexact)]
      | ok vector plans' =>
        refine ⟨text, before ++ [chunk], rfl, ?_, ?_⟩
        · rw [hchunks, List.append_assoc]
          rfl
        · exact mapM_concat hvectors (hok vector plans' hrun)
  | finished vectors => exact h
  | failed e => exact h

theorem Files.mapM_within {plans' : Plans} (h : plans.Within plans') {chunks : List Text}
    {vectors : List (List Float32)}
    (hrun : chunks.mapM (fun chunk => (E.model plans).run (PASSAGE_PREFIX ++ chunk)) =
      .ok vectors) :
    chunks.mapM (fun chunk => (E.model plans').run (PASSAGE_PREFIX ++ chunk)) = .ok vectors :=
  mapM_mono (fun _ _ hchunk => Files.model_within h hchunk) hrun

theorem Files.answer_within {plans' : Plans} (h : plans.Within plans')
    {vectors : List (List Float32)} (hanswer : (E.model plans).answer request = .ok vectors) :
    (E.model plans').answer request = .ok vectors := by
  have hchunks : ∀ text, (E.model plans').chunks text = (E.model plans).chunks text :=
    fun _ => rfl
  cases request with
  | passage text =>
    obtain ⟨chunks, hsplit, hrun⟩ := except_bind_ok.1 hanswer
    rw [← hchunks] at hsplit
    exact except_bind_ok.2 ⟨chunks, hsplit, Files.mapM_within h hrun⟩
  | query text =>
    obtain ⟨vector, hrun, hvectors⟩ := except_bind_ok.1 hanswer
    exact except_bind_ok.2 ⟨vector, Files.model_within h hrun, hvectors⟩

/-- More plans do not take a request back. -/
theorem Stage.Agrees.within {plans' : Plans} (h : stage.Agrees (E.model plans) False request)
    (hwithin : plans.Within plans') : stage.Agrees (E.model plans') False request := by
  cases stage with
  | asked given => exact h
  | embedding todo vectors =>
    obtain ⟨text, before, hrequest, hchunks, hvectors⟩ := h
    exact ⟨text, before, hrequest, hchunks, Files.mapM_within hwithin hvectors⟩
  | finished vectors => exact Files.answer_within hwithin h
  | failed e => exact fun hfalse => hfalse.elim

end Requests

/-! ## A request alone -/

theorem Files.remaining_embedding (E : Files) (todo : List Text)
    (vectors : List (List Float32)) :
    E.remaining (.embedding todo vectors) =
      (todo.mapM fun chunk => E.run (PASSAGE_PREFIX ++ chunk)) >>= fun rest =>
        pure (vectors ++ rest) := rfl

/-- The first part of what is still to be done. -/
theorem Files.remaining_advance (E : Files) (stage : Stage) :
    E.remaining stage = E.advance stage >>= E.remaining := by
  cases stage with
  | asked request =>
    cases request with
    | passage text =>
      unfold Files.advance
      rw [bind_assoc]
      show E.embedPassage text = _
      unfold Files.embedPassage
      refine bind_congr fun chunks => ?_
      rw [pure_bind, Files.remaining_embedding]
      simp only [List.nil_append, bind_pure]
    | query text =>
      unfold Files.advance
      rw [bind_assoc]
      exact bind_congr fun vector => (pure_bind _ _).symm
  | embedding todo vectors =>
    cases todo with
    | nil =>
      unfold Files.advance
      rw [pure_bind, Files.remaining_embedding, List.mapM_nil, pure_bind, List.append_nil]
      rfl
    | cons chunk todo =>
      unfold Files.advance
      rw [Files.remaining_embedding, List.mapM_cons, bind_assoc, bind_assoc]
      refine bind_congr fun vector => ?_
      rw [pure_bind, Files.remaining_embedding]
      simp only [bind_assoc, pure_bind, List.append_assoc, List.singleton_append]
  | finished vectors => rfl
  | failed e => rfl

/-- **A request that nothing comes between** does what the embedder's own function does. -/
theorem Files.runs_alone {E : Files} {stage stage' : Stage} {plans plans' : Plans}
    (halone : Alone E.advance .failed (stage, plans) (stage', plans')) :
    (E.remaining stage).run plans = (E.remaining stage').run plans' :=
  @Alone.remaining _ _ _ _ E.advance .failed E.remaining (fun _ _ => True)
    (fun stage s _ => congrArg (EStateM.run · s) (E.remaining_advance stage))
    (fun _ _ _ _ _ _ => trivial) (fun _ _ => ⟨trivial, rfl⟩) _ _ halone trivial

/-! ## Vectors -/

section Widths

variable {F : Type} {A : Arithmetic F}

/-- The pooling gives as many numbers as a row has. -/
theorem meanPool_length (values : List F) (mask : List Int) :
    (meanPool A values mask).length = DIMENSIONS := by
  have hfold : ∀ (rows : List (List F)) (pool : Pool F), pool.summed.length = DIMENSIONS →
      (∀ row ∈ rows, row.length = DIMENSIONS) →
      (rows.foldl (Pool.add A) pool).summed.length = DIMENSIONS := by
    intro rows
    induction rows with
    | nil => exact fun pool hpool _ => hpool
    | cons row rows ih =>
      intro pool hpool hrows
      refine ih _ ?_ fun row' hrow' => hrows row' (List.mem_cons_of_mem _ hrow')
      unfold Pool.add
      rw [List.length_zipWith, hpool, hrows row List.mem_cons_self, Nat.min_self]
  rw [meanPool_eq]
  have hsummed := hfold (kept (asChunks DIMENSIONS values) mask) (Pool.empty A)
    List.length_replicate (by
      intro row hrow
      unfold kept at hrow
      obtain ⟨token, htoken, rfl⟩ := List.mem_map.1 hrow
      have hmem := (List.of_mem_zip (List.mem_filter.1 htoken).1).1
      exact of_decide_eq_true (List.mem_filter.1 hmem).2)
  unfold Pool.average
  split_ifs
  · rw [List.length_map, hsummed]
  · exact hsummed

theorem normalise_length (vector : List Float32) :
    (normalise vector).length = vector.length := by
  unfold normalise
  dsimp only
  split_ifs
  · rw [List.length_map]
  · rfl

/-- **Every vector has as many components as the storage layer stores.** -/
theorem Model.run_length {M : Model Float32} {text : Text} {vector : List Float32}
    (h : M.run text = .ok vector) : vector.length = Store.VECTOR_WIDTH := by
  obtain ⟨pooled, hpooled, hvector⟩ := except_bind_ok.1 h
  obtain ⟨ids, -, hvalues⟩ := except_bind_ok.1 hpooled
  obtain ⟨values, -, hmean⟩ := except_bind_ok.1 hvalues
  cases hvector
  cases hmean
  rw [normalise_length, meanPool_length]
  rfl

theorem Model.answer_width {M : Model Float32} {request : Request} {vectors : List (List Float32)}
    (h : M.answer request = .ok vectors) :
    ∀ vector ∈ vectors, vector.length = Store.VECTOR_WIDTH := by
  intro vector hvector
  cases request with
  | passage text =>
    obtain ⟨chunks, -, hchunks⟩ := except_bind_ok.1 h
    obtain ⟨chunk, -, hrun⟩ := mapM_ok hchunks vector hvector
    exact Model.run_length hrun
  | query text =>
    obtain ⟨found, hrun, hvectors⟩ := except_bind_ok.1 h
    cases hvectors
    rw [List.mem_singleton.1 hvector]
    exact Model.run_length hrun

end Widths

/-! ## Turns -/

/-- How many parts a request still has at most. -/
def Files.turns (E : Files) : Stage → Nat
  | .asked (.passage text) =>
    match E.chunks text with
    | .ok chunks => chunks.length + 2
    | .error _ => 1
  | .asked (.query _) => 1
  | .embedding todo _ => todo.length + 1
  | .finished _ => 0
  | .failed _ => 0

section Turns

variable {ι : Type} [DecidableEq ι] {E : Files} {stage : Stage}

/-- Every part of a request is one fewer to come. -/
theorem Files.turns_advance (E : Files) (stage : Stage) (plans : Plans) :
    E.turns (advanceOne E.advance .failed stage plans).1 ≤ E.turns stage - 1 := by
  unfold advanceOne
  cases stage with
  | asked request =>
    cases request with
    | passage text =>
      unfold Files.advance Files.turns
      dsimp only
      cases E.chunks text with
      | error e => exact Nat.zero_le _
      | ok chunks => exact Nat.le_refl _
    | query text =>
      unfold Files.advance
      rw [EStateM.run_bind]
      cases (E.run (QUERY_PREFIX ++ text)).run plans <;> exact Nat.zero_le _
  | embedding todo vectors =>
    cases todo with
    | nil => exact Nat.zero_le _
    | cons chunk todo =>
      unfold Files.advance
      rw [EStateM.run_bind]
      cases (E.run (PASSAGE_PREFIX ++ chunk)).run plans with
      | error e plans' => exact Nat.zero_le _
      | ok vector plans' => exact Nat.le_refl _
  | finished vectors => exact Nat.zero_le _
  | failed e => exact Nat.zero_le _

/-- The parts of a request that are run are not to come. -/
theorem Files.turns_run (s : Threads Plans ι Stage) (schedule : List ι) (i : ι) :
    E.turns ((s.run (fun _ => E.advance) .failed schedule).stage i) ≤
      E.turns (s.stage i) - schedule.count i := by
  induction schedule generalizing s with
  | nil => exact Nat.le_refl _
  | cons j schedule ih =>
    have hrest := ih (s.step (fun _ => E.advance) .failed j)
    refine hrest.trans ?_
    unfold Threads.step
    dsimp only
    by_cases hj : j = i
    · subst hj
      rw [Function.update_self, List.count_cons_self]
      have hone := E.turns_advance (s.stage j) s.shared
      omega
    · rw [Function.update_of_ne (Ne.symm hj), List.count_cons_of_ne hj]

/-- A request with no part left has an answer. -/
def Stage.Answered : Stage → Prop
  | .finished _ => True
  | .failed _ => True
  | _ => False

theorem Files.answered (h : E.turns stage = 0) : stage.Answered := by
  cases stage with
  | asked request =>
    cases request with
    | passage text =>
      unfold Files.turns at h
      dsimp only at h
      cases hchunks : E.chunks text with
      | error e =>
        rw [hchunks] at h
        cases h
      | ok chunks =>
        rw [hchunks] at h
        cases h
    | query text => cases h
  | embedding todo vectors => cases h
  | finished vectors => trivial
  | failed e => trivial

end Turns

/-! ## Any order of the passes -/

section Runs

variable {ι : Type} [DecidableEq ι] {E : Files}

/-- Requests that nothing has been done for yet, and no plan. -/
def asking (requests : ι → Request) : Threads Plans ι Stage :=
  ⟨.empty, fun i => .asked (requests i)⟩

/-- Parts of the requests, in the order of a schedule. -/
def Files.serve (E : Files) (requests : ι → Request) (schedule : List ι) : Threads Plans ι Stage :=
  (asking requests).run (fun _ => E.advance) .failed schedule

/-- One part of one request, as the stages and the plans are before and after. -/
theorem Files.step_shared (s : Threads Plans ι Stage) (i : ι) :
    (s.step (fun _ => E.advance) .failed i).shared =
      match (s.stage i).next with
      | some text => final ((E.run text).run s.shared)
      | none => s.shared := by
  rw [← E.advance_final]
  unfold Threads.step advanceOne
  cases (E.advance (s.stage i)).run s.shared <;> rfl

theorem Files.step_within (s : Threads Plans ι Stage) (i : ι) :
    s.shared.Within (s.step (fun _ => E.advance) .failed i).shared := by
  rw [Files.step_shared]
  cases (s.stage i).next with
  | none => exact Std.Refl.refl _
  | some text => exact E.run_within text s.shared

theorem Files.step_compiled {s : Threads Plans ι Stage} (h : E.Compiled s.shared) (i : ι) :
    E.Compiled (s.step (fun _ => E.advance) .failed i).shared := by
  rw [Files.step_shared]
  cases (s.stage i).next with
  | none => exact h
  | some text => exact Files.run_compiled h text

/-- What holds of what there is and is kept by a part of any request holds after any schedule. -/
theorem Files.serve_invariant (E : Files) (requests : ι → Request)
    (I : Threads Plans ι Stage → Prop)
    (hstart : I (asking requests))
    (hstep : ∀ s i, I s → I (s.step (fun _ => E.advance) .failed i)) (schedule : List ι) :
    I (E.serve requests schedule) :=
  List.foldlRecOn schedule _ hstart fun s hs i _ => hstep s i hs

/-- A request that has had its turns has its answer. -/
theorem Files.answered_of_turns (E : Files) {requests : ι → Request} {schedule : List ι} {i : ι}
    (hturns : E.turns (.asked (requests i)) ≤ schedule.count i) :
    ((E.serve requests schedule).stage i).Answered := by
  have hrun := Files.turns_run (E := E) (asking requests) schedule i
  refine Files.answered (E := E) (Nat.le_zero.1 (hrun.trans ?_))
  exact (Nat.sub_eq_zero_of_le hturns).le

/-- A step of one request leaves what another one has come to. -/
theorem Files.step_other {s : Threads Plans ι Stage} {i j : ι} (h : j ≠ i) :
    (s.step (fun _ => E.advance) .failed i).stage j = s.stage j :=
  Function.update_of_ne h _ _

theorem Files.step_self (s : Threads Plans ι Stage) (i : ι) :
    (s.step (fun _ => E.advance) .failed i).stage i =
      (advanceOne E.advance .failed (s.stage i) s.shared).1 :=
  Function.update_self _ _ _

/-- After a part of any request, what was answered is what the plans there are give. -/
theorem Files.step_agrees {requests : ι → Request} {s : Threads Plans ι Stage}
    (h : ∀ j, (s.stage j).Agrees (E.model s.shared) False (requests j)) (i j : ι) :
    ((s.step (fun _ => E.advance) .failed i).stage j).Agrees
      (E.model (s.step (fun _ => E.advance) .failed i).shared) False (requests j) := by
  have hkept := (h j).within (E.step_within s i)
  by_cases hj : j = i
  · subst hj
    rw [Files.step_self]
    refine hkept.advance rfl fun text htext => ⟨fun vector plans' hrun => ?_, ?_⟩
    · rw [Files.step_shared, htext]
      dsimp only
      rw [hrun]
      exact Files.run_ok hrun
    · exact fun e plans' _ hfalse => hfalse.elim
  · rw [Files.step_other hj]
    exact hkept

/-- The same for a model that compiles for every text, where the file compiles alike. -/
theorem Files.step_fresh (hsame : ∀ time, E.compile time = E.compile 0)
    {requests : ι → Request} {s : Threads Plans ι Stage} (hcompiled : E.Compiled s.shared)
    (h : ∀ j, (s.stage j).Agrees (E.freshModel 0) True (requests j)) (i j : ι) :
    ((s.step (fun _ => E.advance) .failed i).stage j).Agrees (E.freshModel 0) True
      (requests j) := by
  by_cases hj : j = i
  · subst hj
    rw [Files.step_self]
    refine (h j).advance rfl fun text _ => ?_
    have hfresh := Files.run_fresh hsame hcompiled text
    refine ⟨fun vector plans' hrun => ?_, fun e plans' hrun _ => ?_⟩
    · rw [← hfresh, hrun]
      rfl
    · rw [← hfresh, hrun]
      rfl
  · rw [Files.step_other hj]
    exact h j

/-- **What one embedder answers, it answers as one model.**  However the passes of any number of
requests come between one another and whatever the graph's file is at any time, the plans there are
in the end are those of a model that gives every vector that was answered.  Every plan is one that
the file compiled to, every vector has the width that a companion table holds, and a request that
has had its turns has its answer. -/
theorem answers_are_of_one_model (E : Files) (requests : ι → Request) (schedule : List ι) :
    E.Compiled (E.serve requests schedule).shared ∧
      ∀ i, (∀ vectors, (E.serve requests schedule).stage i = .finished vectors →
          (E.model (E.serve requests schedule).shared).answer (requests i) = .ok vectors ∧
            ∀ vector ∈ vectors, vector.length = Store.VECTOR_WIDTH) ∧
        (E.turns (.asked (requests i)) ≤ schedule.count i →
          ((E.serve requests schedule).stage i).Answered) := by
  obtain ⟨hcompiled, hagrees⟩ := E.serve_invariant requests
    (fun s => E.Compiled s.shared ∧ ∀ i, (s.stage i).Agrees (E.model s.shared) False (requests i))
    ⟨Memo.Holds.empty _, fun i => rfl⟩
    (fun s i hs => ⟨Files.step_compiled hs.1 i, Files.step_agrees hs.2 i⟩) schedule
  refine ⟨hcompiled, fun i => ⟨fun vectors hvectors => ?_, fun hturns => ?_⟩⟩
  · have hanswer := hagrees i
    rw [hvectors] at hanswer
    exact ⟨hanswer, Model.answer_width hanswer⟩
  · exact E.answered_of_turns hturns

/-! ## A file that is not changed -/

/-- **Where the file compiles alike every time, the cache makes no difference**: a request that has
had its turns has the answer that it has where the graph is compiled for every text, and none that
it does not have there. -/
theorem plans_make_no_difference (hsame : ∀ time, E.compile time = E.compile 0)
    (requests : ι → Request) (schedule : List ι) (i : ι)
    (hturns : E.turns (.asked (requests i)) ≤ schedule.count i) :
    (E.serve requests schedule).stage i =
      match (E.freshModel 0).answer (requests i) with
      | .ok vectors => .finished vectors
      | .error e => .failed e := by
  obtain ⟨-, hagrees⟩ := E.serve_invariant requests
    (fun s => E.Compiled s.shared ∧
      ∀ i, (s.stage i).Agrees (E.freshModel 0) True (requests i))
    ⟨Memo.Holds.empty _, fun i => rfl⟩
    (fun s i hs => ⟨Files.step_compiled hs.1 i, Files.step_fresh hsame hs.1 hs.2 i⟩) schedule
  have hanswered := E.answered_of_turns hturns
  have hanswer := hagrees i
  cases hstage : (E.serve requests schedule).stage i with
  | asked request =>
    rw [hstage] at hanswered
    exact hanswered.elim
  | embedding todo vectors =>
    rw [hstage] at hanswered
    exact hanswered.elim
  | finished vectors =>
    rw [hstage] at hanswer
    rw [show (E.freshModel 0).answer (requests i) = .ok vectors from hanswer]
  | failed e =>
    rw [hstage] at hanswer
    rw [show (E.freshModel 0).answer (requests i) = .error e from hanswer trivial]

/-- Characters as tokens, and a graph that answers ones. -/
def ones : Files where
  toEmbedder := characters
  special := fun text => .ok (text.map fun c => UInt32.ofNat c.toNat)
  compile := fun _ _ => .ok fun ids _ _ => .ok (List.replicate (ids.length * DIMENSIONS) 1)

/-- A stored text and a query. -/
def storedAndAsked : Bool → Request
  | false => .passage "Ebbe".toList
  | true => .query "Flut".toList

theorem storedAndAsked_answered : ∃ vector,
    (ones.serve storedAndAsked [false, true, false, false]).stage false = .finished [vector] ∧
      (ones.freshModel 0).answer (storedAndAsked false) = .ok [vector] := by
  have hanswer : ∃ vector,
      (ones.freshModel 0).answer (storedAndAsked false) = .ok [vector] := ⟨_, rfl⟩
  obtain ⟨vector, hvector⟩ := hanswer
  have hserved := plans_make_no_difference (E := ones) (fun _ => rfl) storedAndAsked
    [false, true, false, false] false (by decide)
  rw [hvector] at hserved
  exact ⟨vector, hserved, hvector⟩

end Runs

end EuleDB.Embed
