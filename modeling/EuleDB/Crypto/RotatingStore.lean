import EuleDB.Crypto.Failures
import EuleDB.Crypto.PartFailures

/-!
# A store whose keyring is rotated while it is in use

Handles are taken from a keyring at any time and go on being used after it is rotated or its
passphrase is changed, each under the keys it was given.  Uploads are under way meanwhile, and go on
after a call that failed.

* `KeyedStore.step` — one operation: on the keyring, on a handle or on an upload, failing or not.
  Beside the store that is encrypted stands the plain one.
* `KeyedStore.CompletesWhole` — the runs in which no upload is completed that has lost a block.
* `BlockFrame.Matches` — the invariant of the two: whatever the plain store holds the other holds
  sealed, under some key of the keyring.
* `BlockFrame.answer` — what a read through a handle answers: what the plain store holds, or that
  the handle does not know the key.
* `every_handle_answers` — after every such run, for every handle and every object.
-/

set_option autoImplicit false

namespace EuleDB.Crypto

open Slice Effect FrameFormat EncryptingObjectStore

variable {P : Platform}

/-! ## The store -/

/-- An upload under way, and the one that a plain store is given. -/
structure OpenUpload where
  sealing : SealingUpload
  plain : MapUpload
  /-- Whether all that it was given is sealed or pending. -/
  whole : Bool

/-- A keyring, the handles that were taken from it and their uploads, and what is stored. -/
structure KeyedStore where
  keyring : Keyring
  handles : List BlockFrame
  uploads : List (Option OpenUpload)
  trace : Trace
  stored : MapStore
  plain : MapStore

inductive KeyedOp where
  | keys (op : KeyringOp)
  /-- A handle is taken, from the keyring as it is then. -/
  | encrypted
  | store (handle : Nat) (op : StoreOp)
  | putMultipart (handle : Nat) (location : Path) (attributes : List (String × String))
  | putPart (upload : Nat) (data : Bytes)
  | complete (upload : Nat) (now : Nat)
  | abort (upload : Nat)

namespace KeyedStore

variable (P : Platform) (b : BlockSize)

/-- A new keyring and an empty store. -/
def new (k : Keyring) (t : Trace) : KeyedStore := ⟨k, [], [], t, .empty, .empty⟩

/-- An operation on the keyring changes it in place, also when it fails half way. -/
def keys (s : KeyedStore) (op : KeyringOp) : KeyedStore :=
  match (op.run P).run (s.keyring, s.trace) with
  | .ok _ (k, t) => { s with keyring := k, trace := t }
  | .error _ (k, t) => { s with keyring := k, trace := t }

/-- What is put, copied or deleted through a handle.  The plain store is given what reaches the
encrypted one. -/
def store (s : KeyedStore) (f : BlockFrame) (op : StoreOp) : KeyedStore :=
  let (e, t) := (⟨s.stored, f⟩ : EncryptingObjectStore).step P s.trace op
  { s with
    trace := t
    stored := e.inner
    plain := if op.reaches P f s.trace then s.plain.step op else s.plain }

def putMultipart (s : KeyedStore) (f : BlockFrame) (location : Path)
    (attributes : List (String × String)) : KeyedStore :=
  let e : EncryptingObjectStore := ⟨s.stored, f⟩
  { s with
    uploads := s.uploads ++ [some ⟨e.putMultipartOpts location attributes,
      ⟨location, attributes, []⟩, true⟩] }

/-- A part of the `i`-th upload.  What it takes off what is pending is gone when it fails. -/
def putPart (s : KeyedStore) (i : Nat) (u : OpenUpload) (data : Bytes) : KeyedStore :=
  match (SealingUpload.putPart P data).run (u.sealing, s.trace) with
  | .ok _ (sealing, t) =>
    { s with
      uploads := s.uploads.set i (some ⟨sealing, u.plain.putPart data, u.whole⟩)
      trace := t }
  | .error _ (sealing, t) =>
    { s with uploads := s.uploads.set i (some ⟨sealing, u.plain.putPart data, false⟩), trace := t }

/-- The end of the `i`-th upload.  When it fails, the header is gone unless it was sent before, and
so is what was pending. -/
def complete (s : KeyedStore) (i : Nat) (u : OpenUpload) (now : Nat) : KeyedStore :=
  match (SealingUpload.complete P now s.stored).run (u.sealing, s.trace) with
  | .ok (_, stored) (_, t) =>
    { s with
      uploads := s.uploads.set i none
      trace := t
      stored := stored
      plain := (s.plain.completeUpload now u.plain).2 }
  | .error _ (sealing, t) =>
    let whole := u.whole && u.sealing.headerSent && u.sealing.pending.isEmpty
    { s with uploads := s.uploads.set i (some ⟨sealing, u.plain, whole⟩), trace := t }

/-- One operation.  One that names no handle or no upload under way does nothing. -/
def step (s : KeyedStore) : KeyedOp → KeyedStore
  | .keys op => s.keys P op
  | .encrypted => { s with handles := s.handles ++ [s.keyring.frame b] }
  | .store handle op => (s.handles[handle]?).elim s fun f => s.store P f op
  | .putMultipart handle location attributes =>
    (s.handles[handle]?).elim s fun f => s.putMultipart f location attributes
  | .putPart upload data => (s.uploads[upload]?.join).elim s fun u => s.putPart P upload u data
  | .complete upload now => (s.uploads[upload]?.join).elim s fun u => s.complete P upload u now
  | .abort upload => { s with uploads := s.uploads.set upload none }

def run (s : KeyedStore) (ops : List KeyedOp) : KeyedStore := ops.foldl (step P b) s

/-- The upload that an operation completes has lost nothing. -/
def Completes (s : KeyedStore) : KeyedOp → Prop
  | .complete upload _ => ∀ u, s.uploads[upload]?.join = some u → u.whole
  | _ => True

/-- No upload is completed that has lost a block. -/
def CompletesWhole : KeyedStore → List KeyedOp → Prop
  | _, [] => True
  | s, op :: ops => s.Completes op ∧ CompletesWhole (s.step P b op) ops

end KeyedStore

/-! ## What an operation on the keyring leaves -/

theorem KeyedStore.keys_newest {s : KeyedStore} (hs : s.keyring.Newest) (op : KeyringOp) :
    (s.keys P op).keyring.Newest ∧ s.keyring.keys.HeldBy (s.keys P op).keyring.keys := by
  unfold KeyedStore.keys
  cases hrun : (op.run P).run (s.keyring, s.trace) with
  | ok u state => exact KeyringOp.run_newest hs hrun
  | error e state => exact KeyringOp.run_newest_of_error hs hrun

/-! ## What is stored -/

theorem BlockFrame.ExtendedBy.refl (f : BlockFrame) : f.ExtendedBy f := ⟨fun _ _ h => h, rfl⟩

theorem BlockFrame.ExtendedBy.trans {f f' f'' : BlockFrame} (h : f.ExtendedBy f')
    (h' : f'.ExtendedBy f'') : f.ExtendedBy f'' :=
  ⟨h.keys.trans h'.keys, h'.blockSize.trans h.blockSize⟩

/-- `stored` is `plain` sealed under the key `id`, which is one of the frame's. -/
structure BlockFrame.Carries (P : Platform) (f : BlockFrame) (id : DataKeyId)
    (stored plain : Object) : Prop where
  made : ∃ (g : BlockFrame) (key : SecretKey) (ss : List Sealing), g.ExtendedBy f ∧
    g.current = id ∧ g.SealedAs P plain.data key ss ∧ stored = { plain with data := g.object ss }

/-- The two stores hold the same objects, the one of them sealed under keys of the frame. -/
structure BlockFrame.Matches (P : Platform) (f : BlockFrame) (stored plain : MapStore) : Prop where
  tags : plain.nextETag = stored.nextETag
  present : ∀ (location : Path) (object : Object), plain.objects[location]? = some object →
    ∃ id sealedObject, stored.objects[location]? = some sealedObject ∧
      f.Carries P id sealedObject object
  absent : ∀ location : Path, plain.objects[location]? = none → stored.objects[location]? = none

namespace BlockFrame

variable {f f' : BlockFrame} {stored plain : MapStore}

theorem Carries.mono {id : DataKeyId} {object object' : Object}
    (h : f.Carries P id object object') (hf : f.ExtendedBy f') :
    f'.Carries P id object object' := by
  obtain ⟨g, key, ss, hg, hrest⟩ := h.made
  exact ⟨g, key, ss, hg.trans hf, hrest⟩

theorem Matches.mono (h : f.Matches P stored plain) (hf : f.ExtendedBy f') :
    f'.Matches P stored plain := by
  refine ⟨h.tags, fun location object hobject => ?_, h.absent⟩
  obtain ⟨id, sealedObject, hstored, hcarries⟩ := h.present location object hobject
  exact ⟨id, sealedObject, hstored, hcarries.mono hf⟩

theorem Matches.empty (f : BlockFrame) : f.Matches P .empty .empty := by
  refine ⟨rfl, fun location object hobject => ?_, fun location hnone => hnone⟩
  simp [MapStore.empty] at hobject

theorem Matches.insert (h : f.Matches P stored plain) (location : Path) {id : DataKeyId}
    {sealedObject object : Object} (hobject : f.Carries P id sealedObject object) :
    f.Matches P ⟨stored.objects.insert location sealedObject, stored.nextETag + 1⟩
      ⟨plain.objects.insert location object, plain.nextETag + 1⟩ := by
  refine ⟨congrArg (· + 1) h.tags, fun l o hl => ?_, fun l hl => ?_⟩
  · simp only [Std.ExtTreeMap.getElem?_insert] at hl ⊢
    split_ifs at hl ⊢
    · cases hl
      exact ⟨id, sealedObject, rfl, hobject⟩
    · exact h.present l o hl
  · simp only [Std.ExtTreeMap.getElem?_insert] at hl ⊢
    split_ifs at hl ⊢
    exact h.absent l hl

theorem Matches.erase (h : f.Matches P stored plain) (location : Path) :
    f.Matches P { stored with objects := stored.objects.erase location }
      { plain with objects := plain.objects.erase location } := by
  refine ⟨h.tags, fun l o hl => ?_, fun l hl => ?_⟩
  · simp only [Std.ExtTreeMap.getElem?_erase] at hl ⊢
    split_ifs at hl ⊢
    exact h.present l o hl
  · simp only [Std.ExtTreeMap.getElem?_erase] at hl ⊢
    split_ifs at hl ⊢
    · rfl
    · exact h.absent l hl

theorem Matches.delete (h : f.Matches P stored plain) (locations : List Path) :
    f.Matches P (stored.deleteStream locations) (plain.deleteStream locations) := by
  unfold MapStore.deleteStream
  induction locations generalizing stored plain with
  | nil => exact h
  | cons location rest ih => exact ih (h.erase location)

/-- Both stores allow the same puts. -/
theorem Matches.putAllowed (h : f.Matches P stored plain) (location : Path) (mode : PutMode) :
    plain.putAllowed location mode = stored.putAllowed location mode := by
  unfold MapStore.putAllowed
  cases hplain : plain.objects[location]? with
  | none => rw [h.absent location hplain]
  | some object =>
    obtain ⟨id, sealedObject, hstored, hcarries⟩ := h.present location object hplain
    obtain ⟨g, key, ss, -, -, -, rfl⟩ := hcarries.made
    rw [hstored]
    cases mode with
    | overwrite => rfl
    | create => rfl
    | update tag => cases tag <;> rfl

theorem Matches.put (h : f.Matches P stored plain) {g : BlockFrame} (hg : g.ExtendedBy f)
    (t : Trace) (now : Nat) (location : Path) (payload : Bytes) (options : PutOptions) :
    f.Matches P
      ((⟨stored, g⟩ : EncryptingObjectStore).step P t (.put now location payload options)).1.inner
      (if (StoreOp.put now location payload options).reaches P g t then
        plain.step (.put now location payload options) else plain) := by
  cases hseal : (g.seal P payload).run t with
  | error err t' =>
    have hreach : (StoreOp.put now location payload options).reaches P g t = false := by
      unfold StoreOp.reaches
      dsimp only
      rw [hseal]
    unfold EncryptingObjectStore.step EncryptingObjectStore.putOpts
    dsimp only
    rw [hreach, hseal]
    exact h
  | ok c t' =>
    obtain ⟨key, ss, -, hobject, hs⟩ := BlockFrame.seal_ok hseal
    have hreach : (StoreOp.put now location payload options).reaches P g t = true := by
      unfold StoreOp.reaches
      dsimp only
      rw [hseal]
    unfold EncryptingObjectStore.step EncryptingObjectStore.putOpts MapStore.step MapStore.putOpts
    dsimp only
    rw [hreach, hseal, if_pos rfl, h.putAllowed location options.mode, h.tags]
    cases stored.putAllowed location options.mode with
    | error err => exact h
    | ok u =>
      have hcarries : f.Carries P g.current ⟨c, now, toString stored.nextETag, options.attributes⟩
          ⟨payload, now, toString stored.nextETag, options.attributes⟩ :=
        ⟨g, key, ss, hg, rfl, hs, by rw [hobject]; rfl⟩
      have hinsert := h.insert location hcarries
      rw [h.tags] at hinsert
      exact hinsert

theorem Matches.copy (h : f.Matches P stored plain) {g : BlockFrame} (t : Trace) (now : Nat)
    (src dst : Path) (mode : CopyMode) :
    f.Matches P ((⟨stored, g⟩ : EncryptingObjectStore).step P t (.copy now src dst mode)).1.inner
      (plain.step (.copy now src dst mode)) := by
  have hdst : plain.objects.contains dst = stored.objects.contains dst := by
    simp only [Std.ExtTreeMap.contains_eq_isSome_getElem?]
    cases hplain : plain.objects[dst]? with
    | none => rw [h.absent dst hplain]
    | some object =>
      obtain ⟨id, sealedObject, hstored, -⟩ := h.present dst object hplain
      rw [hstored]
      rfl
  unfold EncryptingObjectStore.step EncryptingObjectStore.copyOpts MapStore.step MapStore.copyOpts
    MapStore.entry
  dsimp only
  rw [hdst, h.tags]
  cases hplain : plain.objects[src]? with
  | none =>
    rw [h.absent src hplain]
    exact h
  | some object =>
    obtain ⟨id, sealedObject, hstored, hcarries⟩ := h.present src object hplain
    rw [hstored]
    simp only [bind, Except.bind]
    split_ifs with hmode
    · exact h
    · obtain ⟨g', key, ss, hg', hid, hs, rfl⟩ := hcarries.made
      have hcopied : f.Carries P id
          ⟨g'.object ss, now, toString stored.nextETag, object.attributes⟩
          ⟨object.data, now, toString stored.nextETag, object.attributes⟩ :=
        ⟨g', key, ss, hg', hid, hs, rfl⟩
      have hinsert := h.insert dst hcopied
      rw [h.tags] at hinsert
      exact hinsert

/-- **What is put, copied or deleted through any handle leaves the same in both stores.** -/
theorem Matches.step (h : f.Matches P stored plain) {g : BlockFrame} (hg : g.ExtendedBy f)
    (t : Trace) (op : StoreOp) :
    f.Matches P ((⟨stored, g⟩ : EncryptingObjectStore).step P t op).1.inner
      (if op.reaches P g t then plain.step op else plain) := by
  cases op with
  | put now location payload options => exact h.put hg t now location payload options
  | copy now src dst mode => exact h.copy t now src dst mode
  | delete locations => exact h.delete locations

/-- **A completed upload leaves the same in both stores.** -/
theorem Matches.completeUpload (h : f.Matches P stored plain) {id : DataKeyId} {u v : MapUpload}
    (hlocation : v.location = u.location) (now : Nat)
    (hobject : f.Carries P id
      ⟨u.parts.flatten, now, toString stored.nextETag, u.attributes⟩
      ⟨v.parts.flatten, now, toString stored.nextETag, v.attributes⟩) :
    f.Matches P (stored.completeUpload now u).2 (plain.completeUpload now v).2 := by
  have hinsert := h.insert u.location hobject
  unfold MapStore.completeUpload
  rw [hlocation, h.tags]
  rw [h.tags] at hinsert
  exact hinsert

end BlockFrame

/-! ## Uploads under way -/

/-- The upload holds, sealed under a key of the frame, what the plain one was given. -/
structure OpenUpload.Underway (P : Platform) (f : BlockFrame) (u : OpenUpload) : Prop where
  made : ∃ g : BlockFrame, g.ExtendedBy f ∧ SealingUpload.Exact P g u.plain.location
    u.sealing.headerSent u.plain.parts.flatten u.sealing
  attributes : u.plain.attributes = u.sealing.inner.attributes

namespace OpenUpload

variable {f f' : BlockFrame} {u : OpenUpload} {t t' : Trace}

theorem Underway.mono (h : u.Underway P f) (hf : f.ExtendedBy f') : u.Underway P f' := by
  obtain ⟨g, hg, hexact⟩ := h.made
  exact ⟨⟨g, hg.trans hf, hexact⟩, h.attributes⟩

/-- The inner upload keeps its attributes. -/
theorem putPart_attributes {g : BlockFrame} {p data : Bytes} {ss : List Sealing}
    {v v' : SealingUpload} {x : PUnit} (h : v.Holds P g p ss)
    (hrun : (SealingUpload.putPart P data).run (v, t) = .ok x (v', t')) :
    v'.inner.attributes = v.inner.attributes := by
  unfold SealingUpload.putPart at hrun
  obtain ⟨_, s0, hset, h0⟩ := bind_ok.1 hrun
  rw [run_setUpload] at hset
  cases hset
  obtain ⟨out, ⟨v1, t1⟩, hdrain, h1⟩ := bind_ok.1 h0
  obtain ⟨-, -, -, -, -, hinner, -⟩ := SealingUpload.drainFullBlocks_ok (h.receive data) hdrain
  split_ifs at h1 with hempty
  · rw [run_pure] at h1
    cases h1
    rw [hinner]
  · rw [run_setUpload] at h1
    cases h1
    unfold MapUpload.putPart
    rw [hinner]

/-- **A part that succeeds keeps an upload under way.** -/
theorem Underway.putPart (h : u.Underway P f) {data : Bytes} {x : PUnit} {v : SealingUpload}
    (hrun : (SealingUpload.putPart P data).run (u.sealing, t) = .ok x (v, t')) :
    (⟨v, u.plain.putPart data, u.whole⟩ : OpenUpload).Underway P f := by
  obtain ⟨g, hg, hexact⟩ := h.made
  obtain ⟨ss, hholds, -⟩ := hexact.kept
  have hnext := hexact.putPart_ok hrun
  have hparts : (u.plain.putPart data).parts.flatten = u.plain.parts.flatten ++ data := by
    unfold MapUpload.putPart
    rw [List.flatten_concat]
  refine ⟨⟨g, hg, ?_⟩, ?_⟩
  · rw [hparts]
    exact hnext.started.symm ▸ hnext
  · rw [putPart_attributes hholds hrun]
    exact h.attributes

/-- **A `complete` that fails** leaves the upload as it is where the header was sent and nothing was
pending. -/
theorem Underway.attempt (h : u.Underway P f) {now : Nat} {s : MapStore} {e : UploadError}
    {v : SealingUpload}
    (hrun : (SealingUpload.complete P now s).run (u.sealing, t) = .error e (v, t'))
    (hkept : u.sealing.headerSent && u.sealing.pending.isEmpty) : v = u.sealing := by
  obtain ⟨g, -, hexact⟩ := h.made
  rw [Bool.and_eq_true, List.isEmpty_iff] at hkept
  exact hexact.attempt_nothing hrun hkept.1 hkept.2

/-- What an upload that completes hands over keeps the attributes. -/
theorem complete_attributes {g : BlockFrame} {p : Bytes} {ss : List Sealing}
    {v v' : SealingUpload} {now : Nat} {s s' : MapStore} {result : PutResult}
    (h : v.Holds P g p ss)
    (hrun : (SealingUpload.complete P now s).run (v, t) = .ok (result, s') (v', t')) :
    v'.inner.attributes = v.inner.attributes := by
  obtain ⟨tail, sealed, v1, t1, hdrain, -, hparts, -⟩ := SealingUpload.complete_parts hrun
  obtain ⟨-, -, -, -, -, hinner, -⟩ := SealingUpload.drainFullBlocks_ok h hdrain
  rw [hparts]
  unfold MapUpload.putPart
  rw [hinner]

/-- **An upload that completes leaves the same in both stores.** -/
theorem Underway.complete (h : u.Underway P f) {stored stored' plain : MapStore}
    (hmatches : f.Matches P stored plain) {now : Nat} {result : PutResult} {v : SealingUpload}
    (hrun : (SealingUpload.complete P now stored).run (u.sealing, t) =
      .ok (result, stored') (v, t')) :
    f.Matches P stored' (plain.completeUpload now u.plain).2 := by
  obtain ⟨g, hg, hexact⟩ := h.made
  obtain ⟨ss, hholds, hhanded⟩ := hexact.kept
  obtain ⟨key, ss', hs, -, hstored, hobject, hlocation⟩ :=
    SealingUpload.complete_ok hholds hhanded hrun
  have hattributes := (complete_attributes hholds hrun).trans h.attributes.symm
  have hcarries : f.Carries P g.current
      ⟨v.inner.parts.flatten, now, toString stored.nextETag, v.inner.attributes⟩
      ⟨u.plain.parts.flatten, now, toString stored.nextETag, u.plain.attributes⟩ :=
    ⟨g, key, ss ++ ss', hg, rfl, hs, by rw [hobject, hattributes]⟩
  have hmade : stored' = (stored.completeUpload now v.inner).2 := congrArg Prod.snd hstored
  rw [hmade]
  exact hmatches.completeUpload hlocation.symm now hcarries

end OpenUpload

/-! ## The invariant -/

namespace KeyedStore

variable {b : BlockSize}

/-- The current key is the newest; every handle has some of the keys, and those that were taken
later have more; the two stores hold the same, and so do the uploads that have lost nothing. -/
structure Kept (P : Platform) (b : BlockSize) (s : KeyedStore) : Prop where
  newest : s.keyring.Newest
  ordered : s.handles.Pairwise BlockFrame.ExtendedBy
  handles : ∀ f ∈ s.handles, f.ExtendedBy (s.keyring.frame b)
  matched : (s.keyring.frame b).Matches P s.stored s.plain
  uploads : ∀ u, some u ∈ s.uploads → u.whole → u.Underway P (s.keyring.frame b)

theorem new_kept {passphrase : Bytes} {k : Keyring} {t t' : Trace}
    (h : (Keyring.create P passphrase).run t = .ok k t') : (new k t').Kept P b :=
  ⟨Keyring.create_newest h, .nil, fun _ hf => (List.not_mem_nil hf).elim, .empty _,
    fun _ hu => (List.not_mem_nil hu).elim⟩

section Step

variable {s : KeyedStore}

theorem Kept.keys (h : s.Kept P b) (op : KeyringOp) : (s.keys P op).Kept P b := by
  obtain ⟨hnewest, hheld⟩ := keys_newest (P := P) h.newest op
  have hext : (s.keyring.frame b).ExtendedBy ((s.keys P op).keyring.frame b) := ⟨hheld, rfl⟩
  have hrest : (s.keys P op).handles = s.handles ∧ (s.keys P op).uploads = s.uploads ∧
      (s.keys P op).stored = s.stored ∧ (s.keys P op).plain = s.plain := by
    unfold KeyedStore.keys
    split <;> exact ⟨rfl, rfl, rfl, rfl⟩
  obtain ⟨hhandles, huploads, hstored, hplain⟩ := hrest
  refine ⟨hnewest, ?_, fun f hf => ?_, ?_, fun u hu => ?_⟩
  · rw [hhandles]
    exact h.ordered
  · rw [hhandles] at hf
    exact (h.handles f hf).trans hext
  · rw [hstored, hplain]
    exact h.matched.mono hext
  · rw [huploads] at hu
    exact fun hwhole => (h.uploads u hu hwhole).mono hext

/-- A handle that is taken now has the keys of all before it. -/
theorem Kept.handles_ordered (h : s.Kept P b) :
    (s.handles ++ [s.keyring.frame b]).Pairwise BlockFrame.ExtendedBy := by
  refine List.pairwise_append.2 ⟨h.ordered, List.pairwise_singleton _ _, fun f hf g hg => ?_⟩
  cases List.mem_singleton.1 hg
  exact h.handles f hf

/-- Another upload in place of one, or none. -/
theorem Kept.set (h : s.Kept P b) (i : Nat) {o : Option OpenUpload}
    (ho : ∀ u, o = some u → u.whole → u.Underway P (s.keyring.frame b)) {u : OpenUpload}
    (hu : some u ∈ s.uploads.set i o) (hwhole : u.whole) : u.Underway P (s.keyring.frame b) := by
  rcases List.mem_or_eq_of_mem_set hu with hmem | heq
  · exact h.uploads u hmem hwhole
  · exact ho u heq.symm hwhole

theorem Kept.putPart (h : s.Kept P b) (i : Nat) {u : OpenUpload}
    (hu : u.whole → u.Underway P (s.keyring.frame b)) (data : Bytes) :
    (s.putPart P i u data).Kept P b := by
  unfold KeyedStore.putPart
  cases hrun : (SealingUpload.putPart P data).run (u.sealing, s.trace) with
  | ok x state =>
    refine ⟨h.newest, h.ordered, h.handles, h.matched, fun v hv =>
      h.set i (fun w hw hwhole => ?_) hv⟩
    cases hw
    exact (hu hwhole).putPart hrun
  | error e state =>
    refine ⟨h.newest, h.ordered, h.handles, h.matched, fun v hv =>
      h.set i (fun w hw hwhole => ?_) hv⟩
    cases hw
    cases hwhole

theorem Kept.complete (h : s.Kept P b) (i : Nat) {u : OpenUpload} (hwhole : u.whole)
    (hu : u.Underway P (s.keyring.frame b)) (now : Nat) : (s.complete P i u now).Kept P b := by
  unfold KeyedStore.complete
  cases hrun : (SealingUpload.complete P now s.stored).run (u.sealing, s.trace) with
  | ok result state =>
    refine ⟨h.newest, h.ordered, h.handles, hu.complete h.matched hrun, fun v hv =>
      h.set i (fun w hw => ?_) hv⟩
    cases hw
  | error e state =>
    refine ⟨h.newest, h.ordered, h.handles, h.matched, fun v hv =>
      h.set i (fun w hw hkept => ?_) hv⟩
    cases hw
    -- what has still lost nothing is as it was
    have hsame : state.1 = u.sealing := by
      rw [hwhole, Bool.true_and] at hkept
      exact hu.attempt hrun hkept
    exact ⟨hsame.symm ▸ hu.made, hsame.symm ▸ hu.attributes⟩

/-- **One operation keeps the invariant**, unless it completes an upload that has lost a block. -/
theorem Kept.step (h : s.Kept P b) {op : KeyedOp} (hop : s.Completes op) :
    (s.step P b op).Kept P b := by
  cases op with
  | keys op => exact h.keys op
  | encrypted =>
    refine ⟨h.newest, h.handles_ordered, fun f hf => ?_, h.matched, h.uploads⟩
    rcases List.mem_append.1 hf with hf | hf
    · exact h.handles f hf
    · cases List.mem_singleton.1 hf
      exact .refl _
  | store handle op =>
    unfold KeyedStore.step
    dsimp only
    cases hf : s.handles[handle]? with
    | none => exact h
    | some f =>
      have hext := h.handles f (List.mem_of_getElem? hf)
      exact ⟨h.newest, h.ordered, h.handles, h.matched.step hext s.trace op, h.uploads⟩
  | putMultipart handle location attributes =>
    unfold KeyedStore.step
    dsimp only
    cases hf : s.handles[handle]? with
    | none => exact h
    | some f =>
      have hext := h.handles f (List.mem_of_getElem? hf)
      refine ⟨h.newest, h.ordered, h.handles, h.matched, fun u hu => ?_⟩
      rcases List.mem_append.1 hu with hu | hu
      · exact h.uploads u hu
      · cases List.mem_singleton.1 hu
        exact fun _ => ⟨⟨f, hext, SealingUpload.new_exact attributes⟩, rfl⟩
  | putPart upload data =>
    unfold KeyedStore.step
    dsimp only
    cases hu : s.uploads[upload]?.join with
    | none => exact h
    | some u =>
      rw [Option.join_eq_some_iff] at hu
      exact h.putPart upload (h.uploads u (List.mem_of_getElem? hu)) data
  | complete upload now =>
    unfold KeyedStore.step
    dsimp only
    cases hu : s.uploads[upload]?.join with
    | none => exact h
    | some u =>
      have hwhole := hop u hu
      rw [Option.join_eq_some_iff] at hu
      exact h.complete upload hwhole (h.uploads u (List.mem_of_getElem? hu) hwhole) now
  | abort upload =>
    exact ⟨h.newest, h.ordered, h.handles, h.matched,
      fun v hv => h.set upload (fun w hw => by cases hw) hv⟩

/-- **A run keeps it.** -/
theorem Kept.run (h : s.Kept P b) {ops : List KeyedOp} (hops : s.CompletesWhole P b ops) :
    (s.run P b ops).Kept P b := by
  unfold KeyedStore.run
  induction ops generalizing s with
  | nil => exact h
  | cons op ops ih => exact ih (h.step hops.1) hops.2

end Step

end KeyedStore

/-! ## Reads -/

/-- What a read through a handle answers, of an object that is sealed under the key `id`. -/
def BlockFrame.answer (f : BlockFrame) (id : DataKeyId) (location : Path) (object : Object)
    (options : GetOptions) : Except StoreError GetResult := do
  let info := MapStore.metaOf location object
  MapStore.checkPreconditions options info
  let wanted := wantedRange options.range object.data.length
  if options.head then pure ⟨[], ⟨0, 0⟩, object.attributes, info⟩
  else if wanted.stop ≤ wanted.start then pure ⟨[], wanted, object.attributes, info⟩
  else if f.keys.contains id then
    pure ⟨slice wanted.start wanted.stop object.data, wanted, object.attributes, info⟩
  else .error (.frame location (.unknownKey id))

namespace BlockFrame

variable {f g : BlockFrame} {id : DataKeyId} {p : Bytes} {key : SecretKey} {ss : List Sealing}

/-- An object is sealed alike under every frame that has its key, if it were the current one. -/
theorem SealedAs.of_held (hs : g.SealedAs P p key ss) (hsize : f.blockSize = g.blockSize)
    (hkey : f.keys[g.current]? = some key) :
    ({ f with current := g.current } : BlockFrame).SealedAs P p key ss := by
  obtain ⟨-, hlength, hkeys, haad, hmsg, hencrypted⟩ := hs
  rw [← hsize] at hlength haad hmsg
  exact ⟨hkey, hlength, hkeys, haad, hmsg, hencrypted⟩

theorem openBlocks_current (f : BlockFrame) (current : DataKeyId) (secret : SecretKey)
    (id : DataKeyId) (wanted : Range) (index offset : Nat) (plaintext : Bytes)
    (blocks : List Bytes) :
    ({ f with current := current } : BlockFrame).openBlocks P secret id wanted index offset
        plaintext blocks =
      f.openBlocks P secret id wanted index offset plaintext blocks := by
  induction blocks generalizing index offset plaintext with
  | nil => rfl
  | cons sealedBlock rest ih =>
    unfold openBlocks
    simp only [ih]
    rfl

/-- Which key is the current one plays no part in a read. -/
theorem readRange_current (f : BlockFrame) (current : DataKeyId)
    (ranges : List Range → Except StoreError (List Bytes)) (location : Path) (wanted : Range)
    (len : Nat) :
    readRange P f ranges location wanted len =
      readRange P { f with current := current } ranges location wanted len := by
  unfold readRange openSpan
  simp only [openBlocks_current]
  rfl

/-- The key that an object is sealed under is held. -/
theorem Carries.held {sealedObject object : Object} (h : f.Carries P id sealedObject object) :
    f.keys.contains id := by
  obtain ⟨maker, key, ss, hmaker, rfl, hs, -⟩ := h.made
  rw [Std.ExtTreeMap.contains_eq_isSome_getElem?, hmaker.keys _ _ hs.known]
  rfl

/-- The metadata of what is sealed is that of what it holds, but for the size. -/
theorem Carries.checkPreconditions {sealedObject object : Object}
    (h : f.Carries P id sealedObject object) (location : Path) (options : GetOptions) :
    MapStore.checkPreconditions options (MapStore.metaOf location sealedObject) =
      MapStore.checkPreconditions options (MapStore.metaOf location object) := by
  obtain ⟨maker, key, ss, -, -, -, rfl⟩ := h.made
  exact (checkPreconditions_size options _ object.data.length).symm

/-- What one frame sealed has the length that it has for any frame of its block size. -/
theorem SealedAs.object_sealedLen (hs : f.SealedAs P p key ss) (ho : Opening P ss)
    (hsize : g.blockSize = f.blockSize) : (f.object ss).length = g.sealedLen p.length := by
  rw [hs.object_length ho]
  unfold sealedLen sealedBlockLen
  rw [hsize]

/-- A ranged read of what one frame sealed, through another one: the key decides. -/
theorem readRange_through (hP : P.Correct) (hs : f.SealedAs P p key ss)
    (hsize : g.blockSize = f.blockSize)
    (hkey : ∀ secret, g.keys[f.current]? = some secret → secret = key) {s : MapStore}
    {location : Path} {object : Object} (hobject : s.objects[location]? = some object)
    (hdata : object.data = f.object ss) {w : Range} (hw : w.start < w.stop)
    (hstop : w.stop ≤ p.length) (hmax : object.data.length ≤ MAX_BYTES) :
    readRange P g (s.getRanges location) location w p.length =
      if g.keys.contains f.current then .ok (slice w.start w.stop p)
      else .error (.frame location (.unknownKey f.current)) := by
  have ho := hP.opening hs
  have hlength : object.data.length = g.sealedLen p.length := by
    rw [hdata]
    exact hs.object_sealedLen ho hsize
  split_ifs with hheld
  · -- the key is held: the object is one that this frame could have made
    rw [Std.ExtTreeMap.contains_eq_isSome_getElem?] at hheld
    obtain ⟨secret, hsecret⟩ := Option.isSome_iff_exists.1 hheld
    rw [hkey secret hsecret] at hsecret
    have hmade : ({ g with current := f.current } : BlockFrame).object ss = f.object ss := by
      unfold BlockFrame.object BlockFrame.header
      rw [hsize]
    have hread := (hs.of_held hsize hsecret).readRange ho hobject hw hstop hlength hmax
      (by rw [hdata, ← hmade]; exact object_header _ ss) (by rw [hdata, hmade])
    rw [readRange_current g f.current, hread]
  · -- it is not: the header is refused, for the key that it names
    rw [readRange_eq hobject hw hstop hlength hmax]
    have hrefused : g.readHeader (object.data.take HEADER_LEN) =
        .error (.unknownKey f.current) := by
      have hunknown := f.readHeader_unknown g hsize (Bool.not_eq_true _ ▸ hheld) []
      rw [List.append_nil] at hunknown
      rw [hdata, object_header, hunknown]
    rw [hrefused]
    rfl

/-- **A read through a handle**, of what the newest frame carries. -/
theorem Carries.getOpts (hP : P.Correct) {sealedObject object : Object}
    (h : f.Carries P id sealedObject object) (hg : g.ExtendedBy f) {s : MapStore}
    {location : Path} (hobject : s.objects[location]? = some sealedObject)
    (hmax : sealedObject.data.length ≤ MAX_BYTES) (options : GetOptions) :
    (⟨s, g⟩ : EncryptingObjectStore).getOpts P location options =
      g.answer id location object options := by
  have hcheck := h.checkPreconditions location options
  obtain ⟨maker, key, ss, hmaker, rfl, hs, rfl⟩ := h.made
  have hsize : g.blockSize = maker.blockSize := hg.blockSize.symm.trans hmaker.blockSize
  have hkey : ∀ secret, g.keys[maker.current]? = some secret → secret = key := by
    intro secret hsecret
    have hin := hg.keys _ _ hsecret
    rw [hmaker.keys _ _ hs.known] at hin
    exact (Option.some.inj hin).symm
  have hlen : g.plaintextLen (maker.object ss).length = .ok object.data.length :=
    plaintextLen_ok.2 (hs.object_sealedLen (hP.opening hs) hsize)
  unfold answer
  dsimp only
  rw [← hcheck]
  cases hallowed : MapStore.checkPreconditions options
      (MapStore.metaOf location { object with data := maker.object ss }) with
  | error err =>
    unfold EncryptingObjectStore.getOpts
    rw [MapStore.getOpts_head hobject, hallowed]
    rfl
  | ok u =>
    cases hhead : options.head with
    | true =>
      unfold EncryptingObjectStore.getOpts
      rw [MapStore.getOpts_head hobject, hallowed]
      have hmeta : g.plaintextLen (MapStore.metaOf location
          { object with data := maker.object ss }).size = .ok object.data.length := hlen
      have hinfo := asPlaintext_eq hmeta
      simp only [Except.map, bind, Except.bind, hinfo, hhead, if_true]
      rfl
    | false =>
      rw [EncryptingObjectStore.getOpts_eq hhead hobject hallowed hlen]
      dsimp only [bind, Except.bind]
      simp only [Bool.false_eq_true, if_false]
      have hstop := wantedRange_stop_le options.range object.data.length
      by_cases hempty : (wantedRange options.range object.data.length).stop ≤
          (wantedRange options.range object.data.length).start
      · rw [if_pos hempty, if_pos hempty]
        rfl
      · rw [if_neg hempty, if_neg hempty,
          readRange_through hP hs hsize hkey hobject rfl (by omega) hstop hmax]
        split_ifs <;> rfl

end BlockFrame

/-! ## Runs -/

/-- **Every handle answers with what is stored, or names the key it was not given.**  After any run
from a new keyring that completes no upload which has lost a block, a handle has the keys of every
handle before it, and one taken now has all; what the plain store does not hold no handle finds; and
each object that it holds is sealed under one key, so that reads through the handles that have that
key answer from its bytes, its metadata is answered by all of them, and the others refuse what asks
for a byte of it. -/
theorem every_handle_answers (hP : P.Correct) (b : BlockSize) {passphrase : Bytes} {k : Keyring}
    {t t' : Trace} (hcreate : (Keyring.create P passphrase).run t = .ok k t')
    {ops : List KeyedOp} (hwhole : (KeyedStore.new k t').CompletesWhole P b ops) :
    let s := (KeyedStore.new k t').run P b ops
    let handles := s.handles ++ [s.keyring.frame b]
    handles.Pairwise BlockFrame.ExtendedBy ∧ ∀ location : Path,
      (s.plain.objects[location]? = none → ∀ f ∈ handles, ∀ options,
        (⟨s.stored, f⟩ : EncryptingObjectStore).getOpts P location options =
          .error (.notFound location)) ∧
      ∀ object, s.plain.objects[location]? = some object →
        ∃ id sealedObject, s.keyring.keys.contains id ∧
          s.stored.objects[location]? = some sealedObject ∧
          (sealedObject.data.length ≤ MAX_BYTES → ∀ f ∈ handles, ∀ options,
            (⟨s.stored, f⟩ : EncryptingObjectStore).getOpts P location options =
              f.answer id location object options) := by
  intro s handles
  have hs : s.Kept P b := (KeyedStore.new_kept hcreate).run hwhole
  have hhandles : ∀ f ∈ handles, f.ExtendedBy (s.keyring.frame b) := by
    intro f hf
    rcases List.mem_append.1 hf with hf | hf
    · exact hs.handles f hf
    · cases List.mem_singleton.1 hf
      exact .refl _
  refine ⟨hs.handles_ordered, fun location =>
    ⟨fun hnone f hf options => ?_, fun object hobject => ?_⟩⟩
  · unfold EncryptingObjectStore.getOpts MapStore.getOpts MapStore.entry
    rw [hs.matched.absent location hnone]
    rfl
  · obtain ⟨id, sealedObject, hstored, hcarries⟩ := hs.matched.present location object hobject
    refine ⟨id, sealedObject, hcarries.held, hstored, fun hmax f hf options => ?_⟩
    exact hcarries.getOpts hP (hhandles f hf) hstored hmax options

/-! ## One run -/

/-- Where nothing fails, a byte is sealed under any key. -/
theorem seal_padding (keys : KeySet) {id : DataKeyId} {key : SecretKey}
    (hkey : keys[id]? = some key) (t : Trace) : ∃ c t',
    ((⟨keys, id, smallBlocks⟩ : BlockFrame).seal Platform.padding [7]).run t = .ok c t' := by
  have hpieces : (⟨keys, id, smallBlocks⟩ : BlockFrame).sealedPieces [7] = [[7]] := by
    unfold BlockFrame.sealedPieces
    dsimp only
    rw [if_neg (by decide)]
    rfl
  have hcipher : (⟨keys, id, smallBlocks⟩ : BlockFrame).cipher id = .ok key :=
    BlockFrame.cipher_ok.2 hkey
  unfold BlockFrame.seal
  dsimp only
  rw [hcipher, hpieces]
  exact ⟨_, _, rfl⟩

/-- A handle, a rotation, another handle, and the byte 7 through that. -/
def handedDown : List KeyedOp :=
  [.encrypted, .keys .rotateDataKey, .encrypted,
    .store 1 (.put 0 ["object"] [7] ⟨.overwrite, []⟩)]

/-- Both handles answer for the key that the byte is sealed under. -/
theorem handedDown_answers : ∃ k t k' t',
    (Keyring.create Platform.padding [1]).run Trace.empty = .ok k t ∧
      (Keyring.rotateDataKey Platform.padding).run (k, t) = .ok 2 (k', t') ∧
      ∃ s, (KeyedStore.new k t).run Platform.padding smallBlocks handedDown = s ∧
        s.handles = [k.frame smallBlocks, k'.frame smallBlocks] ∧
        ∃ id, ∀ f ∈ s.handles,
          (⟨s.stored, f⟩ : EncryptingObjectStore).getOpts Platform.padding ["object"] .default =
            f.answer id ["object"] ⟨[7], 0, "0", []⟩ .default := by
  obtain ⟨k, t, hcreate, hmax⟩ := create_padding [1]
  have hnext : (k.keys.maxKey?.getD .FIRST).next = some 2 := by
    rw [hmax]
    rfl
  obtain ⟨k', t', hrotate⟩ := rotateDataKey_padding (t := t) hnext
  obtain ⟨-, key, hkeys, hcurrent, -⟩ := Keyring.rotateDataKey_ok hrotate
  have hkey : k'.keys[k'.current]? = some key := by
    rw [hkeys, hcurrent]
    exact Std.ExtTreeMap.getElem?_insert_self
  obtain ⟨c, t'', hseal⟩ := seal_padding k'.keys hkey t'
  have hrun : (KeyedStore.new k t).run Platform.padding smallBlocks handedDown =
      ⟨k', [k.frame smallBlocks, k'.frame smallBlocks], [], t'',
        ⟨(∅ : Std.ExtTreeMap Path Object).insert ["object"] ⟨c, 0, "0", []⟩, 1⟩,
        ⟨(∅ : Std.ExtTreeMap Path Object).insert ["object"] ⟨[7], 0, "0", []⟩, 1⟩⟩ := by
    have hop : (KeyringOp.rotateDataKey.run Platform.padding).run (k, t) = .ok ⟨⟩ (k', t') :=
      bind_ok.2 ⟨2, _, hrotate, rfl⟩
    unfold KeyedStore.run handedDown
    simp only [List.foldl_cons, List.foldl_nil, KeyedStore.step, KeyedStore.new,
      KeyedStore.keys, hop]
    have hreach : (StoreOp.put 0 ["object"] [7] ⟨.overwrite, []⟩).reaches Platform.padding
        (k'.frame smallBlocks) t' = true := by
      unfold StoreOp.reaches Keyring.frame
      dsimp only
      rw [hseal]
    have hstep : (⟨MapStore.empty, k'.frame smallBlocks⟩ : EncryptingObjectStore).step
        Platform.padding t' (.put 0 ["object"] [7] ⟨.overwrite, []⟩) =
        (⟨⟨(∅ : Std.ExtTreeMap Path Object).insert ["object"] ⟨c, 0, "0", []⟩, 1⟩,
          k'.frame smallBlocks⟩, t'') := by
      unfold EncryptingObjectStore.step EncryptingObjectStore.putOpts Keyring.frame
      dsimp only
      rw [hseal]
      rfl
    simp only [List.nil_append, List.cons_append, List.getElem?_cons_succ,
      List.getElem?_cons_zero, Option.elim_some, KeyedStore.store, hreach, hstep, if_true]
    rfl
  have hwhole : (KeyedStore.new k t).CompletesWhole Platform.padding smallBlocks handedDown :=
    ⟨trivial, trivial, trivial, trivial, trivial⟩
  obtain ⟨-, hall⟩ := every_handle_answers Platform.padding_correct smallBlocks hcreate hwhole
  obtain ⟨-, hobject⟩ := hall ["object"]
  rw [hrun] at hobject
  obtain ⟨id, sealedObject, -, hstored, hread⟩ :=
    hobject ⟨[7], 0, "0", []⟩ Std.ExtTreeMap.getElem?_insert_self
  have hlength : sealedObject.data.length ≤ MAX_BYTES := by
    rw [Std.ExtTreeMap.getElem?_insert_self] at hstored
    cases hstored
    obtain ⟨_, ss, -, hmade, hs⟩ := BlockFrame.seal_ok hseal
    have hsealed := hs.object_length (Platform.padding_correct.opening hs)
    rw [show c.length = _ from (congrArg List.length hmade).trans hsealed]
    show oneKeyFrame.sealedLen 1 ≤ MAX_BYTES
    decide
  refine ⟨k, t, k', t', hcreate, hrotate, _, hrun, rfl, id, fun f hf => ?_⟩
  exact hread hlength f (List.mem_append_left _ hf) .default

end EuleDB.Crypto
