import Mathlib.Data.List.Forall2
import EuleDB.Crypto.Splice

/-!
# Uploads in parts

The model of `SealingUpload` in `crypto/store.rs`: an upload that seals whole blocks as they
become available and holds the tail back until it completes.

* `SealingUpload.putPart`, `complete` — over `drainFullBlocks`, which seals everything that is
  certainly not the final block.
* `SealingUpload.Holds` — the invariant: of the bytes received so far every full block is sealed,
  in order and none of them as final, and the rest is pending.
* `upload_agrees_with_seal` — however the parts are cut, the object is the one that `seal` makes
  of their concatenation, up to the nonces, and reads back as it.
-/

set_option autoImplicit false

namespace EuleDB.Crypto

open Slice Effect FrameFormat EncryptingObjectStore

/-! ## The inner upload -/

/-- An upload to a plain store: the parts it was handed. -/
structure MapUpload where
  location : Path
  attributes : List (String × String)
  parts : List Bytes

def MapUpload.putPart (u : MapUpload) (data : Bytes) : MapUpload :=
  { u with parts := u.parts ++ [data] }

/-- `complete` at time `now`: the parts, one after the other, become the object. -/
def MapStore.completeUpload (s : MapStore) (now : Nat) (u : MapUpload) : PutResult × MapStore :=
  let tag := toString s.nextETag
  (⟨some tag⟩, ⟨s.objects.insert u.location ⟨u.parts.flatten, now, tag, u.attributes⟩,
    s.nextETag + 1⟩)

/-! ## The sealing upload -/

/-- A multipart upload that seals whole blocks as they become available. -/
structure SealingUpload where
  inner : MapUpload
  frame : BlockFrame
  location : Path
  pending : Bytes
  nextIndex : Nat
  headerSent : Bool

/-- Why a step failed; what the drain of `complete` fails with is presented a second time. -/
inductive UploadError where
  | store (source : StoreError)
  | generic (source : UploadError)
  deriving DecidableEq, Repr

def SealingUpload.new (inner : MapUpload) (frame : BlockFrame) (location : Path) :
    SealingUpload :=
  ⟨inner, frame, location, [], 0, false⟩

def EncryptingObjectStore.putMultipartOpts (e : EncryptingObjectStore) (location : Path)
    (attributes : List (String × String)) : SealingUpload :=
  .new ⟨location, attributes, []⟩ e.frame location

/-- A computation that changes an upload in place. -/
abbrev UploadM := EStateM UploadError (SealingUpload × Trace)

def upload : UploadM SealingUpload := do
  let state ← get
  pure state.1

def setUpload (g : SealingUpload → SealingUpload) : UploadM PUnit :=
  modify fun state => (g state.1, state.2)

/-- A use of the frame, which leaves the upload alone. -/
def onFrame {α : Type} (location : Path) (x : EStateM FrameError Trace α) : UploadM α :=
  fun (u, t) =>
    match x.run t with
    | .ok a t' => .ok a (u, t')
    | .error err t' => .error (.store (.frame location err)) (u, t')

/-- Present a failure as a failure of the store. -/
def presented {α : Type} (x : UploadM α) : UploadM α := fun state =>
  match x.run state with
  | .ok a state' => .ok a state'
  | .error err state' => .error (.generic err) state'

namespace SealingUpload

variable (P : Platform)

/-- The loop of `drainFullBlocks`.  Every pass takes a block off what is pending, and no block is
empty, so `fuel` bytes pending are enough fuel. -/
def drainLoop : Nat → Bytes → UploadM Bytes
  | 0, out => pure out
  | fuel + 1, out => do
    let u ← upload
    let block := u.frame.blockSize.get
    if block ≤ u.pending.length then
      let chunk := u.pending.take block
      setUpload fun u => { u with pending := u.pending.drop block }
      let sealed ← onFrame u.location (u.frame.sealBlock P chunk u.nextIndex false)
      setUpload fun u => { u with nextIndex := u.nextIndex + 1 }
      drainLoop fuel (out ++ sealed)
    else pure out

/-- Seal everything that is certainly not the final block. -/
def drainFullBlocks : UploadM Bytes := do
  let u ← upload
  let out := if u.headerSent then [] else u.frame.header
  setUpload fun u => { u with headerSent := true }
  drainLoop P u.pending.length out

def putPart (data : Bytes) : UploadM PUnit := do
  setUpload fun u => { u with pending := u.pending ++ data }
  let sealed ← drainFullBlocks P
  if sealed = [] then pure ⟨⟩
  else setUpload fun u => { u with inner := u.inner.putPart sealed }

/-- `complete` at time `now`, over the store `s` as it is then. -/
def complete (now : Nat) (s : MapStore) : UploadM (PutResult × MapStore) := do
  let tail ← presented (drainFullBlocks P)
  let u ← upload
  setUpload fun u => { u with pending := [] }
  let sealed ← onFrame u.location (u.frame.sealBlock P u.pending u.nextIndex true)
  setUpload fun u => { u with nextIndex := u.nextIndex + 1 }
  setUpload fun u => { u with inner := u.inner.putPart (tail ++ sealed) }
  let u ← upload
  pure (s.completeUpload now u.inner)

/-- The parts of an upload, one after the other. -/
def putParts : List Bytes → UploadM PUnit
  | [] => pure ⟨⟩
  | data :: rest => do
    putPart P data
    putParts rest

end SealingUpload

/-! ## One block -/

section Blocks

variable {P : Platform} {f : BlockFrame}

/-- `s` seals the block `m` at `index`, under the current key. -/
structure BlockFrame.Seals (P : Platform) (f : BlockFrame) (index : Nat) (finalBlock : Bool)
    (m : Bytes) (s : Sealing) : Prop where
  known : f.keys[f.current]? = some s.key
  aad : s.aad = associatedData f.current index finalBlock
  msg : s.msg = m
  encrypted : P.encrypt s.key s.nonce s.aad s.msg = some s.ct

theorem BlockFrame.sealBlock_ok {m out : Bytes} {index : Nat} {finalBlock : Bool} {t t' : Trace}
    (h : (f.sealBlock P m index finalBlock).run t = .ok out t') :
    ∃ s, t'.sealings = t.sealings ++ [s] ∧ out = s.block ∧ f.Seals P index finalBlock m s := by
  unfold BlockFrame.sealBlock at h
  obtain ⟨nonce, t1, hdraw, h1⟩ := bind_ok.1 h
  obtain ⟨key, t2, hkey, h2⟩ := bind_ok.1 h1
  obtain ⟨ct, t3, hencrypt, h3⟩ := bind_ok.1 h2
  rw [run_pure] at h3
  cases h3
  obtain ⟨-, rfl⟩ := draw_ok hdraw
  obtain ⟨hcipher, rfl⟩ := ofExcept_ok.1 hkey
  obtain ⟨hct, rfl⟩ := encryptWith_ok hencrypt
  exact ⟨⟨key, nonce, _, m, ct⟩, rfl, rfl, BlockFrame.cipher_ok.1 hcipher, rfl, rfl, hct⟩

theorem onFrame_ok {α : Type} {location : Path} {x : EStateM FrameError Trace α}
    {u : SealingUpload} {t : Trace} {a : α} {state : SealingUpload × Trace} :
    (onFrame location x).run (u, t) = .ok a state ↔
      ∃ t', x.run t = .ok a t' ∧ state = (u, t') := by
  unfold onFrame EStateM.run
  cases hx : x t with
  | error e t' => simp [hx]
  | ok b t' =>
    simp only [hx, EStateM.Result.ok.injEq]
    constructor
    · rintro ⟨rfl, rfl⟩
      exact ⟨t', ⟨rfl, rfl⟩, rfl⟩
    · rintro ⟨_, ⟨rfl, rfl⟩, rfl⟩
      exact ⟨rfl, rfl⟩

theorem presented_ok {α : Type} {x : UploadM α} {a : α} {state state' : SealingUpload × Trace} :
    (presented x).run state = .ok a state' ↔ x.run state = .ok a state' := by
  unfold presented EStateM.run
  cases hx : x state with
  | ok b s => simp [hx]
  | error e s => simp [hx]

@[simp] theorem run_upload (state : SealingUpload × Trace) :
    upload.run state = .ok state.1 state := rfl

@[simp] theorem run_setUpload (g : SealingUpload → SealingUpload)
    (state : SealingUpload × Trace) :
    (setUpload g).run state = .ok ⟨⟩ (g state.1, state.2) := rfl

/-- A full block of what was received so far is a full block of whatever is received. -/
theorem slice_block_append {n i : Nat} {p : Bytes} (q : Bytes) (h : (i + 1) * n ≤ p.length) :
    slice (i * n) ((i + 1) * n) (p ++ q) = slice (i * n) ((i + 1) * n) p := by
  rw [slice_append, slice_of_le (by omega) q, List.append_nil]

end Blocks

/-! ## The invariant -/

namespace SealingUpload

variable {P : Platform} {f : BlockFrame} {p : Bytes} {ss : List Sealing} {u u' : SealingUpload}
  {t t' : Trace} {location : Path}

/-- `ss` seals whole blocks of `p`, in order and none of them as final; the rest is pending. -/
structure Holds (P : Platform) (f : BlockFrame) (p : Bytes) (ss : List Sealing)
    (u : SealingUpload) : Prop where
  frame : u.frame = f
  index : u.nextIndex = ss.length
  within : ss.length * f.blockSize.get ≤ p.length
  pending : u.pending = p.drop (ss.length * f.blockSize.get)
  blocks : ∀ (i : Nat) (s : Sealing), ss[i]? = some s →
    f.Seals P i false (slice (i * f.blockSize.get) ((i + 1) * f.blockSize.get) p) s

/-- What the inner upload was handed, for which object, and whether that is anything yet. -/
structure Handed (f : BlockFrame) (location : Path) (ss : List Sealing) (u : SealingUpload) :
    Prop where
  location : u.inner.location = location
  parts : u.inner.parts.flatten =
    (if u.headerSent then f.header else []) ++ (ss.map Sealing.block).flatten
  started : u.headerSent = false → ss = []

theorem new_holds (inner : MapUpload) :
    Holds P f [] [] (new inner f location) := by
  refine ⟨rfl, rfl, by simp, List.drop_nil.symm, fun i s h => ?_⟩
  cases h

/-- What is received is pending. -/
theorem Holds.receive (h : Holds P f p ss u) (data : Bytes) :
    Holds P f (p ++ data) ss { u with pending := u.pending ++ data } := by
  have hwithin := h.within
  refine ⟨h.frame, h.index, ?_, ?_, fun i s hs => ?_⟩
  · rw [List.length_append]
    omega
  · rw [List.drop_append_of_le_length hwithin, ← h.pending]
  · have hi : i < ss.length := (List.getElem?_eq_some_iff.1 hs).1
    have hle := Nat.mul_le_mul_right f.blockSize.get (show i + 1 ≤ ss.length from hi)
    rw [slice_block_append data (by omega)]
    exact h.blocks i s hs

theorem Holds.pending_length (h : Holds P f p ss u) :
    u.pending.length = p.length - ss.length * f.blockSize.get := by
  rw [h.pending, List.length_drop]

/-- One more block is sealed. -/
theorem Holds.seal (h : Holds P f p ss u) (hfull : f.blockSize.get ≤ u.pending.length)
    {s : Sealing}
    (hs : f.Seals P u.nextIndex false (u.pending.take f.blockSize.get) s) :
    Holds P f p (ss ++ [s])
      { u with pending := u.pending.drop f.blockSize.get, nextIndex := u.nextIndex + 1 } := by
  have hlen := h.pending_length
  have hB := f.blockSize.pos
  have hcount : (ss ++ [s]).length * f.blockSize.get =
      ss.length * f.blockSize.get + f.blockSize.get := by
    rw [List.length_append, List.length_singleton, Nat.add_mul, Nat.one_mul]
  refine ⟨h.frame, ?_, by omega, ?_, fun i s' hi => ?_⟩
  · rw [List.length_append, List.length_singleton]
    exact congrArg (· + 1) h.index
  · rw [hcount, ← List.drop_drop, ← h.pending]
  · rw [List.getElem?_append] at hi
    split_ifs at hi with hlt
    · exact h.blocks i s' hi
    · rw [List.getElem?_singleton] at hi
      split_ifs at hi with hlast
      cases hi
      have hi : i = ss.length := by omega
      have hmsg : slice (i * f.blockSize.get) ((i + 1) * f.blockSize.get) p =
          u.pending.take f.blockSize.get := by
        rw [h.pending, hi, Nat.add_mul, Nat.one_mul]
        unfold slice
        rw [List.drop_take, Nat.add_sub_cancel_left]
      rw [hmsg, hi, ← h.index]
      exact hs

/-- **What the loop does**: with enough fuel less than a block stays pending. -/
theorem drainLoop_ok {fuel : Nat} {out out' : Bytes} (h : Holds P f p ss u)
    (hfuel : u.pending.length ≤ fuel)
    (hrun : (drainLoop P fuel out).run (u, t) = .ok out' (u', t')) :
    ∃ ss', Holds P f p (ss ++ ss') u' ∧ u'.pending.length < f.blockSize.get ∧
      t'.sealings = t.sealings ++ ss' ∧ out' = out ++ (ss'.map Sealing.block).flatten ∧
      u'.inner = u.inner ∧ u'.headerSent = u.headerSent := by
  have hB := f.blockSize.pos
  induction fuel generalizing u t ss out with
  | zero =>
    unfold drainLoop at hrun
    rw [run_pure] at hrun
    cases hrun
    exact ⟨[], by simpa using h, by omega, by simp, by simp, rfl, rfl⟩
  | succ fuel ih =>
    unfold drainLoop at hrun
    obtain ⟨u0, s0, hget, h0⟩ := bind_ok.1 hrun
    rw [run_upload] at hget
    cases hget
    dsimp only at h0
    rw [h.frame] at h0
    split_ifs at h0 with hfull
    · obtain ⟨_, s1, hset, h1⟩ := bind_ok.1 h0
      rw [run_setUpload] at hset
      cases hset
      obtain ⟨sealed, s2, hseal, h2⟩ := bind_ok.1 h1
      obtain ⟨t2, hblock, rfl⟩ := onFrame_ok.1 hseal
      obtain ⟨s, htrace, rfl, hs⟩ := BlockFrame.sealBlock_ok hblock
      obtain ⟨_, s3, hset, h3⟩ := bind_ok.1 h2
      rw [run_setUpload] at hset
      cases hset
      have hstep := h.seal hfull hs
      obtain ⟨ss', hholds, hshort, htrace', hout, hinner, hsent⟩ := ih hstep (by
        show (u.pending.drop f.blockSize.get).length ≤ fuel
        rw [List.length_drop]
        omega) h3
      refine ⟨s :: ss', by simpa using hholds, hshort, ?_, ?_, hinner, hsent⟩
      · rw [htrace', htrace, List.append_assoc]
        rfl
      · rw [hout, List.append_assoc]
        rfl
    · rw [run_pure] at h0
      cases h0
      exact ⟨[], by simpa using h, by omega, by simp, by simp, rfl, rfl⟩

theorem drainFullBlocks_ok {out : Bytes} (h : Holds P f p ss u)
    (hrun : (drainFullBlocks P).run (u, t) = .ok out (u', t')) :
    ∃ ss', Holds P f p (ss ++ ss') u' ∧ u'.pending.length < f.blockSize.get ∧
      t'.sealings = t.sealings ++ ss' ∧
      out = (if u.headerSent then [] else f.header) ++ (ss'.map Sealing.block).flatten ∧
      u'.inner = u.inner ∧ u'.headerSent = true := by
  unfold drainFullBlocks at hrun
  obtain ⟨u0, s0, hget, h0⟩ := bind_ok.1 hrun
  rw [run_upload] at hget
  cases hget
  obtain ⟨_, s1, hset, h1⟩ := bind_ok.1 h0
  rw [run_setUpload] at hset
  cases hset
  have hheader : u.frame.header = f.header := by rw [h.frame]
  dsimp only at h1
  rw [hheader] at h1
  have hmarked : Holds P f p ss { u with headerSent := true } :=
    ⟨h.frame, h.index, h.within, h.pending, h.blocks⟩
  exact drainLoop_ok hmarked (Nat.le_refl _) h1

/-- What is handed over after a drain. -/
theorem Handed.put (h : Handed f location ss u) (ss' : List Sealing) (hinner : u'.inner = u.inner)
    (rest : Bytes) :
    (u'.inner.putPart ((if u.headerSent then [] else f.header) ++
        (ss'.map Sealing.block).flatten ++ rest)).parts.flatten =
      f.header ++ ((ss ++ ss').map Sealing.block).flatten ++ rest := by
  unfold MapUpload.putPart
  dsimp only
  rw [hinner, List.flatten_concat, h.parts]
  split_ifs with hsent
  · simp
  · rw [Bool.not_eq_true] at hsent
    rw [h.started hsent]
    simp

/-- **A part keeps the invariant.** -/
theorem putPart_ok {data : Bytes} {x : PUnit} (h : Holds P f p ss u) (hh : Handed f location ss u)
    (hrun : (putPart P data).run (u, t) = .ok x (u', t')) :
    ∃ ss', Holds P f (p ++ data) (ss ++ ss') u' ∧ Handed f location (ss ++ ss') u' ∧
      t'.sealings = t.sealings ++ ss' := by
  unfold putPart at hrun
  obtain ⟨_, s0, hset, h0⟩ := bind_ok.1 hrun
  rw [run_setUpload] at hset
  cases hset
  obtain ⟨out, ⟨u1, t1⟩, hdrain, h1⟩ := bind_ok.1 h0
  obtain ⟨ss', hholds, -, htrace, hout, hinner, hsent⟩ :=
    drainFullBlocks_ok (h.receive data) hdrain
  have hput := hh.put ss' hinner []
  rw [List.append_nil, List.append_nil, ← hout] at hput
  split_ifs at h1 with hempty
  · rw [run_pure] at h1
    cases h1
    refine ⟨ss', hholds, ⟨?_, ?_, ?_⟩, htrace⟩
    · rw [hinner]
      exact hh.location
    · unfold MapUpload.putPart at hput
      rw [hsent, if_pos rfl, ← hput, hempty]
      simp
    · intro hnot
      rw [hsent] at hnot
      cases hnot
  · rw [run_setUpload] at h1
    cases h1
    refine ⟨ss', ⟨hholds.frame, hholds.index, hholds.within, hholds.pending, hholds.blocks⟩,
      ⟨?_, ?_, ?_⟩, htrace⟩
    · unfold MapUpload.putPart
      dsimp only
      rw [hinner]
      exact hh.location
    · dsimp only
      rw [hsent, if_pos rfl, hput]
    · intro hnot
      dsimp only at hnot
      rw [hsent] at hnot
      cases hnot

/-- Any number of parts keeps it. -/
theorem putParts_ok {parts : List Bytes} {x : PUnit} (h : Holds P f p ss u)
    (hh : Handed f location ss u) (hrun : (putParts P parts).run (u, t) = .ok x (u', t')) :
    ∃ ss', Holds P f (p ++ parts.flatten) (ss ++ ss') u' ∧ Handed f location (ss ++ ss') u' ∧
      t'.sealings = t.sealings ++ ss' := by
  induction parts generalizing u t p ss with
  | nil =>
    unfold putParts at hrun
    rw [run_pure] at hrun
    cases hrun
    exact ⟨[], by simpa using h, by simpa using hh, by simp⟩
  | cons data rest ih =>
    unfold putParts at hrun
    obtain ⟨_, ⟨u1, t1⟩, hput, hrest⟩ := bind_ok.1 hrun
    obtain ⟨ss1, h1, hh1, htrace1⟩ := putPart_ok h hh hput
    obtain ⟨ss2, h2, hh2, htrace2⟩ := ih h1 hh1 hrest
    refine ⟨ss1 ++ ss2, ?_, ?_, ?_⟩
    · rw [List.flatten_cons, ← List.append_assoc, ← List.append_assoc]
      exact h2
    · rw [← List.append_assoc]
      exact hh2
    · rw [htrace2, htrace1, List.append_assoc]

/-- The whole blocks and the tail seal the plaintext. -/
theorem Holds.sealedAs {key : SecretKey} {last : Sealing} (h : Holds P f p ss u)
    (hshort : u.pending.length < f.blockSize.get) (hknown : f.keys[f.current]? = some key)
    (hlast : f.Seals P u.nextIndex true u.pending last) :
    f.SealedAs P p key (ss ++ [last]) := by
  have hB := f.blockSize.pos
  have hlen := h.pending_length
  have hwithin := h.within
  have hcount : ss.length = p.length / f.blockSize.get := by
    symm
    refine Nat.div_eq_of_lt_le hwithin ?_
    rw [Nat.add_mul, Nat.one_mul]
    omega
  -- each encryption, with its index, its mark and its piece
  have heach : ∀ (i : Nat) (s : Sealing), (ss ++ [last])[i]? = some s →
      f.Seals P i (decide (i = p.length / f.blockSize.get))
        (slice (i * f.blockSize.get) ((i + 1) * f.blockSize.get) p) s := by
    intro i s hi
    rw [List.getElem?_append] at hi
    split_ifs at hi with hlt
    · rw [decide_eq_false (by omega)]
      exact h.blocks i s hi
    · rw [List.getElem?_singleton] at hi
      split_ifs at hi with hzero
      cases hi
      have hi : i = ss.length := by omega
      have hmsg : slice (i * f.blockSize.get) ((i + 1) * f.blockSize.get) p = u.pending := by
        rw [h.pending, hi]
        unfold slice
        rw [List.take_of_length_le]
        rw [Nat.add_mul, Nat.one_mul]
        omega
      rw [hmsg, decide_eq_true (by omega), hi, ← h.index]
      exact hlast
  refine ⟨hknown, ?_, fun i s hi => ?_, fun i s hi => (heach i s hi).aad,
    fun i s hi => (heach i s hi).msg, fun s hs => ?_⟩
  · rw [List.length_append, List.length_singleton, hcount]
  · have hkey := (heach i s hi).known
    rw [hknown] at hkey
    exact (Option.some.inj hkey).symm
  · obtain ⟨i, hi⟩ := List.getElem?_of_mem hs
    exact (heach i s hi).encrypted

/-- What completing an upload does: it drains, seals what is left as the final block, and hands
both over. -/
theorem complete_parts {now : Nat} {s s' : MapStore} {result : PutResult}
    (hrun : (complete P now s).run (u, t) = .ok (result, s') (u', t')) :
    ∃ tail sealed u1 t1, (drainFullBlocks P).run (u, t) = .ok tail (u1, t1) ∧
      (u1.frame.sealBlock P u1.pending u1.nextIndex true).run t1 = .ok sealed t' ∧
      u'.inner = u1.inner.putPart (tail ++ sealed) ∧
      (result, s') = s.completeUpload now u'.inner := by
  unfold complete at hrun
  obtain ⟨tail, ⟨u1, t1⟩, hdrain, h1⟩ := bind_ok.1 hrun
  obtain ⟨u2, s2, hget, h2⟩ := bind_ok.1 h1
  rw [run_upload] at hget
  cases hget
  obtain ⟨_, s3, hset, h3⟩ := bind_ok.1 h2
  rw [run_setUpload] at hset
  cases hset
  obtain ⟨sealed, s4, hseal, h4⟩ := bind_ok.1 h3
  obtain ⟨t4, hblock, rfl⟩ := onFrame_ok.1 hseal
  obtain ⟨_, s5, hset, h5⟩ := bind_ok.1 h4
  rw [run_setUpload] at hset
  cases hset
  obtain ⟨_, s6, hset, h6⟩ := bind_ok.1 h5
  rw [run_setUpload] at hset
  cases hset
  obtain ⟨u7, s7, hget, h7⟩ := bind_ok.1 h6
  rw [run_upload] at hget
  cases hget
  rw [run_pure] at h7
  cases h7
  exact ⟨tail, sealed, u1, t1, presented_ok.1 hdrain, hblock, rfl, rfl⟩

/-- **What completing an upload makes**: the object that seals what was received. -/
theorem complete_ok {now : Nat} {s s' : MapStore} {result : PutResult} (h : Holds P f p ss u)
    (hh : Handed f location ss u)
    (hrun : (complete P now s).run (u, t) = .ok (result, s') (u', t')) :
    ∃ key ss', f.SealedAs P p key (ss ++ ss') ∧ t'.sealings = t.sealings ++ ss' ∧
      (result, s') = s.completeUpload now u'.inner ∧
      u'.inner.parts.flatten = f.object (ss ++ ss') ∧ u'.inner.location = location := by
  obtain ⟨tail, sealed, u1, t1, hdrain, hblock, hparts, hstored⟩ := complete_parts hrun
  obtain ⟨ss1, hholds, hshort, htrace, htail, hinner, -⟩ := drainFullBlocks_ok h hdrain
  have hframe : u1.frame = f := hholds.frame
  rw [hframe] at hblock
  obtain ⟨last, htrace', rfl, hlast⟩ := BlockFrame.sealBlock_ok hblock
  refine ⟨last.key, ss1 ++ [last], ?_, ?_, hstored, ?_, ?_⟩
  · rw [← List.append_assoc]
    exact hholds.sealedAs hshort hlast.known hlast
  · rw [htrace', htrace, List.append_assoc]
  · have hput := hh.put ss1 hinner last.block
    rw [← htail] at hput
    rw [hparts, ← List.append_assoc]
    unfold BlockFrame.object
    rw [List.map_append, List.flatten_append, ← List.append_assoc]
    simpa using hput
  · rw [hparts]
    unfold MapUpload.putPart
    dsimp only
    rw [hinner]
    exact hh.location

end SealingUpload

/-! ## Streaming and sealing whole -/

/-- What one block of an object is bound to. -/
structure BlockLabel where
  plaintext : Bytes
  index : Nat
  finalBlock : Bool
  key : DataKeyId
  deriving DecidableEq

/-- The blocks of an object that holds `p`. -/
def BlockFrame.labels (f : BlockFrame) (p : Bytes) : List BlockLabel :=
  (List.range (p.length / f.blockSize.get + 1)).map fun i =>
    ⟨slice (i * f.blockSize.get) ((i + 1) * f.blockSize.get) p, i,
      decide (i = p.length / f.blockSize.get), f.current⟩

/-- An encryption of the block that the label describes, bound to the rest of it. -/
def Sealing.Labelled (s : Sealing) (label : BlockLabel) : Prop :=
  s.msg = label.plaintext ∧
    s.aad = BlockFrame.associatedData label.key label.index label.finalBlock

section Agreement

variable {P : Platform} {f : BlockFrame} {p : Bytes} {key : SecretKey} {ss : List Sealing}

theorem BlockFrame.SealedAs.labelled (hs : f.SealedAs P p key ss) :
    List.Forall₂ Sealing.Labelled ss (f.labels p) := by
  have hlen : ss.length = (f.labels p).length := by
    unfold BlockFrame.labels
    rw [List.length_map, List.length_range, hs.length]
  refine List.forall₂_iff_get.2 ⟨hlen, fun i hi hi' => ?_⟩
  have hsome : ss[i]? = some (ss.get ⟨i, hi⟩) := List.getElem?_eq_getElem hi
  have hlabel : (f.labels p).get ⟨i, hi'⟩ =
      ⟨slice (i * f.blockSize.get) ((i + 1) * f.blockSize.get) p, i,
        decide (i = p.length / f.blockSize.get), f.current⟩ := by
    unfold BlockFrame.labels
    simp
  rw [hlabel]
  exact ⟨hs.msg_eq i _ hsome, hs.aad_eq i _ hsome⟩

/-- **What was sealed as `p` is read as `p`.** -/
theorem BlockFrame.SealedAs.getOpts (hs : f.SealedAs P p key ss) (ho : Opening P ss)
    {s : MapStore} {location : Path} {object : Object} {options : GetOptions}
    (hobject : s.objects[location]? = some object) (hdata : object.data = f.object ss)
    (hmax : object.data.length ≤ MAX_BYTES) (hread : options.head = false)
    (hallowed : MapStore.checkPreconditions options (MapStore.metaOf location object) = .ok ()) :
    ∃ r, (⟨s, f⟩ : EncryptingObjectStore).getOpts P location options = .ok r ∧
      r.payload = denoted options.range p := by
  have hsize : object.data.length = f.sealedLen p.length := by
    rw [hdata, hs.object_length ho]
  have hlen := BlockFrame.plaintextLen_ok.2 hsize
  have hstop := wantedRange_stop_le options.range p.length
  rw [EncryptingObjectStore.getOpts_eq hread hobject hallowed hlen]
  unfold denoted
  dsimp only
  split_ifs with hempty
  · exact ⟨_, rfl, (slice_of_le hempty p).symm⟩
  · rw [hs.readRange ho hobject (by omega) hstop hsize hmax (by rw [hdata, f.object_header])
      (by rw [hdata])]
    exact ⟨_, rfl, rfl⟩

/-- **Streaming and sealing whole agree.**  An upload whose steps all succeed stores one header and
then blocks with the labels that `seal` gives the blocks of the concatenated parts, as long in
total; and a read of it answers from that concatenation. -/
theorem upload_agrees_with_seal {made : List Sealing} (hP : P.Ideal made)
    {e : EncryptingObjectStore} {location : Path} {attributes : List (String × String)}
    {parts : List Bytes} {now : Nat} {s s' : MapStore} {t t1 t2 : Trace} {x : PUnit}
    {u1 u2 : SealingUpload} {result : PutResult}
    (hparts : (SealingUpload.putParts P parts).run (e.putMultipartOpts location attributes, t) =
      .ok x (u1, t1))
    (hcomplete : (SealingUpload.complete P now s).run (u1, t1) = .ok (result, s') (u2, t2))
    (hmade : t2.sealings ⊆ made) :
    ∃ object ss, s'.objects[location]? = some object ∧ t2.sealings = t.sealings ++ ss ∧
      object.data = e.frame.header ++ (ss.map Sealing.block).flatten ∧
      List.Forall₂ Sealing.Labelled ss (e.frame.labels parts.flatten) ∧
      (∀ (c : Bytes) (r r' : Trace),
        (e.frame.seal P parts.flatten).run r = .ok c r' → r'.sealings ⊆ made →
          ∃ whole, r'.sealings = r.sealings ++ whole ∧
            c = e.frame.header ++ (whole.map Sealing.block).flatten ∧
            List.Forall₂ Sealing.Labelled whole (e.frame.labels parts.flatten) ∧
            object.data.length = c.length) ∧
      (object.data.length ≤ MAX_BYTES → ∀ options : GetOptions, options.head = false →
        MapStore.checkPreconditions options (MapStore.metaOf location object) = .ok () →
          ∃ r, (⟨s', e.frame⟩ : EncryptingObjectStore).getOpts P location options = .ok r ∧
            r.payload = denoted options.range parts.flatten) := by
  have hnew : SealingUpload.Holds P e.frame [] [] (e.putMultipartOpts location attributes) :=
    SealingUpload.new_holds _
  have hnothing :
      SealingUpload.Handed e.frame location [] (e.putMultipartOpts location attributes) :=
    ⟨rfl, rfl, fun _ => rfl⟩
  obtain ⟨ss1, hholds, hhanded, htrace1⟩ := SealingUpload.putParts_ok hnew hnothing hparts
  obtain ⟨key, ss2, hs, htrace2, hstored, hobject, hlocation⟩ :=
    SealingUpload.complete_ok hholds hhanded hcomplete
  rw [List.nil_append] at hs hobject
  rw [htrace1, List.append_assoc] at htrace2
  have ho : Opening P (ss1 ++ ss2) := hP.opening_of_subset fun y hy =>
    hmade (htrace2 ▸ List.mem_append_right _ hy)
  unfold MapStore.completeUpload at hstored
  cases hstored
  have hget : (s.objects.insert u2.inner.location
      ⟨u2.inner.parts.flatten, now, toString s.nextETag, u2.inner.attributes⟩)[location]? =
      some ⟨u2.inner.parts.flatten, now, toString s.nextETag, u2.inner.attributes⟩ := by
    rw [hlocation]
    exact Std.ExtTreeMap.getElem?_insert_self
  refine ⟨_, ss1 ++ ss2, hget, htrace2, hobject, hs.labelled, ?_, ?_⟩
  · intro c r r' hseal hsub
    obtain ⟨key', whole, htrace, rfl, hw⟩ := BlockFrame.seal_ok hseal
    have ho' : Opening P whole := hP.opening_of_subset fun y hy =>
      hsub (htrace ▸ List.mem_append_right _ hy)
    refine ⟨whole, htrace, rfl, hw.labelled, ?_⟩
    calc u2.inner.parts.flatten.length
        = (e.frame.object (ss1 ++ ss2)).length := by rw [hobject]
      _ = e.frame.sealedLen parts.flatten.length := hs.object_length ho
      _ = (e.frame.object whole).length := (hw.object_length ho').symm
  · intro hmax options hread hallowed
    exact hs.getOpts ho hget hobject hmax hread hallowed

end Agreement

/-! ## One upload -/

/-- What an upload of 64 zeros encrypts where a block is 64 bytes: the last one is empty. -/
def blockAndTail : List Sealing :=
  [sealedAt 0 0 false (List.replicate 64 0), sealedAt 1 1 true []]

theorem blockAndTail_ideal : (Platform.tabled blockAndTail).Ideal blockAndTail :=
  Platform.tabled_ideal (by simp [blockAndTail, sealedAt])

/-- The empty store, encrypted under one key. -/
def emptyStore : EncryptingObjectStore := ⟨MapStore.empty, oneKeyFrame⟩

set_option maxRecDepth 8000 in
/-- Sixty-four zeros in two parts and an empty one: the object ends with an empty block, and the
zeros are read back. -/
theorem upload_on_a_block_boundary : ∃ (u1 u2 : SealingUpload) (t1 : Trace) (result : PutResult)
    (s' : MapStore),
    (SealingUpload.putParts (Platform.tabled blockAndTail)
        [List.replicate 63 0, [0], []]).run
        (emptyStore.putMultipartOpts ["object"] [], Trace.empty) = .ok ⟨⟩ (u1, t1) ∧
      (SealingUpload.complete (Platform.tabled blockAndTail) 0 MapStore.empty).run (u1, t1) =
        .ok (result, s') (u2, ⟨2, blockAndTail⟩) ∧
      List.Forall₂ Sealing.Labelled blockAndTail (oneKeyFrame.labels (List.replicate 64 0)) ∧
      ∃ r, (⟨s', oneKeyFrame⟩ : EncryptingObjectStore).getOpts (Platform.tabled blockAndTail)
        ["object"] GetOptions.default = .ok r ∧ r.payload = List.replicate 64 0 := by
  obtain ⟨u1, t1, hparts, hcomplete⟩ : ∃ u1 t1,
      (SealingUpload.putParts (Platform.tabled blockAndTail)
        [List.replicate 63 0, [0], []]).run
        (emptyStore.putMultipartOpts ["object"] [], Trace.empty) = .ok ⟨⟩ (u1, t1) ∧
      ∃ result s' u2, (SealingUpload.complete (Platform.tabled blockAndTail) 0
        MapStore.empty).run (u1, t1) = .ok (result, s') (u2, ⟨2, blockAndTail⟩) :=
    ⟨_, _, rfl, _, _, _, rfl⟩
  obtain ⟨result, s', u2, hcomplete⟩ := hcomplete
  obtain ⟨object, ss, hobject, htrace, hdata, hlabels, -, hread⟩ :=
    upload_agrees_with_seal blockAndTail_ideal hparts hcomplete (List.Subset.refl _)
  have hsame : ss = blockAndTail := htrace.symm
  rw [hsame] at hlabels hdata
  obtain ⟨r, hget, hpayload⟩ := hread (by rw [hdata]; decide) GetOptions.default rfl rfl
  exact ⟨u1, u2, t1, result, s', hparts, hcomplete, hlabels, r, hget, hpayload⟩

end EuleDB.Crypto
