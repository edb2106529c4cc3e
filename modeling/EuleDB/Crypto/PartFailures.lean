import EuleDB.Crypto.Refinement
import EuleDB.Crypto.Upload
import EuleDB.Crypto.Versions

/-!
# Uploads whose parts fail

A block is taken off what is pending before it is sealed, and the header is marked as sent before
anything is handed over.  Where a seal fails, what was taken is gone; the caller may go on.

* `SealingUpload.Goes` — calls one after the other, whatever they return.
* `SealingUpload.Exact`, `SealingUpload.Short` — nothing is lost so far, or something is.
* `completed_opens_iff` — what a `complete` stores opens to all that was received exactly where no
  block of a part failed, and no `complete` failed but on a block boundary after a part.
-/

set_option autoImplicit false

namespace EuleDB.Crypto

open Slice Effect FrameFormat EncryptingObjectStore

/-! ## Calls that may fail -/

inductive UploadCall where
  | part (data : Bytes)
  /-- A `complete` that fails. -/
  | attempt (now : Nat) (s : MapStore)

/-- The payloads of the parts, whether or not they were taken. -/
def received : List UploadCall → Bytes
  | [] => []
  | .part data :: calls => data ++ received calls
  | .attempt _ _ :: calls => received calls

namespace SealingUpload

/-- A caller that goes on after a call that failed. -/
inductive Goes (P : Platform) :
    SealingUpload × Trace → List UploadCall → SealingUpload × Trace → Prop where
  | nil {state : SealingUpload × Trace} : Goes P state [] state
  | part {state after : SealingUpload × Trace} {data : Bytes} {calls : List UploadCall} :
      Goes P (final ((putPart P data).run state)) calls after →
        Goes P state (.part data :: calls) after
  | attempt {state middle after : SealingUpload × Trace} {now : Nat} {s : MapStore}
      {e : UploadError} {calls : List UploadCall} :
      (complete P now s).run state = .error e middle → Goes P middle calls after →
        Goes P state (.attempt now s :: calls) after

end SealingUpload

/-! ## One block -/

section Block

variable (P : Platform) (f : BlockFrame)

/-- Nothing fails in sealing a block, where it draws its nonce as the `drawn`-th. -/
def BlockFrame.CanSeal (drawn index : Nat) (finalBlock : Bool) (m : Bytes) : Prop :=
  ∃ nonce key, P.fill drawn NONCE_LEN = some nonce ∧ f.keys[f.current]? = some key ∧
    (P.encrypt key nonce (associatedData f.current index finalBlock) m).isSome

/-- Nothing fails in sealing `count` blocks of `p`, the first of them at `first` and with the
`drawn`-th nonce. -/
def AllSeal (p : Bytes) (drawn first count : Nat) : Prop :=
  ∀ i < count, f.CanSeal P (drawn + i) (first + i) false
    (slice ((first + i) * f.blockSize.get) ((first + i + 1) * f.blockSize.get) p)

/-- No seal of a part fails, and no `complete` does but on a block boundary after a part.  Every
block and every failed `complete` draws once. -/
def Intact : Bool → Bytes → Nat → List UploadCall → Prop
  | _, _, _, [] => True
  | _, p, drawn, .part data :: calls =>
    let first := p.length / f.blockSize.get
    let count := (p ++ data).length / f.blockSize.get - first
    AllSeal P f (p ++ data) drawn first count ∧ Intact true (p ++ data) (drawn + count) calls
  | started, p, drawn, .attempt _ _ :: calls =>
    started = true ∧ p.length % f.blockSize.get = 0 ∧ Intact started p (drawn + 1) calls

variable {P f}

/-- Sealing a block, step by step. -/
theorem BlockFrame.sealBlock_run (m : Bytes) (index : Nat) (finalBlock : Bool) (t : Trace) :
    (f.sealBlock P m index finalBlock).run t =
      match P.fill t.draws NONCE_LEN with
      | none => .error .random { t with draws := t.draws + 1 }
      | some nonce =>
        match f.keys[f.current]? with
        | none => .error (.unknownKey f.current) { t with draws := t.draws + 1 }
        | some key =>
          let aad := associatedData f.current index finalBlock
          match P.encrypt key nonce aad m with
          | none => .error .cipher { t with draws := t.draws + 1 }
          | some ct =>
            .ok (nonce.1 ++ ct) ⟨t.draws + 1, t.sealings ++ [⟨key, nonce, aad, m, ct⟩]⟩ := by
  unfold BlockFrame.sealBlock BlockFrame.cipher
  rw [EStateM.run_bind]
  unfold draw EStateM.run
  dsimp only
  cases P.fill t.draws NONCE_LEN with
  | none => rfl
  | some nonce =>
    cases f.keys[f.current]? with
    | none => rfl
    | some key =>
      show EStateM.bind (encryptWith P key nonce _ m FrameError.cipher) _ _ = _
      unfold encryptWith EStateM.bind
      dsimp only
      cases P.encrypt key nonce (associatedData f.current index finalBlock) m <;> rfl

/-- A seal succeeds where nothing in it fails, and draws once either way. -/
theorem BlockFrame.sealBlock_cases (m : Bytes) (index : Nat) (finalBlock : Bool) (t : Trace) :
    (f.CanSeal P t.draws index finalBlock m ∧
        ∃ out t', (f.sealBlock P m index finalBlock).run t = .ok out t' ∧
          t'.draws = t.draws + 1) ∨
      (¬f.CanSeal P t.draws index finalBlock m ∧
        ∃ e t', (f.sealBlock P m index finalBlock).run t = .error e t' ∧
          t'.draws = t.draws + 1) := by
  rw [BlockFrame.sealBlock_run]
  unfold BlockFrame.CanSeal
  cases P.fill t.draws NONCE_LEN with
  | none => exact .inr ⟨by simp, _, _, rfl, rfl⟩
  | some nonce =>
    cases f.keys[f.current]? with
    | none => exact .inr ⟨by simp, _, _, rfl, rfl⟩
    | some key =>
      dsimp only
      cases hencrypt : P.encrypt key nonce (associatedData f.current index finalBlock) m with
      | none => exact .inr ⟨by simp [hencrypt], _, _, rfl, rfl⟩
      | some ct => exact .inl ⟨by simp [hencrypt], _, _, rfl, rfl⟩

/-- A sealed block is as long as what it seals, its nonce and its tag. -/
theorem BlockFrame.sealBlock_length (hP : P.Correct) {m out : Bytes} {index : Nat}
    {finalBlock : Bool} {t t' : Trace}
    (h : (f.sealBlock P m index finalBlock).run t = .ok out t') :
    out.length = m.length + BLOCK_OVERHEAD := by
  obtain ⟨s, -, rfl, hs⟩ := BlockFrame.sealBlock_ok h
  have hnonce := s.nonce.2
  have hct := hP.length hs.encrypted
  have hover : BLOCK_OVERHEAD = NONCE_LEN + TAG_LEN := rfl
  rw [hs.msg] at hct
  rw [Sealing.block, List.length_append]
  omega

end Block

namespace SealingUpload

variable {P : Platform} {f : BlockFrame} {p : Bytes} {ss : List Sealing} {u u' : SealingUpload}
  {t t' : Trace} {location : Path}

/-! ## The loop -/

theorem onFrame_error {α : Type} {x : EStateM FrameError Trace α} {e : FrameError}
    (h : x.run t = .error e t') :
    (onFrame location x).run (u, t) = .error (.store (.frame location e)) (u, t') := by
  unfold EStateM.run at h
  unfold onFrame EStateM.run
  simp only [h]

/-- Less than a block is left alone. -/
theorem drainLoop_short (fuel : Nat) (out : Bytes) (h : u.pending.length < u.frame.blockSize.get) :
    (drainLoop P fuel out).run (u, t) = .ok out (u, t) := by
  cases fuel with
  | zero => rfl
  | succ fuel =>
    unfold drainLoop
    refine bind_ok.2 ⟨u, (u, t), rfl, ?_⟩
    dsimp only
    rw [if_neg (by omega)]
    rfl

/-- A block that is sealed, and the rest of the loop. -/
theorem drainLoop_seal (fuel : Nat) (out : Bytes) {sealed : Bytes} (hframe : u.frame = f)
    (hfull : f.blockSize.get ≤ u.pending.length)
    (hseal : (f.sealBlock P (u.pending.take f.blockSize.get) u.nextIndex false).run t =
      .ok sealed t') :
    (drainLoop P (fuel + 1) out).run (u, t) = (drainLoop P fuel (out ++ sealed)).run
      ({ u with pending := u.pending.drop f.blockSize.get, nextIndex := u.nextIndex + 1 }, t') := by
  subst hframe
  rw [drainLoop, EStateM.run_bind, run_upload]
  dsimp only
  rw [if_pos hfull, EStateM.run_bind, run_setUpload]
  dsimp only
  rw [EStateM.run_bind, onFrame_ok.2 ⟨t', hseal, rfl⟩]
  rfl

/-- A block that is not sealed is gone. -/
theorem drainLoop_lose (fuel : Nat) (out : Bytes) {e : FrameError} (hframe : u.frame = f)
    (hfull : f.blockSize.get ≤ u.pending.length)
    (hseal : (f.sealBlock P (u.pending.take f.blockSize.get) u.nextIndex false).run t =
      .error e t') :
    (drainLoop P (fuel + 1) out).run (u, t) = .error (.store (.frame u.location e))
      ({ u with pending := u.pending.drop f.blockSize.get }, t') := by
  subst hframe
  rw [drainLoop, EStateM.run_bind, run_upload]
  dsimp only
  rw [if_pos hfull, EStateM.run_bind, run_setUpload]
  dsimp only
  rw [EStateM.run_bind, onFrame_error hseal]

theorem allSeal_succ {drawn first count : Nat} : AllSeal P f p drawn first (count + 1) ↔
    f.CanSeal P drawn first false
        (slice (first * f.blockSize.get) ((first + 1) * f.blockSize.get) p) ∧
      AllSeal P f p (drawn + 1) (first + 1) count := by
  unfold AllSeal
  constructor
  · intro h
    refine ⟨h 0 (by omega), fun i hi => ?_⟩
    have := h (i + 1) (by omega)
    rwa [show drawn + (i + 1) = drawn + 1 + i by omega,
      show first + (i + 1) = first + 1 + i by omega] at this
  · rintro ⟨hfirst, hrest⟩ i hi
    cases i with
    | zero => exact hfirst
    | succ i =>
      have := hrest i (by omega)
      rwa [show drawn + 1 + i = drawn + (i + 1) by omega,
        show first + 1 + i = first + (i + 1) by omega] at this

/-- The next full block of what is pending. -/
theorem Holds.take_pending (h : Holds P f p ss u) :
    u.pending.take f.blockSize.get =
      slice (ss.length * f.blockSize.get) ((ss.length + 1) * f.blockSize.get) p := by
  rw [h.pending, Nat.add_mul, Nat.one_mul]
  unfold slice
  rw [List.drop_take, Nat.add_sub_cancel_left]

/-- **The loop fails** exactly where one of the blocks cannot be sealed, and then at least that one
is gone. -/
theorem drainLoop_cases {fuel : Nat} (out : Bytes) (t : Trace) (h : Holds P f p ss u)
    (hfuel : u.pending.length ≤ fuel) :
    (AllSeal P f p t.draws ss.length (u.pending.length / f.blockSize.get) ∧
        ∃ out' u' t', (drainLoop P fuel out).run (u, t) = .ok out' (u', t') ∧
          t'.draws = t.draws + u.pending.length / f.blockSize.get) ∨
      (¬AllSeal P f p t.draws ss.length (u.pending.length / f.blockSize.get) ∧
        ∃ e u' t', (drainLoop P fuel out).run (u, t) = .error e (u', t') ∧
          u'.pending.length < u.pending.length) := by
  have hB := f.blockSize.pos
  induction fuel generalizing u t ss out with
  | zero =>
    have hzero : u.pending.length / f.blockSize.get = 0 := by
      rw [Nat.le_zero.1 hfuel, Nat.zero_div]
    rw [hzero]
    exact .inl ⟨fun i hi => absurd hi (Nat.not_lt_zero i), _, _, _, rfl, rfl⟩
  | succ fuel ih =>
    by_cases hfull : f.blockSize.get ≤ u.pending.length
    · have hcount : u.pending.length / f.blockSize.get =
          (u.pending.length - f.blockSize.get) / f.blockSize.get + 1 := by
        rw [Nat.div_eq_sub_div hB hfull]
      rw [hcount, allSeal_succ, ← h.take_pending]
      rcases f.sealBlock_cases (P := P) (u.pending.take f.blockSize.get) u.nextIndex false t with
        ⟨hcan, sealed, t1, hseal, hdraws⟩ | ⟨hcannot, e, t1, hseal, -⟩
      · obtain ⟨s, -, -, hs⟩ := BlockFrame.sealBlock_ok hseal
        have hnext := h.seal hfull hs
        rw [drainLoop_seal fuel out h.frame hfull hseal]
        have hless : (u.pending.drop f.blockSize.get).length ≤ fuel := by
          rw [List.length_drop]
          omega
        have hrest := ih (out ++ sealed) t1 hnext hless
        rw [h.index] at hcan
        simp only [List.length_append, List.length_singleton, List.length_drop, hdraws] at hrest
        rcases hrest with ⟨hall, out', u', t', hok, hdrawn⟩ | ⟨hnot, e, u', t', herror, hless⟩
        · exact .inl ⟨⟨hcan, hall⟩, out', u', t', hok, by omega⟩
        · exact .inr ⟨fun hall => hnot hall.2, e, u', t', herror, by omega⟩
      · rw [h.index] at hcannot
        refine .inr ⟨fun hall => hcannot hall.1, _, _, _,
          drainLoop_lose fuel out h.frame hfull hseal, ?_⟩
        show (u.pending.drop f.blockSize.get).length < u.pending.length
        rw [List.length_drop]
        omega
    · have hzero : u.pending.length / f.blockSize.get = 0 := Nat.div_eq_of_lt (by omega)
      rw [hzero]
      have hshort : u.pending.length < u.frame.blockSize.get := by
        rw [h.frame]
        omega
      exact .inl ⟨fun i hi => absurd hi (Nat.not_lt_zero i), out, u, t,
        drainLoop_short _ out hshort, rfl⟩

/-! ## What is handed over, and what is left -/

/-- The rest of an upload stays, and no more is pending. -/
def Shrinks (before after : SealingUpload × Trace) : Prop :=
  after.1.inner = before.1.inner ∧ after.1.frame = before.1.frame ∧
    after.1.headerSent = before.1.headerSent ∧
    after.1.pending.length ≤ before.1.pending.length

instance : Std.Refl Shrinks := ⟨fun _ => ⟨rfl, rfl, rfl, Nat.le_refl _⟩⟩

instance : IsTrans (SealingUpload × Trace) Shrinks :=
  ⟨fun _ _ _ h h' => ⟨h'.1.trans h.1, h'.2.1.trans h.2.1, h'.2.2.1.trans h.2.2.1,
    h'.2.2.2.trans h.2.2.2⟩⟩

theorem onFrame_shrinks {α : Type} (x : EStateM FrameError Trace α) :
    Keeps Shrinks (onFrame location x) := by
  rintro ⟨u, t⟩
  unfold onFrame EStateM.run
  dsimp only
  cases x t <;> exact ⟨rfl, rfl, rfl, Nat.le_refl _⟩

theorem drainLoop_shrinks (fuel : Nat) (out : Bytes) : Keeps Shrinks (drainLoop P fuel out) := by
  induction fuel generalizing out with
  | zero => exact Keeps.pure _
  | succ fuel ih =>
    have hupload : Keeps Shrinks upload := fun state => ⟨rfl, rfl, rfl, Nat.le_refl _⟩
    refine hupload.bind fun u => ?_
    dsimp only
    split_ifs
    · have hdrop : Keeps Shrinks (setUpload fun w =>
          { w with pending := w.pending.drop u.frame.blockSize.get }) :=
        fun state => ⟨rfl, rfl, rfl, by simp⟩
      have hcount : Keeps Shrinks (setUpload fun w => { w with nextIndex := w.nextIndex + 1 }) :=
        fun state => ⟨rfl, rfl, rfl, Nat.le_refl _⟩
      exact hdrop.bind fun _ => (onFrame_shrinks _).bind fun sealed => hcount.bind fun _ =>
        ih (out ++ sealed)
    · exact Keeps.pure _

/-- The loop, where it succeeds, hands over as many blocks as it takes off what is pending. -/
theorem drainLoop_lengths (hP : P.Correct) {fuel : Nat} {out out' : Bytes} (hframe : u.frame = f)
    (hfuel : u.pending.length ≤ fuel)
    (hrun : (drainLoop P fuel out).run (u, t) = .ok out' (u', t')) :
    ∃ n, out'.length = out.length + n * f.sealedBlockLen ∧
      u'.pending.length + n * f.blockSize.get = u.pending.length ∧
      u'.pending.length < f.blockSize.get := by
  have hB := f.blockSize.pos
  have hstride := f.stride_eq
  induction fuel generalizing u t out with
  | zero =>
    cases hrun
    exact ⟨0, by simp, by simp, by omega⟩
  | succ fuel ih =>
    by_cases hfull : f.blockSize.get ≤ u.pending.length
    · rcases f.sealBlock_cases (P := P) (u.pending.take f.blockSize.get) u.nextIndex false t with
        ⟨-, sealed, t1, hseal, -⟩ | ⟨-, e, t1, hseal, -⟩
      · rw [drainLoop_seal fuel out hframe hfull hseal] at hrun
        have hlength := BlockFrame.sealBlock_length hP hseal
        rw [List.length_take, Nat.min_eq_left hfull] at hlength
        have hfewer : (u.pending.drop f.blockSize.get).length ≤ fuel := by
          rw [List.length_drop]
          omega
        obtain ⟨n, hout, hpending, hless⟩ := ih (u := { u with
          pending := u.pending.drop f.blockSize.get, nextIndex := u.nextIndex + 1 }) hframe
          hfewer hrun
        simp only [List.length_drop, List.length_append] at hout hpending
        refine ⟨n + 1, ?_, ?_, hless⟩
        · rw [hout, hlength, hstride, Nat.add_mul, Nat.one_mul]
          omega
        · rw [Nat.add_mul, Nat.one_mul]
          omega
      · rw [drainLoop_lose fuel out hframe hfull hseal] at hrun
        cases hrun
    · rw [drainLoop_short _ out (by rw [hframe]; omega)] at hrun
      cases hrun
      exact ⟨0, by simp, by simp, by omega⟩

/-! ## Nothing lost, and something lost -/

/-- Of the bytes received all but the last part of a block are sealed and handed over. -/
structure Exact (P : Platform) (f : BlockFrame) (location : Path) (started : Bool) (p : Bytes)
    (u : SealingUpload) : Prop where
  kept : ∃ ss, Holds P f p ss u ∧ Handed f location ss u
  started : u.headerSent = started
  short : u.pending.length < f.blockSize.get

/-- What was handed over and what is pending is less than `n` bytes make. -/
structure Short (f : BlockFrame) (location : Path) (n : Nat) (u : SealingUpload) : Prop where
  frame : u.frame = f
  location : u.inner.location = location
  sent : u.headerSent = true
  lost : ∃ blocks, blocks * f.blockSize.get + u.pending.length ≤ n ∧
    u.inner.parts.flatten.length ≤ HEADER_LEN + blocks * f.sealedBlockLen ∧
    (blocks * f.blockSize.get + u.pending.length < n ∨
      u.inner.parts.flatten.length < HEADER_LEN + blocks * f.sealedBlockLen)

theorem new_exact (attributes : List (String × String)) :
    Exact P f location false [] (new ⟨location, attributes, []⟩ f location) where
  kept := ⟨[], new_holds _, rfl, rfl, fun _ => rfl⟩
  started := rfl
  short := f.blockSize.pos

/-- How many blocks are sealed. -/
theorem Holds.count (h : Holds P f p ss u) (hshort : u.pending.length < f.blockSize.get) :
    ss.length = p.length / f.blockSize.get ∧ u.pending.length = p.length % f.blockSize.get := by
  have hlen := h.pending_length
  have hwithin := h.within
  have hp : p.length = u.pending.length + f.blockSize.get * ss.length := by
    rw [Nat.mul_comm]
    omega
  rw [hp, Nat.add_mul_div_left _ _ f.blockSize.pos, Nat.div_eq_of_lt hshort,
    Nat.add_mul_mod_self_left, Nat.mod_eq_of_lt hshort]
  omega

/-- What was handed over while nothing was lost. -/
theorem Handed.length_le (hP : P.Correct) (h : Holds P f p ss u) (hh : Handed f location ss u) :
    u.inner.parts.flatten.length =
      (if u.headerSent then HEADER_LEN else 0) + ss.length * f.sealedBlockLen := by
  have hB := f.blockSize.pos
  have hblock : ∀ b ∈ ss.map Sealing.block, b.length = f.sealedBlockLen := by
    intro b hb
    obtain ⟨s, hs, rfl⟩ := List.mem_map.1 hb
    obtain ⟨i, hi⟩ := List.getElem?_of_mem hs
    have hseals := h.blocks i s hi
    have hct := hP.length hseals.encrypted
    have hnonce := s.nonce.2
    have hless := Nat.mul_le_mul_right f.blockSize.get
      (show i + 1 ≤ ss.length from (List.getElem?_eq_some_iff.1 hi).1)
    have hwithin := h.within
    have hover : BLOCK_OVERHEAD = NONCE_LEN + TAG_LEN := rfl
    have hmsg : s.msg.length = f.blockSize.get := by
      rw [hseals.msg, length_slice, Nat.min_eq_left (by omega), Nat.add_mul, Nat.one_mul]
      omega
    rw [Sealing.block, List.length_append, f.stride_eq]
    omega
  have hflat : (ss.map Sealing.block).flatten.length = ss.length * f.sealedBlockLen := by
    rw [List.length_flatten, List.map_congr_left hblock, List.map_const', List.length_map,
      List.sum_replicate_nat]
  rw [hh.parts, List.length_append, hflat]
  split_ifs
  · rw [f.header_length]
  · rfl

/-! ## One call -/

theorem drainFullBlocks_run (u : SealingUpload) (t : Trace) :
    (drainFullBlocks P).run (u, t) =
      (drainLoop P u.pending.length (if u.headerSent then [] else u.frame.header)).run
        ({ u with headerSent := true }, t) := rfl

/-- A part whose full blocks are sealed hands them over. -/
theorem putPart_of_drain {data out : Bytes}
    (hdrain : (drainFullBlocks P).run ({ u with pending := u.pending ++ data }, t) =
      .ok out (u', t')) :
    (putPart P data).run (u, t) =
      .ok ⟨⟩ (if out = [] then u' else { u' with inner := u'.inner.putPart out }, t') := by
  unfold putPart
  refine bind_ok.2 ⟨⟨⟩, _, run_setUpload _ _, bind_ok.2 ⟨out, _, hdrain, ?_⟩⟩
  split_ifs <;> rfl

/-- The state after a part, whether or not it failed. -/
theorem final_putPart (data : Bytes) (u : SealingUpload) (t : Trace) :
    final ((putPart P data).run (u, t)) =
      match (drainFullBlocks P).run ({ u with pending := u.pending ++ data }, t) with
      | .ok sealed (u', t') =>
        (if sealed = [] then u' else { u' with inner := u'.inner.putPart sealed }, t')
      | .error _ state => state := by
  cases hdrain : (drainFullBlocks P).run ({ u with pending := u.pending ++ data }, t) with
  | error e state =>
    unfold putPart
    rw [EStateM.run_bind, run_setUpload]
    dsimp only
    rw [EStateM.run_bind, hdrain]
    rfl
  | ok sealed state =>
    obtain ⟨u', t'⟩ := state
    rw [putPart_of_drain hdrain]
    rfl

/-- The blocks that more bytes make are the full blocks of what is pending. -/
theorem Holds.newBlocks {data : Bytes} (h : Holds P f (p ++ data) ss u)
    (hcount : ss.length = p.length / f.blockSize.get) :
    (p ++ data).length / f.blockSize.get - p.length / f.blockSize.get =
      u.pending.length / f.blockSize.get := by
  have hlen := h.pending_length
  have hwithin := h.within
  have hp : (p ++ data).length = u.pending.length + f.blockSize.get * ss.length := by
    rw [Nat.mul_comm]
    omega
  rw [hp, Nat.add_mul_div_left _ _ f.blockSize.pos, ← hcount, Nat.add_sub_cancel]

/-- A part whose full blocks are sealed loses nothing. -/
theorem Exact.of_drain {started : Bool} (h : Exact P f location started p u) {data out : Bytes}
    (hdrain : (drainFullBlocks P).run ({ u with pending := u.pending ++ data }, t) =
      .ok out (u', t')) :
    Exact P f location true (p ++ data)
      (if out = [] then u' else { u' with inner := u'.inner.putPart out }) := by
  obtain ⟨ss, hholds, hhanded⟩ := h.kept
  obtain ⟨ss', hholds', hhanded', -⟩ := putPart_ok hholds hhanded (putPart_of_drain hdrain)
  obtain ⟨-, -, hshort, -, -, -, hstarted⟩ := drainFullBlocks_ok (hholds.receive data) hdrain
  refine ⟨⟨_, hholds', hhanded'⟩, ?_, ?_⟩
  · split_ifs <;> exact hstarted
  · split_ifs <;> exact hshort

/-- Neither does a part that succeeds. -/
theorem Exact.putPart_ok {started : Bool} (h : Exact P f location started p u) {data : Bytes}
    {x : PUnit} (hrun : (putPart P data).run (u, t) = .ok x (u', t')) :
    Exact P f location true (p ++ data) u' := by
  obtain ⟨_, s0, hset, h0⟩ := bind_ok.1 hrun
  rw [run_setUpload] at hset
  cases hset
  obtain ⟨out, ⟨u1, t1⟩, hdrain, -⟩ := bind_ok.1 h0
  rw [putPart_of_drain hdrain] at hrun
  cases hrun
  exact h.of_drain hdrain

theorem Exact.part (hP : P.Correct) {started : Bool} (h : Exact P f location started p u)
    (data : Bytes) (t : Trace) :
    (AllSeal P f (p ++ data) t.draws (p.length / f.blockSize.get)
          ((p ++ data).length / f.blockSize.get - p.length / f.blockSize.get) ∧
        Exact P f location true (p ++ data) (final ((putPart P data).run (u, t))).1 ∧
        (final ((putPart P data).run (u, t))).2.draws =
          t.draws + ((p ++ data).length / f.blockSize.get - p.length / f.blockSize.get)) ∨
      (¬AllSeal P f (p ++ data) t.draws (p.length / f.blockSize.get)
          ((p ++ data).length / f.blockSize.get - p.length / f.blockSize.get) ∧
        Short f location (p ++ data).length (final ((putPart P data).run (u, t))).1) := by
  obtain ⟨ss, hholds, hhanded⟩ := h.kept
  obtain ⟨hcount, -⟩ := hholds.count h.short
  have hreceived := hholds.receive data
  let marked : SealingUpload := { u with pending := u.pending ++ data, headerSent := true }
  have hmarked : Holds P f (p ++ data) ss marked :=
    ⟨hreceived.frame, hreceived.index, hreceived.within, hreceived.pending, hreceived.blocks⟩
  rw [hmarked.newBlocks hcount, ← hcount]
  rcases drainLoop_cases (if u.headerSent then [] else u.frame.header) t hmarked
    (Nat.le_refl _) with ⟨hall, out, u', t', hrun, hdraws⟩ | ⟨hnot, e, u', t', hrun, hless⟩
  · refine .inl ⟨hall, ?_⟩
    have hdrain : (drainFullBlocks P).run ({ u with pending := u.pending ++ data }, t) =
        .ok out (u', t') := hrun
    rw [putPart_of_drain hdrain, final_ok]
    exact ⟨h.of_drain hdrain, hdraws⟩
  · refine .inr ⟨hnot, ?_⟩
    have hdrain : (drainFullBlocks P).run ({ u with pending := u.pending ++ data }, t) =
        .error e (u', t') := hrun
    obtain ⟨hinner, hframe, hsent, -⟩ := (drainLoop_shrinks _ _).fails _ _ _ hrun
    dsimp only at hinner hframe hsent
    rw [final_putPart, hdrain]
    dsimp only
    have hlen := hmarked.pending_length
    have hwithin := hmarked.within
    have hgiven := hhanded.length_le hP hholds
    refine ⟨hframe.trans hmarked.frame, ?_, hsent, ss.length, ?_, ?_, .inl ?_⟩
    · rw [hinner]
      exact hhanded.location
    · omega
    · rw [hinner]
      show u.inner.parts.flatten.length ≤ _
      rw [hgiven]
      split_ifs <;> omega
    · omega

/-- Where something is lost, it stays lost while nothing more is handed over. -/
theorem Short.shrunk {n : Nat} (h : Short f location n u) (more : Nat)
    (hinner : u'.inner = u.inner) (hframe : u'.frame = u.frame) (hsent : u'.headerSent = true)
    (hless : u'.pending.length ≤ u.pending.length + more) : Short f location (n + more) u' := by
  obtain ⟨blocks, hpending, hgiven, hlost⟩ := h.lost
  refine ⟨hframe.trans h.frame, ?_, hsent, blocks, ?_, ?_, ?_⟩
  · rw [hinner]
    exact h.location
  · omega
  · rw [hinner]
    exact hgiven
  · rw [hinner]
    omega

/-- What a part leaves where something is lost. -/
theorem Short.part (hP : P.Correct) {n : Nat} (h : Short f location n u) (data : Bytes)
    (t : Trace) :
    Short f location (n + data.length) (final ((putPart P data).run (u, t))).1 := by
  have hshort := h
  obtain ⟨hframe, hlocation, hsent, blocks, hpending, hgiven, hlost⟩ := h
  have hB := f.blockSize.pos
  let marked : SealingUpload := { u with pending := u.pending ++ data, headerSent := true }
  have hlength : marked.pending.length = u.pending.length + data.length := List.length_append
  have hdrained : (drainFullBlocks P).run ({ u with pending := u.pending ++ data }, t) =
      (drainLoop P marked.pending.length []).run (marked, t) := by
    rw [drainFullBlocks_run]
    dsimp only
    rw [hsent]
    rfl
  rw [final_putPart, hdrained]
  cases hrun : (drainLoop P marked.pending.length []).run (marked, t) with
  | error e state =>
    obtain ⟨hinner, hframe', hsent', hless⟩ := (drainLoop_shrinks _ _).fails _ _ _ hrun
    exact hshort.shrunk data.length hinner hframe' hsent' (hless.trans hlength.le)
  | ok out state =>
    obtain ⟨u', t'⟩ := state
    obtain ⟨hinner, hframe', hsent', -⟩ := (drainLoop_shrinks _ _).reaches _ _ _ hrun
    dsimp only at hinner hframe' hsent'
    obtain ⟨more, hout, hleft, -⟩ := drainLoop_lengths hP (u := marked) (f := f) hframe
      (Nat.le_refl _) hrun
    rw [List.length_nil, Nat.zero_add] at hout
    have hparts : (u'.inner.putPart out).parts.flatten.length =
        u.inner.parts.flatten.length + more * f.sealedBlockLen := by
      unfold MapUpload.putPart
      rw [hinner]
      simp [hout, marked]
    dsimp only
    split_ifs with hempty
    · have hnone : more * f.sealedBlockLen = 0 := by
        rw [← hout, hempty]
        rfl
      have hzero : more = 0 := by
        rcases Nat.mul_eq_zero.1 hnone with h | h
        · exact h
        · have := f.stride_pos
          omega
      subst hzero
      refine ⟨hframe'.trans hframe, ?_, hsent', blocks, ?_, ?_, ?_⟩
      · rw [hinner]
        exact hlocation
      · omega
      · rw [hinner]
        exact hgiven
      · rw [hinner]
        show _ ∨ u.inner.parts.flatten.length < _
        omega
    · refine ⟨hframe'.trans hframe, ?_, hsent', blocks + more, ?_, ?_, ?_⟩
      · show u'.inner.location = location
        rw [hinner]
        exact hlocation
      · rw [Nat.add_mul]
        dsimp only
        omega
      · rw [Nat.add_mul]
        dsimp only
        omega
      · rw [Nat.add_mul, Nat.add_mul]
        dsimp only
        omega

/-- Where a `complete` fails: in the blocks that are drained, or in the final one. -/
theorem complete_error {now : Nat} {s : MapStore} {e : UploadError}
    (hrun : (complete P now s).run (u, t) = .error e (u', t')) :
    (∃ e', (drainFullBlocks P).run (u, t) = .error e' (u', t')) ∨
      ∃ tail u1 t1 e', (drainFullBlocks P).run (u, t) = .ok tail (u1, t1) ∧
        (u1.frame.sealBlock P u1.pending u1.nextIndex true).run t1 = .error e' t' ∧
        u' = { u1 with pending := [] } := by
  unfold complete at hrun
  rcases bind_error.1 hrun with hdrain | ⟨tail, ⟨u1, t1⟩, hdrain, h1⟩
  · refine .inl ?_
    unfold presented EStateM.run at hdrain
    unfold EStateM.run
    cases hx : drainFullBlocks P (u, t) with
    | ok a state =>
      simp only [hx] at hdrain
      cases hdrain
    | error e' state =>
      simp only [hx] at hdrain
      cases hdrain
      exact ⟨e', rfl⟩
  · refine .inr ⟨tail, u1, t1, ?_⟩
    rcases bind_error.1 h1 with hget | ⟨u2, s2, hget, h2⟩
    · cases hget
    rw [run_upload] at hget
    cases hget
    rcases bind_error.1 h2 with hset | ⟨_, s3, hset, h3⟩
    · cases hset
    rw [run_setUpload] at hset
    cases hset
    rcases bind_error.1 h3 with hseal | ⟨sealed, s4, -, h4⟩
    · dsimp only at hseal
      unfold onFrame EStateM.run at hseal
      dsimp only at hseal
      cases hx : (u1.frame.sealBlock P u1.pending u1.nextIndex true) t1 with
      | ok a t2 =>
        rw [hx] at hseal
        cases hseal
      | error e' t2 =>
        rw [hx] at hseal
        cases hseal
        exact ⟨e', presented_ok.1 hdrain, hx, rfl⟩
    · rcases bind_error.1 h4 with hset | ⟨_, s5, hset, h5⟩
      · cases hset
      rcases bind_error.1 h5 with hset | ⟨_, s6, hset, h6⟩
      · cases hset
      rcases bind_error.1 h6 with hget | ⟨_, s7, hget, h7⟩
      · cases hget
      · cases h7

/-- **A final block that is not sealed** takes what was pending, and the header where it was not
sent before, with it. -/
theorem Exact.attempt_left {started : Bool} (h : Exact P f location started p u) {now : Nat}
    {s : MapStore} {e : UploadError}
    (hrun : (complete P now s).run (u, t) = .error e (u', t')) :
    u' = { u with headerSent := true, pending := [] } ∧ t'.draws = t.draws + 1 := by
  obtain ⟨ss, hholds, -⟩ := h.kept
  let marked : SealingUpload := { u with headerSent := true }
  have hshort : marked.pending.length < marked.frame.blockSize.get := by
    rw [show marked.frame = f from hholds.frame]
    exact h.short
  have hdrain : (drainFullBlocks P).run (u, t) =
      .ok (if u.headerSent then [] else u.frame.header) (marked, t) := drainLoop_short _ _ hshort
  rcases complete_error hrun with ⟨e', herror⟩ | ⟨tail, u1, t1, e', hok, hseal, rfl⟩
  · rw [hdrain] at herror
    cases herror
  rw [hdrain] at hok
  cases hok
  refine ⟨rfl, ?_⟩
  rcases BlockFrame.sealBlock_cases (P := P) (f := marked.frame) marked.pending
    marked.nextIndex true t with ⟨-, out, t2, hsealed, -⟩ | ⟨-, e2, t2, hsealed, hdrawn⟩
  · rw [hsealed] at hseal
    cases hseal
  · rw [hsealed] at hseal
    cases hseal
    exact hdrawn

/-- On a block boundary, after a part, that is nothing. -/
theorem Exact.attempt_nothing {started : Bool} (h : Exact P f location started p u) {now : Nat}
    {s : MapStore} {e : UploadError}
    (hrun : (complete P now s).run (u, t) = .error e (u', t')) (hsent : u.headerSent = true)
    (hnil : u.pending = []) : u' = u := by
  obtain ⟨hleft, -⟩ := h.attempt_left hrun
  rw [hleft, ← hsent, ← hnil]

theorem Exact.attempt (hP : P.Correct) {started : Bool} (h : Exact P f location started p u)
    {now : Nat} {s : MapStore} {e : UploadError}
    (hrun : (complete P now s).run (u, t) = .error e (u', t')) :
    t'.draws = t.draws + 1 ∧
      ((started = true ∧ p.length % f.blockSize.get = 0 ∧ Exact P f location started p u') ∨
        (¬(started = true ∧ p.length % f.blockSize.get = 0) ∧ Short f location p.length u')) := by
  obtain ⟨ss, hholds, hhanded⟩ := h.kept
  obtain ⟨hcount, hpending⟩ := hholds.count h.short
  obtain ⟨hleft, hdraws⟩ := h.attempt_left hrun
  refine ⟨hdraws, ?_⟩
  by_cases hkept : started = true ∧ p.length % f.blockSize.get = 0
  · obtain ⟨hstarted, hboundary⟩ := hkept
    have hnil : u.pending = [] := List.eq_nil_of_length_eq_zero (by omega)
    rw [h.attempt_nothing hrun (h.started.trans hstarted) hnil]
    exact .inl ⟨hstarted, hboundary, h⟩
  · rw [hleft]
    refine .inr ⟨hkept, hholds.frame, hhanded.location, rfl, ss.length, ?_, ?_, ?_⟩
    · exact hholds.within
    · show u.inner.parts.flatten.length ≤ _
      rw [hhanded.length_le hP hholds]
      split_ifs <;> omega
    · show ss.length * f.blockSize.get + 0 < p.length ∨ u.inner.parts.flatten.length < _
      have hlen := hholds.pending_length
      have hheader : HEADER_LEN = 13 := rfl
      rw [hhanded.length_le hP hholds, h.started]
      by_cases hstarted : started = true
      · have hnot : p.length % f.blockSize.get ≠ 0 := fun hzero => hkept ⟨hstarted, hzero⟩
        omega
      · rw [if_neg hstarted]
        omega

/-- What a failed `complete` leaves where something is lost. -/
theorem Short.attempt {n : Nat} (h : Short f location n u) {now : Nat} {s : MapStore}
    {e : UploadError} (hrun : (complete P now s).run (u, t) = .error e (u', t')) :
    Short f location n u' := by
  rcases complete_error hrun with ⟨e', herror⟩ | ⟨tail, u1, t1, e', hok, -, rfl⟩
  · obtain ⟨hinner, hframe, hsent, hless⟩ := (drainLoop_shrinks _ _).fails _ _ _ herror
    exact h.shrunk 0 hinner hframe hsent hless
  · obtain ⟨hinner, hframe, hsent, -⟩ := (drainLoop_shrinks _ _).reaches _ _ _ hok
    exact h.shrunk 0 hinner hframe hsent (Nat.zero_le _)

/-- What completing an upload makes where something is lost. -/
theorem Short.complete (hP : P.Correct) {n : Nat} (h : Short f location n u) {now : Nat}
    {s s' : MapStore} {result : PutResult}
    (hrun : (complete P now s).run (u, t) = .ok (result, s') (u', t')) :
    (result, s') = s.completeUpload now u'.inner ∧ u'.inner.location = location ∧
      u'.inner.parts.flatten.length < f.sealedLen n := by
  obtain ⟨hframe, hlocation, hsent, blocks, hpending, hgiven, hlost⟩ := h
  obtain ⟨tail, sealed, u1, t1, hdrain, hblock, hparts, hstored⟩ :=
    SealingUpload.complete_parts hrun
  rw [drainFullBlocks_run, hsent, if_pos rfl] at hdrain
  obtain ⟨hinner, -⟩ := (drainLoop_shrinks _ _).reaches _ _ _ hdrain
  obtain ⟨more, hout, hleft, hless⟩ :=
    drainLoop_lengths hP (u := { u with headerSent := true }) hframe (Nat.le_refl _) hdrain
  have hsealed := BlockFrame.sealBlock_length hP hblock
  dsimp only at hinner hsealed hleft
  have hlength : (u1.inner.putPart (tail ++ sealed)).parts.flatten.length =
      u.inner.parts.flatten.length + more * f.sealedBlockLen +
        (u1.pending.length + BLOCK_OVERHEAD) := by
    unfold MapUpload.putPart
    dsimp only
    rw [List.flatten_concat, List.length_append, List.length_append, hinner, hout, hsealed,
      List.length_nil]
    omega
  -- As many blocks and as much of a tail as are there would make an object of this plaintext.
  have hmake : f.sealedLen ((blocks + more) * f.blockSize.get + u1.pending.length) =
      HEADER_LEN + blocks * f.sealedBlockLen + more * f.sealedBlockLen +
        (u1.pending.length + BLOCK_OVERHEAD) := by
    unfold BlockFrame.sealedLen
    rw [Nat.mul_comm (blocks + more), Nat.mul_add_div f.blockSize.pos, Nat.mul_add_mod,
      Nat.div_eq_of_lt hless, Nat.mod_eq_of_lt hless, Nat.add_zero, Nat.add_mul]
    omega
  refine ⟨hstored, ?_, ?_⟩
  · rw [hparts]
    show u1.inner.location = location
    rw [hinner]
    exact hlocation
  · rw [hparts, hlength]
    have hbound : (blocks + more) * f.blockSize.get + u1.pending.length ≤ n := by
      rw [Nat.add_mul]
      omega
    rcases hlost with hlost | hlost
    · have hfewer : (blocks + more) * f.blockSize.get + u1.pending.length < n := by
        rw [Nat.add_mul]
        omega
      have hgrow := f.sealedLen_lt hfewer
      omega
    · have hgrow := f.sealedLen_le hbound
      omega

/-! ## A run -/

/-- **Calls one after the other**: either nothing is lost, or something is and stays so. -/
theorem Goes.cases (hP : P.Correct) {state after : SealingUpload × Trace}
    {calls : List UploadCall} (hgoes : Goes P state calls after) {started : Bool} {p : Bytes}
    (h : Exact P f location started p state.1) :
    (Intact P f started p state.2.draws calls ∧
        ∃ started', Exact P f location started' (p ++ received calls) after.1) ∨
      (¬Intact P f started p state.2.draws calls ∧
        Short f location (p ++ received calls).length after.1) := by
  -- What was lost stays lost.
  have hlost : ∀ {state after : SealingUpload × Trace} {calls : List UploadCall} {n : Nat},
      Goes P state calls after → Short f location n state.1 →
        Short f location (n + (received calls).length) after.1 := by
    intro state after calls n hgoes
    induction hgoes generalizing n with
    | nil => exact fun h => h
    | @part state after data calls _ ih =>
      intro h
      have hrest := ih (h.part hP data state.2)
      rwa [Nat.add_assoc, ← List.length_append] at hrest
    | attempt hrun _ ih => exact fun h => ih (h.attempt hrun)
  induction hgoes generalizing started p with
  | nil => exact .inl ⟨trivial, started, by simpa [received] using h⟩
  | @part state after data calls hgoes ih =>
    rcases h.part hP data state.2 with ⟨hall, hexact, hdraws⟩ | ⟨hnot, hshort⟩
    · rcases ih hexact with ⟨hintact, started', hend⟩ | ⟨hbroken, hend⟩
      · rw [hdraws] at hintact
        rw [List.append_assoc] at hend
        exact .inl ⟨⟨hall, hintact⟩, started', hend⟩
      · rw [hdraws] at hbroken
        rw [List.append_assoc] at hend
        exact .inr ⟨fun hintact => hbroken hintact.2, hend⟩
    · have hend := hlost hgoes hshort
      rw [← List.length_append, List.append_assoc] at hend
      exact .inr ⟨fun hintact => hnot hintact.1, hend⟩
  | @attempt state middle after now s e calls hrun hgoes ih =>
    obtain ⟨hdraws, hcases⟩ := h.attempt hP hrun
    rcases hcases with ⟨hstarted, hboundary, hexact⟩ | ⟨hnot, hshort⟩
    · rcases ih hexact with ⟨hintact, hend⟩ | ⟨hbroken, hend⟩
      · rw [hdraws] at hintact
        exact .inl ⟨⟨hstarted, hboundary, hintact⟩, hend⟩
      · rw [hdraws] at hbroken
        exact .inr ⟨fun hintact => hbroken hintact.2.2, hend⟩
    · have hend := hlost hgoes hshort
      rw [← List.length_append] at hend
      exact .inr ⟨fun hintact => hnot ⟨hintact.1, hintact.2.1⟩, hend⟩

end SealingUpload

open SealingUpload

section Completed

variable {P : Platform} {e : EncryptingObjectStore} {location : Path}
  {attributes : List (String × String)} {calls : List UploadCall} {now : Nat} {s s' : MapStore}
  {t t1 t2 : Trace} {u1 u2 : SealingUpload} {result : PutResult}

/-- An object opens, and opens to these bytes. -/
def OpensTo (P : Platform) (e : EncryptingObjectStore) (s : MapStore) (location : Path)
    (p : Bytes) : Prop :=
  ∃ object, s.objects[location]? = some object ∧ e.frame.openWhole P object.data = .ok p

theorem getElem?_completeUpload {u : MapUpload}
    (hstored : (result, s') = s.completeUpload now u) (hlocation : u.location = location) :
    ∃ object, s'.objects[location]? = some object ∧ object.data = u.parts.flatten := by
  unfold MapStore.completeUpload at hstored
  cases hstored
  refine ⟨⟨u.parts.flatten, now, toString s.nextETag, u.attributes⟩, ?_, rfl⟩
  rw [hlocation]
  exact Std.ExtTreeMap.getElem?_insert_self

/-- **What a `complete` stores opens to all that was received** exactly where no block of a part
failed, and no `complete` failed but on a block boundary after a part. -/
theorem completed_opens_iff (hP : P.Correct)
    (hgoes : Goes P (e.putMultipartOpts location attributes, t) calls (u1, t1))
    (hcomplete : (SealingUpload.complete P now s).run (u1, t1) = .ok (result, s') (u2, t2)) :
    OpensTo P e s' location (received calls) ↔ Intact P e.frame false [] t.draws calls := by
  have hnew : Exact P e.frame location false [] (e.putMultipartOpts location attributes) :=
    new_exact attributes
  rcases hgoes.cases hP hnew with ⟨hintact, started, hexact⟩ | ⟨hbroken, hshort⟩
  · refine iff_of_true ?_ hintact
    obtain ⟨ss, hholds, hhanded⟩ := hexact.kept
    obtain ⟨key, ss', hs, -, hstored, hobject, hlocation⟩ :=
      complete_ok hholds hhanded hcomplete
    obtain ⟨object, hget, hdata⟩ := getElem?_completeUpload hstored hlocation
    rw [List.nil_append] at hs
    refine ⟨object, hget, ?_⟩
    rw [hdata, hobject]
    exact hs.openWhole (hP.opening hs)
  · refine iff_of_false ?_ hbroken
    rintro ⟨object, hget, hopen⟩
    obtain ⟨hstored, hlocation, hless⟩ := hshort.complete hP hcomplete
    obtain ⟨stored, hget', hdata⟩ := getElem?_completeUpload hstored hlocation
    cases hget.symm.trans hget'
    -- An object that opens is as long as the object of what it opens to.
    obtain ⟨len, _, _, _, hlen, -, -, -, -, hlength⟩ := BlockFrame.openWhole_ok.1 hopen
    have hsize := BlockFrame.plaintextLen_ok.1 hlen
    rw [hdata, ← hlength] at hsize
    rw [List.nil_append] at hless
    omega

end Completed

/-! ## A nonce that is not drawn -/

/-- A cipher whose random source fails once. -/
def Platform.failing (bad : Nat) : Platform :=
  { Platform.padding with
    fill := fun i len => if i = bad then none else Platform.padding.fill i len }

theorem Platform.failing_correct (bad : Nat) : (Platform.failing bad).Correct where
  opens {k n a _ _} h := Platform.padding_correct.opens (k := k) (n := n) (a := a) h
  length {k n a _ _} h := Platform.padding_correct.length (k := k) (n := n) (a := a) h

set_option maxRecDepth 8000 in
/-- The final block of 64 zeros is not sealed at first, and is sealed then. -/
theorem retried_upload_opens : ∃ (s' : MapStore),
    OpensTo (Platform.failing 1) emptyStore s' ["object"] (List.replicate 64 0) := by
  let calls : List UploadCall :=
    [.part (List.replicate 63 0), .part [0], .attempt 0 MapStore.empty]
  obtain ⟨u1, t1, hgoes, hcomplete⟩ : ∃ u1 t1, Goes (Platform.failing 1)
      (emptyStore.putMultipartOpts ["object"] [], Trace.empty) calls (u1, t1) ∧
      ∃ result s' state, (SealingUpload.complete (Platform.failing 1) 0 MapStore.empty).run
        (u1, t1) = .ok (result, s') state :=
    ⟨_, _, .part (.part (.attempt rfl .nil)), _, _, _, rfl⟩
  obtain ⟨result, s', ⟨u2, t2⟩, hcomplete⟩ := hcomplete
  refine ⟨s', (completed_opens_iff (Platform.failing_correct 1) hgoes hcomplete).2 ?_⟩
  have hone : AllSeal (Platform.failing 1) oneKeyFrame (List.replicate 63 0 ++ [0]) 0 0 1 := by
    intro i hi
    cases Nat.lt_one_iff.1 hi
    exact ⟨_, _, rfl, rfl, rfl⟩
  refine ⟨fun i hi => absurd hi (Nat.not_lt_zero i), hone, rfl, rfl, trivial⟩

set_option maxRecDepth 8000 in
/-- A block whose nonce was not drawn is gone, and the object opens without it. -/
theorem lost_block_opens :
    ¬ ∀ (P : Platform), P.Correct → ∀ (e : EncryptingObjectStore) (location : Path)
      (attributes : List (String × String)) (calls : List UploadCall) (now : Nat)
      (s s' : MapStore) (t t1 t2 : Trace) (u1 u2 : SealingUpload) (result : PutResult),
      Goes P (e.putMultipartOpts location attributes, t) calls (u1, t1) →
      (SealingUpload.complete P now s).run (u1, t1) = .ok (result, s') (u2, t2) →
      OpensTo P e s' location (received calls) := by
  intro hall
  let calls : List UploadCall := [.part [0], .part (List.replicate 63 0)]
  obtain ⟨u1, t1, hgoes, result, s', u2, t2, hcomplete, object, hget, hopen⟩ : ∃ u1 t1,
      Goes (Platform.failing 0) (emptyStore.putMultipartOpts ["object"] [], Trace.empty) calls
        (u1, t1) ∧ ∃ result s' u2 t2,
      (SealingUpload.complete (Platform.failing 0) 0 MapStore.empty).run (u1, t1) =
        .ok (result, s') (u2, t2) ∧ ∃ object, s'.objects[["object"]]? = some object ∧
      oneKeyFrame.openWhole (Platform.failing 0) object.data = .ok [] :=
    ⟨_, _, .part (.part .nil), _, _, _, _, rfl, _, rfl, rfl⟩
  obtain ⟨object', hget', hopen'⟩ := hall _ (Platform.failing_correct 0) emptyStore _ _ _ _ _ _ _ _
    _ _ _ _ hgoes hcomplete
  cases hget.symm.trans hget'
  cases hopen.symm.trans hopen'

end EuleDB.Crypto
