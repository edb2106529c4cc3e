import EuleDB.Crypto.RotatingStore
import EuleDB.Crypto.Wrapping

/-!
# Which keyfiles open

A wrapped key set is bound to the context of keyfiles, which nothing else that is sealed is.

* `Adds` — which encryptions a computation adds to those that were made, whatever its outcome.
* `KeyedStore.written` — the keyrings of a run whose key sets were sealed.
* `Keyring.Written` — the invariant: only their key sets are sealed in the context of keyfiles.
* `keyfile_opens_iff` — the bytes that open, under any passphrase, are the keyfiles of the run, up
  to a salt from which the passphrase derives the same key.
-/

set_option autoImplicit false

namespace EuleDB.Crypto

open Slice Effect Keyfile

variable {P : Platform}

/-! ## What is added to the encryptions -/

/-- The encryptions made meanwhile are all of one kind. -/
def Adds (p : Sealing → Prop) (t t' : Trace) : Prop :=
  ∃ ss, t'.sealings = t.sealings ++ ss ∧ ∀ s ∈ ss, p s

section Adds

variable {p : Sealing → Prop} {σ : Type}

instance : Std.Refl (Adds p) :=
  ⟨fun _ => ⟨[], (List.append_nil _).symm, fun _ hs => (List.not_mem_nil hs).elim⟩⟩

instance : IsTrans Trace (Adds p) := by
  refine ⟨fun t t' t'' h h' => ?_⟩
  obtain ⟨ss, hss, hp⟩ := h
  obtain ⟨ss', hss', hp'⟩ := h'
  refine ⟨ss ++ ss', by rw [hss', hss, List.append_assoc], fun s hs => ?_⟩
  rcases List.mem_append.1 hs with hs | hs
  · exact hp s hs
  · exact hp' s hs

theorem draw_adds {ε : Type} (len : Nat) (e : ε) : Keeps (Adds p) (draw P len e) := by
  intro t
  change Adds p t (final (draw P len e t))
  unfold draw
  cases P.fill t.draws len <;>
    exact ⟨[], (List.append_nil _).symm, fun _ hs => (List.not_mem_nil hs).elim⟩

theorem encryptWith_adds {ε : Type} (k : SecretKey) (n : Nonce) (aad msg : Bytes) (e : ε)
    (h : ∀ ct, p ⟨k, n, aad, msg, ct⟩) : Keeps (Adds p) (encryptWith P k n aad msg e) := by
  intro t
  change Adds p t (final (encryptWith P k n aad msg e t))
  unfold encryptWith
  cases P.encrypt k n aad msg with
  | none => exact Std.Refl.refl _
  | some ct =>
    refine ⟨[⟨k, n, aad, msg, ct⟩], rfl, fun s hs => ?_⟩
    cases List.mem_singleton.1 hs
    exact h ct

/-- The same of a computation that has another state beside. -/
def AddsBeside (p : Sealing → Prop) (s s' : σ × Trace) : Prop := Adds p s.2 s'.2

instance : Std.Refl (AddsBeside (σ := σ) p) := ⟨fun s => Std.Refl.refl s.2⟩

instance : IsTrans (σ × Trace) (AddsBeside p) :=
  ⟨fun s _ _ h h' => IsTrans.trans s.2 _ _ h h'⟩

end Adds

/-! ## Blocks -/

/-- Not sealed in the context of keyfiles. -/
def Sealing.Elsewhere (s : Sealing) : Prop := s.aad ≠ CONTEXT

/-- What a block is bound to is not the context of keyfiles: it is shorter. -/
theorem associatedData_ne_context (key : DataKeyId) (index : Nat) (finalBlock : Bool) :
    BlockFrame.associatedData key index finalBlock ≠ CONTEXT := by
  intro h
  have hlength := congrArg List.length h
  unfold BlockFrame.associatedData at hlength
  simp [CONTEXT] at hlength

namespace BlockFrame

variable (f : BlockFrame)

theorem sealBlock_adds (m : Bytes) (index : Nat) (finalBlock : Bool) :
    Keeps (Adds Sealing.Elsewhere) (f.sealBlock P m index finalBlock) := by
  refine Keeps.bind (draw_adds _ _) fun nonce => ?_
  refine Keeps.bind (Keeps.ofExcept _) fun key => ?_
  refine Keeps.bind (encryptWith_adds _ _ _ _ _ fun ct => ?_) fun ct => Keeps.pure _
  exact associatedData_ne_context _ _ _

theorem sealChunks_adds (key : SecretKey) (last index : Nat) (pieces : List Bytes) :
    Keeps (Adds Sealing.Elsewhere) (f.sealChunks P key last index pieces) := by
  induction pieces generalizing index with
  | nil => exact Keeps.pure _
  | cons chunk rest ih =>
    refine Keeps.bind (draw_adds _ _) fun nonce => ?_
    refine Keeps.bind (encryptWith_adds _ _ _ _ _ fun ct => ?_) fun ct => ?_
    · exact associatedData_ne_context _ _ _
    · exact Keeps.bind (ih _) fun out => Keeps.pure _

theorem seal_adds (plaintext : Bytes) :
    Keeps (Adds Sealing.Elsewhere) (f.seal P plaintext) :=
  Keeps.bind (Keeps.ofExcept _) fun key =>
    Keeps.bind (f.sealChunks_adds key _ _ _) fun _ => Keeps.pure _

end BlockFrame

theorem EncryptingObjectStore.step_adds (e : EncryptingObjectStore) (t : Trace) (op : StoreOp) :
    Adds Sealing.Elsewhere t (e.step P t op).2 := by
  cases op with
  | put now location payload options =>
    have hseal := e.frame.seal_adds (P := P) payload t
    unfold EncryptingObjectStore.step EncryptingObjectStore.putOpts
    dsimp only
    cases hrun : (e.frame.seal P payload).run t with
    | error err t' =>
      rw [hrun] at hseal
      exact hseal
    | ok c t' =>
      rw [hrun] at hseal
      simp only [bind, Except.bind]
      cases e.inner.putOpts now location c options <;> exact hseal
  | copy now src dst mode =>
    unfold EncryptingObjectStore.step
    dsimp only
    cases e.copyOpts now src dst mode <;> exact Std.Refl.refl _
  | delete locations => exact Std.Refl.refl _

namespace SealingUpload

theorem onFrame_adds {p : Sealing → Prop} {α : Type} {location : Path}
    {x : EStateM FrameError Trace α} (hx : Keeps (Adds p) x) :
    Keeps (AddsBeside p) (onFrame location x) := by
  rintro ⟨u, t⟩
  have hfirst := hx t
  unfold onFrame EStateM.run
  unfold EStateM.run at hfirst
  dsimp only
  cases hrun : x t <;> rw [hrun] at hfirst <;> exact hfirst

theorem setUpload_adds {p : Sealing → Prop} (g : SealingUpload → SealingUpload) :
    Keeps (AddsBeside p) (setUpload g) := fun state => Std.Refl.refl state.2

theorem upload_adds {p : Sealing → Prop} : Keeps (AddsBeside p) upload :=
  fun state => Std.Refl.refl state.2

theorem presented_adds {p : Sealing → Prop} {α : Type} {x : UploadM α}
    (hx : Keeps (AddsBeside p) x) : Keeps (AddsBeside p) (presented x) := by
  intro state
  have hfirst := hx state
  unfold EStateM.run at hfirst
  unfold presented EStateM.run
  dsimp only
  cases hrun : x state <;> rw [hrun] at hfirst <;> exact hfirst

theorem drainLoop_adds (fuel : Nat) (out : Bytes) :
    Keeps (AddsBeside Sealing.Elsewhere) (drainLoop P fuel out) := by
  induction fuel generalizing out with
  | zero => exact Keeps.pure _
  | succ fuel ih =>
    refine Keeps.bind upload_adds fun u => ?_
    dsimp only
    split_ifs
    · refine Keeps.bind (setUpload_adds _) fun _ => ?_
      refine Keeps.bind (onFrame_adds (u.frame.sealBlock_adds _ _ _)) fun sealed => ?_
      exact Keeps.bind (setUpload_adds _) fun _ => ih _
    · exact Keeps.pure _

theorem drainFullBlocks_adds : Keeps (AddsBeside Sealing.Elsewhere) (drainFullBlocks P) := by
  refine Keeps.bind upload_adds fun u => ?_
  exact Keeps.bind (setUpload_adds _) fun _ => drainLoop_adds _ _

theorem putPart_adds (data : Bytes) :
    Keeps (AddsBeside Sealing.Elsewhere) (putPart P data) := by
  refine Keeps.bind (setUpload_adds _) fun _ => ?_
  refine Keeps.bind drainFullBlocks_adds fun sealed => ?_
  split_ifs
  · exact Keeps.pure _
  · exact setUpload_adds _

theorem complete_adds (now : Nat) (s : MapStore) :
    Keeps (AddsBeside Sealing.Elsewhere) (complete P now s) := by
  refine Keeps.bind (presented_adds drainFullBlocks_adds) fun tail => ?_
  refine Keeps.bind upload_adds fun u => ?_
  refine Keeps.bind (setUpload_adds _) fun _ => ?_
  refine Keeps.bind (onFrame_adds (u.frame.sealBlock_adds _ _ _)) fun sealed => ?_
  refine Keeps.bind (setUpload_adds _) fun _ => ?_
  refine Keeps.bind (setUpload_adds _) fun _ => ?_
  exact Keeps.bind upload_adds fun u => Keeps.pure _

end SealingUpload

/-! ## Key sets -/

/-- No encryption was made. -/
abbrev Quiet : Keyring × Trace → Keyring × Trace → Prop := AddsBeside fun _ => False

theorem Quiet.sealings {s s' : Keyring × Trace} (h : Quiet s s') :
    s'.2.sealings = s.2.sealings := by
  obtain ⟨ss, hss, hnone⟩ := h
  rw [hss, List.eq_nil_iff_forall_not_mem.2 hnone, List.append_nil]

/-- The one encryption that was made is that of the key set. -/
def SealsItself (s s' : Keyring × Trace) : Prop :=
  s'.2.sealings = s.2.sealings ++ [s'.1.wrapping]

theorem Quiet.then_seals {s s' s'' : Keyring × Trace} (h : Quiet s s') (h' : SealsItself s' s'') :
    SealsItself s s'' := by
  unfold SealsItself at h' ⊢
  rw [h', h.sealings]

namespace Keyring

theorem onTrace_quiet {α : Type} {x : EStateM KeyringError Trace α}
    (hx : Keeps (Adds fun _ => False) x) : Keeps Quiet (onTrace x) := by
  rintro ⟨k, t⟩
  have hfirst := hx t
  unfold onTrace EStateM.run
  unfold EStateM.run at hfirst
  dsimp only
  cases hrun : x t <;> rw [hrun] at hfirst <;> exact hfirst

theorem keyring_quiet : Keeps Quiet keyring := fun state => Std.Refl.refl state.2

theorem setKeyring_quiet (g : Keyring → Keyring) : Keeps Quiet (setKeyring g) :=
  fun state => Std.Refl.refl state.2

theorem fillField_quiet {len : Nat} (read : Keyring → Octets len)
    (write : Keyring → Octets len → Keyring) : Keeps Quiet (fillField P read write) := by
  rintro ⟨k, t⟩
  have hfirst := draw_adds (P := P) (p := fun _ => False) len KeyringError.random t
  unfold fillField EStateM.run
  unfold EStateM.run at hfirst
  dsimp only
  cases hrun : draw P len KeyringError.random t <;> rw [hrun] at hfirst <;> exact hfirst

theorem reseal_seals : Reaches SealsItself (reseal P) := by
  rintro ⟨k, t⟩ u s h
  unfold Keyring.reseal at h
  obtain ⟨_, s1, hnonce, h1⟩ := bind_ok.1 h
  obtain ⟨nonce, -, rfl⟩ := fillField_ok hnonce
  obtain ⟨k2, s2, hget, h2⟩ := bind_ok.1 h1
  rw [run_keyring] at hget
  cases hget
  obtain ⟨sealed, s3, hseal, h3⟩ := bind_ok.1 h2
  obtain ⟨t3, hencrypt, rfl⟩ := onTrace_ok.1 hseal
  obtain ⟨-, rfl⟩ := encryptWith_ok hencrypt
  rw [run_setKeyring] at h3
  cases h3
  rfl

/-- A new keyring seals its key set and nothing else. -/
theorem create_seals {passphrase : Bytes} {k : Keyring} {t t' : Trace}
    (h : (create P passphrase).run t = .ok k t') : t'.sealings = t.sealings ++ [k.wrapping] := by
  unfold Keyring.create at h
  obtain ⟨key, t1, hkey, h1⟩ := bind_ok.1 h
  obtain ⟨salt, t2, hsalt, h2⟩ := bind_ok.1 h1
  obtain ⟨kek, t3, hkek, h3⟩ := bind_ok.1 h2
  obtain ⟨-, rfl⟩ := draw_ok hkey
  obtain ⟨-, rfl⟩ := draw_ok hsalt
  obtain ⟨-, rfl⟩ := ofExcept_ok.1 hkek
  unfold building EStateM.run at h3
  dsimp only at h3
  split at h3
  · rename_i hreseal
    cases h3
    exact reseal_seals _ _ _ hreseal
  · cases h3

/-- What cannot be sealed adds nothing. -/
theorem reseal_fails : Fails Quiet (reseal P) := by
  refine Fails.bind (fillField_quiet _ _) fun _ => Fails.bind keyring_quiet fun k => ?_
  intro s e s' hrun
  rcases bind_error.1 hrun with hseal | ⟨sealed, s1, -, hset⟩
  · unfold onTrace encryptWith EStateM.run at hseal
    dsimp only at hseal
    cases hencrypt : P.encrypt k.kek k.nonce CONTEXT (encodeKeySet k.current k.keys) with
    | none =>
      rw [hencrypt] at hseal
      cases hseal
      exact Std.Refl.refl s.2
    | some ct =>
      rw [hencrypt] at hseal
      cases hseal
  · cases hset

end Keyring

theorem KeyringOp.run_seals (op : KeyringOp) : Reaches SealsItself (op.run P) := by
  have hafter : ∀ a b c : Keyring × Trace, Quiet a b → SealsItself b c → SealsItself a c :=
    fun _ _ _ => Quiet.then_seals
  cases op with
  | rotateDataKey =>
    refine Reaches.bind_pure ?_ _
    refine Reaches.after Keyring.keyring_quiet.reaches (fun k => ?_) hafter
    split
    · exact Reaches.throw _
    · refine Reaches.after (Keyring.onTrace_quiet (draw_adds _ _)).reaches (fun key => ?_) hafter
      refine Reaches.after (Keyring.setKeyring_quiet _).reaches (fun _ => ?_) hafter
      refine Reaches.after (Keyring.setKeyring_quiet _).reaches (fun _ => ?_) hafter
      exact Keyring.reseal_seals.bind_pure _
  | changePassphrase passphrase =>
    refine Reaches.after (Keyring.fillField_quiet _ _).reaches (fun _ => ?_) hafter
    refine Reaches.after Keyring.keyring_quiet.reaches (fun k => ?_) hafter
    refine Reaches.after (Keeps.ofExcept _).reaches (fun kek => ?_) hafter
    exact Reaches.after (Keyring.setKeyring_quiet _).reaches (fun _ => Keyring.reseal_seals) hafter

theorem KeyringOp.run_encrypts {op : KeyringOp} {k k' : Keyring} {t t' : Trace} {u : PUnit}
    (h : (op.run P).run (k, t) = .ok u (k', t')) :
    P.encrypt k'.kek k'.nonce CONTEXT (encodeKeySet k'.current k'.keys) = some k'.sealed := by
  cases op with
  | rotateDataKey =>
    obtain ⟨id, ⟨k1, t1⟩, hrotate, hpure⟩ := bind_ok.1 h
    cases hpure
    obtain ⟨-, key, -, -, -, -, hencrypted⟩ := Keyring.rotateDataKey_ok hrotate
    exact hencrypted
  | changePassphrase passphrase => exact (Keyring.changePassphrase_ok h).2.2.2

theorem KeyringOp.run_fails (op : KeyringOp) : Fails Quiet (op.run P) := by
  cases op with
  | rotateDataKey =>
    refine Fails.bind_pure ?_ _
    refine Fails.bind Keyring.keyring_quiet fun k => ?_
    split
    · exact (Keeps.throw _).fails
    · refine Fails.bind (Keyring.onTrace_quiet (draw_adds _ _)) fun key => ?_
      refine Fails.bind (Keyring.setKeyring_quiet _) fun _ => ?_
      refine Fails.bind (Keyring.setKeyring_quiet _) fun _ => ?_
      exact Keyring.reseal_fails.bind_pure _
  | changePassphrase passphrase =>
    refine Fails.bind (Keyring.fillField_quiet _ _) fun _ => ?_
    refine Fails.bind Keyring.keyring_quiet fun k => ?_
    refine Fails.bind (Keeps.ofExcept _) fun kek => ?_
    exact Fails.bind (Keyring.setKeyring_quiet _) fun _ => Keyring.reseal_fails

/-! ## Runs -/

/-- The key set is sealed, and the current key is in it. -/
structure Keyring.Written (P : Platform) (t : Trace) (w : Keyring) : Prop where
  made : w.wrapping ∈ t.sealings
  encrypted : P.encrypt w.kek w.nonce CONTEXT (encodeKeySet w.current w.keys) = some w.sealed
  current_held : w.keys.contains w.current

namespace KeyedStore

variable {b : BlockSize} {s : KeyedStore}

/-- The keyring whose key set an operation seals, if it gets as far as that. -/
def writes (P : Platform) (s : KeyedStore) : KeyedOp → List Keyring
  | .keys op =>
    match (op.run P).run (s.keyring, s.trace) with
    | .ok _ (k, _) => [k]
    | .error _ _ => []
  | _ => []

/-- The keyrings whose key sets a run seals, in order. -/
def written (P : Platform) (b : BlockSize) : KeyedStore → List KeyedOp → List Keyring
  | _, [] => []
  | s, op :: ops => s.writes P op ++ written P b (s.step P b op) ops

/-- Every key set of `ws` is sealed, nothing else is in the context of keyfiles, and the keyring
has all their keys. -/
structure Authentic (P : Platform) (ws : List Keyring) (s : KeyedStore) : Prop where
  context : ∀ e ∈ s.trace.sealings, e.aad = CONTEXT → ∃ w ∈ ws, e = w.wrapping
  written : ∀ w ∈ ws, w.Written P s.trace
  held : ∀ w ∈ ws, w.keys.HeldBy s.keyring.keys

/-- What does not touch the keyring seals nothing in the context of keyfiles. -/
theorem step_elsewhere (op : KeyedOp) (hop : ∀ kop, op ≠ .keys kop) :
    Adds Sealing.Elsewhere s.trace (s.step P b op).trace ∧
      (s.step P b op).keyring = s.keyring := by
  cases op with
  | keys kop => exact absurd rfl (hop kop)
  | encrypted => exact ⟨Std.Refl.refl _, rfl⟩
  | store handle op =>
    unfold KeyedStore.step
    dsimp only
    cases s.handles[handle]? with
    | none => exact ⟨Std.Refl.refl _, rfl⟩
    | some f => exact ⟨EncryptingObjectStore.step_adds ⟨s.stored, f⟩ s.trace op, rfl⟩
  | putMultipart handle location attributes =>
    unfold KeyedStore.step
    dsimp only
    cases s.handles[handle]? with
    | none => exact ⟨Std.Refl.refl _, rfl⟩
    | some f => exact ⟨Std.Refl.refl _, rfl⟩
  | putPart upload data =>
    unfold KeyedStore.step
    dsimp only
    cases s.uploads[upload]?.join with
    | none => exact ⟨Std.Refl.refl _, rfl⟩
    | some u =>
      have hadds := SealingUpload.putPart_adds (P := P) data (u.sealing, s.trace)
      unfold KeyedStore.putPart Option.elim
      dsimp only
      cases hrun : (SealingUpload.putPart P data).run (u.sealing, s.trace) <;>
        rw [hrun] at hadds <;> exact ⟨hadds, rfl⟩
  | complete upload now =>
    unfold KeyedStore.step
    dsimp only
    cases s.uploads[upload]?.join with
    | none => exact ⟨Std.Refl.refl _, rfl⟩
    | some u =>
      have hadds := SealingUpload.complete_adds (P := P) now s.stored (u.sealing, s.trace)
      unfold KeyedStore.complete Option.elim
      dsimp only
      cases hrun : (SealingUpload.complete P now s.stored).run (u.sealing, s.trace) <;>
        rw [hrun] at hadds <;> exact ⟨hadds, rfl⟩
  | abort upload => exact ⟨Std.Refl.refl _, rfl⟩

/-- An operation on the keyring seals the key set it leaves, or nothing. -/
theorem Authentic.keys {ws : List Keyring} (h : s.Authentic P ws) (hs : s.keyring.Newest)
    (op : KeyringOp) :
    (s.step P b (.keys op)).Authentic P (ws ++ s.writes P (.keys op)) := by
  obtain ⟨hnewest, hheld⟩ := keys_newest (P := P) hs op
  unfold KeyedStore.step KeyedStore.writes
  dsimp only
  unfold KeyedStore.keys at hnewest hheld ⊢
  cases hrun : (op.run P).run (s.keyring, s.trace) with
  | ok u state =>
    obtain ⟨k, t⟩ := state
    rw [hrun] at hnewest hheld
    have hseals := op.run_seals _ _ _ hrun
    unfold SealsItself at hseals
    dsimp only at hnewest hheld hseals ⊢
    have hwritten : k.Written P t :=
      ⟨hseals ▸ List.mem_append_right _ (List.mem_singleton_self _), KeyringOp.run_encrypts hrun,
        hnewest.contains⟩
    refine ⟨fun e he hcontext => ?_, fun w hw => ?_, fun w hw => ?_⟩
    · rw [hseals] at he
      rcases List.mem_append.1 he with he | he
      · obtain ⟨w, hw, hwrapping⟩ := h.context e he hcontext
        exact ⟨w, List.mem_append_left _ hw, hwrapping⟩
      · exact ⟨k, List.mem_append_right _ (List.mem_singleton_self _), List.mem_singleton.1 he⟩
    · rcases List.mem_append.1 hw with hw | hw
      · obtain ⟨hmade, hencrypted, hcurrent⟩ := h.written w hw
        exact ⟨hseals ▸ List.mem_append_left _ hmade, hencrypted, hcurrent⟩
      · cases List.mem_singleton.1 hw
        exact hwritten
    · rcases List.mem_append.1 hw with hw | hw
      · exact (h.held w hw).trans hheld
      · cases List.mem_singleton.1 hw
        exact fun _ _ hkey => hkey
  | error e state =>
    obtain ⟨k, t⟩ := state
    rw [hrun] at hheld
    have hquiet := (op.run_fails _ _ _ hrun).sealings
    dsimp only at hheld hquiet ⊢
    rw [List.append_nil]
    refine ⟨fun e he => ?_, fun w hw => ?_, fun w hw => (h.held w hw).trans hheld⟩
    · rw [hquiet] at he
      exact h.context e he
    · obtain ⟨hmade, hencrypted, hcurrent⟩ := h.written w hw
      exact ⟨hquiet ▸ hmade, hencrypted, hcurrent⟩

/-- Every operation keeps the newest key current. -/
theorem step_newest (hs : s.keyring.Newest) (op : KeyedOp) : (s.step P b op).keyring.Newest := by
  by_cases hop : ∃ kop, op = .keys kop
  · obtain ⟨kop, rfl⟩ := hop
    exact (keys_newest hs kop).1
  · rw [(step_elsewhere op fun kop hkop => hop ⟨kop, hkop⟩).2]
    exact hs

/-- **One operation seals no key set but the keyring's.** -/
theorem Authentic.step {ws : List Keyring} (h : s.Authentic P ws) (hs : s.keyring.Newest)
    (op : KeyedOp) : (s.step P b op).Authentic P (ws ++ s.writes P op) := by
  by_cases hop : ∃ kop, op = .keys kop
  · obtain ⟨kop, rfl⟩ := hop
    exact h.keys hs kop
  · have hother : ∀ kop, op ≠ .keys kop := fun kop hkop => hop ⟨kop, hkop⟩
    obtain ⟨⟨ss, hss, helsewhere⟩, hkeyring⟩ := step_elsewhere (P := P) (b := b) (s := s) op hother
    have hnothing : s.writes P op = [] := by
      unfold KeyedStore.writes
      split
      · exact absurd rfl (hother _)
      · rfl
    rw [hnothing, List.append_nil]
    refine ⟨fun e he hcontext => ?_, fun w hw => ?_, fun w hw => ?_⟩
    · rw [hss] at he
      rcases List.mem_append.1 he with he | he
      · exact h.context e he hcontext
      · exact absurd hcontext (helsewhere e he)
    · obtain ⟨hmade, hencrypted, hcurrent⟩ := h.written w hw
      exact ⟨hss ▸ List.mem_append_left _ hmade, hencrypted, hcurrent⟩
    · rw [hkeyring]
      exact h.held w hw

/-- **A run seals no other key sets.** -/
theorem Authentic.run {ws : List Keyring} (h : s.Authentic P ws) (hs : s.keyring.Newest)
    (ops : List KeyedOp) : (s.run P b ops).Authentic P (ws ++ s.written P b ops) := by
  unfold KeyedStore.run
  induction ops generalizing s ws with
  | nil =>
    unfold KeyedStore.written
    rw [List.append_nil]
    exact h
  | cons op ops ih =>
    unfold KeyedStore.written
    rw [List.foldl_cons, ← List.append_assoc]
    exact ih (h.step hs op) (step_newest hs op)

theorem new_authentic {passphrase : Bytes} {k : Keyring} {t : Trace}
    (h : (Keyring.create P passphrase).run .empty = .ok k t) : (new k t).Authentic P [k] := by
  have hseals := Keyring.create_seals h
  obtain ⟨-, -, -, -, hencrypted⟩ := Keyring.create_ok h
  refine ⟨fun e he _ => ⟨k, List.mem_singleton_self k, ?_⟩, fun w hw => ?_, fun w hw => ?_⟩
  · have hmem : e ∈ t.sealings := he
    rw [hseals] at hmem
    exact List.mem_singleton.1 hmem
  · cases List.mem_singleton.1 hw
    exact ⟨hseals ▸ List.mem_singleton_self _, hencrypted, (Keyring.create_newest h).contains⟩
  · cases List.mem_singleton.1 hw
    exact fun _ _ hkey => hkey

end KeyedStore

/-! ## What opens -/

/-- A keyfile that opens has the form of one. -/
theorem Keyring.open_form {keyfile passphrase : Bytes} {r : Keyring}
    (h : Keyring.open P keyfile passphrase = .ok r) :
    ∃ (salt : Octets SALT_LEN) (nonce : Nonce) (body : Bytes),
      keyfile = [Keyfile.VERSION] ++ salt.1 ++ nonce.1 ++ body := by
  have hprefix : PREFIX_LEN = 1 + SALT_LEN + NONCE_LEN := rfl
  by_cases hlength : keyfile.length < PREFIX_LEN
  · unfold Keyring.open at h
    rw [if_pos hlength] at h
    cases h
  by_cases hversion : keyfile.getD 0 0 ≠ Keyfile.VERSION
  · unfold Keyring.open at h
    rw [if_neg hlength, if_pos hversion] at h
    cases h
  rw [not_ne_iff] at hversion
  refine ⟨⟨slice 1 (1 + SALT_LEN) keyfile, ?_⟩,
    ⟨slice (1 + SALT_LEN) PREFIX_LEN keyfile, ?_⟩, keyfile.drop PREFIX_LEN, ?_⟩
  · rw [length_slice]
    omega
  · rw [length_slice]
    omega
  · cases keyfile with
    | nil => exact absurd (Nat.zero_lt_succ _) hlength
    | cons version rest =>
      have hfirst : [Keyfile.VERSION] = slice 0 1 (version :: rest) := by
        rw [← hversion]
        rfl
      rw [hfirst, slice_append_slice (by omega) (by omega),
        slice_append_slice (by omega) (by omega)]
      exact (List.take_append_drop PREFIX_LEN (version :: rest)).symm

/-- **What a keyfile opens to**: the fields are read off it, the passphrase derives the key from
its salt, and that key opens the key set. -/
theorem Keyring.open_eq_ok {keyfile passphrase : Bytes} {r : Keyring} :
    Keyring.open P keyfile passphrase = .ok r ↔
      keyfile = r.toKeyfile ∧ SET_HEADER_LEN + ENTRY_LEN + TAG_LEN ≤ r.sealed.length ∧
        (r.sealed.length - TAG_LEN - SET_HEADER_LEN) % ENTRY_LEN = 0 ∧
        P.derive passphrase r.salt = some r.kek ∧
        ∃ opened, P.decrypt r.kek r.nonce CONTEXT r.sealed = some opened ∧
          decodeKeySet opened = .ok (r.current, r.keys) := by
  constructor
  · intro h
    obtain ⟨salt, nonce, body, rfl⟩ := open_form h
    rw [open_parts] at h
    split_ifs at h with hshort hwhole
    rw [not_ne_iff] at hwhole
    cases hkek : deriveKeyEncryptionKey P passphrase salt with
    | error e =>
      rw [hkek] at h
      cases h
    | ok kek =>
      rw [hkek] at h
      simp only [bind, Except.bind] at h
      cases hopened : P.decrypt kek nonce CONTEXT body with
      | none =>
        rw [hopened] at h
        cases h
      | some opened =>
        rw [hopened] at h
        dsimp only at h
        cases hdecoded : decodeKeySet opened with
        | error e =>
          rw [hdecoded] at h
          cases h
        | ok set =>
          rw [hdecoded] at h
          cases h
          exact ⟨rfl, Nat.le_of_not_lt hshort, hwhole, deriveKeyEncryptionKey_ok.1 hkek, opened,
            hopened, hdecoded⟩
  · rintro ⟨rfl, hlong, hwhole, hderived, opened, hopened, hdecoded⟩
    unfold Keyring.toKeyfile
    rw [open_parts, if_neg (by omega), if_neg (not_ne_iff.2 hwhole),
      deriveKeyEncryptionKey_ok.2 hderived]
    simp only [bind, Except.bind]
    rw [hopened]
    dsimp only
    rw [hdecoded]
    rfl

/-- A written key set opens again, with whatever derives the key it was sealed under. -/
theorem Keyring.Written.open_toKeyfile {w : Keyring} {t : Trace} (h : w.Written P t)
    (hideal : P.Ideal t.sealings) (hfew : w.keys.size < 2 ^ 16) {passphrase : Bytes}
    {salt : Octets SALT_LEN} (hderived : P.derive passphrase salt = some w.kek) :
    Keyring.open P ({ w with salt := salt } : Keyring).toKeyfile passphrase =
      .ok { w with salt := salt } := by
  have hwraps : ({ w with salt := salt } : Keyring).WrapsItself P passphrase :=
    ⟨hderived, h.encrypted, h.current_held⟩
  rw [Keyring.open_unwrapped hwraps (hideal.length _ h.made) (hideal.opens _ h.made)]
  exact if_pos hfew

/-- **The bytes that open are the keyfiles of the run.**  Whatever has happened since the keyring
was created (rotations, new passphrases, failures, puts, copies and uploads through any handle),
bytes open under a passphrase exactly if they are the keyfile of a keyring whose key set was sealed
on the way, having no more keys than can be counted, with that salt or another one from which the
passphrase derives the same key; and every key they open to is still held. -/
theorem keyfile_opens_iff {passphrase : Bytes} {k : Keyring} {t : Trace}
    (hcreate : (Keyring.create P passphrase).run .empty = .ok k t) (b : BlockSize)
    (ops : List KeyedOp)
    (hideal : P.Ideal ((KeyedStore.new k t).run P b ops).trace.sealings) :
    let ws := k :: (KeyedStore.new k t).written P b ops
    (∀ (keyfile passphrase' : Bytes) (r : Keyring),
        Keyring.open P keyfile passphrase' = .ok r ↔
          ∃ w ∈ ws, w.keys.size < 2 ^ 16 ∧ P.derive passphrase' r.salt = some w.kek ∧
            r = { w with salt := r.salt } ∧ keyfile = r.toKeyfile) ∧
      ∀ w ∈ ws, w.keys.HeldBy ((KeyedStore.new k t).run P b ops).keyring.keys := by
  intro ws
  have hauthentic : ((KeyedStore.new k t).run P b ops).Authentic P ws :=
    (KeyedStore.new_authentic hcreate).run (Keyring.create_newest hcreate) ops
  refine ⟨fun keyfile passphrase' r => ⟨fun hopen => ?_, ?_⟩, hauthentic.held⟩
  · obtain ⟨hkeyfile, -, -, hderived, opened, hopened, hdecoded⟩ := Keyring.open_eq_ok.1 hopen
    obtain ⟨e, he, hkey, hnonce, haad, hct⟩ := hideal.authentic hopened
    obtain ⟨w, hw, rfl⟩ := hauthentic.context e he haad
    have hwritten := hauthentic.written w hw
    -- what was opened is the key set that was sealed
    have hsame : opened = encodeKeySet w.current w.keys := by
      have hmsg := hideal.opens _ he
      rw [hkey, hnonce, haad, hct, hopened] at hmsg
      exact Option.some.inj hmsg
    rw [hsame, decode_encode hwritten.current_held] at hdecoded
    split_ifs at hdecoded with hfew
    obtain ⟨keys, current, kek, salt, nonce, sealed⟩ := r
    cases hdecoded
    cases hkey
    cases hnonce
    cases hct
    exact ⟨w, hw, hfew, hderived, rfl, hkeyfile⟩
  · rintro ⟨w, hw, hfew, hderived, hr, rfl⟩
    have hopens := (hauthentic.written w hw).open_toKeyfile hideal hfew hderived
    rw [← hr] at hopens
    exact hopens

/-- A keyring is rotated: its first keyfile still opens, to the key that is still held. -/
theorem first_keyfile_opens : ∃ (k k' : Keyring) (t t' : Trace),
    (Keyring.create (Platform.tabled rotatedOnce) [1]).run Trace.empty = .ok k t ∧
      (Keyring.rotateDataKey (Platform.tabled rotatedOnce)).run (k, t) = .ok 2 (k', t') ∧
      Keyring.open (Platform.tabled rotatedOnce) k.toKeyfile [1] = .ok k ∧
      k.keys.HeldBy k'.keys := by
  obtain ⟨k, t, hcreate, hkeys, hkek, hdraws, hmade⟩ := create_tabled rotatedOnce
  have hnext : (k.keys.maxKey?.getD .FIRST).next = some 2 := by
    rw [hkeys, firstKeys_max]
    rfl
  obtain ⟨k', t', hrotate, hkeys', -, -, hmade'⟩ := rotateDataKey_tabled rotatedOnce k t hnext
  rw [hkeys, hdraws] at hkeys'
  rw [hmade, hkek, hdraws, hkeys'] at hmade'
  have hop : (KeyringOp.rotateDataKey.run (Platform.tabled rotatedOnce)).run (k, t) =
      .ok ⟨⟩ (k', t') := bind_ok.2 ⟨_, _, hrotate, rfl⟩
  have hrun : (KeyedStore.new k t).run (Platform.tabled rotatedOnce) smallBlocks
      [.keys .rotateDataKey] = { KeyedStore.new k t with keyring := k', trace := t' } := by
    unfold KeyedStore.run
    simp only [List.foldl_cons, List.foldl_nil, KeyedStore.step, KeyedStore.keys,
      KeyedStore.new, hop]
  have hideal : (Platform.tabled rotatedOnce).Ideal ((KeyedStore.new k t).run
      (Platform.tabled rotatedOnce) smallBlocks [.keys .rotateDataKey]).trace.sealings := by
    rw [hrun]
    exact hmade' ▸ rotatedOnce_ideal
  obtain ⟨hopens, hheld⟩ :=
    keyfile_opens_iff hcreate smallBlocks [.keys .rotateDataKey] hideal
  obtain ⟨-, -, -, hderived, -⟩ := Keyring.create_ok hcreate
  have hsize : k.keys.size < 2 ^ 16 := by
    rw [hkeys]
    unfold firstKeys
    rw [Std.ExtTreeMap.size_insert]
    simp
  have hfirst := hheld k List.mem_cons_self
  rw [hrun] at hfirst
  exact ⟨k, k', t, t', hcreate, hrotate,
    (hopens k.toKeyfile [1] k).2 ⟨k, List.mem_cons_self, hsize, hderived, rfl, rfl⟩, hfirst⟩

end EuleDB.Crypto
