import EuleDB.Crypto.Rotation

/-!
# Keyfiles that were cut

A keyring that was created and operated on, whatever else was sealed meanwhile, holds the
encryption of its own key set, as long as no operation failed half way.  Its keyfile is a header, a
set header, one entry a key and a tag.

* `Keyring.Reached` — created, then operated on, with and without success.
* `Keyring.Reached.open_toKeyfile` — where the passphrase is known its keyfile opens to it.
* `open_prefix_iff` — what is left of a keyfile is called malformed unless it was cut behind one
  of its keys: what is left then has the shape of a keyfile with fewer keys.
-/

set_option autoImplicit false

namespace EuleDB.Crypto

open Effect Keyfile

variable {P : Platform}

/-! ## Keyrings that are reached -/

/-- The encryption a keyring's wrapped key set is from. -/
def Keyring.wrapping (k : Keyring) : Sealing :=
  ⟨k.kek, k.nonce, CONTEXT, encodeKeySet k.current k.keys, k.sealed⟩

/-- The passphrase that is in force after an operation that succeeded, where it is known. -/
def KeyringOp.known (before : Option Bytes) : KeyringOp → Option Bytes
  | .rotateDataKey => before
  | .changePassphrase passphrase => some passphrase

/-- A keyring that was created and operated on, with and without success, and what was asked of the
platform until now, for this keyring or for anything else.  The passphrase in force is known until
an operation fails half way, and again from the next change of the passphrase on. -/
inductive Keyring.Reached (P : Platform) : Option Bytes → Keyring → Trace → Prop where
  | created {passphrase : Bytes} {k : Keyring} {t t' : Trace}
    (h : (create P passphrase).run t = .ok k t') : Reached P (some passphrase) k t'
  | operated {known : Option Bytes} {op : KeyringOp} {k k' : Keyring} {t t' : Trace} {u : PUnit}
    (hk : Reached P known k t) (hop : (op.run P).run (k, t) = .ok u (k', t')) :
    Reached P (op.known known) k' t'
  | failed {known : Option Bytes} {op : KeyringOp} {k k' : Keyring} {t t' : Trace}
    {e : KeyringError} (hk : Reached P known k t)
    (hop : (op.run P).run (k, t) = .error e (k', t')) : Reached P none k' t'
  | elsewhere {known : Option Bytes} {k : Keyring} {t t' : Trace} (hk : Reached P known k t)
    (hgrows : t.sealings ⊆ t'.sealings) : Reached P known k t'

/-- Also in a keyring that an operation left half way the current key is held, and is the newest. -/
theorem Keyring.Reached.newest {known : Option Bytes} {k : Keyring} {t : Trace}
    (h : Reached P known k t) : k.Newest := by
  induction h with
  | created h => exact create_newest h
  | operated _ hop ih => exact (KeyringOp.run_newest ih hop).1
  | failed _ hop ih => exact (KeyringOp.run_newest_of_error ih hop).1
  | elsewhere _ _ ih => exact ih

theorem Keyring.Reached.wraps {passphrase : Bytes} {k : Keyring} {t : Trace}
    (h : Reached P (some passphrase) k t) : k.WrapsItself P passphrase := by
  generalize hknown : some passphrase = known at h
  induction h with
  | created h =>
    cases hknown
    exact (create_wraps h).1
  | @operated known op k k' t t' u hk hop ih =>
    cases op with
    | rotateDataKey => exact (KeyringOp.run_wraps (ih hknown) hop).1
    | changePassphrase new =>
      cases hknown
      exact (changePassphrase_wraps hk.newest.contains hop).1
  | failed _ _ _ => cases hknown
  | elsewhere _ _ ih => exact ih hknown

/-- The encryption the wrapped key set is from was made. -/
def Wrapped (_ s : Keyring × Trace) : Prop := s.1.wrapping ∈ s.2.sealings

theorem Keyring.reseal_wrapped : Reaches Wrapped (reseal P) := by
  rintro ⟨k, t⟩ u s h
  unfold Keyring.reseal at h
  obtain ⟨_, s1, hnonce, h1⟩ := bind_ok.1 h
  obtain ⟨nonce, -, rfl⟩ := fillField_ok hnonce
  obtain ⟨k2, s2, hget, h2⟩ := bind_ok.1 h1
  rw [run_keyring] at hget
  cases hget
  obtain ⟨sealed, s3, hseal, h3⟩ := bind_ok.1 h2
  obtain ⟨t3, hencrypt, rfl⟩ := onTrace_ok.1 hseal
  obtain ⟨-, rfl⟩ := encryptWith_ok hencrypt
  rw [run_setKeyring] at h3
  cases h3
  exact List.mem_append_right _ (List.mem_singleton_self _)

theorem Keyring.rotateDataKey_wrapped : Reaches Wrapped (rotateDataKey P) := by
  refine Reaches.last fun k => ?_
  split
  · exact Reaches.throw _
  · refine Reaches.last fun key => Reaches.last fun _ => Reaches.last fun _ => ?_
    exact reseal_wrapped.bind_pure _

theorem Keyring.changePassphrase_wrapped (passphrase : Bytes) :
    Reaches Wrapped (changePassphrase P passphrase) := by
  refine Reaches.last fun _ => Reaches.last fun k => Reaches.last fun kek => ?_
  exact Reaches.last fun _ => reseal_wrapped

theorem KeyringOp.run_wrapped (op : KeyringOp) : Reaches Wrapped (op.run P) := by
  cases op with
  | rotateDataKey => exact Keyring.rotateDataKey_wrapped.bind_pure _
  | changePassphrase passphrase => exact Keyring.changePassphrase_wrapped passphrase

theorem Keyring.create_wrapped {passphrase : Bytes} {k : Keyring} {t t' : Trace}
    (h : (create P passphrase).run t = .ok k t') : k.wrapping ∈ t'.sealings := by
  unfold Keyring.create at h
  obtain ⟨key, t1, -, h1⟩ := bind_ok.1 h
  obtain ⟨salt, t2, -, h2⟩ := bind_ok.1 h1
  obtain ⟨kek, t3, -, h3⟩ := bind_ok.1 h2
  unfold building at h3
  cases hreseal : (reseal P).run (⟨(∅ : KeySet).insert .FIRST key, .FIRST, kek, salt,
      padTo NONCE_LEN [], []⟩, t3) with
  | error e state =>
    simp only [EStateM.run] at h3 hreseal
    rw [hreseal] at h3
    cases h3
  | ok u state =>
    have hwrapped := reseal_wrapped _ _ _ hreseal
    simp only [EStateM.run] at h3 hreseal
    rw [hreseal] at h3
    cases h3
    exact hwrapped

theorem Keyring.Reached.wrapping_mem {passphrase : Bytes} {k : Keyring} {t : Trace}
    (h : Reached P (some passphrase) k t) : k.wrapping ∈ t.sealings := by
  generalize hknown : some passphrase = known at h
  induction h with
  | created h => exact create_wrapped h
  | operated _ hop _ => exact KeyringOp.run_wrapped _ _ _ _ hop
  | failed _ _ _ => cases hknown
  | elsewhere _ hgrows ih => exact hgrows (ih hknown)

/-- **The keyfile of a keyring whose passphrase is known opens to it**, as long as its keys can be
counted. -/
theorem Keyring.Reached.open_toKeyfile {passphrase : Bytes} {k : Keyring} {t : Trace}
    (h : Reached P (some passphrase) k t) (hideal : P.Ideal t.sealings) :
    Keyring.open P k.toKeyfile passphrase =
      if k.keys.size < 2 ^ 16 then .ok k
      else .error (.malformedKeyfile
        "key set does not hold the number of keys it declares") :=
  open_unwrapped h.wraps (hideal.length _ h.wrapping_mem) (hideal.opens _ h.wrapping_mem)

/-! ## Prefixes -/

/-- A length at which a keyfile ends like one of `j` keys would, for some `j`. -/
def CutBehindKey (m : Nat) : Prop :=
  ∃ j, 1 ≤ j ∧ m = PREFIX_LEN + SET_HEADER_LEN + j * ENTRY_LEN + TAG_LEN

/-- What is left of a keyfile that is cut in its wrapped key set. -/
theorem Keyring.toKeyfile_take (k : Keyring) {m : Nat} (hm : PREFIX_LEN ≤ m) :
    k.toKeyfile.take m =
      [Keyfile.VERSION] ++ k.salt.1 ++ k.nonce.1 ++ k.sealed.take (m - PREFIX_LEN) := by
  have hhead : ([Keyfile.VERSION] ++ k.salt.1 ++ k.nonce.1).length = PREFIX_LEN := by
    rw [List.length_append, List.length_append, k.salt.2, k.nonce.2]
    rfl
  unfold Keyring.toKeyfile
  rw [List.take_append, hhead, List.take_of_length_le (by omega)]

theorem Keyring.toKeyfile_length (k : Keyring) :
    k.toKeyfile.length = PREFIX_LEN + k.sealed.length := by
  unfold Keyring.toKeyfile
  rw [List.length_append, List.length_append, List.length_append, k.salt.2, k.nonce.2]
  rfl

section Cut

variable {passphrase : Bytes} {k : Keyring} {t : Trace}

/-- **A keyfile cut behind a key blames the passphrase.** -/
theorem Keyring.Reached.open_cut (h : Reached P (some passphrase) k t) (hideal : P.Ideal t.sealings)
    (honce : t.NoncesOnce) {m : Nat} (hm : m < k.toKeyfile.length) (hcut : CutBehindKey m) :
    Keyring.open P (k.toKeyfile.take m) passphrase = .error .wrongPassphrase := by
  obtain ⟨j, hj, rfl⟩ := hcut
  have hentry : ENTRY_LEN ≤ j * ENTRY_LEN := Nat.le_mul_of_pos_left ENTRY_LEN hj
  rw [k.toKeyfile_length] at hm
  generalize hbody : k.sealed.take
    (PREFIX_LEN + SET_HEADER_LEN + j * ENTRY_LEN + TAG_LEN - PREFIX_LEN) = body
  have hlength : body.length = SET_HEADER_LEN + j * ENTRY_LEN + TAG_LEN := by
    rw [← hbody, List.length_take]
    omega
  have hrefused : P.decrypt k.kek k.nonce CONTEXT body = none := by
    cases hdecrypt : P.decrypt k.kek k.nonce CONTEXT body with
    | none => rfl
    | some opened =>
      -- the only encryption under this key and nonce is longer
      obtain ⟨s, hs, hkey, hnonce, -, hct⟩ := hideal.authentic hdecrypt
      have hsame : s = k.wrapping := honce s hs _ h.wrapping_mem hkey hnonce
      have hlonger : k.sealed = body := by
        rw [← hct, hsame]
        rfl
      rw [hlonger] at hm
      omega
  rw [k.toKeyfile_take (by omega), hbody, Keyring.open_parts, hlength, if_neg (by omega), if_neg]
  · rw [deriveKeyEncryptionKey_ok.2 h.wraps.derived]
    simp only [bind, Except.bind]
    rw [hrefused]
  · rw [Nat.add_sub_cancel, Nat.add_sub_cancel_left, Nat.mul_mod_left]
    exact not_not.2 rfl

/-- Every other cut is called one. -/
theorem Keyring.open_cut_elsewhere (k : Keyring) (passphrase : Bytes) {m : Nat}
    (hm : m < k.toKeyfile.length) (hcut : ¬ CutBehindKey m) :
    ∃ reason, Keyring.open P (k.toKeyfile.take m) passphrase =
      .error (.malformedKeyfile reason) := by
  rw [k.toKeyfile_length] at hm
  by_cases hhead : m < PREFIX_LEN
  · refine ⟨"shorter than a keyfile header", ?_⟩
    have hlength : (k.toKeyfile.take m).length < PREFIX_LEN := by
      rw [List.length_take]
      omega
    unfold Keyring.open
    rw [if_pos hlength]
  · rw [k.toKeyfile_take (by omega), Keyring.open_parts, List.length_take,
      Nat.min_eq_left (by omega)]
    split_ifs with hshort hwhole
    · exact ⟨_, rfl⟩
    · exact ⟨_, rfl⟩
    · -- the length is the length of a keyfile
      rw [not_not] at hwhole
      have hquotient := Nat.div_mul_cancel (Nat.dvd_of_mod_eq_zero hwhole)
      refine absurd ⟨(m - PREFIX_LEN - TAG_LEN - SET_HEADER_LEN) / ENTRY_LEN, ?_, ?_⟩ hcut
      · apply (Nat.one_le_div_iff (by decide)).2
        omega
      · rw [hquotient]
        omega

/-- **A keyfile that was cut is called malformed exactly when it was not cut behind one of its
keys**; there the passphrase is blamed. -/
theorem open_prefix_iff (hk : k.Reached P (some passphrase) t) (hideal : P.Ideal t.sealings)
    (honce : t.NoncesOnce) {m : Nat} (hm : m < k.toKeyfile.length) :
    ((∃ reason, Keyring.open P (k.toKeyfile.take m) passphrase =
        .error (.malformedKeyfile reason)) ↔ ¬ CutBehindKey m) ∧
      (CutBehindKey m →
        Keyring.open P (k.toKeyfile.take m) passphrase = .error .wrongPassphrase) := by
  refine ⟨⟨?_, fun hcut => k.open_cut_elsewhere passphrase hm hcut⟩,
    fun hcut => hk.open_cut hideal honce hm hcut⟩
  rintro ⟨reason, hmalformed⟩ hcut
  rw [hk.open_cut hideal honce hm hcut] at hmalformed
  cases hmalformed

end Cut

/-! ## A keyring with two keys -/

/-- What is encrypted where a keyring is created and rotated once. -/
def rotatedOnce : List Sealing := [wrapped 2 .FIRST firstKeys, wrapped 4 2 secondKeys]

theorem rotatedOnce_ideal : (Platform.tabled rotatedOnce).Ideal rotatedOnce :=
  Platform.tabled_ideal (by simp [rotatedOnce, wrapped])

theorem rotatedOnce_noncesOnce {t : Trace} (h : t.sealings = rotatedOnce) : t.NoncesOnce := by
  have hnonces : drawn NONCE_LEN 2 ≠ drawn NONCE_LEN 4 := by decide
  intro s hs s' hs' _ hnonce
  simp only [h, rotatedOnce, List.mem_cons, List.not_mem_nil, or_false] at hs hs'
  rcases hs with rfl | rfl
  · rcases hs' with rfl | rfl
    · rfl
    · exact absurd hnonce hnonces
  · rcases hs' with rfl | rfl
    · exact absurd hnonce.symm hnonces
    · rfl

theorem secondKeys_size : secondKeys.size = 2 := by
  unfold secondKeys firstKeys
  rw [Std.ExtTreeMap.size_insert, Std.ExtTreeMap.size_insert]
  simp
  decide

theorem rotatedOnce_reached : ∃ (k : Keyring) (t : Trace),
    k.Reached (Platform.tabled rotatedOnce) (some [1]) t ∧ t.sealings = rotatedOnce ∧
      k.keys.size = 2 ∧ k.toKeyfile.length = 123 := by
  obtain ⟨k, t1, hcreate, hkeys, hkek, hdraws, hmade⟩ := create_tabled rotatedOnce
  have hnext : (k.keys.maxKey?.getD .FIRST).next = some 2 := by
    rw [hkeys, firstKeys_max]
    rfl
  obtain ⟨k', t', hrotate, hkeys', -, -, hmade'⟩ := rotateDataKey_tabled rotatedOnce k t1 hnext
  rw [hkeys, hdraws] at hkeys'
  rw [hmade, hkek, hdraws, hkeys'] at hmade'
  have hop : (KeyringOp.rotateDataKey.run (Platform.tabled rotatedOnce)).run (k, t1) =
      .ok ⟨⟩ (k', t') := bind_ok.2 ⟨_, _, hrotate, rfl⟩
  have hreached : k'.Reached (Platform.tabled rotatedOnce) (some [1]) t' :=
    .operated (.created hcreate) hop
  have hsize : k'.keys.size = 2 := by
    rw [hkeys']
    exact secondKeys_size
  refine ⟨k', t', hreached, hmade', hsize, ?_⟩
  have hmem := hreached.wrapping_mem
  rw [hmade'] at hmem
  have hsealed : k'.sealed.length = (encodeKeySet k'.current k'.keys).length + TAG_LEN :=
    rotatedOnce_ideal.length _ hmem
  rw [k'.toKeyfile_length, hsealed, encodeKeySet_length, hsize]
  rfl

/-- The second key is cut off: the passphrase is blamed. -/
theorem cut_keyfile_blames_passphrase : ∃ (k : Keyring) (t : Trace),
    k.Reached (Platform.tabled rotatedOnce) (some [1]) t ∧ k.keys.size = 2 ∧
      Keyring.open (Platform.tabled rotatedOnce) (k.toKeyfile.take (k.toKeyfile.length - 36)) [1] =
        .error .wrongPassphrase := by
  obtain ⟨k, t, hreached, hmade, hsize, hlength⟩ := rotatedOnce_reached
  have hideal : (Platform.tabled rotatedOnce).Ideal t.sealings := hmade ▸ rotatedOnce_ideal
  refine ⟨k, t, hreached, hsize, ?_⟩
  apply hreached.open_cut hideal (rotatedOnce_noncesOnce hmade)
  · omega
  · rw [hlength]
    exact ⟨1, le_rfl, rfl⟩

/-- Half of it is left: the keyfile is called malformed. -/
theorem half_keyfile_is_malformed : ∃ (k : Keyring) (t : Trace),
    k.Reached (Platform.tabled rotatedOnce) (some [1]) t ∧ ∃ reason,
      Keyring.open (Platform.tabled rotatedOnce) (k.toKeyfile.take 61) [1] =
        .error (.malformedKeyfile reason) := by
  obtain ⟨k, t, hreached, hmade, -, hlength⟩ := rotatedOnce_reached
  have hideal : (Platform.tabled rotatedOnce).Ideal t.sealings := hmade ▸ rotatedOnce_ideal
  have hcut : ¬ CutBehindKey 61 := by
    rintro ⟨j, hj, hm⟩
    have hlengths : PREFIX_LEN + SET_HEADER_LEN + j * ENTRY_LEN + TAG_LEN = 51 + j * 36 := by
      show 29 + 6 + j * 36 + 16 = 51 + j * 36
      omega
    omega
  have honce := rotatedOnce_noncesOnce hmade
  exact ⟨k, t, hreached, (open_prefix_iff hreached hideal honce (by omega)).1.2 hcut⟩

end EuleDB.Crypto
