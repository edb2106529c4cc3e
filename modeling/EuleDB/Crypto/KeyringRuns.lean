import EuleDB.Crypto.Keyring

/-!
# Runs of a keyring

A keyring is created, rotated and given new passphrases any number of times.

* `Keyring.WrapsItself` — the invariant: the wrapped key set is the key set, under the key that
  the latest passphrase derives.
* `Keyring.open_toKeyfile` — what a keyfile of such a keyring opens to.
* `open_after_run_iff` — after a run that succeeded the keyfile opens exactly while no more than
  65534 rotations were made: the count of the keys is two bytes wide.
-/

set_option autoImplicit false

namespace EuleDB.Crypto

open Slice Endian Effect Keyfile

variable {P : Platform}

inductive KeyringOp where
  | rotateDataKey
  | changePassphrase (passphrase : Bytes)
  deriving DecidableEq

def KeyringOp.run (P : Platform) : KeyringOp → KeyringM PUnit
  | .rotateDataKey => do
    let _ ← Keyring.rotateDataKey P
    pure ⟨⟩
  | .changePassphrase passphrase => Keyring.changePassphrase P passphrase

/-- Operations one after the other, up to the first that fails. -/
def runOps (P : Platform) : List KeyringOp → KeyringM PUnit
  | [] => pure ⟨⟩
  | op :: ops => do
    op.run P
    runOps P ops

/-- The passphrase that is in force after an operation. -/
def KeyringOp.passphrase (before : Bytes) : KeyringOp → Bytes
  | .rotateDataKey => before
  | .changePassphrase passphrase => passphrase

def latestPassphrase (first : Bytes) (ops : List KeyringOp) : Bytes :=
  ops.foldl KeyringOp.passphrase first

def rotations (ops : List KeyringOp) : Nat := ops.count .rotateDataKey

/-! ## The invariant -/

/-- The wrapped key set is this keyring's key set, and `passphrase` unwraps it. -/
structure Keyring.WrapsItself (P : Platform) (passphrase : Bytes) (k : Keyring) : Prop where
  derived : P.derive passphrase k.salt = some k.kek
  encrypted : P.encrypt k.kek k.nonce CONTEXT (encodeKeySet k.current k.keys) = some k.sealed
  current_held : k.keys.contains k.current

theorem KeySet.le_maxKey {keys : KeySet} {top id : DataKeyId} (hmax : keys.maxKey? = some top)
    (hid : keys.contains id) : id.toNat ≤ top.toNat := by
  have hle := (Std.ExtTreeMap.maxKey?_eq_some_iff_mem_and_forall.1 hmax).2 id
    (Std.ExtTreeMap.mem_iff_contains.2 hid)
  exact UInt32.le_iff_toNat_le.1 (Std.isLE_compare.1 hle)

theorem DataKeyId.next_eq_some {id next : DataKeyId} (h : id.next = some next) :
    next.toNat = id.toNat + 1 := by
  unfold DataKeyId.next at h
  split at h
  · rename_i hlt
    cases h
    exact UInt32.toNat_ofNat_of_lt' hlt
  · cases h

/-- The next id was not held before. -/
theorem DataKeyId.next_not_held {keys : KeySet} {id : DataKeyId}
    (h : (keys.maxKey?.getD .FIRST).next = some id) : keys.contains id = false := by
  have hnext := DataKeyId.next_eq_some h
  by_contra hheld
  rw [Bool.not_eq_false] at hheld
  cases hmax : keys.maxKey? with
  | none =>
    rw [Std.ExtTreeMap.maxKey?_eq_none_iff] at hmax
    rw [hmax] at hheld
    simp at hheld
  | some top =>
    have hle := KeySet.le_maxKey hmax hheld
    rw [hmax, Option.getD_some] at hnext
    omega

theorem Keyring.create_wraps {passphrase : Bytes} {k : Keyring} {t t' : Trace}
    (h : (create P passphrase).run t = .ok k t') :
    k.WrapsItself P passphrase ∧ k.keys.size = 1 := by
  obtain ⟨key, hkeys, hcurrent, hderived, hencrypted⟩ := create_ok h
  refine ⟨⟨hderived, hencrypted, ?_⟩, ?_⟩
  · rw [hkeys, hcurrent]; simp
  · rw [hkeys, Std.ExtTreeMap.size_insert]; simp

/-- A new passphrase makes the invariant, whatever the keyring was wrapped under before. -/
theorem Keyring.changePassphrase_wraps {passphrase : Bytes} {k k' : Keyring} {t t' : Trace}
    {u : PUnit} (hcurrent : k.keys.contains k.current)
    (h : (changePassphrase P passphrase).run (k, t) = .ok u (k', t')) :
    k'.WrapsItself P passphrase ∧ k'.keys = k.keys := by
  obtain ⟨hkeys, hsame, hderived, hencrypted⟩ := changePassphrase_ok h
  refine ⟨⟨hderived, hencrypted, ?_⟩, hkeys⟩
  rw [hkeys, hsame]
  exact hcurrent

/-- One operation that succeeds keeps the invariant, and only a rotation adds a key. -/
theorem KeyringOp.run_wraps {op : KeyringOp} {passphrase : Bytes} {k k' : Keyring}
    {t t' : Trace} {u : PUnit} (hk : k.WrapsItself P passphrase)
    (h : (op.run P).run (k, t) = .ok u (k', t')) :
    k'.WrapsItself P (op.passphrase passphrase) ∧
      k'.keys.size = k.keys.size + rotations [op] := by
  cases op with
  | rotateDataKey =>
    unfold KeyringOp.run at h
    obtain ⟨id, ⟨k1, t1⟩, hrotate, h1⟩ := bind_ok.1 h
    rw [run_pure] at h1
    cases h1
    obtain ⟨hnext, key, hkeys, hcurrent, hkek, hsalt, hencrypted⟩ :=
      Keyring.rotateDataKey_ok hrotate
    refine ⟨⟨?_, hencrypted, ?_⟩, ?_⟩
    · rw [hkek, hsalt]
      exact hk.derived
    · rw [hkeys, hcurrent]; simp
    · have hnew := DataKeyId.next_not_held hnext
      rw [hkeys, Std.ExtTreeMap.size_insert, if_neg (by rw [hnew]; simp)]
      rfl
  | changePassphrase new =>
    obtain ⟨hwraps, hkeys⟩ := Keyring.changePassphrase_wraps hk.current_held h
    refine ⟨hwraps, ?_⟩
    rw [hkeys]; rfl

/-- A run that succeeds keeps the invariant, for the passphrase it ends with. -/
theorem runOps_wraps {ops : List KeyringOp} {passphrase : Bytes} {k k' : Keyring}
    {t t' : Trace} {u : PUnit} (hk : k.WrapsItself P passphrase)
    (h : (runOps P ops).run (k, t) = .ok u (k', t')) :
    k'.WrapsItself P (latestPassphrase passphrase ops) ∧
      k'.keys.size = k.keys.size + rotations ops := by
  induction ops generalizing passphrase k t with
  | nil =>
    unfold runOps at h
    rw [run_pure] at h
    cases h
    exact ⟨hk, rfl⟩
  | cons op ops ih =>
    unfold runOps at h
    obtain ⟨_, ⟨k1, t1⟩, hop, hrest⟩ := bind_ok.1 h
    obtain ⟨hk1, hsize1⟩ := KeyringOp.run_wraps hk hop
    obtain ⟨hk', hsize'⟩ := ih hk1 hrest
    refine ⟨hk', ?_⟩
    have hcount : rotations (op :: ops) = rotations [op] + rotations ops := by
      unfold rotations
      rw [← List.count_append]
      rfl
    rw [hsize', hsize1, hcount, Nat.add_assoc]

/-! ## Opening the keyfile -/

/-- What a keyfile opens to when the wrapped key set unwraps to the one that is held. -/
theorem Keyring.open_unwrapped {passphrase : Bytes} {k : Keyring}
    (hk : k.WrapsItself P passphrase)
    (hlength : k.sealed.length = (encodeKeySet k.current k.keys).length + TAG_LEN)
    (hopens : P.decrypt k.kek k.nonce CONTEXT k.sealed = some (encodeKeySet k.current k.keys)) :
    Keyring.open P k.toKeyfile passphrase =
      if k.keys.size < 2 ^ 16 then .ok k
      else .error (.malformedKeyfile
        "key set does not hold the number of keys it declares") := by
  rw [encodeKeySet_length] at hlength
  have hpos : 0 < k.keys.size := by
    rw [Nat.pos_iff_ne_zero]
    intro hzero
    have hempty := Std.ExtTreeMap.eq_empty_iff_size_eq_zero.2 hzero
    have := hk.current_held
    rw [hempty] at this
    simp at this
  have hentry := Nat.le_mul_of_pos_left ENTRY_LEN hpos
  unfold Keyring.toKeyfile
  rw [open_parts, hlength, if_neg (by omega), if_neg]
  · rw [deriveKeyEncryptionKey_ok.2 hk.derived]
    simp only [bind, Except.bind]
    rw [hopens]
    dsimp only
    rw [decode_encode hk.current_held]
    split_ifs <;> rfl
  · rw [Nat.add_sub_cancel, Nat.add_sub_cancel_left, Nat.mul_mod_left]
    exact not_not.2 rfl

/-- **What a keyfile opens to**: the keyring, as long as the number of its keys fits the count. -/
theorem Keyring.open_toKeyfile (hP : P.Correct) {passphrase : Bytes} {k : Keyring}
    (hk : k.WrapsItself P passphrase) :
    Keyring.open P k.toKeyfile passphrase =
      if k.keys.size < 2 ^ 16 then .ok k
      else .error (.malformedKeyfile
        "key set does not hold the number of keys it declares") :=
  open_unwrapped hk (hP.length hk.encrypted) (hP.opens hk.encrypted)

/-- **After a run that succeeded the keyfile opens, to the same keys, exactly while there were at
most 65534 rotations.** -/
theorem open_after_run_iff (hP : P.Correct) {passphrase : Bytes} {ops : List KeyringOp}
    {k k' : Keyring} {t t1 t2 : Trace} {u : PUnit}
    (hcreate : (Keyring.create P passphrase).run t = .ok k t1)
    (hrun : (runOps P ops).run (k, t1) = .ok u (k', t2)) :
    (∃ reopened, Keyring.open P k'.toKeyfile (latestPassphrase passphrase ops) = .ok reopened ∧
        reopened.current = k'.current ∧ reopened.keys = k'.keys) ↔
      rotations ops ≤ 65534 := by
  obtain ⟨hk, hone⟩ := Keyring.create_wraps hcreate
  obtain ⟨hk', hsize⟩ := runOps_wraps hk hrun
  rw [Keyring.open_toKeyfile hP hk']
  split_ifs with hsmall
  · constructor
    · intro _
      omega
    · intro _
      exact ⟨k', rfl, rfl, rfl⟩
  · constructor
    · rintro ⟨_, h, -⟩
      cases h
    · intro hfew
      omega

/-! ## Two runs -/

/-- Where nothing fails, a rotation succeeds as long as there is a next id. -/
theorem rotateDataKey_padding {k : Keyring} {t : Trace} {next : DataKeyId}
    (hnext : (k.keys.maxKey?.getD .FIRST).next = some next) :
    ∃ k' t', (Keyring.rotateDataKey Platform.padding).run (k, t) = .ok next (k', t') := by
  unfold Keyring.rotateDataKey
  rw [EStateM.run_bind, run_keyring]
  dsimp only
  rw [hnext]
  exact ⟨_, _, rfl⟩

theorem rotations_padding (n : Nat) {k : Keyring} {t : Trace} {top : DataKeyId}
    (hmax : k.keys.maxKey? = some top) (hroom : top.toNat + n < UInt32.size) :
    ∃ k' t', (runOps Platform.padding (List.replicate n .rotateDataKey)).run (k, t) =
      .ok ⟨⟩ (k', t') := by
  induction n generalizing k t top with
  | zero => exact ⟨k, t, rfl⟩
  | succ n ih =>
    have hnext : (k.keys.maxKey?.getD .FIRST).next =
        some (UInt32.ofNat (top.toNat + 1)) := by
      rw [hmax, Option.getD_some]
      exact if_pos (by omega)
    have htoNat := DataKeyId.next_eq_some hnext
    rw [hmax, Option.getD_some] at htoNat
    obtain ⟨k1, t1, hrotate⟩ := rotateDataKey_padding (t := t) hnext
    obtain ⟨-, key, hkeys, -⟩ := Keyring.rotateDataKey_ok hrotate
    have hmax1 : k1.keys.maxKey? = some (UInt32.ofNat (top.toNat + 1)) := by
      rw [hkeys, Std.ExtTreeMap.maxKey?_insert, hmax, Option.elim_some, if_pos]
      exact Std.isLE_compare.2 (UInt32.le_iff_toNat_le.2 (by omega))
    obtain ⟨k', t', hrest⟩ := ih (t := t1) hmax1 (by rw [htoNat]; omega)
    refine ⟨k', t', ?_⟩
    rw [List.replicate_succ]
    unfold runOps KeyringOp.run
    refine bind_ok.2 ⟨⟨⟩, (k1, t1), bind_ok.2 ⟨_, _, hrotate, rfl⟩, hrest⟩

theorem create_padding (passphrase : Bytes) : ∃ k t,
    (Keyring.create Platform.padding passphrase).run Trace.empty = .ok k t ∧
      k.keys.maxKey? = some .FIRST := by
  obtain ⟨k, t, hcreate⟩ : ∃ k t,
      (Keyring.create Platform.padding passphrase).run Trace.empty = .ok k t := ⟨_, _, rfl⟩
  obtain ⟨key, hkeys, -⟩ := Keyring.create_ok hcreate
  refine ⟨k, t, hcreate, ?_⟩
  rw [hkeys, Std.ExtTreeMap.maxKey?_insert]
  simp

/-- A rotation and a new passphrase: the keyfile opens. -/
theorem rotated_keyfile_opens : ∃ k k' t1 t2,
    (Keyring.create Platform.padding [1]).run Trace.empty = .ok k t1 ∧
      (runOps Platform.padding [.rotateDataKey, .changePassphrase [2]]).run (k, t1) =
        .ok ⟨⟩ (k', t2) ∧
      ∃ reopened, Keyring.open Platform.padding k'.toKeyfile [2] = .ok reopened ∧
        reopened.current = k'.current ∧ reopened.keys = k'.keys := by
  obtain ⟨k, t1, hcreate, hmax⟩ := create_padding [1]
  obtain ⟨k1, t2, hrotate⟩ := rotations_padding 1 (t := t1) hmax (by decide)
  obtain ⟨k', t3, hchange⟩ : ∃ k' t3, (Keyring.changePassphrase Platform.padding [2]).run
      (k1, t2) = .ok ⟨⟩ (k', t3) := ⟨_, _, rfl⟩
  have hrun : (runOps Platform.padding [.rotateDataKey, .changePassphrase [2]]).run (k, t1) =
      .ok ⟨⟩ (k', t3) := by
    obtain ⟨_, s1, hfirst, hnil⟩ := bind_ok.1 hrotate
    cases hnil
    exact bind_ok.2 ⟨⟨⟩, _, hfirst, bind_ok.2 ⟨⟨⟩, _, hchange, rfl⟩⟩
  exact ⟨k, k', t1, t3, hcreate, hrun,
    (open_after_run_iff Platform.padding_correct hcreate hrun).2 (by decide)⟩

/-- After 65535 rotations the keyfile no longer opens. -/
theorem keyfile_stranded_after_65535_rotations : ∃ k k' t1 t2,
    (Keyring.create Platform.padding [1]).run Trace.empty = .ok k t1 ∧
      (runOps Platform.padding (List.replicate 65535 .rotateDataKey)).run (k, t1) =
        .ok ⟨⟩ (k', t2) ∧
      Keyring.open Platform.padding k'.toKeyfile
        (latestPassphrase [1] (List.replicate 65535 .rotateDataKey)) =
        .error (.malformedKeyfile
          "key set does not hold the number of keys it declares") := by
  obtain ⟨k, t1, hcreate, hmax⟩ := create_padding [1]
  obtain ⟨hk, hone⟩ := Keyring.create_wraps hcreate
  obtain ⟨k', t2, hrun⟩ := rotations_padding 65535 (t := t1) hmax (by decide)
  obtain ⟨hk', hsize⟩ := runOps_wraps hk hrun
  have hcount : rotations (List.replicate 65535 .rotateDataKey) = 65535 := by
    unfold rotations
    rw [List.count_replicate_self]
  refine ⟨k, k', t1, t2, hcreate, hrun, ?_⟩
  rw [Keyring.open_toKeyfile Platform.padding_correct hk', if_neg (by omega)]

end EuleDB.Crypto
