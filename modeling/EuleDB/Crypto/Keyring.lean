import Std.Data.ExtTreeMap.Lemmas
import EuleDB.Lib.Slice
import EuleDB.Lib.Endian
import EuleDB.Crypto.Frame

/-!
# The keyring and its keyfile

The model of `crypto/keyring.rs`.  A keyfile is a version, a salt, a nonce and the key set,
wrapped under a key derived from the passphrase.

* `encodeKeySet`, `decodeKeySet` — the key set as bytes: current id, count, entries.
* `Keyring.create`, `Keyring.open`, `Keyring.toKeyfile`.
* `Keyring.rotateDataKey`, `changePassphrase` — they change the keyring in place, so what they
  did before they failed stays done.
* `decode_encode` — decoding gives the key set back exactly when its size fits the count field.
* `Keyring.rotateDataKey_ok`, `changePassphrase_ok` — what they do where they succeed.
* `Keyring.rotateDataKey_error`, `changePassphrase_error` — every mixture they leave where not.
-/

set_option autoImplicit false

namespace EuleDB.Crypto

open Slice Endian Effect

namespace Keyfile

/-- Keyfile format version. -/
def VERSION : UInt8 := 2

/-- Bytes the fixed part of a keyfile takes: version, salt, nonce. -/
def PREFIX_LEN : Nat := 1 + SALT_LEN + NONCE_LEN

/-- Bytes each key takes inside the sealed key set: its id and the key itself. -/
def ENTRY_LEN : Nat := 4 + KEY_LEN

/-- Bytes the sealed key set's own preamble takes: the current id and the number of keys. -/
def SET_HEADER_LEN : Nat := 4 + 2

/-- Bound into the wrapping as associated data (`b"euledb-keyfile-v2"`). -/
def CONTEXT : Bytes :=
  [101, 117, 108, 101, 100, 98, 45, 107, 101, 121, 102, 105, 108, 101, 45, 118, 50]

end Keyfile

open Keyfile

inductive KeyringError where
  | wrongPassphrase
  | malformedKeyfile (reason : String)
  | unsupportedVersion (found : UInt8)
  | keySpaceExhausted
  | random
  | derivation
  | wrapping
  deriving DecidableEq, Repr

/-- The id every keyring starts with. -/
def DataKeyId.FIRST : DataKeyId := 1

/-- The next id after this one, or `none` if the space is exhausted. -/
def DataKeyId.next (id : DataKeyId) : Option DataKeyId :=
  if id.toNat + 1 < UInt32.size then some (UInt32.ofNat (id.toNat + 1)) else none

abbrev KeySet := Std.ExtTreeMap DataKeyId SecretKey

/-- The keys a database is opened with. -/
structure Keyring where
  keys : KeySet
  current : DataKeyId
  /-- The key derived from the passphrase. -/
  kek : SecretKey
  salt : Octets SALT_LEN
  nonce : Nonce
  /-- The wrapped key set. -/
  sealed : Bytes

/-! ## The key set as bytes -/

def encodeEntry (entry : DataKeyId × SecretKey) : Bytes :=
  leBytes 4 entry.1.toNat ++ entry.2.1

/-- `u16::try_from(n).unwrap_or(u16::MAX)`. -/
def saturate16 (n : Nat) : Nat := if n < 2 ^ 16 then n else 2 ^ 16 - 1

/-- Serialise the key set: the current id, the count, then each id and key. -/
def encodeKeySet (current : DataKeyId) (keys : KeySet) : Bytes :=
  leBytes 4 current.toNat ++ leBytes 2 (saturate16 keys.size) ++ keys.toList.flatMap encodeEntry

/-- The loop of `decodeKeySet` over the entries that are left. -/
def decodeEntries : List Bytes → KeySet → Except KeyringError KeySet
  | [], keys => .ok keys
  | entry :: rest, keys =>
    match toOctets KEY_LEN (entry.drop 4) with
    | none => .error (.malformedKeyfile "a key is not the expected length")
    | some key => decodeEntries rest (keys.insert (UInt32.ofNat (ofLe (entry.take 4))) key)

/-- The inverse of `encodeKeySet`. -/
def decodeKeySet (bytes : Bytes) : Except KeyringError (DataKeyId × KeySet) :=
  if bytes.length < SET_HEADER_LEN then
    .error (.malformedKeyfile "key set is shorter than its own header")
  else
    let current : DataKeyId := UInt32.ofNat (ofLe (slice 0 4 bytes))
    let count := ofLe (slice 4 6 bytes)
    let entries := bytes.drop SET_HEADER_LEN
    if entries.length ≠ count * ENTRY_LEN then
      .error (.malformedKeyfile "key set does not hold the number of keys it declares")
    else if entries.length % ENTRY_LEN ≠ 0 then
      .error (.malformedKeyfile "key set ends mid-entry")
    else do
      let keys ← decodeEntries (chunks ENTRY_LEN entries) ∅
      if keys.contains current = false then
        .error (.malformedKeyfile "the current key is not in the key set")
      else pure (current, keys)

/-! ## Operations -/

variable (P : Platform)

/-- Derive the key-encryption key from the passphrase. -/
def deriveKeyEncryptionKey (passphrase : Bytes) (salt : Octets SALT_LEN) :
    Except KeyringError SecretKey :=
  match P.derive passphrase salt with
  | some key => .ok key
  | none => .error .derivation

/-- A computation that changes a keyring in place. -/
abbrev KeyringM := EStateM KeyringError (Keyring × Trace)

def keyring : KeyringM Keyring := do
  let state ← get
  pure state.1

def setKeyring (g : Keyring → Keyring) : KeyringM PUnit :=
  modify fun state => (g state.1, state.2)

/-- A use of the platform, which leaves the keyring alone. -/
def onTrace {α : Type} (x : EStateM KeyringError Trace α) : KeyringM α := fun (k, t) =>
  match x.run t with
  | .ok a t' => .ok a (k, t')
  | .error e t' => .error e (k, t')

/-- A keyring value built by changing `k` in place. -/
def building (k : Keyring) (x : KeyringM PUnit) : EStateM KeyringError Trace Keyring := fun t =>
  match x.run (k, t) with
  | .ok _ (k', t') => .ok k' t'
  | .error e (_, t') => .error e t'

/-- `getrandom::fill` on a field of the keyring.  When it fails, nothing is promised about what is
in the field. -/
def fillField {len : Nat} (read : Keyring → Octets len) (write : Keyring → Octets len → Keyring) :
    KeyringM PUnit := fun (k, t) =>
  match (draw P len KeyringError.random).run t with
  | .ok bytes t' => .ok ⟨⟩ (write k bytes, t')
  | .error e t' => .error e (write k (P.leftover t.draws len (read k)), t')

/-- Wrap the current key set under the held key-encryption key, with a fresh nonce. -/
def Keyring.reseal : KeyringM PUnit := do
  fillField P Keyring.nonce fun k nonce => { k with nonce := nonce }
  let k ← keyring
  let sealed ← onTrace
    (encryptWith P k.kek k.nonce CONTEXT (encodeKeySet k.current k.keys) .wrapping)
  setKeyring fun k => { k with sealed := sealed }

/-- Create a keyring for a new database. -/
def Keyring.create (passphrase : Bytes) : EStateM KeyringError Trace Keyring := do
  let key ← draw P KEY_LEN .random
  let salt ← draw P SALT_LEN .random
  let kek ← ofExcept (deriveKeyEncryptionKey P passphrase salt)
  building ⟨(∅ : KeySet).insert .FIRST key, .FIRST, kek, salt, padTo NONCE_LEN [], []⟩ (reseal P)

/-- Open a keyring from its keyfile. -/
def Keyring.open (keyfile passphrase : Bytes) : Except KeyringError Keyring :=
  if keyfile.length < PREFIX_LEN then
    .error (.malformedKeyfile "shorter than a keyfile header")
  else if keyfile.getD 0 0 ≠ Keyfile.VERSION then
    .error (.unsupportedVersion (keyfile.getD 0 0))
  else
    let salt := slice 1 (1 + SALT_LEN) keyfile
    let nonce := slice (1 + SALT_LEN) PREFIX_LEN keyfile
    let sealed := keyfile.drop PREFIX_LEN
    let smallest := SET_HEADER_LEN + ENTRY_LEN + TAG_LEN
    if sealed.length < smallest then
      .error (.malformedKeyfile "too short to hold even one key")
    else if (sealed.length - TAG_LEN - SET_HEADER_LEN) % ENTRY_LEN ≠ 0 then
      .error (.malformedKeyfile "length is not a whole number of keys")
    else
      match toOctets SALT_LEN salt with
      | none => .error (.malformedKeyfile "salt is not the expected length")
      | some salt =>
        match toOctets NONCE_LEN nonce with
        | none => .error (.malformedKeyfile "nonce is not the expected length")
        | some nonce => do
          let kek ← deriveKeyEncryptionKey P passphrase salt
          match P.decrypt kek nonce CONTEXT sealed with
          | none => .error .wrongPassphrase
          | some opened =>
            let (current, keys) ← decodeKeySet opened
            pure ⟨keys, current, kek, salt, nonce, sealed⟩

/-- The keyring in the form that is written to disk. -/
def Keyring.toKeyfile (k : Keyring) : Bytes :=
  [Keyfile.VERSION] ++ k.salt.1 ++ k.nonce.1 ++ k.sealed

/-- Retire the current data key and start sealing new writes under a fresh one. -/
def Keyring.rotateDataKey : KeyringM DataKeyId := do
  let k ← keyring
  match (k.keys.maxKey?.getD .FIRST).next with
  | none => throw .keySpaceExhausted
  | some next =>
    let key ← onTrace (draw P KEY_LEN .random)
    setKeyring fun k => { k with keys := k.keys.insert next key }
    setKeyring fun k => { k with current := next }
    reseal P
    pure next

/-- Wrap the same key set under a key derived from a new passphrase. -/
def Keyring.changePassphrase (passphrase : Bytes) : KeyringM PUnit := do
  fillField P Keyring.salt fun k salt => { k with salt := salt }
  let k ← keyring
  let kek ← ofExcept (deriveKeyEncryptionKey P passphrase k.salt)
  setKeyring fun k => { k with kek := kek }
  reseal P

/-- A frame that seals with the current key and opens with any key this keyring holds. -/
def Keyring.frame (k : Keyring) (blockSize : BlockSize) : BlockFrame :=
  ⟨k.keys, k.current, blockSize⟩

/-! ## The round trip of the key set -/

theorem encodeEntry_length (entry : DataKeyId × SecretKey) :
    (encodeEntry entry).length = ENTRY_LEN := by
  unfold encodeEntry
  rw [List.length_append, length_leBytes, entry.2.2]
  rfl

theorem decodeEntries_encode (entries : List (DataKeyId × SecretKey)) (keys : KeySet) :
    decodeEntries (entries.map encodeEntry) keys =
      .ok (entries.foldl (fun keys entry => keys.insert entry.1 entry.2) keys) := by
  induction entries generalizing keys with
  | nil => rfl
  | cons entry entries ih =>
    have hkey : toOctets KEY_LEN ((encodeEntry entry).drop 4) = some entry.2 := by
      unfold encodeEntry
      rw [List.drop_left' (length_leBytes 4 _), toOctets_eq entry.2.2]
    have hid : UInt32.ofNat (ofLe ((encodeEntry entry).take 4)) = entry.1 := by
      have hlt := entry.1.toNat_lt
      unfold encodeEntry
      rw [List.take_left' (length_leBytes 4 _), ofLe_leBytes, Nat.mod_eq_of_lt (by omega)]
      exact UInt32.ofNat_toNat
    rw [List.map_cons, decodeEntries, hkey]
    dsimp only
    rw [hid, ih]
    rfl

theorem foldl_insert_toList (keys : KeySet) :
    keys.toList.foldl (fun keys entry => keys.insert entry.1 entry.2) ∅ = keys := by
  rw [← Std.ExtTreeMap.ofList_eq_foldl]
  refine Std.ExtTreeMap.ext_getElem? fun id => ?_
  have hdistinct := Std.ExtTreeMap.distinct_keys_toList (t := keys)
  cases hid : keys[id]? with
  | some key =>
    have hmem := Std.ExtTreeMap.mem_toList_iff_getElem?_eq_some.2 hid
    exact Std.ExtTreeMap.getElem?_ofList_of_mem Std.ReflCmp.compare_self hdistinct hmem
  | none =>
    apply Std.ExtTreeMap.getElem?_ofList_of_contains_eq_false
    rw [Std.ExtTreeMap.map_fst_toList_eq_keys]
    rw [Std.ExtTreeMap.contains_keys, Std.ExtTreeMap.contains_eq_isSome_getElem?, hid]
    rfl

theorem saturate16_lt (n : Nat) : saturate16 n < 2 ^ 16 := by
  unfold saturate16
  split_ifs <;> omega

theorem saturate16_eq_iff (n : Nat) : saturate16 n = n ↔ n < 2 ^ 16 := by
  unfold saturate16
  split_ifs <;> omega

theorem encodeKeySet_length (current : DataKeyId) (keys : KeySet) :
    (encodeKeySet current keys).length = SET_HEADER_LEN + keys.size * ENTRY_LEN := by
  unfold encodeKeySet
  have hentries : (keys.toList.flatMap encodeEntry).length = keys.size * ENTRY_LEN := by
    rw [List.length_flatMap, ← Std.ExtTreeMap.length_toList]
    simp [encodeEntry_length]
  rw [List.length_append, List.length_append, length_leBytes, length_leBytes, hentries]
  rfl

/-- **The key set comes back exactly when its size fits the count field.** -/
theorem decode_encode {current : DataKeyId} {keys : KeySet} (hcurrent : keys.contains current) :
    decodeKeySet (encodeKeySet current keys) =
      if keys.size < 2 ^ 16 then .ok (current, keys)
      else .error (.malformedKeyfile
        "key set does not hold the number of keys it declares") := by
  have hlen := encodeKeySet_length current keys
  have hlt := current.toNat_lt
  have hid : slice 0 4 (encodeKeySet current keys) = leBytes 4 current.toNat := by
    unfold encodeKeySet
    rw [List.append_assoc]
    exact slice_middle _ (a := []) rfl (by simp)
  have hcount : slice 4 6 (encodeKeySet current keys) = leBytes 2 (saturate16 keys.size) := by
    unfold encodeKeySet
    exact slice_middle _ (by simp) (by simp)
  have hentries : (encodeKeySet current keys).drop SET_HEADER_LEN =
      keys.toList.flatMap encodeEntry := by
    unfold encodeKeySet
    exact List.drop_left' (by simp [SET_HEADER_LEN])
  have hsize : (keys.toList.flatMap encodeEntry).length = keys.size * ENTRY_LEN := by
    rw [← hentries, List.length_drop, hlen]
    omega
  have hsat := saturate16_lt keys.size
  unfold decodeKeySet
  dsimp only
  rw [if_neg (by omega), hid, hcount, hentries, hsize, ofLe_leBytes, ofLe_leBytes,
    Nat.mod_eq_of_lt (by omega : current.toNat < 256 ^ 4),
    Nat.mod_eq_of_lt (by omega : saturate16 keys.size < 256 ^ 2), UInt32.ofNat_toNat]
  by_cases hsmall : keys.size < 2 ^ 16
  · have hchunks : chunks ENTRY_LEN (keys.toList.flatMap encodeEntry) =
        keys.toList.map encodeEntry := by
      rw [List.flatMap_def]
      refine chunks_flatten_full (by decide) _ fun b hb => ?_
      obtain ⟨entry, -, rfl⟩ := List.mem_map.1 hb
      exact encodeEntry_length entry
    rw [if_pos hsmall, (saturate16_eq_iff _).2 hsmall, if_neg (not_not.2 rfl), Nat.mul_mod_left,
      if_neg (not_not.2 rfl), hchunks, decodeEntries_encode, foldl_insert_toList]
    simp only [bind, Except.bind]
    rw [hcurrent]
    rfl
  · have hne : keys.size * ENTRY_LEN ≠ saturate16 keys.size * ENTRY_LEN := by
      intro h
      exact hsmall ((saturate16_eq_iff _).1 (Nat.eq_of_mul_eq_mul_right (by decide) h).symm)
    rw [if_neg hsmall, if_pos hne]

/-! ## The parts of a keyfile -/

/-- What opening does with a salt, a nonce and whatever stands behind them. -/
theorem Keyring.open_parts (salt : Octets SALT_LEN) (nonce : Nonce) (body passphrase : Bytes) :
    Keyring.open P ([Keyfile.VERSION] ++ salt.1 ++ nonce.1 ++ body) passphrase =
      if body.length < SET_HEADER_LEN + ENTRY_LEN + TAG_LEN then
        .error (.malformedKeyfile "too short to hold even one key")
      else if (body.length - TAG_LEN - SET_HEADER_LEN) % ENTRY_LEN ≠ 0 then
        .error (.malformedKeyfile "length is not a whole number of keys")
      else (do
        let kek ← deriveKeyEncryptionKey P passphrase salt
        match P.decrypt kek nonce CONTEXT body with
        | none => .error .wrongPassphrase
        | some opened =>
          let (current, keys) ← decodeKeySet opened
          pure ⟨keys, current, kek, salt, nonce, body⟩) := by
  generalize hfile : [Keyfile.VERSION] ++ salt.1 ++ nonce.1 ++ body = keyfile
  have hprefix : ([Keyfile.VERSION] ++ salt.1).length = 1 + SALT_LEN := by
    rw [List.length_append, salt.2]
    rfl
  have hhead : ([Keyfile.VERSION] ++ salt.1 ++ nonce.1).length = PREFIX_LEN := by
    rw [List.length_append, hprefix, nonce.2]
    rfl
  have hsalt : slice 1 (1 + SALT_LEN) keyfile = salt.1 := by
    rw [← hfile, List.append_assoc _ nonce.1]
    exact slice_middle _ rfl (by rw [salt.2])
  have hnonce : slice (1 + SALT_LEN) PREFIX_LEN keyfile = nonce.1 := by
    rw [← hfile]
    exact slice_middle _ hprefix (by rw [nonce.2]; rfl)
  have hbody : keyfile.drop PREFIX_LEN = body := by
    rw [← hfile]
    exact List.drop_left' hhead
  have hlength : PREFIX_LEN ≤ keyfile.length := by
    rw [← hfile, List.length_append, hhead]
    omega
  have hversion : keyfile.getD 0 0 = Keyfile.VERSION := by
    rw [← hfile]
    rfl
  unfold Keyring.open
  dsimp only
  rw [if_neg (by omega), if_neg (by rw [hversion]; exact not_not.2 rfl), hsalt, hnonce, hbody,
    toOctets_eq salt.2, toOctets_eq nonce.2]

/-! ## What an operation does -/

section Ok

variable {P : Platform}

theorem deriveKeyEncryptionKey_ok {passphrase : Bytes} {salt : Octets SALT_LEN}
    {key : SecretKey} :
    deriveKeyEncryptionKey P passphrase salt = .ok key ↔ P.derive passphrase salt = some key := by
  unfold deriveKeyEncryptionKey
  cases P.derive passphrase salt <;> simp

theorem onTrace_ok {α : Type} {x : EStateM KeyringError Trace α} {k : Keyring} {t : Trace}
    {a : α} {state : Keyring × Trace} :
    (onTrace x).run (k, t) = .ok a state ↔ ∃ t', x.run t = .ok a t' ∧ state = (k, t') := by
  unfold onTrace EStateM.run
  cases hx : x t with
  | error e t' => simp [hx]
  | ok b t' =>
    simp only [hx, EStateM.Result.ok.injEq]
    constructor
    · rintro ⟨rfl, rfl⟩
      exact ⟨t', ⟨rfl, rfl⟩, rfl⟩
    · rintro ⟨_, ⟨rfl, rfl⟩, rfl⟩
      exact ⟨rfl, rfl⟩

@[simp] theorem run_keyring (state : Keyring × Trace) : keyring.run state = .ok state.1 state := rfl

@[simp] theorem run_setKeyring (g : Keyring → Keyring) (state : Keyring × Trace) :
    (setKeyring g).run state = .ok ⟨⟩ (g state.1, state.2) := rfl

theorem fillField_ok {len : Nat} {read : Keyring → Octets len}
    {write : Keyring → Octets len → Keyring} {k : Keyring} {t : Trace} {u : PUnit}
    {state : Keyring × Trace} (h : (fillField P read write).run (k, t) = .ok u state) :
    ∃ bytes, P.fill t.draws len = some bytes ∧
      state = (write k bytes, { t with draws := t.draws + 1 }) := by
  unfold fillField EStateM.run at h
  cases hdraw : draw P len KeyringError.random t with
  | error e t' =>
    simp only [hdraw] at h
    cases h
  | ok bytes t' =>
    simp only [hdraw] at h
    cases h
    obtain ⟨hfill, rfl⟩ := draw_ok hdraw
    exact ⟨bytes, hfill, rfl⟩

/-- Resealing changes the nonce and the wrapped key set, which it makes agree with the rest. -/
theorem Keyring.reseal_ok {k k' : Keyring} {t t' : Trace} {u : PUnit}
    (h : (reseal P).run (k, t) = .ok u (k', t')) :
    ∃ nonce sealed, k' = { k with nonce := nonce, sealed := sealed } ∧
      P.encrypt k.kek nonce CONTEXT (encodeKeySet k.current k.keys) = some sealed := by
  unfold Keyring.reseal at h
  obtain ⟨_, s2, hnonce, h2⟩ := bind_ok.1 h
  obtain ⟨nonce, -, rfl⟩ := fillField_ok hnonce
  obtain ⟨k2, s3, hget, h3⟩ := bind_ok.1 h2
  rw [run_keyring] at hget
  cases hget
  obtain ⟨sealed, s4, hseal, h4⟩ := bind_ok.1 h3
  obtain ⟨t4, hencrypt, rfl⟩ := onTrace_ok.1 hseal
  rw [run_setKeyring] at h4
  cases h4
  exact ⟨nonce, sealed, rfl, (encryptWith_ok hencrypt).1⟩

theorem Keyring.create_ok {passphrase : Bytes} {k : Keyring} {t t' : Trace}
    (h : (create P passphrase).run t = .ok k t') :
    ∃ key, k.keys = (∅ : KeySet).insert .FIRST key ∧ k.current = .FIRST ∧
      P.derive passphrase k.salt = some k.kek ∧
      P.encrypt k.kek k.nonce CONTEXT (encodeKeySet k.current k.keys) = some k.sealed := by
  unfold Keyring.create at h
  obtain ⟨key, t1, -, h1⟩ := bind_ok.1 h
  obtain ⟨salt, t2, -, h2⟩ := bind_ok.1 h1
  obtain ⟨kek, t3, hkek, h3⟩ := bind_ok.1 h2
  obtain ⟨hderived, rfl⟩ := ofExcept_ok.1 hkek
  have hderive := deriveKeyEncryptionKey_ok.1 hderived
  unfold building at h3
  cases hreseal : (reseal P).run (⟨(∅ : KeySet).insert .FIRST key, .FIRST, kek, salt,
      padTo NONCE_LEN [], []⟩, t3) with
  | error e state => simp only [EStateM.run] at h3 hreseal; rw [hreseal] at h3; cases h3
  | ok u state =>
    obtain ⟨k', t4⟩ := state
    obtain ⟨nonce, sealed, rfl, hseal⟩ := reseal_ok hreseal
    simp only [EStateM.run] at h3 hreseal
    rw [hreseal] at h3
    cases h3
    exact ⟨key, rfl, rfl, hderive, hseal⟩

theorem Keyring.rotateDataKey_ok {k k' : Keyring} {t t' : Trace} {id : DataKeyId}
    (h : (rotateDataKey P).run (k, t) = .ok id (k', t')) :
    (k.keys.maxKey?.getD .FIRST).next = some id ∧ ∃ key,
      k'.keys = k.keys.insert id key ∧ k'.current = id ∧ k'.kek = k.kek ∧ k'.salt = k.salt ∧
      P.encrypt k'.kek k'.nonce CONTEXT (encodeKeySet k'.current k'.keys) = some k'.sealed := by
  unfold Keyring.rotateDataKey at h
  obtain ⟨k0, s0, hget, h0⟩ := bind_ok.1 h
  rw [run_keyring] at hget
  cases hget
  split at h0
  · cases h0
  rename_i next hnext
  obtain ⟨key, s1, hkey, h1⟩ := bind_ok.1 h0
  obtain ⟨t1, -, rfl⟩ := onTrace_ok.1 hkey
  obtain ⟨_, s2, hset, h2⟩ := bind_ok.1 h1
  rw [run_setKeyring] at hset
  cases hset
  obtain ⟨_, s3, hset, h3⟩ := bind_ok.1 h2
  rw [run_setKeyring] at hset
  cases hset
  obtain ⟨_, s4, hreseal, h4⟩ := bind_ok.1 h3
  rw [run_pure] at h4
  cases h4
  obtain ⟨nonce, sealed, rfl, hseal⟩ := reseal_ok hreseal
  exact ⟨hnext, key, rfl, rfl, rfl, rfl, hseal⟩

theorem Keyring.changePassphrase_ok {k k' : Keyring} {t t' : Trace} {passphrase : Bytes}
    {u : PUnit} (h : (changePassphrase P passphrase).run (k, t) = .ok u (k', t')) :
    k'.keys = k.keys ∧ k'.current = k.current ∧ P.derive passphrase k'.salt = some k'.kek ∧
      P.encrypt k'.kek k'.nonce CONTEXT (encodeKeySet k'.current k'.keys) = some k'.sealed := by
  unfold Keyring.changePassphrase at h
  obtain ⟨_, s2, hsalt, h2⟩ := bind_ok.1 h
  obtain ⟨salt, -, rfl⟩ := fillField_ok hsalt
  obtain ⟨k2, s3, hget, h3⟩ := bind_ok.1 h2
  rw [run_keyring] at hget
  cases hget
  obtain ⟨kek, s4, hkek, h4⟩ := bind_ok.1 h3
  obtain ⟨hderived, rfl⟩ := ofExcept_ok.1 hkek
  have hderive := deriveKeyEncryptionKey_ok.1 hderived
  obtain ⟨_, s5, hset, h5⟩ := bind_ok.1 h4
  rw [run_setKeyring] at hset
  cases hset
  obtain ⟨nonce, sealed, rfl, hseal⟩ := reseal_ok h5
  exact ⟨rfl, rfl, hderive, hseal⟩

end Ok

/-! ## What a failure leaves -/

section Failure

variable {P : Platform}

theorem draw_error {ε : Type} {len : Nat} {e e' : ε} {t t' : Trace}
    (h : (draw P len e).run t = .error e' t') : P.fill t.draws len = none := by
  unfold draw EStateM.run at h
  cases hfill : P.fill t.draws len with
  | none => rfl
  | some bytes =>
    simp only [hfill] at h
    cases h

theorem onTrace_error {α : Type} {x : EStateM KeyringError Trace α} {k k' : Keyring}
    {t t' : Trace} {e : KeyringError} (h : (onTrace x).run (k, t) = .error e (k', t')) :
    x.run t = .error e t' ∧ k' = k := by
  unfold onTrace EStateM.run at h
  unfold EStateM.run
  cases hx : x t with
  | ok a t1 =>
    simp only [hx] at h
    cases h
  | error e1 t1 =>
    simp only [hx] at h
    cases h
    exact ⟨rfl, rfl⟩

theorem fillField_error {len : Nat} {read : Keyring → Octets len}
    {write : Keyring → Octets len → Keyring} {k k' : Keyring} {t t' : Trace} {e : KeyringError}
    (h : (fillField P read write).run (k, t) = .error e (k', t')) :
    P.fill t.draws len = none ∧ k' = write k (P.leftover t.draws len (read k)) := by
  unfold fillField EStateM.run at h
  cases hdraw : draw P len KeyringError.random t with
  | ok bytes t1 =>
    simp only [hdraw] at h
    cases h
  | error e1 t1 =>
    simp only [hdraw] at h
    cases h
    exact ⟨draw_error hdraw, rfl⟩

theorem Keyring.reseal_error {k k' : Keyring} {t t' : Trace} {e : KeyringError}
    (h : (reseal P).run (k, t) = .error e (k', t')) :
    ∃ nonce, k' = { k with nonce := nonce } := by
  unfold Keyring.reseal at h
  rcases bind_error.1 h with hfill | ⟨_, s1, hfill, h1⟩
  · exact ⟨_, (fillField_error hfill).2⟩
  obtain ⟨nonce, -, rfl⟩ := fillField_ok hfill
  rcases bind_error.1 h1 with hget | ⟨k2, s2, hget, h2⟩
  · cases hget
  rw [run_keyring] at hget
  cases hget
  rcases bind_error.1 h2 with hseal | ⟨sealed, s3, hseal, h3⟩
  · exact ⟨nonce, (onTrace_error hseal).2⟩
  · cases h3

/-- **What a rotation that fails leaves**: the keyring as it was, or one with a further key, which
is the current one, and with another nonce. -/
theorem Keyring.rotateDataKey_error {k k' : Keyring} {t t' : Trace} {e : KeyringError}
    (h : (rotateDataKey P).run (k, t) = .error e (k', t')) :
    ((k.keys.maxKey?.getD .FIRST).next = none ∧ k' = k) ∨
      ∃ id, (k.keys.maxKey?.getD .FIRST).next = some id ∧
        ((P.fill t.draws KEY_LEN = none ∧ k' = k) ∨ ∃ key nonce,
          P.fill t.draws KEY_LEN = some key ∧
            k' = { k with keys := k.keys.insert id key, current := id, nonce := nonce }) := by
  unfold Keyring.rotateDataKey at h
  rcases bind_error.1 h with hget | ⟨k0, s0, hget, h0⟩
  · cases hget
  rw [run_keyring] at hget
  cases hget
  split at h0
  · rename_i hnone
    cases h0
    exact .inl ⟨hnone, rfl⟩
  rename_i id hid
  refine .inr ⟨id, hid, ?_⟩
  rcases bind_error.1 h0 with hdraw | ⟨key, s1, hdraw, h1⟩
  · obtain ⟨hdrawn, rfl⟩ := onTrace_error hdraw
    exact .inl ⟨draw_error hdrawn, rfl⟩
  obtain ⟨t1, hdrawn, rfl⟩ := onTrace_ok.1 hdraw
  obtain ⟨hfill, -⟩ := draw_ok hdrawn
  rcases bind_error.1 h1 with hset | ⟨_, s2, hset, h2⟩
  · cases hset
  rw [run_setKeyring] at hset
  cases hset
  rcases bind_error.1 h2 with hset | ⟨_, s3, hset, h3⟩
  · cases hset
  rw [run_setKeyring] at hset
  cases hset
  rcases bind_error.1 h3 with hreseal | ⟨_, s4, -, h4⟩
  · obtain ⟨nonce, rfl⟩ := reseal_error hreseal
    exact .inr ⟨key, nonce, hfill, rfl⟩
  · cases h4

/-- **What a change of the passphrase that fails leaves**: the salt that was drawn, or what a
failed draw left of the old one. -/
theorem Keyring.changePassphrase_error {k k' : Keyring} {t t' : Trace} {passphrase : Bytes}
    {e : KeyringError} (h : (changePassphrase P passphrase).run (k, t) = .error e (k', t')) :
    (P.fill t.draws SALT_LEN = none ∧
        k' = { k with salt := P.leftover t.draws SALT_LEN k.salt }) ∨
      ∃ salt kek nonce, P.fill t.draws SALT_LEN = some salt ∧
        k' = { k with salt := salt, kek := kek, nonce := nonce } := by
  unfold Keyring.changePassphrase at h
  rcases bind_error.1 h with hfill | ⟨_, s1, hfill, h1⟩
  · exact .inl (fillField_error hfill)
  obtain ⟨salt, hdrawn, rfl⟩ := fillField_ok hfill
  rcases bind_error.1 h1 with hget | ⟨k1, s2, hget, h2⟩
  · cases hget
  rw [run_keyring] at hget
  cases hget
  rcases bind_error.1 h2 with hderive | ⟨kek, s3, hderive, h3⟩
  · cases hderived : deriveKeyEncryptionKey P passphrase salt with
    | ok kek =>
      rw [hderived] at hderive
      cases hderive
    | error e1 =>
      rw [hderived] at hderive
      cases hderive
      exact .inr ⟨salt, k.kek, k.nonce, hdrawn, rfl⟩
  obtain ⟨-, rfl⟩ := ofExcept_ok.1 hderive
  rcases bind_error.1 h3 with hset | ⟨_, s4, hset, h4⟩
  · cases hset
  rw [run_setKeyring] at hset
  cases hset
  obtain ⟨nonce, rfl⟩ := reseal_error h4
  exact .inr ⟨salt, kek, nonce, hdrawn, rfl⟩

end Failure

end EuleDB.Crypto
