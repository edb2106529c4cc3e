import EuleDB.Crypto.Capability
import EuleDB.Crypto.Wrapping

/-!
# Keyring operations that fail

A rotation and a change of the passphrase overwrite the keyring's fields one after the other, and
seal the key set last.  Where they fail in between, what they overwrote stays overwritten, and the
keyring goes on being used.

* `Keyring.KeyfileHolds` — the keyfile opens to what the keyring holds.
* `Keyring.Unharmed` — what is wanted of a keyring after a failure.
* `failed_unharmed_iff` — it holds exactly where the keyfile held the keys before and the operation
  failed before it overwrote anything.
-/

set_option autoImplicit false

namespace EuleDB.Crypto

open Effect Keyfile

variable {P : Platform}

/-! ## What is wanted after a failure -/

/-- The keyfile opens with the passphrase, to the keys and the current id that are held. -/
def Keyring.KeyfileHolds (P : Platform) (passphrase : Bytes) (k : Keyring) : Prop :=
  ∃ reopened, Keyring.open P k.toKeyfile passphrase = .ok reopened ∧
    reopened.keys = k.keys ∧ reopened.current = k.current

/-- The keys, the current id and the token key are as they were, and the keyfile still opens with
the passphrase that was valid, to the same keys and current id. -/
structure Keyring.Unharmed (P : Platform) (passphrase : Bytes) (k k' : Keyring) : Prop where
  valid : ∃ before, Keyring.open P k.toKeyfile passphrase = .ok before
  keys : k'.keys = k.keys
  current : k'.current = k.current
  tokenKey : k'.tokenKey P = k.tokenKey P
  opens : ∃ reopened, Keyring.open P k'.toKeyfile passphrase = .ok reopened ∧
    reopened.keys = k.keys ∧ reopened.current = k.current

/-- The operation fails before it overwrites anything: there is no further id, or its first draw
fails, which for a change of the passphrase has to leave the salt as it was. -/
def KeyringOp.FailsFirst (P : Platform) (k : Keyring) (t : Trace) : KeyringOp → Prop
  | .rotateDataKey =>
    (k.keys.maxKey?.getD .FIRST).next = none ∨ P.fill t.draws KEY_LEN = none
  | .changePassphrase _ =>
    P.fill t.draws SALT_LEN = none ∧ P.leftover t.draws SALT_LEN k.salt = k.salt

/-- No ciphertext came out of two encryptions. -/
def Trace.CiphertextsOnce (t : Trace) : Prop :=
  ∀ s ∈ t.sealings, ∀ s' ∈ t.sealings, s.ct = s'.ct → s = s'

/-- Two salts derive two keys from the passphrase. -/
def Platform.SaltsApart (P : Platform) (passphrase : Bytes) : Prop :=
  ∀ salt salt' key, P.derive passphrase salt = some key → P.derive passphrase salt' = some key →
    salt = salt'

section Failed

variable {passphrase : Bytes} {k k' : Keyring} {t t' : Trace} {e : KeyringError}

theorem Keyring.open_ok {keyfile : Keyring} {reopened : Keyring}
    (h : Keyring.open P keyfile.toKeyfile passphrase = .ok reopened) :
    ∃ kek opened, P.derive passphrase keyfile.salt = some kek ∧
      P.decrypt kek keyfile.nonce CONTEXT keyfile.sealed = some opened := by
  unfold Keyring.toKeyfile at h
  rw [open_parts] at h
  split_ifs at h
  cases hkek : deriveKeyEncryptionKey P passphrase keyfile.salt with
  | error e =>
    rw [hkek] at h
    cases h
  | ok kek =>
    rw [hkek] at h
    simp only [bind, Except.bind] at h
    cases hopened : P.decrypt kek keyfile.nonce CONTEXT keyfile.sealed with
    | none =>
      rw [hopened] at h
      cases h
    | some opened => exact ⟨kek, opened, deriveKeyEncryptionKey_ok.1 hkek, hopened⟩

/-- Of two keyfiles with one wrapped key set and different salts only one opens. -/
theorem Keyring.salt_eq_of_open (hideal : P.Ideal t.sealings) (honce : t.CiphertextsOnce)
    (hsalts : P.SaltsApart passphrase) {before after : Keyring}
    (hbefore : Keyring.open P k.toKeyfile passphrase = .ok before)
    (hafter : Keyring.open P k'.toKeyfile passphrase = .ok after)
    (hsealed : k'.sealed = k.sealed) : k'.salt = k.salt := by
  obtain ⟨kek, opened, hderived, hdecrypted⟩ := open_ok hbefore
  obtain ⟨kek', opened', hderived', hdecrypted'⟩ := open_ok hafter
  obtain ⟨s, hs, hkey, -, -, hct⟩ := hideal.authentic hdecrypted
  obtain ⟨s', hs', hkey', -, -, hct'⟩ := hideal.authentic hdecrypted'
  -- both keys open the one ciphertext, which was made once
  have hsame : s' = s := honce s' hs' s hs ((hct'.trans hsealed).trans hct.symm)
  have hkek : kek' = kek := by
    rw [← hkey', hsame, hkey]
  rw [hkek] at hderived'
  exact hsalts _ _ _ hderived' hderived

/-- The keyfile of a keyring whose passphrase is known holds its keys as long as they can be
counted. -/
theorem Keyring.Reached.keyfileHolds_iff (hk : k.Reached P (some passphrase) t)
    (hideal : P.Ideal t.sealings) : k.KeyfileHolds P passphrase ↔ k.keys.size < 2 ^ 16 := by
  have hopen := hk.open_toKeyfile hideal
  constructor
  · rintro ⟨reopened, h, -⟩
    rw [hopen] at h
    split_ifs at h with hsmall
    exact hsmall
  · intro hsmall
    rw [if_pos hsmall] at hopen
    exact ⟨k, hopen, rfl, rfl⟩

/-- A keyring that is as it was is unharmed as long as its keyfile held its keys. -/
theorem Keyring.unharmed_self : Unharmed P passphrase k k ↔ k.KeyfileHolds P passphrase := by
  constructor
  · exact fun h => h.opens
  · rintro ⟨reopened, hopen, hsame⟩
    exact ⟨⟨reopened, hopen⟩, rfl, rfl, rfl, reopened, hopen, hsame⟩

/-- **A failed operation leaves the keyring and its keyfile unharmed exactly where the keyfile held
the keys of the keyring and the operation failed before it overwrote anything.**  The keyring is any
that is reached, also over operations that failed before. -/
theorem failed_unharmed_iff {known : Option Bytes} {op : KeyringOp} (hk : k.Reached P known t)
    (hideal : P.Ideal t.sealings) (honce : t.CiphertextsOnce) (hsalts : P.SaltsApart passphrase)
    (hfresh : P.fill t.draws SALT_LEN ≠ some k.salt)
    (h : (op.run P).run (k, t) = .error e (k', t')) :
    Keyring.Unharmed P passphrase k k' ↔
      k.KeyfileHolds P passphrase ∧ op.FailsFirst P k t := by
  have hself : Keyring.Unharmed P passphrase k k ↔ k.KeyfileHolds P passphrase :=
    Keyring.unharmed_self
  cases op with
  | rotateDataKey =>
    unfold KeyringOp.FailsFirst
    rcases Keyring.rotateDataKey_error (KeyringOp.rotate_error h) with
      ⟨hnone, rfl⟩ | ⟨id, hid, ⟨hfill, rfl⟩ | ⟨key, nonce, hfill, rfl⟩⟩
    · rw [hself]
      exact (and_iff_left (.inl hnone)).symm
    · rw [hself]
      exact (and_iff_left (.inr hfill)).symm
    · -- the new id was not held, the current one was
      refine iff_of_false ?_ ?_
      · intro hunharmed
        have hcurrent : id = k.current := hunharmed.current
        have hheld := hk.newest.contains
        have hnew := DataKeyId.next_not_held hid
        rw [← hcurrent, hnew] at hheld
        cases hheld
      · rintro ⟨-, hnone | hnone⟩
        · rw [hid] at hnone
          cases hnone
        · rw [hfill] at hnone
          cases hnone
  | changePassphrase new =>
    unfold KeyringOp.FailsFirst
    -- the wrapped key set is the old one, which opens under one salt only
    have hsalt : Keyring.Unharmed P passphrase k k' → k'.sealed = k.sealed →
        k'.salt = k.salt := by
      rintro ⟨⟨before, hbefore⟩, -, -, -, after, hafter, -⟩ hsealed
      exact Keyring.salt_eq_of_open hideal honce hsalts hbefore hafter hsealed
    rcases Keyring.changePassphrase_error h with ⟨hfill, rfl⟩ | ⟨salt, kek, nonce, hfill, rfl⟩
    · by_cases hleft : P.leftover t.draws SALT_LEN k.salt = k.salt
      · rw [hleft, hself]
        exact (and_iff_left ⟨hfill, rfl⟩).symm
      · refine iff_of_false ?_ fun hboth => hleft hboth.2.2
        exact fun hunharmed => hleft (hsalt hunharmed rfl)
    · refine iff_of_false ?_ ?_
      · intro hunharmed
        have hdrawn : salt = k.salt := hsalt hunharmed rfl
        rw [hdrawn] at hfill
        exact hfresh hfill
      · rintro ⟨-, hnone, -⟩
        rw [hfill] at hnone
        cases hnone

end Failed

/-! ## A random source that stops -/

/-- A platform whose random source fails from the `n`-th draw on. -/
def Platform.exhausted (n : Nat) (table : List Sealing) : Platform :=
  { Platform.tabled table with
    fill := fun i len => if i < n then (Platform.tabled table).fill i len else none }

theorem exhausted_saltsApart (n : Nat) (table : List Sealing) :
    (Platform.exhausted n table).SaltsApart [1] := by
  have hkey : ∀ salt : Octets SALT_LEN,
      (padTo KEY_LEN ([1] ++ salt.1)).1 = [1] ++ salt.1 ++ List.replicate 15 0 := by
    intro salt
    have hlength : ([1] ++ salt.1).length = 17 := by
      rw [List.length_append, salt.2]
      rfl
    have hpad : List.replicate KEY_LEN (0 : UInt8) =
        List.replicate 15 0 ++ List.replicate 17 0 := rfl
    show ([1] ++ salt.1 ++ List.replicate KEY_LEN 0).take KEY_LEN = _
    rw [hpad, ← List.append_assoc]
    apply List.take_left'
    rw [List.length_append, hlength, List.length_replicate]
    rfl
  intro salt salt' key h h'
  have hsame : (padTo KEY_LEN ([1] ++ salt.1)).1 = (padTo KEY_LEN ([1] ++ salt'.1)).1 :=
    congrArg Subtype.val (Option.some.inj (h.trans h'.symm))
  rw [hkey, hkey] at hsame
  exact Subtype.ext (List.append_cancel_left (List.append_cancel_right hsame))

/-- A new keyring, where the random source gives at least three draws. -/
theorem created_exhausted (n : Nat) (hn : 3 ≤ n) : ∃ k t,
    (Keyring.create (Platform.exhausted n [wrapped 2 .FIRST firstKeys]) [1]).run Trace.empty =
        .ok k t ∧ k.keys = firstKeys ∧ k.current = .FIRST ∧ k.salt = drawn SALT_LEN 1 ∧
      t = ⟨3, [wrapped 2 .FIRST firstKeys]⟩ := by
  obtain ⟨m, rfl⟩ : ∃ m, n = m + 3 := ⟨n - 3, by omega⟩
  exact ⟨_, _, rfl, rfl, rfl, rfl, rfl⟩

theorem firstWrapped_ideal (n : Nat) :
    (Platform.exhausted n [wrapped 2 .FIRST firstKeys]).Ideal [wrapped 2 .FIRST firstKeys] := by
  have h : (Platform.tabled [wrapped 2 .FIRST firstKeys]).Ideal [wrapped 2 .FIRST firstKeys] :=
    Platform.tabled_ideal (by simp [wrapped])
  exact ⟨h.opens, h.length, h.authentic⟩

theorem firstWrapped_once (draws : Nat) :
    Trace.CiphertextsOnce ⟨draws, [wrapped 2 .FIRST firstKeys]⟩ := by
  intro s hs s' hs' _
  rw [List.mem_singleton.1 hs, List.mem_singleton.1 hs']

/-- A new keyring has one key. -/
theorem created_countable {passphrase : Bytes} {k : Keyring} {t t' : Trace}
    (h : (Keyring.create P passphrase).run t = .ok k t') : k.keys.size < 2 ^ 16 := by
  rw [(Keyring.create_wraps h).2]
  decide

/-- A rotation whose nonce cannot be drawn: the new key is the current one already.  A change of
the passphrase whose nonce cannot be drawn: the keyfile, which opened, no longer does. -/
theorem failed_operations_are_not_undone :
    ∃ k t, k.Reached (Platform.exhausted 4 [wrapped 2 .FIRST firstKeys]) (some [1]) t ∧
      Keyring.open (Platform.exhausted 4 [wrapped 2 .FIRST firstKeys]) k.toKeyfile [1] = .ok k ∧
      (∃ k' t', (KeyringOp.rotateDataKey.run
          (Platform.exhausted 4 [wrapped 2 .FIRST firstKeys])).run (k, t) =
          .error .random (k', t') ∧ k'.current ≠ k.current) ∧
      ∃ k' t', ((KeyringOp.changePassphrase [2]).run
          (Platform.exhausted 4 [wrapped 2 .FIRST firstKeys])).run (k, t) =
          .error .random (k', t') ∧ ∀ reopened,
          Keyring.open (Platform.exhausted 4 [wrapped 2 .FIRST firstKeys]) k'.toKeyfile [1] ≠
            .ok reopened := by
  obtain ⟨k, t, hcreate, hkeys, hcurrent, hsalt, rfl⟩ := created_exhausted 4 (by decide)
  have hreached := Keyring.Reached.created hcreate
  have hopens := hreached.open_toKeyfile (firstWrapped_ideal 4)
  rw [if_pos (created_countable hcreate)] at hopens
  refine ⟨k, _, hreached, hopens, ?_, ?_⟩
  · have hnext : (k.keys.maxKey?.getD .FIRST).next = some 2 := by
      rw [hkeys, firstKeys_max]
      rfl
    have hfails : ∃ k' t', (Keyring.rotateDataKey
        (Platform.exhausted 4 [wrapped 2 .FIRST firstKeys])).run
        (k, ⟨3, [wrapped 2 .FIRST firstKeys]⟩) = .error .random (k', t') ∧ k'.current = 2 := by
      unfold Keyring.rotateDataKey
      rw [EStateM.run_bind, run_keyring]
      dsimp only
      rw [hnext]
      exact ⟨_, _, rfl, rfl⟩
    obtain ⟨k', t', hrotate, hnew⟩ := hfails
    refine ⟨k', t', bind_error.2 (.inl hrotate), ?_⟩
    rw [hnew, hcurrent]
    decide
  · have hfails : ∃ k' t', ((KeyringOp.changePassphrase [2]).run
        (Platform.exhausted 4 [wrapped 2 .FIRST firstKeys])).run
        (k, ⟨3, [wrapped 2 .FIRST firstKeys]⟩) = .error .random (k', t') ∧
        k'.salt = drawn SALT_LEN 3 ∧ k'.sealed = k.sealed := ⟨_, _, rfl, rfl, rfl⟩
    obtain ⟨k', t', hchange, hnewSalt, hsealed⟩ := hfails
    refine ⟨k', t', hchange, fun reopened hopen => ?_⟩
    have hsame := Keyring.salt_eq_of_open (firstWrapped_ideal 4) (firstWrapped_once 3)
      (exhausted_saltsApart 4 _) hopens hopen hsealed
    rw [hnewSalt, hsalt] at hsame
    exact absurd hsame (by decide)

/-- A rotation that fails at its key, after another that did: the keyring is unharmed. -/
theorem failed_draw_is_harmless :
    ∃ k t k' t', k.Reached (Platform.exhausted 3 [wrapped 2 .FIRST firstKeys]) none t ∧
      (KeyringOp.rotateDataKey.run (Platform.exhausted 3 [wrapped 2 .FIRST firstKeys])).run
        (k, t) = .error .random (k', t') ∧
      Keyring.Unharmed (Platform.exhausted 3 [wrapped 2 .FIRST firstKeys]) [1] k k' := by
  obtain ⟨k, t, hcreate, hkeys, hcurrent, hsalt, rfl⟩ := created_exhausted 3 (by decide)
  have hreached := Keyring.Reached.created hcreate
  have hnext : (k.keys.maxKey?.getD .FIRST).next = some 2 := by
    rw [hkeys, firstKeys_max]
    rfl
  have hfails : ∀ draws, 3 ≤ draws → (KeyringOp.rotateDataKey.run
      (Platform.exhausted 3 [wrapped 2 .FIRST firstKeys])).run
      (k, ⟨draws, [wrapped 2 .FIRST firstKeys]⟩) =
        .error .random (k, ⟨draws + 1, [wrapped 2 .FIRST firstKeys]⟩) := by
    intro draws hdraws
    refine bind_error.2 (.inl ?_)
    have hfill : (Platform.exhausted 3 [wrapped 2 .FIRST firstKeys]).fill draws KEY_LEN = none :=
      if_neg (by omega)
    unfold Keyring.rotateDataKey
    rw [EStateM.run_bind, run_keyring]
    dsimp only
    rw [hnext]
    refine bind_error.2 (.inl ?_)
    unfold onTrace draw EStateM.run
    simp only [hfill]
  have hholds : k.KeyfileHolds (Platform.exhausted 3 [wrapped 2 .FIRST firstKeys]) [1] :=
    (hreached.keyfileHolds_iff (firstWrapped_ideal 3)).2 (created_countable hcreate)
  exact ⟨k, _, k, _, hreached.failed (hfails 3 le_rfl), hfails 4 (by decide),
    (failed_unharmed_iff (hreached.failed (hfails 3 le_rfl)) (firstWrapped_ideal 3)
      (firstWrapped_once 4) (exhausted_saltsApart 3 _) nofun (hfails 4 (by decide))).2
      ⟨hholds, .inr rfl⟩⟩

end EuleDB.Crypto
