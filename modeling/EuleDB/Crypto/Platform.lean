import Mathlib.Algebra.Ring.Nat
import Mathlib.Data.List.Basic
import EuleDB.Lib.Effect

/-!
# What the encryption layer is built on

The cipher, the random source, the key derivation and the message authentication code are
other people's crates.  `Platform` takes them as parameters; the two sets of laws below say
what is relied on:

* `Platform.Correct` — AES-256-GCM as documented: what was encrypted decrypts again, and a
  ciphertext is as long as its message and one tag.
* `Platform.Ideal` — the ideal cipher, relative to the encryptions that were made: nothing
  else decrypts.

`Trace` records what a run asked of the platform: how often the random source was drawn from
and every encryption that succeeded, oldest first.
-/

set_option autoImplicit false

namespace EuleDB.Crypto

abbrev Bytes := List UInt8

abbrev Text := List Char

/-- `[u8; n]`. -/
abbrev Octets (n : Nat) := {bytes : Bytes // bytes.length = n}

/-- Length of every key here, in bytes.  AES-256 takes 32. -/
def KEY_LEN : Nat := 32

/-- AES-GCM nonce length in bytes. -/
def NONCE_LEN : Nat := 12

/-- AES-GCM authentication tag length in bytes. -/
def TAG_LEN : Nat := 16

/-- Argon2id salt length. -/
def SALT_LEN : Nat := 16

/-- How long a capability tag is. -/
def MAC_LEN : Nat := 32

abbrev SecretKey := Octets KEY_LEN
abbrev Nonce := Octets NONCE_LEN

/-- The longest byte string a process can hold: `isize::MAX` bytes. -/
def MAX_BYTES : Nat := 2 ^ 63 - 1

/-- A byte slice as a fixed-size array, when it has that size. -/
def toOctets (n : Nat) (bytes : Bytes) : Option (Octets n) :=
  if h : bytes.length = n then some ⟨bytes, h⟩ else none

theorem toOctets_eq {n : Nat} {bytes : Bytes} (h : bytes.length = n) :
    toOctets n bytes = some ⟨bytes, h⟩ := dif_pos h

/-- The crates below, as functions. -/
structure Platform where
  /-- What the `i`-th draw of `len` random bytes gives; `none` when the source fails. -/
  fill : Nat → (len : Nat) → Option (Octets len)
  /-- What the `i`-th draw leaves of the `len` bytes it was to overwrite, when it fails. -/
  leftover : Nat → (len : Nat) → Octets len → Octets len
  /-- AES-256-GCM: key, nonce, associated data, message. -/
  encrypt : SecretKey → Nonce → Bytes → Bytes → Option Bytes
  /-- AES-256-GCM: key, nonce, associated data, ciphertext. -/
  decrypt : SecretKey → Nonce → Bytes → Bytes → Option Bytes
  /-- Argon2id: passphrase, salt. -/
  derive : Bytes → Octets SALT_LEN → Option SecretKey
  /-- HMAC-SHA256: key, message. -/
  hmac : Bytes → Bytes → Octets MAC_LEN

/-- One encryption that was made. -/
structure Sealing where
  key : SecretKey
  nonce : Nonce
  aad : Bytes
  msg : Bytes
  ct : Bytes
  deriving DecidableEq

/-- What a run asked of the platform so far. -/
structure Trace where
  draws : Nat
  sealings : List Sealing
  deriving DecidableEq

def Trace.empty : Trace := ⟨0, []⟩

/-- No nonce was used twice with one key. -/
def Trace.NoncesOnce (t : Trace) : Prop :=
  ∀ s ∈ t.sealings, ∀ s' ∈ t.sealings, s.key = s'.key → s.nonce = s'.nonce → s = s'

variable (P : Platform)

/-- The cipher as it is documented. -/
structure Platform.Correct : Prop where
  opens : ∀ {k n a m c}, P.encrypt k n a m = some c → P.decrypt k n a c = some m
  length : ∀ {k n a m c}, P.encrypt k n a m = some c → c.length = m.length + TAG_LEN

/-- The ideal cipher after the encryptions `sealings`: it opens exactly those. -/
structure Platform.Ideal (sealings : List Sealing) : Prop where
  opens : ∀ s ∈ sealings, P.decrypt s.key s.nonce s.aad s.ct = some s.msg
  length : ∀ s ∈ sealings, s.ct.length = s.msg.length + TAG_LEN
  authentic : ∀ {k n a c m}, P.decrypt k n a c = some m →
    ∃ s ∈ sealings, s.key = k ∧ s.nonce = n ∧ s.aad = a ∧ s.ct = c

variable {ε : Type}

/-- `getrandom::fill`, failing with `e`. -/
def draw (len : Nat) (e : ε) : EStateM ε Trace (Octets len) := fun t =>
  match P.fill t.draws len with
  | some bytes => .ok bytes { t with draws := t.draws + 1 }
  | none => .error e { t with draws := t.draws + 1 }

/-- `Aes256Gcm::encrypt`, failing with `e`. -/
def encryptWith (k : SecretKey) (n : Nonce) (aad msg : Bytes) (e : ε) : EStateM ε Trace Bytes :=
  fun t =>
    match P.encrypt k n aad msg with
    | some ct => .ok ct { t with sealings := t.sealings ++ [⟨k, n, aad, msg, ct⟩] }
    | none => .error e t

variable {P}

theorem draw_ok {len : Nat} {e : ε} {t t' : Trace} {bytes : Octets len}
    (h : (draw P len e).run t = .ok bytes t') :
    P.fill t.draws len = some bytes ∧ t' = { t with draws := t.draws + 1 } := by
  unfold draw EStateM.run at h
  cases hf : P.fill t.draws len with
  | none => simp [hf] at h
  | some b => simp only [hf, EStateM.Result.ok.injEq] at h; exact ⟨by rw [h.1], h.2.symm⟩

theorem encryptWith_ok {k : SecretKey} {n : Nonce} {aad msg ct : Bytes} {e : ε} {t t' : Trace}
    (h : (encryptWith P k n aad msg e).run t = .ok ct t') :
    P.encrypt k n aad msg = some ct ∧
      t' = { t with sealings := t.sealings ++ [⟨k, n, aad, msg, ct⟩] } := by
  unfold encryptWith EStateM.run at h
  cases he : P.encrypt k n aad msg with
  | none => simp [he] at h
  | some c =>
    simp only [he, EStateM.Result.ok.injEq] at h
    obtain ⟨rfl, rfl⟩ := h
    exact ⟨rfl, rfl⟩

/-! ## A platform to compute with -/

/-- The first `n` bytes, padded with zeros. -/
def padTo (n : Nat) (bytes : Bytes) : Octets n :=
  ⟨(bytes ++ List.replicate n 0).take n, by simp⟩

/-- A cipher that appends an empty tag, and opens the encryptions in `table` and no others. -/
def Platform.tabled (table : List Sealing) : Platform where
  fill i len := some (padTo len (List.replicate len (UInt8.ofNat i)))
  leftover _ _ bytes := bytes
  encrypt _ _ _ m := some (m ++ List.replicate TAG_LEN 0)
  decrypt k n a c :=
    (table.find? fun s => s.key = k ∧ s.nonce = n ∧ s.aad = a ∧ s.ct = c).map Sealing.msg
  derive passphrase salt := some (padTo KEY_LEN (passphrase ++ salt.1))
  hmac key message := padTo MAC_LEN (key ++ message)

theorem Platform.tabled_ideal {table : List Sealing}
    (h : ∀ s ∈ table, s.ct = s.msg ++ List.replicate TAG_LEN 0) :
    (Platform.tabled table).Ideal table := by
  refine ⟨fun s hs => ?_, fun s hs => by simp [h s hs], fun {k n a c m} hm => ?_⟩
  · cases hf : table.find? fun s' =>
        s'.key = s.key ∧ s'.nonce = s.nonce ∧ s'.aad = s.aad ∧ s'.ct = s.ct with
    | none =>
      rw [List.find?_eq_none] at hf
      exact absurd (by simp) (hf s hs)
    | some s' =>
      have hct : s'.ct = s.ct := by have := List.find?_some hf; simp at this; exact this.2.2.2
      rw [h s' (List.mem_of_find?_eq_some hf), h s hs] at hct
      simp only [Platform.tabled, hf, Option.map_some]
      rw [List.append_cancel_right hct]
  · obtain ⟨s, hf, -⟩ := Option.map_eq_some_iff.1 hm
    have hs := List.find?_some hf
    simp only [decide_eq_true_eq] at hs
    exact ⟨s, List.mem_of_find?_eq_some hf, hs⟩

/-- A cipher that appends an empty tag and asks for nothing but that tag. -/
def Platform.padding : Platform where
  fill i len := some (padTo len (List.replicate len (UInt8.ofNat i)))
  leftover _ _ bytes := bytes
  encrypt _ _ _ m := some (m ++ List.replicate TAG_LEN 0)
  decrypt _ _ _ c :=
    if c.drop (c.length - TAG_LEN) = List.replicate TAG_LEN 0 then
      some (c.take (c.length - TAG_LEN))
    else none
  derive passphrase salt := some (padTo KEY_LEN (passphrase ++ salt.1))
  hmac key message := padTo MAC_LEN (key ++ message)

theorem Platform.padding_correct : Platform.padding.Correct := by
  refine ⟨fun {k n a m c} h => ?_, fun {k n a m c} h => ?_⟩ <;> cases h
  · simp [Platform.padding]
  · simp

end EuleDB.Crypto
