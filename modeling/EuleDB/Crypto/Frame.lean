import Mathlib.Data.List.Basic
import Mathlib.Tactic.Ring
import EuleDB.Lib.Slice
import EuleDB.Lib.Endian
import EuleDB.Crypto.Platform

/-!
# Block framing

The model of `crypto/frame.rs`.  A sealed object is a header of 13 bytes followed by blocks,
each a nonce and the ciphertext of one piece of the plaintext; every object ends with a block
shorter than a full one.

* `BlockFrame.ciphertextLen`, `plaintextLen`, `ciphertextSpan` — the length arithmetic, on
  `u64` values: where a result can pass `u64::MAX` it is taken modulo `2 ^ 64`.
* `BlockFrame.seal`, `sealBlock` — sealing, over the random source and the cipher.
* `BlockFrame.readHeader`, `openSpan`, `openWhole` — opening.
-/

set_option autoImplicit false

namespace EuleDB.Crypto

open Slice Endian Effect

/-- Identifies one data key within a keyring. -/
abbrev DataKeyId := UInt32

/-- `Range<u64>`. -/
structure Range where
  start : Nat
  stop : Nat
  deriving DecidableEq, Repr

namespace FrameFormat

/-- Marks an object as framed by this crate (`b"EULE"`). -/
def MAGIC : Bytes := [69, 85, 76, 69]

/-- Framing version. -/
def VERSION : UInt8 := 2

/-- `magic` + `version` + `block_size` + `key_id`. -/
def HEADER_LEN : Nat := 4 + 1 + 4 + 4

/-- Overhead each block pays: its nonce and its tag. -/
def BLOCK_OVERHEAD : Nat := NONCE_LEN + TAG_LEN

end FrameFormat

open FrameFormat

/-- A `u64` result, wrapped where it does not fit. -/
def wrap64 (n : Nat) : Nat := n % 2 ^ 64

theorem wrap64_of_lt {n : Nat} (h : n < 2 ^ 64) : wrap64 n = n := Nat.mod_eq_of_lt h

inductive FrameError where
  | authentication (block : Nat)
  | truncated
  | notFramed
  | unsupportedVersion (found : UInt8)
  | blockSizeMismatch (declared configured : Nat)
  | unknownKey (key : DataKeyId)
  | unsupportedBlockSize (given : Nat)
  | rangeOutsideObject
  | random
  | cipher
  deriving DecidableEq, Repr

/-- The plaintext bytes per block: a power of two between 64 and 2^20. -/
structure BlockSize where
  get : Nat
  min_le : 64 ≤ get
  le_max : get ≤ 2 ^ 20
  power : get.isPowerOfTwo

namespace BlockSize

def MIN : Nat := 64

def MAX : Nat := 2 ^ 20

/-- `usize::is_power_of_two`. -/
def isPowerOfTwo (n : Nat) : Bool := n != 0 && n &&& (n - 1) == 0

theorem isPowerOfTwo_iff (n : Nat) : isPowerOfTwo n = true ↔ n.isPowerOfTwo := by
  rw [← Nat.ne_zero_and_sub_one_eq_zero_iff_isPowerOfTwo]
  simp [isPowerOfTwo]

/-- Build a block size, refusing anything that is not a power of two in range. -/
def new (bytes : Nat) : Except FrameError BlockSize :=
  if h : MIN ≤ bytes ∧ bytes ≤ MAX ∧ isPowerOfTwo bytes = true then
    .ok ⟨bytes, h.1, h.2.1, (isPowerOfTwo_iff bytes).1 h.2.2⟩
  else .error (.unsupportedBlockSize bytes)

theorem pos (b : BlockSize) : 0 < b.get := Nat.lt_of_lt_of_le (by decide) b.min_le

theorem new_get (b : BlockSize) : new b.get = .ok b :=
  dif_pos ⟨b.min_le, b.le_max, (isPowerOfTwo_iff b.get).2 b.power⟩

/-- The default, 64 KiB. -/
def DEFAULT : BlockSize := ⟨64 * 1024, by decide, by decide, 16, by decide⟩

end BlockSize

/-- What an object's header says about how it was sealed. -/
structure Framing where
  blockSize : BlockSize
  key : DataKeyId

/-- Seals and opens objects a block at a time, under every key the keyring holds. -/
structure BlockFrame where
  keys : Std.ExtTreeMap DataKeyId SecretKey
  current : DataKeyId
  blockSize : BlockSize

variable (P : Platform) (f : BlockFrame)

/-- Bytes a full block takes once sealed. -/
def BlockFrame.sealedBlockLen : Nat := f.blockSize.get + BLOCK_OVERHEAD

/-- How many bytes `len` plaintext bytes occupy once sealed. -/
def BlockFrame.ciphertextLen (len : Nat) : Nat :=
  let block := f.blockSize.get
  let full := len / block
  let remainder := len % block
  wrap64 (HEADER_LEN + full * f.sealedBlockLen + (remainder + BLOCK_OVERHEAD))

/-- The inverse: how much plaintext a sealed object of this size holds. -/
def BlockFrame.plaintextLen (len : Nat) : Except FrameError Nat :=
  if len < HEADER_LEN then .error .truncated else
  let body := len - HEADER_LEN
  let full := body / f.sealedBlockLen
  let remainder := body % f.sealedBlockLen
  if remainder < BLOCK_OVERHEAD then .error .truncated
  else .ok (full * f.blockSize.get + remainder - BLOCK_OVERHEAD)

/-- The ciphertext bytes that have to be fetched to serve a plaintext range. -/
def BlockFrame.ciphertextSpan (plaintext : Range) (total : Nat) : Range :=
  let block := f.blockSize.get
  let first := plaintext.start / block
  let last := max ((plaintext.stop + block - 1) / block) (first + 1)
  let start := wrap64 (HEADER_LEN + first * f.sealedBlockLen)
  let stop := min (wrap64 (HEADER_LEN + last * f.sealedBlockLen)) (f.ciphertextLen total)
  ⟨start, max stop start⟩

/-- The header every sealed object starts with. -/
def BlockFrame.header : Bytes :=
  MAGIC ++ [VERSION] ++ leBytes 4 f.blockSize.get ++ leBytes 4 f.current.toNat

/-- The authenticated data for a block: version, key, index and whether it is the final one. -/
def BlockFrame.associatedData (key : DataKeyId) (index : Nat) (finalBlock : Bool) : Bytes :=
  [VERSION] ++ leBytes 4 key.toNat ++ leBytes 8 index ++ [if finalBlock then 1 else 0]

/-- The cipher for one of this frame's keys.  A key is 32 bytes by its type, which is all
`Aes256Gcm::new_from_slice` asks. -/
def BlockFrame.cipher (key : DataKeyId) : Except FrameError SecretKey :=
  match f.keys[key]? with
  | some secret => .ok secret
  | none => .error (.unknownKey key)

/-! ## Sealing -/

/-- Seal one block at a known index. -/
def BlockFrame.sealBlock (plaintext : Bytes) (index : Nat) (finalBlock : Bool) :
    EStateM FrameError Trace Bytes := do
  let nonce ← draw P NONCE_LEN .random
  let key ← ofExcept (f.cipher f.current)
  let ct ← encryptWith P key nonce (associatedData f.current index finalBlock) plaintext .cipher
  pure (nonce.1 ++ ct)

/-- The loop of `seal` over the pieces that are left, the next one at `index`. -/
def BlockFrame.sealChunks (key : SecretKey) (last : Nat) :
    Nat → List Bytes → EStateM FrameError Trace Bytes
  | _, [] => pure []
  | index, chunk :: rest => do
    let nonce ← draw P NONCE_LEN .random
    let ct ← encryptWith P key nonce
      (associatedData f.current index (index == last)) chunk .cipher
    let out ← sealChunks key last (index + 1) rest
    pure (nonce.1 ++ ct ++ out)

/-- The pieces `seal` seals: every object ends with one shorter than a block. -/
def BlockFrame.sealedPieces (plaintext : Bytes) : List Bytes :=
  let blocks := f.blockSize.get
  if plaintext.length % blocks = 0 then chunks blocks plaintext ++ [[]]
  else chunks blocks plaintext

/-- Seal a whole object. -/
def BlockFrame.seal (plaintext : Bytes) : EStateM FrameError Trace Bytes := do
  let key ← ofExcept (f.cipher f.current)
  let pieces := f.sealedPieces plaintext
  let out ← f.sealChunks P key (pieces.length - 1) 0 pieces
  pure (f.header ++ out)

/-! ## Opening -/

/-- Check the header and return the framing it declares. -/
def BlockFrame.readHeader (ciphertext : Bytes) : Except FrameError Framing :=
  if ciphertext.length < HEADER_LEN then .error .truncated
  else if ciphertext.take 4 ≠ MAGIC then .error .notFramed
  else if ciphertext.getD 4 0 ≠ VERSION then
    .error (.unsupportedVersion (ciphertext.getD 4 0))
  else
    let declared := ofLe (slice 5 9 ciphertext)
    if declared ≠ f.blockSize.get then
      .error (.blockSizeMismatch declared f.blockSize.get)
    else
      let key : DataKeyId := UInt32.ofNat (ofLe (slice 9 13 ciphertext))
      if f.keys.contains key = false then .error (.unknownKey key)
      else (BlockSize.new declared).map fun blockSize => ⟨blockSize, key⟩

/-- What `openSpan` does with one sealed block. -/
def BlockFrame.openBlock (secret : SecretKey) (key : DataKeyId) (index : Nat)
    (sealedBlock : Bytes) : Except FrameError Bytes :=
  if sealedBlock.length < BLOCK_OVERHEAD then .error .truncated else
  match toOctets NONCE_LEN (sealedBlock.take NONCE_LEN) with
  | none => .error .truncated
  | some nonce =>
    -- whether this is the final block is read off its length
    let aad := associatedData key index (decide (sealedBlock.length < f.sealedBlockLen))
    match P.decrypt secret nonce aad (sealedBlock.drop NONCE_LEN) with
    | none => .error (.authentication index)
    | some opened => .ok opened

/-- The loop of `openSpan`: the block at `index` starts at plaintext offset `offset`. -/
def BlockFrame.openBlocks (secret : SecretKey) (key : DataKeyId) (wanted : Range) :
    Nat → Nat → Bytes → List Bytes → Except FrameError Bytes
  | _, _, plaintext, [] => .ok plaintext
  | index, offset, plaintext, sealedBlock :: rest => do
    let opened ← f.openBlock P secret key index sealedBlock
    let blockStart := offset
    let blockEnd := offset + opened.length
    let lo := max wanted.start blockStart
    let hi := min wanted.stop blockEnd
    let kept := if lo < hi then slice (lo - blockStart) (hi - blockStart) opened else []
    openBlocks secret key wanted (index + 1) blockEnd (plaintext ++ kept) rest

/-- Open the blocks in `span` and return the `wanted` plaintext range from them. -/
def BlockFrame.openSpan (ciphertext : Bytes) (span wanted : Range) (framing : Framing) :
    Except FrameError Bytes := do
  let secret ← f.cipher framing.key
  let stride := f.sealedBlockLen
  if span.start < HEADER_LEN ∨ (span.start - HEADER_LEN) % stride ≠ 0 then
    .error .truncated
  else
    let firstBlock := (span.start - HEADER_LEN) / stride
    let plaintext ← f.openBlocks P secret framing.key wanted firstBlock
      (firstBlock * f.blockSize.get) [] (chunks stride ciphertext)
    if plaintext.length ≠ wanted.stop - wanted.start then .error .rangeOutsideObject
    else .ok plaintext

/-- `BlockFrame::open`: open a whole object. -/
def BlockFrame.openWhole (ciphertext : Bytes) : Except FrameError Bytes := do
  let len ← f.plaintextLen ciphertext.length
  let framing ← f.readHeader ciphertext
  f.openSpan P (ciphertext.drop HEADER_LEN) ⟨HEADER_LEN, ciphertext.length⟩ ⟨0, len⟩ framing

end EuleDB.Crypto
