import EuleDB.Lib.Checked
import EuleDB.Crypto.Versions

/-!
# The length translation

`ciphertextLen` and `plaintextLen` once more, with every operation checked to stay within `u64`:
`none` says that one of them does not.

* `BlockFrame.plaintextLenChecked_eq` — the size of an object is translated back without overflow
  or underflow, whatever the size.
* `BlockFrame.ciphertextLenChecked_iff` — a length is translated without overflow exactly where the
  size fits.
* `length_translation_exact` — the two are inverse to each other, the size grows with the length,
  and it is the size of what `seal` makes.
-/

set_option autoImplicit false

namespace EuleDB.Crypto

open Slice Endian Effect FrameFormat

variable {P : Platform} (f : BlockFrame)

/-- `ciphertextLen`, checked. -/
def BlockFrame.ciphertextLenChecked (len : Nat) : Option Nat := do
  let block := f.blockSize.get
  let full := len / block
  let remainder := len % block
  let blocks ← Checked.mul 64 full f.sealedBlockLen
  let total ← Checked.add 64 HEADER_LEN blocks
  let tail ← Checked.add 64 remainder BLOCK_OVERHEAD
  Checked.add 64 total tail

/-- `plaintextLen`, checked. -/
def BlockFrame.plaintextLenChecked (len : Nat) : Option (Except FrameError Nat) :=
  if len < HEADER_LEN then some (.error .truncated)
  else do
    let body ← Checked.sub len HEADER_LEN
    let full := body / f.sealedBlockLen
    let remainder := body % f.sealedBlockLen
    if remainder < BLOCK_OVERHEAD then some (.error .truncated)
    else do
      let blocks ← Checked.mul 64 full f.blockSize.get
      let total ← Checked.add 64 blocks remainder
      let plaintext ← Checked.sub total BLOCK_OVERHEAD
      pure (.ok plaintext)

/-- **No size overflows**: what the blocks hold is less than what they take. -/
theorem BlockFrame.plaintextLenChecked_eq {c : Nat} (hc : c < 2 ^ 64) :
    f.plaintextLenChecked c = some (f.plaintextLen c) := by
  have hdiv := Nat.div_add_mod (c - HEADER_LEN) f.sealedBlockLen
  have hmul := f.mul_stride ((c - HEADER_LEN) / f.sealedBlockLen)
  rw [Nat.mul_comm] at hdiv
  unfold plaintextLenChecked plaintextLen
  split_ifs with hshort
  · rfl
  · have hsub : Checked.sub c HEADER_LEN = some (c - HEADER_LEN) := by simp; omega
    rw [hsub]
    simp only [Option.bind_eq_bind, Option.bind_some]
    split_ifs with htail
    · rfl
    · have hblocks : Checked.mul 64 ((c - HEADER_LEN) / f.sealedBlockLen) f.blockSize.get =
          some ((c - HEADER_LEN) / f.sealedBlockLen * f.blockSize.get) := by
        simp
        omega
      have htotal : Checked.add 64 ((c - HEADER_LEN) / f.sealedBlockLen * f.blockSize.get)
          ((c - HEADER_LEN) % f.sealedBlockLen) =
            some ((c - HEADER_LEN) / f.sealedBlockLen * f.blockSize.get +
              (c - HEADER_LEN) % f.sealedBlockLen) := by
        simp
        omega
      have hlast : Checked.sub ((c - HEADER_LEN) / f.sealedBlockLen * f.blockSize.get +
          (c - HEADER_LEN) % f.sealedBlockLen) BLOCK_OVERHEAD =
            some ((c - HEADER_LEN) / f.sealedBlockLen * f.blockSize.get +
              (c - HEADER_LEN) % f.sealedBlockLen - BLOCK_OVERHEAD) := by
        simp
        omega
      rw [hblocks, Option.bind_some, htotal, Option.bind_some, hlast]
      rfl

/-- **A length is translated** without overflow exactly where the size fits. -/
theorem BlockFrame.ciphertextLenChecked_iff {len c : Nat} :
    f.ciphertextLenChecked len = some c ↔ f.sealedLen len < 2 ^ 64 ∧ f.sealedLen len = c := by
  have hsealed : f.sealedLen len = HEADER_LEN + len / f.blockSize.get * f.sealedBlockLen +
    (len % f.blockSize.get + BLOCK_OVERHEAD) := rfl
  unfold ciphertextLenChecked
  simp only [Option.bind_eq_bind, Option.bind_eq_some_iff, Checked.mul_eq_some,
    Checked.add_eq_some]
  constructor
  · rintro ⟨blocks, ⟨-, rfl⟩, total, ⟨-, rfl⟩, tail, ⟨-, rfl⟩, hfits, rfl⟩
    exact ⟨hfits, rfl⟩
  · rintro ⟨hfits, rfl⟩
    exact ⟨_, ⟨by omega, rfl⟩, _, ⟨by omega, rfl⟩, _, ⟨by omega, rfl⟩, by omega, rfl⟩

theorem BlockFrame.ciphertextLen_of_lt {len : Nat} (h : f.sealedLen len < 2 ^ 64) :
    f.ciphertextLen len = f.sealedLen len := wrap64_of_lt h

/-- What `seal` makes of a plaintext is as long as its sealed size. -/
theorem BlockFrame.seal_length (hP : P.Correct) {p c : Bytes} {t t' : Trace}
    (hseal : (f.seal P p).run t = .ok c t') : c.length = f.sealedLen p.length := by
  obtain ⟨key, ss, -, rfl, hs⟩ := BlockFrame.seal_ok hseal
  exact hs.object_length (hP.opening hs)

/-- **The length translation is exact.**  Every size is translated back without overflow, to a
length exactly where it is the size of that length and of no other; and where a size fits, it is
computed without overflow, is what `seal` makes of that many bytes, grows with the length and leads
back to it. -/
theorem length_translation_exact (hP : P.Correct) (f : BlockFrame) :
    (∀ c < 2 ^ 64, f.plaintextLenChecked c = some (f.plaintextLen c) ∧
      (∀ n, f.plaintextLen c = .ok n ↔ f.ciphertextLenChecked n = some c) ∧
      ∀ n n', f.ciphertextLenChecked n = some c → f.ciphertextLenChecked n' = some c → n = n') ∧
    ∀ n, f.sealedLen n < 2 ^ 64 →
      f.ciphertextLenChecked n = some (f.ciphertextLen n) ∧
      (∀ (p c : Bytes) (t t' : Trace), p.length = n → (f.seal P p).run t = .ok c t' →
        c.length = f.ciphertextLen n) ∧
      (∀ m < n, f.ciphertextLen m < f.ciphertextLen n) ∧
      f.plaintextLen (f.ciphertextLen n) = .ok n := by
  refine ⟨fun c hc => ⟨f.plaintextLenChecked_eq hc, fun n => ?_, fun n n' hn hn' => ?_⟩,
    fun n hn => ⟨?_, fun p c t t' hp hseal => ?_, fun m hm => ?_, ?_⟩⟩
  · rw [BlockFrame.plaintextLen_ok, f.ciphertextLenChecked_iff]
    constructor
    · rintro rfl
      exact ⟨hc, rfl⟩
    · rintro ⟨-, rfl⟩
      rfl
  · -- both are what the size is translated back to
    have hfirst := BlockFrame.plaintextLen_ok.2 (f.ciphertextLenChecked_iff.1 hn).2.symm
    have hsecond := BlockFrame.plaintextLen_ok.2 (f.ciphertextLenChecked_iff.1 hn').2.symm
    rw [hfirst] at hsecond
    exact Except.ok.inj hsecond
  · rw [f.ciphertextLen_of_lt hn]
    exact f.ciphertextLenChecked_iff.2 ⟨hn, rfl⟩
  · rw [f.ciphertextLen_of_lt hn, f.seal_length hP hseal, hp]
  · have hless := f.sealedLen_lt hm
    rw [f.ciphertextLen_of_lt hn, f.ciphertextLen_of_lt (by omega)]
    exact hless
  · rw [f.ciphertextLen_of_lt hn]
    exact BlockFrame.plaintextLen_ok.2 rfl

/-- The size of a full block and its empty end, at the smallest block size. -/
theorem length_of_one_block :
    oneKeyFrame.plaintextLenChecked 133 = some (.ok 64) ∧
      oneKeyFrame.ciphertextLenChecked 64 = some 133 ∧
      oneKeyFrame.ciphertextLen 63 < oneKeyFrame.ciphertextLen 64 := by
  obtain ⟨hsizes, hlengths⟩ := length_translation_exact Platform.padding_correct oneKeyFrame
  obtain ⟨hcomputed, -, hgrows, hback⟩ := hlengths 64 (by decide)
  obtain ⟨hchecked, -, -⟩ := hsizes (oneKeyFrame.ciphertextLen 64) (by decide)
  rw [hback] at hchecked
  exact ⟨hchecked, hcomputed, hgrows 63 (by decide)⟩

end EuleDB.Crypto
