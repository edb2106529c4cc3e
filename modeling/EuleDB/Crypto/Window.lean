import EuleDB.Crypto.Blocks

/-!
# Range reads

A plaintext range `w` of an object of `len` plaintext bytes is served from the sealed blocks
that cover it, its *window*.

* `BlockFrame.ciphertextSpan_eq` — the span arithmetic, for objects whose size is well inside
  `u64`, as that of every object is that a process can hold.
* `BlockFrame.chunks_span` — the bytes of the span are cut into exactly the window.
* `BlockFrame.openSpan_sealed` — where the window is that of a sealed object, opening it gives
  the range of the plaintext.
* `BlockFrame.openSpan_ideal` — under the ideal cipher only such a window opens.
-/

set_option autoImplicit false

namespace EuleDB.Crypto

open Slice Endian Effect FrameFormat

variable {P : Platform} {f : BlockFrame}

/-- The first block that covers a range. -/
def BlockFrame.firstBlock (f : BlockFrame) (w : Range) : Nat := w.start / f.blockSize.get

/-- One past the last block that covers a range. -/
def BlockFrame.endBlock (f : BlockFrame) (w : Range) : Nat :=
  (w.stop + f.blockSize.get - 1) / f.blockSize.get

/-- The sealed blocks of an object that cover a plaintext range. -/
def BlockFrame.window (f : BlockFrame) (ciphertext : Bytes) (w : Range) : List Bytes :=
  ((f.sealedBlocks ciphertext).take (f.endBlock w)).drop (f.firstBlock w)

theorem BlockFrame.window_getElem? (f : BlockFrame) (c : Bytes) (w : Range) (i : Nat) :
    (f.window c w)[i]? =
      if f.firstBlock w + i < f.endBlock w then (f.sealedBlocks c)[f.firstBlock w + i]?
      else none := by
  unfold BlockFrame.window
  rw [List.getElem?_drop, List.getElem?_take]

/-! ## Spans -/

theorem BlockFrame.firstBlock_mul_le (f : BlockFrame) (w : Range) :
    f.firstBlock w * f.blockSize.get ≤ w.start := Nat.div_mul_le_self _ _

theorem BlockFrame.le_endBlock_mul (f : BlockFrame) (w : Range) :
    w.stop ≤ f.endBlock w * f.blockSize.get := by
  have hB := f.blockSize.pos
  have hdiv := Nat.div_add_mod (w.stop + f.blockSize.get - 1) f.blockSize.get
  have hmod := Nat.mod_lt (w.stop + f.blockSize.get - 1) hB
  rw [Nat.mul_comm] at hdiv
  unfold BlockFrame.endBlock
  omega

theorem BlockFrame.firstBlock_lt_endBlock (f : BlockFrame) {w : Range} (hw : w.start < w.stop) :
    f.firstBlock w < f.endBlock w := by
  have hfirst := f.firstBlock_mul_le w
  have hend := f.le_endBlock_mul w
  exact Nat.lt_of_mul_lt_mul_right
    (show f.firstBlock w * f.blockSize.get < f.endBlock w * f.blockSize.get by omega)

theorem BlockFrame.endBlock_le (f : BlockFrame) {w : Range} {len : Nat} (hw : w.stop ≤ len) :
    f.endBlock w ≤ len / f.blockSize.get + 1 := by
  have hB := f.blockSize.pos
  unfold BlockFrame.endBlock
  calc (w.stop + f.blockSize.get - 1) / f.blockSize.get
      ≤ (len + f.blockSize.get) / f.blockSize.get := Nat.div_le_div_right (by omega)
    _ = len / f.blockSize.get + 1 := Nat.add_div_right _ hB

theorem BlockFrame.mul_stride (f : BlockFrame) (n : Nat) :
    n * f.sealedBlockLen = n * f.blockSize.get + n * BLOCK_OVERHEAD := by
  rw [f.stride_eq, Nat.mul_add]

theorem BlockFrame.sealedLen_eq (f : BlockFrame) (len : Nat) :
    f.sealedLen len = HEADER_LEN + len + (len / f.blockSize.get + 1) * BLOCK_OVERHEAD := by
  have hdiv := Nat.div_add_mod len f.blockSize.get
  have hstride := f.mul_stride (len / f.blockSize.get)
  rw [Nat.mul_comm] at hdiv
  unfold BlockFrame.sealedLen
  rw [hstride, Nat.add_mul, Nat.one_mul]
  omega

/-- The last block a range of the object needs starts inside the object. -/
theorem BlockFrame.endBlock_stride (f : BlockFrame) {w : Range} {len : Nat}
    (hw : w.stop ≤ len) :
    f.endBlock w * f.sealedBlockLen ≤
      len / f.blockSize.get * f.sealedBlockLen + f.sealedBlockLen := by
  have := Nat.mul_le_mul_right f.sealedBlockLen (f.endBlock_le hw)
  rwa [Nat.add_mul, Nat.one_mul] at this

/-- An object that a process can hold is sealed well inside `u64`. -/
theorem BlockFrame.fits (f : BlockFrame) {len : Nat} (hmax : f.sealedLen len ≤ MAX_BYTES) :
    f.sealedLen len + f.blockSize.get < 2 ^ 64 := by
  have hB := f.blockSize.le_max
  unfold MAX_BYTES at hmax
  omega

theorem BlockFrame.ciphertextSpan_eq (f : BlockFrame) {w : Range} {len : Nat}
    (hw : w.start < w.stop) (hstop : w.stop ≤ len)
    (hfits : f.sealedLen len + f.blockSize.get < 2 ^ 64) :
    f.ciphertextSpan w len =
      ⟨HEADER_LEN + f.firstBlock w * f.sealedBlockLen,
        min (HEADER_LEN + f.endBlock w * f.sealedBlockLen) (f.sealedLen len)⟩ := by
  have hlt := f.firstBlock_lt_endBlock hw
  have hend := f.endBlock_stride hstop
  have hfirst := Nat.mul_le_mul_right f.sealedBlockLen
    (show f.firstBlock w ≤ len / f.blockSize.get by have := f.endBlock_le hstop; omega)
  have hstart := Nat.mul_le_mul_right f.sealedBlockLen (Nat.le_of_lt hlt)
  have hstride := f.stride_eq
  have hover : BLOCK_OVERHEAD = 28 := rfl
  have hheader : HEADER_LEN = 13 := rfl
  have hlen : f.ciphertextLen len = f.sealedLen len :=
    wrap64_of_lt (show f.sealedLen len < 2 ^ 64 by omega)
  have hsealed : f.sealedLen len = HEADER_LEN + len / f.blockSize.get * f.sealedBlockLen +
    (len % f.blockSize.get + BLOCK_OVERHEAD) := rfl
  unfold BlockFrame.ciphertextSpan
  dsimp only
  rw [hlen, ← BlockFrame.firstBlock, ← BlockFrame.endBlock, Nat.max_eq_left hlt,
    wrap64_of_lt (by omega), wrap64_of_lt (by omega), Nat.max_eq_left (by omega)]

theorem BlockFrame.ciphertextSpan_lt (f : BlockFrame) {w : Range} {len : Nat}
    (hw : w.start < w.stop) (hstop : w.stop ≤ len)
    (hfits : f.sealedLen len + f.blockSize.get < 2 ^ 64) :
    (f.ciphertextSpan w len).start < (f.ciphertextSpan w len).stop := by
  have hlt := f.firstBlock_lt_endBlock hw
  have hle := f.endBlock_le hstop
  have hfirst := Nat.mul_le_mul_right f.sealedBlockLen
    (show f.firstBlock w ≤ len / f.blockSize.get by omega)
  have hstep := Nat.mul_lt_mul_of_pos_right hlt f.stride_pos
  have hover : BLOCK_OVERHEAD = 28 := rfl
  have hsealed : f.sealedLen len = HEADER_LEN + len / f.blockSize.get * f.sealedBlockLen +
    (len % f.blockSize.get + BLOCK_OVERHEAD) := rfl
  rw [f.ciphertextSpan_eq hw hstop hfits]
  dsimp only
  omega

/-- **The bytes of a span are cut into the blocks of the window**, also where the object is
shorter than the span was made for. -/
theorem BlockFrame.chunks_span (f : BlockFrame) {c : Bytes} {w : Range} {len : Nat}
    (hw : w.start < w.stop) (hstop : w.stop ≤ len) (hsize : c.length ≤ f.sealedLen len)
    (hfits : f.sealedLen len + f.blockSize.get < 2 ^ 64) :
    chunks f.sealedBlockLen
        (slice (f.ciphertextSpan w len).start (f.ciphertextSpan w len).stop c) =
      f.window c w := by
  rw [f.ciphertextSpan_eq hw hstop hfits]
  have hclamp : slice (HEADER_LEN + f.firstBlock w * f.sealedBlockLen)
      (min (HEADER_LEN + f.endBlock w * f.sealedBlockLen) (f.sealedLen len)) c =
      slice (f.firstBlock w * f.sealedBlockLen) (f.endBlock w * f.sealedBlockLen)
        (c.drop HEADER_LEN) := by
    rw [slice_drop]
    refine List.ext_getElem? fun i => ?_
    simp only [getElem?_slice]
    by_cases hi : HEADER_LEN + f.firstBlock w * f.sealedBlockLen + i < c.length
    · congr 1
      simp only [eq_iff_iff]
      omega
    · rw [List.getElem?_eq_none (by omega), ite_self, ite_self]
  rw [hclamp, chunks_slice f.stride_pos]
  rfl

/-- How many blocks an object of a sealed size has. -/
theorem BlockFrame.length_sealedBlocks (f : BlockFrame) {c : Bytes} {len : Nat}
    (hsize : c.length = f.sealedLen len) :
    (f.sealedBlocks c).length = len / f.blockSize.get + 1 := by
  have hmod := Nat.mod_lt len f.blockSize.pos
  have hstride := f.stride_eq
  have hover : BLOCK_OVERHEAD = 28 := rfl
  unfold BlockFrame.sealedBlocks
  rw [length_chunks, List.length_drop, hsize]
  unfold BlockFrame.sealedLen
  refine Nat.div_eq_of_lt_le ?_ ?_
  · rw [Nat.add_mul]; omega
  · rw [Nat.add_mul, Nat.add_mul]; omega

theorem BlockFrame.length_window (f : BlockFrame) {c : Bytes} {w : Range} {len : Nat}
    (hstop : w.stop ≤ len) (hsize : c.length = f.sealedLen len) :
    (f.window c w).length = f.endBlock w - f.firstBlock w := by
  unfold BlockFrame.window
  rw [List.length_drop, List.length_take, f.length_sealedBlocks hsize,
    Nat.min_eq_left (f.endBlock_le hstop)]

/-- `openSpan` on the span of a range, in terms of its window. -/
theorem BlockFrame.openSpan_eq {c : Bytes} {w : Range} {len : Nat} (framing : Framing)
    (hw : w.start < w.stop) (hstop : w.stop ≤ len) (hsize : c.length ≤ f.sealedLen len)
    (hfits : f.sealedLen len + f.blockSize.get < 2 ^ 64) :
    f.openSpan P (slice (f.ciphertextSpan w len).start (f.ciphertextSpan w len).stop c)
        (f.ciphertextSpan w len) w framing = (do
      let secret ← f.cipher framing.key
      let ms ← f.openAll P secret framing.key (f.firstBlock w) (f.window c w)
      let out := slice (w.start - f.firstBlock w * f.blockSize.get)
        (w.stop - f.firstBlock w * f.blockSize.get) ms.flatten
      if out.length ≠ w.stop - w.start then .error .rangeOutsideObject else .ok out) := by
  have hspan : (f.ciphertextSpan w len).start =
      HEADER_LEN + f.firstBlock w * f.sealedBlockLen := by
    rw [f.ciphertextSpan_eq hw hstop hfits]
  have hindex : ((f.ciphertextSpan w len).start - HEADER_LEN) / f.sealedBlockLen =
      f.firstBlock w := by
    rw [hspan, Nat.add_sub_cancel_left, Nat.mul_div_cancel _ f.stride_pos]
  have hguard : ¬ ((f.ciphertextSpan w len).start < HEADER_LEN ∨
      ((f.ciphertextSpan w len).start - HEADER_LEN) % f.sealedBlockLen ≠ 0) := by
    rw [hspan, Nat.add_sub_cancel_left, Nat.mul_mod_left]
    omega
  unfold BlockFrame.openSpan
  cases hc : f.cipher framing.key with
  | error e => rfl
  | ok secret =>
    simp only [bind, Except.bind]
    rw [if_neg hguard, hindex, openBlocks_eq, f.chunks_span hw hstop hsize hfits]
    cases f.openAll P secret framing.key (f.firstBlock w) (f.window c w) with
    | error e => rfl
    | ok ms => simp only [Except.map, List.nil_append]

/-! ## Opening a window -/

section Sealed

variable {p : Bytes} {key : SecretKey} {ss : List Sealing}

theorem BlockFrame.SealedAs.window_getElem? (hs : f.SealedAs P p key ss) (ho : Opening P ss)
    {w : Range} {i : Nat} (hi : f.firstBlock w + i < f.endBlock w) :
    (f.window (f.object ss) w)[i]? = ss[f.firstBlock w + i]?.map Sealing.block := by
  rw [BlockFrame.window_getElem?, if_pos hi, hs.sealedBlocks ho, List.getElem?_map]

/-- A stored object has the window of the sealed one: it holds as much of the range. -/
theorem BlockFrame.SealedAs.stop_le (hs : f.SealedAs P p key ss) (ho : Opening P ss)
    {c : Bytes} {w : Range} {len : Nat} (hw : w.start < w.stop) (hstop : w.stop ≤ len)
    (hsize : c.length = f.sealedLen len) (hwin : f.window c w = f.window (f.object ss) w) :
    w.stop ≤ p.length := by
  have hlt := f.firstBlock_lt_endBlock hw
  have hle := f.endBlock_le hstop
  have hcount := f.length_sealedBlocks hsize
  have hpos := f.le_endBlock_mul w
  have hover : BLOCK_OVERHEAD = 28 := rfl
  have hheader : HEADER_LEN = 13 := rfl
  -- the last block of the window, in both objects
  obtain ⟨last, hlast⟩ : ∃ last, f.endBlock w = last + 1 := ⟨f.endBlock w - 1, by omega⟩
  obtain ⟨i, hi⟩ : ∃ i, last = f.firstBlock w + i := ⟨last - f.firstBlock w, by omega⟩
  have hstored : (f.window c w)[i]? = (f.sealedBlocks c)[last]? := by
    rw [BlockFrame.window_getElem?, if_pos (by omega), hi]
  have hblock := List.getElem?_eq_getElem (l := f.sealedBlocks c) (i := last) (by omega)
  rw [hblock, hwin, hs.window_getElem? ho (by omega), ← hi] at hstored
  obtain ⟨s, hss, hsb⟩ := Option.map_eq_some_iff.1 hstored
  have hlen := f.sealedBlocks_getElem? c hblock
  rw [← hsb, hs.block_length ho hss, hsize] at hlen
  have hdiv := Nat.div_add_mod len f.blockSize.get
  rw [Nat.mul_comm] at hdiv
  have hmod := Nat.mod_lt len f.blockSize.pos
  have hstride := f.stride_eq
  unfold BlockFrame.sealedLen at hlen
  rw [hlast, Nat.add_mul, Nat.one_mul] at hpos
  rw [Nat.add_mul, Nat.add_mul, Nat.one_mul, Nat.one_mul] at hlen
  have hlast' : last ≤ len / f.blockSize.get := by omega
  have hbelow : last * f.blockSize.get ≤ p.length := by
    have hidx := (List.getElem?_eq_some_iff.1 hss).1
    rw [hs.length] at hidx
    exact (Nat.le_div_iff_mul_le f.blockSize.pos).1 (by omega)
  rcases Nat.lt_or_eq_of_le hlast' with h | h
  · -- a full block, so the sealed object has a full one there too
    have hmul := Nat.mul_le_mul_right f.sealedBlockLen
      (show last + 1 ≤ len / f.blockSize.get by omega)
    rw [Nat.add_mul, Nat.one_mul] at hmul
    omega
  · subst h
    omega

/-- The pieces of a sealed object, put together again. -/
theorem BlockFrame.SealedAs.flatten_msgs (hs : f.SealedAs P p key ss) (first stop : Nat) :
    (((ss.take stop).drop first).map Sealing.msg).flatten =
      slice (first * f.blockSize.get)
        ((first + ((ss.take stop).drop first).length) * f.blockSize.get) p := by
  rw [← slice_flatMap, List.flatMap_def]
  congr 1
  refine List.ext_getElem? fun i => ?_
  rw [List.getElem?_map, List.getElem?_map]
  by_cases hi : i < ((ss.take stop).drop first).length
  · have hone := List.getElem?_eq_getElem hi
    have hpiece := hone
    rw [List.getElem?_drop, List.getElem?_take] at hpiece
    split_ifs at hpiece
    rw [hone, List.getElem?_range' hi, Option.map_some, Option.map_some,
      hs.msg_eq _ _ hpiece, Nat.one_mul]
  · rw [List.getElem?_eq_none (by omega), List.getElem?_eq_none (by simpa using hi)]
    rfl

/-- Blocks of a sealed object open to their pieces. -/
theorem BlockFrame.SealedAs.openAll (hs : f.SealedAs P p key ss) (ho : Opening P ss)
    (first stop : Nat) :
    f.openAll P key f.current first (((ss.take stop).drop first).map Sealing.block) =
      .ok (((ss.take stop).drop first).map Sealing.msg) := by
  refine openAll_ok.2 ⟨by rw [List.length_map, List.length_map], fun i b hb => ?_⟩
  rw [List.getElem?_map] at hb
  obtain ⟨s, hi, rfl⟩ := Option.map_eq_some_iff.1 hb
  refine ⟨s.msg, by rw [List.getElem?_map, hi]; rfl, ?_⟩
  rw [List.getElem?_drop, List.getElem?_take] at hi
  split_ifs at hi
  exact hs.openBlock ho hi

/-- The blocks of a window open. -/
theorem BlockFrame.SealedAs.openAll_window (hs : f.SealedAs P p key ss) (ho : Opening P ss)
    (w : Range) : f.openAll P key f.current (f.firstBlock w) (f.window (f.object ss) w) =
      .ok (((ss.take (f.endBlock w)).drop (f.firstBlock w)).map Sealing.msg) := by
  unfold BlockFrame.window
  rw [hs.sealedBlocks ho, ← List.map_take, ← List.map_drop]
  exact hs.openAll ho _ _

/-- **The window of a sealed object opens to the range of its plaintext.** -/
theorem BlockFrame.SealedAs.openSpan (hs : f.SealedAs P p key ss) (ho : Opening P ss)
    {c : Bytes} {w : Range} {len : Nat} {framing : Framing} (hkey : framing.key = f.current)
    (hw : w.start < w.stop) (hstop : w.stop ≤ len) (hsize : c.length = f.sealedLen len)
    (hmax : c.length ≤ MAX_BYTES) (hwin : f.window c w = f.window (f.object ss) w) :
    f.openSpan P (slice (f.ciphertextSpan w len).start (f.ciphertextSpan w len).stop c)
        (f.ciphertextSpan w len) w framing = .ok (slice w.start w.stop p) := by
  have hlt := f.firstBlock_lt_endBlock hw
  have hfirst := f.firstBlock_mul_le w
  have hend := f.le_endBlock_mul w
  have hinside := hs.stop_le ho hw hstop hsize hwin
  have hcount := f.endBlock_le hinside
  have hcipher : f.cipher f.current = .ok key := cipher_ok.2 hs.known
  have hall := hs.openAll_window ho w
  rw [← hwin] at hall
  -- all the blocks that the range needs are there
  have hflat := hs.flatten_msgs (f.firstBlock w) (f.endBlock w)
  rw [List.length_drop, List.length_take, hs.length, Nat.min_eq_left hcount,
    show f.firstBlock w + (f.endBlock w - f.firstBlock w) = f.endBlock w by omega] at hflat
  have hout : slice (w.start - f.firstBlock w * f.blockSize.get)
      (w.stop - f.firstBlock w * f.blockSize.get)
      (((ss.take (f.endBlock w)).drop (f.firstBlock w)).map Sealing.msg).flatten =
        slice w.start w.stop p := by
    rw [hflat, slice_slice]
    congr 1 <;> omega
  rw [openSpan_eq framing hw hstop hsize.le (f.fits (hsize ▸ hmax)), hkey, hcipher]
  simp only [bind, Except.bind, hall, hout]
  rw [if_neg (by rw [length_slice]; omega)]

/-- Under the ideal cipher a block that opens is the one that was sealed at its index. -/
theorem BlockFrame.SealedAs.block_ideal (hs : f.SealedAs P p key ss) {old : List Sealing}
    (hP : P.Ideal (old ++ ss))
    (hold : ∀ s ∈ old, ∀ (id : DataKeyId) secret, f.keys[id]? = some secret → s.key ≠ secret)
    (hp : p.length ≤ MAX_BYTES) {id : DataKeyId} {secret : SecretKey} {index : Nat} {b m : Bytes}
    (hsecret : f.keys[id]? = some secret) (hindex : index < 2 ^ 64)
    (hopen : f.openBlock P secret id index b = .ok m) :
    id = f.current ∧ ss[index]?.map Sealing.block = some b := by
  have hpdiv := Nat.div_le_self p.length f.blockSize.get
  have hbound : MAX_BYTES = 2 ^ 63 - 1 := rfl
  obtain ⟨s, hmem, hkey, rfl, -, haad⟩ := openBlock_ideal hP hopen
  rcases List.mem_append.1 hmem with hmem | hmem
  · exact absurd hkey (hold s hmem _ _ hsecret)
  · obtain ⟨j, hj⟩ := List.getElem?_of_mem hmem
    have hjlt := (List.getElem?_eq_some_iff.1 hj).1
    rw [hs.length] at hjlt
    rw [hs.aad_eq j s hj] at haad
    obtain ⟨hid, rfl, -⟩ := associatedData_inj (by omega) (by omega) haad
    refine ⟨hid.symm, ?_⟩
    rw [hj]
    rfl

/-- **Under the ideal cipher only the window of the sealed object opens.** -/
theorem BlockFrame.SealedAs.openSpan_ideal (hs : f.SealedAs P p key ss) {old : List Sealing}
    (hP : P.Ideal (old ++ ss))
    (hold : ∀ s ∈ old, ∀ (id : DataKeyId) secret, f.keys[id]? = some secret → s.key ≠ secret)
    {c q : Bytes} {w : Range} {len : Nat} {framing : Framing}
    (hw : w.start < w.stop) (hstop : w.stop ≤ len) (hsize : c.length = f.sealedLen len)
    (hmax : c.length ≤ MAX_BYTES) (hp : p.length ≤ MAX_BYTES)
    (h : f.openSpan P (slice (f.ciphertextSpan w len).start (f.ciphertextSpan w len).stop c)
        (f.ciphertextSpan w len) w framing = .ok q) :
    framing.key = f.current ∧ f.window c w = f.window (f.object ss) w := by
  have hlt := f.firstBlock_lt_endBlock hw
  have hle := f.endBlock_le hstop
  have hlen : len ≤ MAX_BYTES := by
    have hsealed := f.sealedLen_eq len
    omega
  have hlendiv := Nat.div_le_self len f.blockSize.get
  have hbound : MAX_BYTES = 2 ^ 63 - 1 := rfl
  rw [openSpan_eq framing hw hstop hsize.le (f.fits (hsize ▸ hmax))] at h
  cases hc : f.cipher framing.key with
  | error e => rw [hc] at h; cases h
  | ok secret =>
    rw [hc] at h
    simp only [bind, Except.bind] at h
    cases hall : f.openAll P secret framing.key (f.firstBlock w) (f.window c w) with
    | error e => rw [hall] at h; cases h
    | ok ms =>
      have hsecret := cipher_ok.1 hc
      -- each block of the window is the one sealed at its index
      have hone : ∀ (i : Nat) b, (f.window c w)[i]? = some b → framing.key = f.current ∧
          (f.window (f.object ss) w)[i]? = some b := by
        intro i b hb
        have hi : f.firstBlock w + i < f.endBlock w := by
          have := (List.getElem?_eq_some_iff.1 hb).1
          rw [f.length_window hstop hsize] at this
          omega
        obtain ⟨m, -, hopen⟩ := (openAll_ok.1 hall).2 i b hb
        rw [hs.window_getElem? hP.opening hi]
        exact hs.block_ideal hP hold hp hsecret (by omega) hopen
      have hwlen : (f.window (f.object ss) w).length ≤ f.endBlock w - f.firstBlock w := by
        unfold BlockFrame.window
        rw [List.length_drop, List.length_take]
        omega
      have hfirst := List.getElem?_eq_getElem (l := f.window c w) (i := 0)
        (by rw [f.length_window hstop hsize]; omega)
      refine ⟨(hone 0 _ hfirst).1, List.ext_getElem? fun i => ?_⟩
      by_cases hi : i < (f.window c w).length
      · rw [(hone i _ (List.getElem?_eq_getElem hi)).2, List.getElem?_eq_getElem hi]
      · rw [List.getElem?_eq_none (by omega), List.getElem?_eq_none
          (by rw [f.length_window hstop hsize] at hi; omega)]

end Sealed

end EuleDB.Crypto
