import EuleDB.Crypto.Frame

/-!
# What sealing writes and what opening reads

* `BlockFrame.seal_ok` — a sealed object is the header and, for each piece of the plaintext,
  the block that one encryption under the current key made, at that piece's index.
* `BlockFrame.openBlocks_eq` — opening a span opens every block in it and cuts the wanted
  range out of what they hold together.
* `SealedAs.sealedBlocks`, `SealedAs.openBlock` — the blocks of a sealed object are those
  blocks again, and each opens to its piece.
* `BlockFrame.openBlock_ideal` — under the ideal cipher a block opens only if it is one that was
  sealed, with this key id, at this index.
* `BlockFrame.plaintextLen_ok` — which sizes a sealed object can have.
-/

set_option autoImplicit false

namespace EuleDB.Crypto

open Slice Endian Effect FrameFormat

variable {P : Platform} {f : BlockFrame}

/-! ## Header and associated data -/

theorem BlockFrame.header_length (f : BlockFrame) : f.header.length = HEADER_LEN := by
  simp [BlockFrame.header, MAGIC, HEADER_LEN]

theorem BlockFrame.associatedData_inj {k k' : DataKeyId} {i i' : Nat} {b b' : Bool}
    (hi : i < 2 ^ 64) (hi' : i' < 2 ^ 64)
    (h : associatedData k i b = associatedData k' i' b') : k = k' ∧ i = i' ∧ b = b' := by
  unfold associatedData at h
  have hk := k.toNat_lt
  have hk' := k'.toNat_lt
  obtain ⟨h, hb⟩ := List.append_inj h (by simp)
  obtain ⟨h, hidx⟩ := List.append_inj h (by simp)
  obtain ⟨-, hkey⟩ := List.append_inj h rfl
  refine ⟨UInt32.toNat_inj.1 (leBytes_inj (by omega) (by omega) hkey),
    leBytes_inj (by omega) (by omega) hidx, ?_⟩
  cases b <;> cases b' <;> simp_all

theorem BlockFrame.header_slices (f : BlockFrame) (rest : Bytes) :
    (f.header ++ rest).take 4 = MAGIC ∧ (f.header ++ rest).getD 4 0 = VERSION ∧
      slice 5 9 (f.header ++ rest) = leBytes 4 f.blockSize.get ∧
      slice 9 13 (f.header ++ rest) = leBytes 4 f.current.toNat := by
  refine ⟨rfl, rfl, ?_, ?_⟩
  · rfl
  · rfl

theorem BlockFrame.blockSize_lt (f : BlockFrame) : f.blockSize.get < 2 ^ 32 := by
  have := f.blockSize.le_max
  omega

/-- What a frame reads in the header of another whose blocks are of its size. -/
theorem BlockFrame.readHeader_of_size (f f' : BlockFrame) (hblocks : f'.blockSize = f.blockSize)
    (rest : Bytes) :
    f'.readHeader (f.header ++ rest) =
      if f'.keys.contains f.current = false then .error (.unknownKey f.current)
      else .ok ⟨f.blockSize, f.current⟩ := by
  obtain ⟨hmagic, hversion, hsize, hkey⟩ := f.header_slices rest
  have hB := f.blockSize_lt
  have hlen : ¬ (f.header ++ rest).length < HEADER_LEN := by
    rw [List.length_append, f.header_length]
    omega
  have hdecl : ofLe (slice 5 9 (f.header ++ rest)) = f.blockSize.get := by
    rw [hsize, ofLe_leBytes, Nat.mod_eq_of_lt (by omega)]
  have hid : UInt32.ofNat (ofLe (slice 9 13 (f.header ++ rest))) = f.current := by
    have hlt := f.current.toNat_lt
    rw [hkey, ofLe_leBytes, Nat.mod_eq_of_lt (by omega)]
    exact UInt32.ofNat_toNat
  unfold BlockFrame.readHeader
  rw [if_neg hlen, if_neg (by rw [hmagic]; exact not_not.2 rfl),
    if_neg (by rw [hversion]; exact not_not.2 rfl)]
  dsimp only
  rw [hdecl, hblocks, if_neg (not_not.2 rfl), hid, BlockSize.new_get]
  rfl

/-- A frame reads its own header. -/
theorem BlockFrame.readHeader_header (f : BlockFrame) (rest : Bytes)
    (hcur : f.keys.contains f.current) :
    f.readHeader (f.header ++ rest) = .ok ⟨f.blockSize, f.current⟩ := by
  rw [f.readHeader_of_size f rfl, if_neg (by rw [hcur]; exact Bool.false_ne_true.symm)]

/-- What a header that is accepted says: these bytes, for a key that is held. -/
theorem BlockFrame.readHeader_ok {c : Bytes} {framing : Framing}
    (h : f.readHeader c = .ok framing) :
    c.take HEADER_LEN =
        MAGIC ++ [VERSION] ++ leBytes 4 f.blockSize.get ++ leBytes 4 framing.key.toNat ∧
      f.keys.contains framing.key := by
  unfold BlockFrame.readHeader at h
  split at h
  · cases h
  rename_i hlen
  split at h
  · cases h
  rename_i hmagic
  split at h
  · cases h
  rename_i hversion
  dsimp only at h
  split at h
  · cases h
  rename_i hdecl
  split at h
  · cases h
  rename_i hkey
  simp only [not_not] at hmagic hversion hdecl
  have hlen : HEADER_LEN ≤ c.length := Nat.le_of_not_lt hlen
  have hlen13 : 13 ≤ c.length := hlen
  rw [hdecl, BlockSize.new_get] at h
  simp only [Except.map, Except.ok.injEq] at h
  subst h
  refine ⟨?_, by simpa using hkey⟩
  have hsz : leBytes 4 f.blockSize.get = slice 5 9 c := by
    rw [← hdecl]
    have := leBytes_ofLe (slice 5 9 c)
    rwa [length_slice, show min 9 c.length - 5 = 4 by omega] at this
  have hid : leBytes 4 (UInt32.ofNat (ofLe (slice 9 13 c))).toNat = slice 9 13 c := by
    have hlen4 : (slice 9 13 c).length = 4 := by rw [length_slice]; omega
    have hlt := ofLe_lt (slice 9 13 c)
    rw [hlen4] at hlt
    have := leBytes_ofLe (slice 9 13 c)
    rwa [hlen4, ← UInt32.toNat_ofNat_of_lt' (show _ < UInt32.size from hlt)] at this
  have hver : slice 4 5 c = [VERSION] := by
    rw [← hversion]
    refine List.ext_getElem? fun i => ?_
    rw [getElem?_slice]
    rcases i with - | i
    · simp [List.getD, List.getElem?_eq_getElem (show 4 < c.length by omega)]
    · simp [show ¬ (4 + (i + 1) < 5) by omega]
  rw [← hmagic, ← hver, hsz, hid, show c.take 4 = slice 0 4 c from rfl,
    slice_append_slice (by omega) (by omega), slice_append_slice (by omega) (by omega),
    slice_append_slice (by omega) (by omega)]
  rfl

/-! ## Opening blocks -/

/-- Open consecutive blocks, the first one at `index`. -/
def BlockFrame.openAll (P : Platform) (f : BlockFrame) (secret : SecretKey) (key : DataKeyId) :
    Nat → List Bytes → Except FrameError (List Bytes)
  | _, [] => .ok []
  | index, sealedBlock :: rest => do
    let opened ← f.openBlock P secret key index sealedBlock
    let others ← openAll P f secret key (index + 1) rest
    pure (opened :: others)

theorem BlockFrame.openAll_ok {secret : SecretKey} {key : DataKeyId} {index : Nat}
    {blocks ms : List Bytes} :
    f.openAll P secret key index blocks = .ok ms ↔ ms.length = blocks.length ∧
      ∀ i b, blocks[i]? = some b → ∃ m, ms[i]? = some m ∧
        f.openBlock P secret key (index + i) b = .ok m := by
  induction blocks generalizing index ms with
  | nil =>
    constructor
    · intro h
      cases h
      simp
    · rintro ⟨hlen, -⟩
      rw [List.length_nil, List.length_eq_zero_iff] at hlen
      rw [hlen]; rfl
  | cons b blocks ih =>
    unfold BlockFrame.openAll
    constructor
    · intro h
      cases hb : f.openBlock P secret key index b with
      | error e => rw [hb] at h; cases h
      | ok m =>
        cases hrest : f.openAll P secret key (index + 1) blocks with
        | error e => rw [hb] at h; simp only [bind, Except.bind, hrest] at h; cases h
        | ok others =>
          rw [hb] at h
          simp only [bind, Except.bind, hrest, pure, Except.pure, Except.ok.injEq] at h
          subst h
          obtain ⟨hlen, hall⟩ := ih.1 hrest
          refine ⟨by simp [hlen], fun i b' hb' => ?_⟩
          cases i with
          | zero => cases hb'; exact ⟨m, rfl, hb⟩
          | succ i =>
            obtain ⟨m', hm', ho⟩ := hall i b' hb'
            exact ⟨m', hm', by rwa [show index + (i + 1) = index + 1 + i by omega]⟩
    · rintro ⟨hlen, hall⟩
      cases ms with
      | nil => simp at hlen
      | cons m others =>
        obtain ⟨m', hm', hopen⟩ := hall 0 b rfl
        cases hm'
        have hrest : f.openAll P secret key (index + 1) blocks = .ok others := by
          refine ih.2 ⟨by simpa using hlen, fun i b' hb' => ?_⟩
          obtain ⟨m', hm', ho⟩ := hall (i + 1) b' hb'
          exact ⟨m', hm', by rwa [show index + 1 + i = index + (i + 1) by omega]⟩
        rw [Nat.add_zero] at hopen
        rw [hopen]
        simp only [bind, Except.bind, hrest, pure, Except.pure]

/-- What a block adds to the answer is its part of the wanted range. -/
theorem kept_eq_slice (wanted : Range) (offset : Nat) (opened : Bytes) :
    (if max wanted.start offset < min wanted.stop (offset + opened.length) then
      slice (max wanted.start offset - offset) (min wanted.stop (offset + opened.length) - offset)
        opened
      else []) = slice (wanted.start - offset) (wanted.stop - offset) opened := by
  split_ifs with h
  · refine List.ext_getElem? fun i => ?_
    simp only [getElem?_slice]
    have hnone : opened.length ≤ wanted.start - offset + i →
        opened[wanted.start - offset + i]? = none := fun h => List.getElem?_eq_none h
    rw [show max wanted.start offset - offset + i = wanted.start - offset + i by omega]
    by_cases hi : wanted.start - offset + i < opened.length
    · congr 1
      simp only [eq_iff_iff]
      omega
    · rw [hnone (by omega), ite_self, ite_self]
  · symm
    rw [← List.length_eq_zero_iff, length_slice]
    omega

/-- **Opening a span opens its blocks and cuts out the wanted range.** -/
theorem BlockFrame.openBlocks_eq (secret : SecretKey) (key : DataKeyId) (wanted : Range)
    (index offset : Nat) (plaintext : Bytes) (blocks : List Bytes) :
    f.openBlocks P secret key wanted index offset plaintext blocks =
      (f.openAll P secret key index blocks).map fun ms =>
        plaintext ++ slice (wanted.start - offset) (wanted.stop - offset) ms.flatten := by
  induction blocks generalizing index offset plaintext with
  | nil => simp [BlockFrame.openBlocks, BlockFrame.openAll, Except.map]
  | cons b blocks ih =>
    unfold BlockFrame.openBlocks BlockFrame.openAll
    cases f.openBlock P secret key index b with
    | error e => rfl
    | ok m =>
      simp only [bind, Except.bind]
      rw [kept_eq_slice, ih]
      cases f.openAll P secret key (index + 1) blocks with
      | error e => rfl
      | ok ms =>
        simp only [Except.map, pure, Except.pure, List.flatten_cons, slice_append,
          List.append_assoc, Nat.sub_add_eq]

/-! ## Sealing -/

/-- One block of an object: the nonce and what was encrypted under it. -/
def Sealing.block (s : Sealing) : Bytes := s.nonce.1 ++ s.ct

/-- The encryptions that sealed `plaintext`: one a piece, each bound to its index, the last
one marked final. -/
structure BlockFrame.SealedAs (P : Platform) (f : BlockFrame) (plaintext : Bytes)
    (key : SecretKey) (ss : List Sealing) : Prop where
  known : f.keys[f.current]? = some key
  length : ss.length = plaintext.length / f.blockSize.get + 1
  key_eq : ∀ (i : Nat) (s : Sealing), ss[i]? = some s → s.key = key
  aad_eq : ∀ (i : Nat) (s : Sealing), ss[i]? = some s →
    s.aad = associatedData f.current i (decide (i = plaintext.length / f.blockSize.get))
  msg_eq : ∀ (i : Nat) (s : Sealing), ss[i]? = some s →
    s.msg = slice (i * f.blockSize.get) ((i + 1) * f.blockSize.get) plaintext
  encrypted : ∀ s ∈ ss, P.encrypt s.key s.nonce s.aad s.msg = some s.ct

theorem BlockFrame.sealedPieces_length (f : BlockFrame) (p : Bytes) :
    (f.sealedPieces p).length = p.length / f.blockSize.get + 1 := by
  have hB := f.blockSize.pos
  have hdiv := Nat.div_add_mod p.length f.blockSize.get
  have hmod := Nat.mod_lt p.length hB
  unfold BlockFrame.sealedPieces
  dsimp only
  split_ifs with h
  · rw [List.length_append, length_chunks, List.length_singleton]
    congr 1
    refine Nat.div_eq_of_lt_le ?_ ?_
    · rw [Nat.mul_comm]; omega
    · rw [Nat.add_mul, Nat.one_mul, Nat.mul_comm]; omega
  · rw [length_chunks]
    refine Nat.div_eq_of_lt_le ?_ ?_
    · rw [Nat.add_mul, Nat.one_mul, Nat.mul_comm]; omega
    · rw [Nat.add_mul, Nat.add_mul, Nat.one_mul, Nat.mul_comm]; omega

/-- The `i`-th piece is the `i`-th stretch of one block size; the extra one is empty. -/
theorem BlockFrame.sealedPieces_getElem? {p m : Bytes} {i : Nat}
    (h : (f.sealedPieces p)[i]? = some m) :
    m = slice (i * f.blockSize.get) ((i + 1) * f.blockSize.get) p := by
  have hB := f.blockSize.pos
  have hchunk : ∀ m', (chunks f.blockSize.get p)[i]? = some m' →
      m' = slice (i * f.blockSize.get) ((i + 1) * f.blockSize.get) p := by
    intro m' h'
    rw [getElem?_chunks] at h'
    split_ifs at h' with hi
    exact (Option.some.inj h').symm
  unfold BlockFrame.sealedPieces at h
  dsimp only at h
  split_ifs at h with hmod
  · rw [List.getElem?_append] at h
    split_ifs at h with hi
    · exact hchunk m h
    · rw [List.getElem?_singleton] at h
      split_ifs at h
      cases h
      rw [length_chunks] at hi
      refine (slice_of_length_le _ ?_).symm
      have hle := Nat.mul_le_mul_right f.blockSize.get (Nat.le_of_not_lt hi)
      have hceil := Nat.div_add_mod (p.length + f.blockSize.get - 1) f.blockSize.get
      have := Nat.mod_lt (p.length + f.blockSize.get - 1) hB
      rw [Nat.mul_comm] at hceil
      omega
  · exact hchunk m h

theorem BlockFrame.sealChunks_ok {key : SecretKey} {last index : Nat} {pieces : List Bytes}
    {t t' : Trace} {out : Bytes}
    (h : (f.sealChunks P key last index pieces).run t = .ok out t') :
    ∃ ss : List Sealing, t'.sealings = t.sealings ++ ss ∧ out = (ss.map Sealing.block).flatten ∧
      ss.length = pieces.length ∧ ∀ i s, ss[i]? = some s →
        s.key = key ∧ s.aad = associatedData f.current (index + i) (index + i == last) ∧
        pieces[i]? = some s.msg ∧ P.encrypt s.key s.nonce s.aad s.msg = some s.ct := by
  induction pieces generalizing index t out with
  | nil =>
    unfold BlockFrame.sealChunks at h
    rw [run_pure] at h
    cases h
    exact ⟨[], by simp⟩
  | cons chunk rest ih =>
    unfold BlockFrame.sealChunks at h
    obtain ⟨nonce, t1, hdraw, h⟩ := bind_ok.1 h
    obtain ⟨ct, t2, henc, h⟩ := bind_ok.1 h
    obtain ⟨more, t3, hrest, h⟩ := bind_ok.1 h
    rw [run_pure] at h
    cases h
    obtain ⟨-, rfl⟩ := draw_ok hdraw
    obtain ⟨hct, rfl⟩ := encryptWith_ok henc
    obtain ⟨ss, htrace, hout, hlen, hall⟩ := ih hrest
    refine ⟨⟨key, nonce, associatedData f.current index (index == last), chunk, ct⟩ :: ss,
      by simp [htrace], by simp [hout, Sealing.block], by simp [hlen], fun i s hs => ?_⟩
    cases i with
    | zero => cases hs; exact ⟨rfl, rfl, rfl, hct⟩
    | succ i =>
      rw [show index + (i + 1) = index + 1 + i by omega]
      exact hall i s hs

theorem BlockFrame.cipher_ok {key : DataKeyId} {secret : SecretKey} :
    f.cipher key = .ok secret ↔ f.keys[key]? = some secret := by
  unfold BlockFrame.cipher
  cases f.keys[key]? <;> simp

/-- **What a sealed object is.** -/
theorem BlockFrame.seal_ok {p c : Bytes} {t t' : Trace}
    (h : (f.seal P p).run t = .ok c t') :
    ∃ key ss, t'.sealings = t.sealings ++ ss ∧ c = f.header ++ (ss.map Sealing.block).flatten ∧
      f.SealedAs P p key ss := by
  unfold BlockFrame.seal at h
  obtain ⟨key, t1, hkey, hloop⟩ := bind_ok.1 h
  obtain ⟨hcipher, rfl⟩ := ofExcept_ok.1 hkey
  obtain ⟨out, t2, hseal, hout⟩ := bind_ok.1 hloop
  rw [run_pure] at hout
  cases hout
  obtain ⟨ss, htrace, hout, hlen, hall⟩ := sealChunks_ok hseal
  refine ⟨key, ss, htrace, by rw [hout], cipher_ok.1 hcipher, by rw [hlen, sealedPieces_length],
    fun i s hs => (hall i s hs).1, fun i s hs => ?_, fun i s hs => ?_, fun s hs => ?_⟩
  · obtain ⟨-, haad, -, -⟩ := hall i s hs
    rw [haad, f.sealedPieces_length, Nat.zero_add, Nat.add_sub_cancel]
    rfl
  · exact sealedPieces_getElem? (hall i s hs).2.2.1
  · obtain ⟨i, hi⟩ := List.getElem?_of_mem hs
    exact (hall i s hi).2.2.2

/-! ## One block -/

theorem BlockFrame.openBlock_ok {secret : SecretKey} {key : DataKeyId} {index : Nat}
    {b m : Bytes} :
    f.openBlock P secret key index b = .ok m ↔
      ∃ (nonce : Nonce) (ct : Bytes), b = nonce.1 ++ ct ∧ TAG_LEN ≤ ct.length ∧
        P.decrypt secret nonce (associatedData key index (decide (b.length < f.sealedBlockLen)))
          ct = some m := by
  have hover : BLOCK_OVERHEAD = NONCE_LEN + TAG_LEN := rfl
  constructor
  · intro h
    unfold BlockFrame.openBlock at h
    split at h
    · cases h
    rename_i hlen
    have htake : (b.take NONCE_LEN).length = NONCE_LEN := by
      rw [List.length_take]; omega
    rw [toOctets_eq htake] at h
    dsimp only at h
    split at h
    · cases h
    rename_i opened hdec
    cases h
    exact ⟨⟨_, htake⟩, b.drop NONCE_LEN, (List.take_append_drop _ _).symm,
      by rw [List.length_drop]; omega, hdec⟩
  · rintro ⟨⟨nonce, hn⟩, ct, rfl, htag, hdec⟩
    have htake : (nonce ++ ct).take NONCE_LEN = nonce := List.take_left' hn
    have hdrop : (nonce ++ ct).drop NONCE_LEN = ct := List.drop_left' hn
    unfold BlockFrame.openBlock
    have hlen : ¬ (nonce ++ ct).length < BLOCK_OVERHEAD := by
      rw [List.length_append, hn]; omega
    rw [if_neg hlen, htake, hdrop, toOctets_eq hn]
    dsimp only at hdec ⊢
    rw [hdec]

theorem BlockFrame.stride_eq (f : BlockFrame) :
    f.sealedBlockLen = f.blockSize.get + BLOCK_OVERHEAD := rfl

theorem BlockFrame.stride_pos (f : BlockFrame) : 0 < f.sealedBlockLen := by
  have := f.blockSize.pos
  rw [f.stride_eq]; omega

/-- What a list of encryptions needs for its blocks to open again. -/
structure Opening (P : Platform) (ss : List Sealing) : Prop where
  opens : ∀ s ∈ ss, P.decrypt s.key s.nonce s.aad s.ct = some s.msg
  length : ∀ s ∈ ss, s.ct.length = s.msg.length + TAG_LEN

theorem Platform.Correct.opening (hP : P.Correct) {p : Bytes} {key : SecretKey}
    {ss : List Sealing} (hs : f.SealedAs P p key ss) : Opening P ss :=
  ⟨fun s h => hP.opens (hs.encrypted s h), fun s h => hP.length (hs.encrypted s h)⟩

theorem Platform.Ideal.opening_of_subset {sealings ss : List Sealing} (hP : P.Ideal sealings)
    (hsub : ss ⊆ sealings) : Opening P ss :=
  ⟨fun s h => hP.opens s (hsub h), fun s h => hP.length s (hsub h)⟩

theorem Platform.Ideal.opening {old ss : List Sealing} (hP : P.Ideal (old ++ ss)) :
    Opening P ss :=
  hP.opening_of_subset (List.subset_append_right old ss)

section Sealed

variable {p : Bytes} {key : SecretKey} {ss : List Sealing}

theorem BlockFrame.SealedAs.block_length (hs : f.SealedAs P p key ss) (ho : Opening P ss)
    {i : Nat} {s : Sealing} (hi : ss[i]? = some s) :
    s.block.length =
      min ((i + 1) * f.blockSize.get) p.length - i * f.blockSize.get + BLOCK_OVERHEAD := by
  have hnonce := s.nonce.2
  have hover : BLOCK_OVERHEAD = NONCE_LEN + TAG_LEN := rfl
  rw [Sealing.block, List.length_append, ho.length s (List.mem_of_getElem? hi),
    hs.msg_eq i s hi, length_slice]
  omega

/-- The last block, and only it, is shorter than a full one. -/
theorem BlockFrame.SealedAs.short_iff (hs : f.SealedAs P p key ss) (ho : Opening P ss)
    {i : Nat} {s : Sealing} (hi : ss[i]? = some s) :
    s.block.length < f.sealedBlockLen ↔ i = p.length / f.blockSize.get := by
  have hB := f.blockSize.pos
  have hlt : i < p.length / f.blockSize.get + 1 := by
    have := (List.getElem?_eq_some_iff.1 hi).1
    rwa [hs.length] at this
  have hdiv := Nat.div_add_mod p.length f.blockSize.get
  have hmod := Nat.mod_lt p.length hB
  rw [Nat.mul_comm] at hdiv
  rw [hs.block_length ho hi, f.stride_eq]
  constructor
  · intro h
    by_contra hne
    have hle := Nat.mul_le_mul_right f.blockSize.get
      (show i + 1 ≤ p.length / f.blockSize.get by omega)
    rw [Nat.min_eq_left (by omega), Nat.add_mul] at h
    omega
  · rintro rfl
    rw [Nat.add_mul] at *
    omega

/-- **A block of a sealed object opens to its piece.** -/
theorem BlockFrame.SealedAs.openBlock (hs : f.SealedAs P p key ss) (ho : Opening P ss)
    {i : Nat} {s : Sealing} (hi : ss[i]? = some s) :
    f.openBlock P key f.current i s.block = .ok s.msg := by
  have hmem := List.mem_of_getElem? hi
  refine BlockFrame.openBlock_ok.2 ⟨s.nonce, s.ct, rfl, ?_, ?_⟩
  · rw [ho.length s hmem]; omega
  · rw [decide_eq_decide.2 (hs.short_iff ho hi), ← hs.aad_eq i s hi, ← hs.key_eq i s hi]
    exact ho.opens s hmem

/-- **Under the ideal cipher only blocks that were sealed open, where they were sealed.** -/
theorem BlockFrame.openBlock_ideal {sealings : List Sealing} (hP : P.Ideal sealings)
    {secret : SecretKey} {id : DataKeyId} {index : Nat} {b m : Bytes}
    (h : f.openBlock P secret id index b = .ok m) :
    ∃ s ∈ sealings, s.key = secret ∧ b = s.block ∧ m = s.msg ∧
      s.aad = associatedData id index (decide (b.length < f.sealedBlockLen)) := by
  obtain ⟨nonce, ct, rfl, -, hdec⟩ := BlockFrame.openBlock_ok.1 h
  obtain ⟨s, hmem, hkey, hnonce, haad, hct⟩ := hP.authentic hdec
  refine ⟨s, hmem, hkey, by rw [Sealing.block, hnonce, hct], ?_, haad⟩
  have := hP.opens s hmem
  rw [hkey, hnonce, haad, hct, hdec] at this
  exact Option.some.inj this

/-! ## The blocks of an object -/

/-- The sealed blocks of an object. -/
def BlockFrame.sealedBlocks (f : BlockFrame) (ciphertext : Bytes) : List Bytes :=
  chunks f.sealedBlockLen (ciphertext.drop HEADER_LEN)

/-- The object that `ss` seal. -/
def BlockFrame.object (f : BlockFrame) (ss : List Sealing) : Bytes :=
  f.header ++ (ss.map Sealing.block).flatten

/-- How long a sealed object is. -/
def BlockFrame.sealedLen (f : BlockFrame) (len : Nat) : Nat :=
  HEADER_LEN + len / f.blockSize.get * f.sealedBlockLen +
    (len % f.blockSize.get + BLOCK_OVERHEAD)

theorem BlockFrame.sealedBlocks_getElem? (f : BlockFrame) (c : Bytes) {i : Nat} {b : Bytes}
    (h : (f.sealedBlocks c)[i]? = some b) :
    b.length = min ((i + 1) * f.sealedBlockLen) (c.length - HEADER_LEN) -
      i * f.sealedBlockLen := by
  unfold BlockFrame.sealedBlocks at h
  rw [getElem?_chunks] at h
  split_ifs at h
  cases h
  rw [length_slice, List.length_drop]

theorem BlockFrame.SealedAs.split (hs : f.SealedAs P p key ss) (ho : Opening P ss) :
    ∃ full last, ss.map Sealing.block = full ++ [last] ∧
      full.length = p.length / f.blockSize.get ∧ (∀ b ∈ full, b.length = f.sealedBlockLen) ∧
      last.length = p.length % f.blockSize.get + BLOCK_OVERHEAD := by
  have hB := f.blockSize.pos
  have hdiv := Nat.div_add_mod p.length f.blockSize.get
  have hmod := Nat.mod_lt p.length hB
  rw [Nat.mul_comm] at hdiv
  obtain ⟨init, last, hsplit⟩ := (List.eq_nil_or_concat ss).resolve_left fun h => by
    have := hs.length
    simp [h] at this
  rw [List.concat_eq_append] at hsplit
  have hinit : init.length = p.length / f.blockSize.get := by
    have := hs.length
    rw [hsplit, List.length_append, List.length_singleton] at this
    omega
  have hlast : ss[p.length / f.blockSize.get]? = some last := by
    rw [hsplit, ← hinit]; simp
  refine ⟨init.map Sealing.block, last.block, by simp [hsplit], by simpa using hinit, ?_, ?_⟩
  · intro b hb
    obtain ⟨s, hmem, rfl⟩ := List.mem_map.1 hb
    obtain ⟨i, hi⟩ := List.getElem?_of_mem hmem
    have hlt : i < init.length := (List.getElem?_eq_some_iff.1 hi).1
    have hle := Nat.mul_le_mul_right f.blockSize.get
      (show i + 1 ≤ p.length / f.blockSize.get by omega)
    rw [hs.block_length ho (show ss[i]? = some s by rw [hsplit, List.getElem?_append_left hlt, hi]),
      f.stride_eq, Nat.min_eq_left (by omega), Nat.add_mul]
    omega
  · rw [hs.block_length ho hlast, Nat.add_mul, Nat.one_mul, Nat.min_eq_right (by omega)]
    omega

/-- **The blocks of a sealed object are the blocks that were sealed.** -/
theorem BlockFrame.SealedAs.sealedBlocks (hs : f.SealedAs P p key ss) (ho : Opening P ss) :
    f.sealedBlocks (f.object ss) = ss.map Sealing.block := by
  obtain ⟨full, last, hsplit, -, hfull, hlast⟩ := hs.split ho
  have hmod := Nat.mod_lt p.length f.blockSize.pos
  have hne : last ≠ [] := by
    intro h
    rw [h, List.length_nil, show BLOCK_OVERHEAD = 28 from rfl] at hlast
    omega
  unfold BlockFrame.sealedBlocks BlockFrame.object
  rw [List.drop_left' f.header_length, hsplit]
  exact chunks_flatten full hfull hne (by rw [hlast, f.stride_eq]; omega)

theorem BlockFrame.SealedAs.object_length (hs : f.SealedAs P p key ss) (ho : Opening P ss) :
    (f.object ss).length = f.sealedLen p.length := by
  obtain ⟨full, last, hsplit, hcount, hfull, hlast⟩ := hs.split ho
  have hflat : (full ++ [last]).flatten.length = p.length / f.blockSize.get * f.sealedBlockLen +
      (p.length % f.blockSize.get + BLOCK_OVERHEAD) := by
    refine length_flatten_blocks (by simp [hcount]) (fun i b hb hi => ?_) (fun b hb => ?_)
    · rw [List.getElem?_append_left (by omega)] at hb
      exact hfull b (List.mem_of_getElem? hb)
    · rw [← hcount, List.getElem?_concat_length] at hb
      cases hb
      exact hlast
  unfold BlockFrame.object BlockFrame.sealedLen
  rw [hsplit, List.length_append, f.header_length, hflat, Nat.add_assoc]

end Sealed

/-! ## Length arithmetic -/

theorem BlockFrame.plaintextLen_ok {n len : Nat} :
    f.plaintextLen n = .ok len ↔ n = f.sealedLen len := by
  have hB := f.blockSize.pos
  have hS := f.stride_pos
  have hstride := f.stride_eq
  have hover : BLOCK_OVERHEAD = 28 := rfl
  unfold BlockFrame.plaintextLen BlockFrame.sealedLen
  constructor
  · intro h
    split at h
    · cases h
    rename_i hlen
    dsimp only at h
    split at h
    · cases h
    rename_i hrem
    cases h
    have hdiv := Nat.div_add_mod (n - HEADER_LEN) f.sealedBlockLen
    have hmod := Nat.mod_lt (n - HEADER_LEN) hS
    rw [Nat.mul_comm] at hdiv
    have hr : (n - HEADER_LEN) % f.sealedBlockLen - BLOCK_OVERHEAD < f.blockSize.get := by omega
    rw [Nat.add_sub_assoc (by omega),
      Nat.mul_comm ((n - HEADER_LEN) / f.sealedBlockLen) f.blockSize.get,
      Nat.mul_add_div hB, Nat.mul_add_mod, Nat.div_eq_of_lt hr, Nat.mod_eq_of_lt hr, Nat.add_zero]
    omega
  · rintro rfl
    have hdiv := Nat.div_add_mod len f.blockSize.get
    have hmod := Nat.mod_lt len hB
    rw [Nat.mul_comm] at hdiv
    have hr : len % f.blockSize.get + BLOCK_OVERHEAD < f.sealedBlockLen := by omega
    rw [if_neg (by omega)]
    dsimp only
    rw [show HEADER_LEN + len / f.blockSize.get * f.sealedBlockLen +
        (len % f.blockSize.get + BLOCK_OVERHEAD) - HEADER_LEN =
        f.sealedBlockLen * (len / f.blockSize.get) + (len % f.blockSize.get + BLOCK_OVERHEAD) by
      rw [Nat.mul_comm f.sealedBlockLen]; omega,
      Nat.mul_add_div hS, Nat.mul_add_mod, Nat.div_eq_of_lt hr, Nat.mod_eq_of_lt hr,
      Nat.add_zero, if_neg (by omega)]
    congr 1

end EuleDB.Crypto
