import EuleDB.Crypto.Integrity

/-!
# Recombining sealed objects

Many objects are sealed by one frame, and a reader is given bytes assembled from them.

* `BlockFrame.sealAll` — sealing several plaintexts, one object each.
* `openWhole_iff_recombines` — what opens is exactly the header followed by blocks that each
  were sealed at their own index, of whichever object, the last one a final block.
* `spliced_blocks_open` — the first block of one object and the last of another open to
  a plaintext that was never sealed.

A block is bound to its index and to being final, and deliberately not to its object.
-/

set_option autoImplicit false

namespace EuleDB.Crypto

open Slice Effect FrameFormat

variable {P : Platform} {f : BlockFrame}

/-- Seal several plaintexts under one frame, one after the other. -/
def BlockFrame.sealAll (P : Platform) (f : BlockFrame) :
    List Bytes → EStateM FrameError Trace (List Bytes)
  | [] => pure []
  | plaintext :: rest => do
    let object ← f.seal P plaintext
    let others ← sealAll P f rest
    pure (object :: others)

/-- The object `pc.2` was sealed from `pc.1`, by the encryptions `ss`. -/
structure BlockFrame.SealedPair (P : Platform) (f : BlockFrame) (pc : Bytes × Bytes)
    (key : SecretKey) (ss : List Sealing) : Prop where
  sealedAs : f.SealedAs P pc.1 key ss
  object_eq : pc.2 = f.object ss

/-- The encryptions `made` sealed the objects of `pairs`, and nothing else. -/
structure BlockFrame.SealedSet (P : Platform) (f : BlockFrame) (pairs : List (Bytes × Bytes))
    (made : List Sealing) : Prop where
  sealed_pair : ∀ pc ∈ pairs, ∃ key ss, f.SealedPair P pc key ss ∧ ss ⊆ made
  from_pair : ∀ s ∈ made, ∃ pc ∈ pairs, ∃ key ss, f.SealedPair P pc key ss ∧ ss ⊆ made ∧ s ∈ ss

theorem BlockFrame.sealAll_ok {ps cs : List Bytes} {t t' : Trace}
    (h : (f.sealAll P ps).run t = .ok cs t') :
    ∃ made, t'.sealings = t.sealings ++ made ∧ f.SealedSet P (ps.zip cs) made := by
  induction ps generalizing t cs with
  | nil =>
    unfold BlockFrame.sealAll at h
    rw [run_pure] at h
    cases h
    exact ⟨[], by simp, by simp, by simp⟩
  | cons p ps ih =>
    unfold BlockFrame.sealAll at h
    obtain ⟨c, t1, hseal, hrest⟩ := bind_ok.1 h
    obtain ⟨others, t2, hothers, hout⟩ := bind_ok.1 hrest
    rw [run_pure] at hout
    cases hout
    obtain ⟨key, ss, htrace, hobject, hs⟩ := BlockFrame.seal_ok hseal
    obtain ⟨made, htrace', hset⟩ := ih hothers
    have hpair : f.SealedPair P (p, c) key ss := ⟨hs, hobject⟩
    have hleft : ss ⊆ ss ++ made := List.subset_append_left ss made
    have hright : made ⊆ ss ++ made := List.subset_append_right ss made
    refine ⟨ss ++ made, by rw [htrace', htrace, List.append_assoc], fun pc hpc => ?_,
      fun s hs' => ?_⟩
    · rw [List.zip_cons_cons, List.mem_cons] at hpc
      rcases hpc with rfl | hpc
      · exact ⟨key, ss, hpair, hleft⟩
      · obtain ⟨key', ss', hpair', hsub⟩ := hset.sealed_pair pc hpc
        exact ⟨key', ss', hpair', List.Subset.trans hsub hright⟩
    · rcases List.mem_append.1 hs' with hin | hin
      · exact ⟨(p, c), List.mem_cons_self, key, ss, hpair, hleft, hin⟩
      · obtain ⟨pc, hpc, key', ss', hpair', hsub, hin'⟩ := hset.from_pair s hin
        exact ⟨pc, List.mem_cons_of_mem _ hpc, key', ss', hpair', List.Subset.trans hsub hright,
          hin'⟩

/-! ## Opening a whole object -/

/-- `openWhole` on an object whose size and header are accepted. -/
theorem BlockFrame.openWhole_eq {c : Bytes} {len : Nat} {framing : Framing} {secret : SecretKey}
    (hlen : f.plaintextLen c.length = .ok len) (hread : f.readHeader c = .ok framing)
    (hsecret : f.keys[framing.key]? = some secret) :
    f.openWhole P c = (do
      let ms ← f.openAll P secret framing.key 0 (f.sealedBlocks c)
      let out := slice 0 len ms.flatten
      if out.length ≠ len then .error .rangeOutsideObject else .ok out) := by
  have hguard : ¬ (HEADER_LEN < HEADER_LEN ∨ (HEADER_LEN - HEADER_LEN) % f.sealedBlockLen ≠ 0) := by
    rw [Nat.sub_self, Nat.zero_mod]
    omega
  unfold BlockFrame.openWhole BlockFrame.openSpan
  rw [hlen, hread]
  simp only [bind, Except.bind]
  rw [cipher_ok.2 hsecret]
  dsimp only
  rw [if_neg hguard, openBlocks_eq, Nat.sub_self, Nat.zero_div, Nat.zero_mul,
    ← BlockFrame.sealedBlocks]
  cases f.openAll P secret framing.key 0 (f.sealedBlocks c) with
  | error e => rfl
  | ok ms => simp only [Except.map, List.nil_append, Nat.sub_zero]

theorem BlockFrame.openWhole_ok {c q : Bytes} :
    f.openWhole P c = .ok q ↔ ∃ len framing secret ms,
      f.plaintextLen c.length = .ok len ∧ f.readHeader c = .ok framing ∧
      f.keys[framing.key]? = some secret ∧
      f.openAll P secret framing.key 0 (f.sealedBlocks c) = .ok ms ∧
      q = slice 0 len ms.flatten ∧ q.length = len := by
  constructor
  · intro h
    cases hlen : f.plaintextLen c.length with
    | error e => unfold BlockFrame.openWhole at h; rw [hlen] at h; cases h
    | ok len =>
      cases hread : f.readHeader c with
      | error e => unfold BlockFrame.openWhole at h; rw [hlen, hread] at h; cases h
      | ok framing =>
        have hcontains := (readHeader_ok hread).2
        rw [Std.ExtTreeMap.contains_eq_isSome_getElem?] at hcontains
        obtain ⟨secret, hsecret⟩ := Option.isSome_iff_exists.1 hcontains
        rw [openWhole_eq hlen hread hsecret] at h
        cases hall : f.openAll P secret framing.key 0 (f.sealedBlocks c) with
        | error e => rw [hall] at h; cases h
        | ok ms =>
          rw [hall] at h
          simp only [bind, Except.bind] at h
          split at h
          · cases h
          rename_i hq
          cases h
          exact ⟨len, framing, secret, ms, rfl, rfl, hsecret, hall, rfl, not_not.1 hq⟩
  · rintro ⟨len, framing, secret, ms, hlen, hread, hsecret, hall, rfl, hq⟩
    rw [openWhole_eq hlen hread hsecret, hall]
    simp only [bind, Except.bind]
    rw [if_neg (not_not.2 hq)]

/-! ## Recombination -/

/-- The sealed blocks `blocks`, each taken from the object of one of the `pairs` at the index it
has there, ending where an object ends. -/
structure BlockFrame.Recombines (f : BlockFrame) (pairs picks : List (Bytes × Bytes))
    (blocks : List Bytes) : Prop where
  nonempty : picks ≠ []
  picked : ∀ pc ∈ picks, pc ∈ pairs
  count : blocks.length = picks.length
  block : ∀ (i : Nat) pc, picks[i]? = some pc → ∃ b, blocks[i]? = some b ∧
    (f.sealedBlocks pc.2)[i]? = some b
  ends : ∀ (i : Nat) pc, picks[i]? = some pc →
    (i + 1 = picks.length ↔ i + 1 = (f.sealedBlocks pc.2).length)

/-- The pieces of the plaintexts that such blocks hold. -/
def BlockFrame.pieces (f : BlockFrame) (picks : List (Bytes × Bytes)) : List Bytes :=
  picks.mapIdx fun i pc => slice (i * f.blockSize.get) ((i + 1) * f.blockSize.get) pc.1

theorem BlockFrame.pieces_getElem? {picks : List (Bytes × Bytes)} {i : Nat}
    {pc : Bytes × Bytes} (h : picks[i]? = some pc) : (f.pieces picks)[i]? =
      some (slice (i * f.blockSize.get) ((i + 1) * f.blockSize.get) pc.1) := by
  unfold BlockFrame.pieces
  rw [List.getElem?_mapIdx, h]
  rfl

section Pair

variable {pc : Bytes × Bytes} {key : SecretKey} {ss : List Sealing}

theorem BlockFrame.SealedPair.blocks (hp : f.SealedPair P pc key ss) (ho : Opening P ss) :
    f.sealedBlocks pc.2 = ss.map Sealing.block := by
  rw [hp.object_eq, hp.sealedAs.sealedBlocks ho]

theorem BlockFrame.SealedPair.block_iff (hp : f.SealedPair P pc key ss) (ho : Opening P ss)
    {i : Nat} {b : Bytes} : (f.sealedBlocks pc.2)[i]? = some b ↔
      ∃ s, ss[i]? = some s ∧ s.block = b := by
  rw [hp.blocks ho, List.getElem?_map, Option.map_eq_some_iff]

/-- A block is short exactly when it ends its object. -/
theorem BlockFrame.SealedPair.short_iff (hp : f.SealedPair P pc key ss) (ho : Opening P ss)
    {i : Nat} {b : Bytes} (hb : (f.sealedBlocks pc.2)[i]? = some b) :
    b.length < f.sealedBlockLen ↔ i + 1 = (f.sealedBlocks pc.2).length := by
  obtain ⟨s, hs, rfl⟩ := (hp.block_iff ho).1 hb
  rw [hp.sealedAs.short_iff ho hs, hp.blocks ho, List.length_map, hp.sealedAs.length]
  omega

theorem BlockFrame.SealedPair.openBlock (hp : f.SealedPair P pc key ss) (ho : Opening P ss)
    {i : Nat} {b : Bytes} (hb : (f.sealedBlocks pc.2)[i]? = some b) :
    f.openBlock P key f.current i b =
      .ok (slice (i * f.blockSize.get) ((i + 1) * f.blockSize.get) pc.1) := by
  obtain ⟨s, hs, rfl⟩ := (hp.block_iff ho).1 hb
  rw [hp.sealedAs.openBlock ho hs, hp.sealedAs.msg_eq i s hs]

theorem BlockFrame.SealedPair.block_length (hp : f.SealedPair P pc key ss) (ho : Opening P ss)
    {i : Nat} {b : Bytes} (hb : (f.sealedBlocks pc.2)[i]? = some b) :
    b.length = (slice (i * f.blockSize.get) ((i + 1) * f.blockSize.get) pc.1).length +
      BLOCK_OVERHEAD := by
  obtain ⟨s, hs, rfl⟩ := (hp.block_iff ho).1 hb
  rw [hp.sealedAs.block_length ho hs, length_slice]

end Pair

/-! ## Sizes -/

/-- In an object of a sealed size exactly the last block is short. -/
theorem BlockFrame.short_of_size {c b : Bytes} {len i : Nat} (hsize : c.length = f.sealedLen len)
    (hb : (f.sealedBlocks c)[i]? = some b) :
    b.length < f.sealedBlockLen ↔ i + 1 = (f.sealedBlocks c).length := by
  have hi := (List.getElem?_eq_some_iff.1 hb).1
  have hblock := f.sealedBlocks_getElem? c hb
  have hmod := Nat.mod_lt len f.blockSize.pos
  have hstride := f.stride_eq
  rw [f.length_sealedBlocks hsize] at hi ⊢
  rw [hsize] at hblock
  unfold BlockFrame.sealedLen at hblock
  rw [Nat.add_mul, Nat.one_mul] at hblock
  constructor
  · intro hshort
    by_contra hne
    have hle := Nat.mul_le_mul_right f.sealedBlockLen
      (show i + 1 ≤ len / f.blockSize.get by omega)
    rw [Nat.add_mul, Nat.one_mul] at hle
    omega
  · intro hlast
    have : i = len / f.blockSize.get := by omega
    subst this
    omega

theorem BlockFrame.sealedBlocks_le {c b : Bytes} {i : Nat}
    (hb : (f.sealedBlocks c)[i]? = some b) : b.length ≤ f.sealedBlockLen := by
  have hblock := f.sealedBlocks_getElem? c hb
  rw [Nat.add_mul, Nat.one_mul] at hblock
  omega

/-- Full blocks and one short one are an object of a sealed size. -/
theorem BlockFrame.size_of_blocks {c : Bytes} {k r : Nat} (hheader : HEADER_LEN ≤ c.length)
    (hr : r < f.blockSize.get) (hcount : (f.sealedBlocks c).length = k + 1)
    (hfull : ∀ (i : Nat) b, (f.sealedBlocks c)[i]? = some b → i < k →
      b.length = f.sealedBlockLen)
    (hlast : ∀ b, (f.sealedBlocks c)[k]? = some b → b.length = r + BLOCK_OVERHEAD) :
    c.length = f.sealedLen (k * f.blockSize.get + r) := by
  have hB := f.blockSize.pos
  have hbody : (c.drop HEADER_LEN).length = k * f.sealedBlockLen + (r + BLOCK_OVERHEAD) := by
    rw [← length_flatten_blocks hcount hfull hlast]
    unfold BlockFrame.sealedBlocks
    rw [flatten_chunks f.stride_pos]
  unfold BlockFrame.sealedLen
  rw [Nat.mul_comm k, Nat.mul_add_div hB, Nat.mul_add_mod, Nat.div_eq_of_lt hr,
    Nat.mod_eq_of_lt hr, Nat.add_zero]
  rw [List.length_drop] at hbody
  omega

/-- The pieces that the blocks of an object of a sealed size hold are as long as its size says. -/
theorem BlockFrame.flatten_length {c : Bytes} {ms : List Bytes} {len : Nat}
    (hsize : c.length = f.sealedLen len) (hcount : ms.length = (f.sealedBlocks c).length)
    (hlength : ∀ (i : Nat) b m, (f.sealedBlocks c)[i]? = some b → ms[i]? = some m →
      b.length = m.length + BLOCK_OVERHEAD) :
    ms.flatten.length = len := by
  have hmod := Nat.mod_lt len f.blockSize.pos
  have hdiv := Nat.div_add_mod len f.blockSize.get
  have hstride := f.stride_eq
  have hblock : ∀ (i : Nat) m, ms[i]? = some m → m.length + BLOCK_OVERHEAD =
      min ((i + 1) * f.sealedBlockLen) (f.sealedLen len - HEADER_LEN) - i * f.sealedBlockLen := by
    intro i m hm
    have hi := (List.getElem?_eq_some_iff.1 hm).1
    have hb := List.getElem?_eq_getElem (l := f.sealedBlocks c) (i := i) (by omega)
    rw [← hlength i _ m hb hm, f.sealedBlocks_getElem? c hb, hsize]
  unfold BlockFrame.sealedLen at hblock
  rw [Nat.mul_comm] at hdiv
  rw [f.length_sealedBlocks hsize] at hcount
  rw [length_flatten_blocks (n := f.blockSize.get) (r := len % f.blockSize.get) hcount, hdiv]
  · intro i m hm hi
    have hle := Nat.mul_le_mul_right f.sealedBlockLen
      (show i + 1 ≤ len / f.blockSize.get by omega)
    have := hblock i m hm
    rw [Nat.add_mul, Nat.one_mul] at hle this
    omega
  · intro m hm
    have := hblock _ m hm
    rw [Nat.add_mul, Nat.one_mul] at this
    omega

/-! ## What opens -/

section Set

variable {pairs : List (Bytes × Bytes)} {old made : List Sealing} {c : Bytes}

theorem BlockFrame.SealedSet.openable (hset : f.SealedSet P pairs made)
    (hideal : P.Ideal (old ++ made)) {pc : Bytes × Bytes} (hpc : pc ∈ pairs) :
    ∃ key ss, f.SealedPair P pc key ss ∧ Opening P ss := by
  obtain ⟨key, ss, hp, hsub⟩ := hset.sealed_pair pc hpc
  exact ⟨key, ss, hp,
    hideal.opening_of_subset (List.Subset.trans hsub (List.subset_append_right old made))⟩

/-- A block that opens was sealed where it stands, in one of the objects. -/
theorem BlockFrame.SealedSet.openBlock_ideal (hset : f.SealedSet P pairs made)
    (hideal : P.Ideal (old ++ made))
    (honly : ∀ s ∈ old, ∀ (id : DataKeyId) secret, f.keys[id]? = some secret → s.key ≠ secret)
    (hshort : ∀ pc ∈ pairs, pc.1.length ≤ MAX_BYTES) {secret : SecretKey} {id : DataKeyId}
    {i : Nat} {b m : Bytes} (hi : i ≤ MAX_BYTES) (hsecret : f.keys[id]? = some secret)
    (h : f.openBlock P secret id i b = .ok m) :
    id = f.current ∧ ∃ pc ∈ pairs, (f.sealedBlocks pc.2)[i]? = some b ∧
      m = slice (i * f.blockSize.get) ((i + 1) * f.blockSize.get) pc.1 := by
  have hbound : MAX_BYTES = 2 ^ 63 - 1 := rfl
  obtain ⟨s, hmem, hkey, hblock, hmsg, haad⟩ := BlockFrame.openBlock_ideal hideal h
  rcases List.mem_append.1 hmem with hmem | hmem
  · exact absurd hkey (honly s hmem _ _ hsecret)
  obtain ⟨pc, hpc, key, ss, hp, hsub, hss⟩ := hset.from_pair s hmem
  have ho := hideal.opening_of_subset (List.Subset.trans hsub (List.subset_append_right old made))
  obtain ⟨j, hj⟩ := List.getElem?_of_mem hss
  have hjlt := (List.getElem?_eq_some_iff.1 hj).1
  rw [hp.sealedAs.length] at hjlt
  have hp1 := hshort pc hpc
  have hpdiv := Nat.div_le_self pc.1.length f.blockSize.get
  rw [hp.sealedAs.aad_eq j s hj] at haad
  obtain ⟨hid, rfl, -⟩ := BlockFrame.associatedData_inj (by omega) (by omega) haad
  exact ⟨hid.symm, pc, hpc, (hp.block_iff ho).2 ⟨s, hj, hblock.symm⟩,
    hmsg.trans (hp.sealedAs.msg_eq j s hj)⟩

/-- A choice at every index is a list. -/
theorem exists_list_of_index {α : Type} {n : Nat} {p : Nat → α → Prop}
    (h : ∀ i < n, ∃ a, p i a) :
    ∃ l : List α, l.length = n ∧ ∀ (i : Nat) a, l[i]? = some a → p i a := by
  choose pick hpick using h
  refine ⟨List.ofFn fun i : Fin n => pick i i.2, List.length_ofFn, fun i a ha => ?_⟩
  rw [List.getElem?_ofFn] at ha
  split at ha
  · cases ha
    exact hpick i _
  · cases ha

/-- The blocks of an object that opens recombine, and it opens to what they hold. -/
theorem BlockFrame.SealedSet.recombines (hset : f.SealedSet P pairs made)
    (hideal : P.Ideal (old ++ made))
    (honly : ∀ s ∈ old, ∀ (id : DataKeyId) secret, f.keys[id]? = some secret → s.key ≠ secret)
    (hshort : ∀ pc ∈ pairs, pc.1.length ≤ MAX_BYTES) (hmax : c.length ≤ MAX_BYTES) {q : Bytes}
    (h : f.openWhole P c = .ok q) :
    c.take HEADER_LEN = f.header ∧
      ∃ picks, f.Recombines pairs picks (f.sealedBlocks c) ∧ q = (f.pieces picks).flatten := by
  obtain ⟨len, framing, secret, ms, hlen, hread, hsecret, hall, hq, hqlen⟩ :=
    BlockFrame.openWhole_ok.1 h
  have hsize := BlockFrame.plaintextLen_ok.1 hlen
  obtain ⟨hcount, hopened⟩ := BlockFrame.openAll_ok.1 hall
  have hblocks := f.length_sealedBlocks hsize
  have hfew : (f.sealedBlocks c).length ≤ MAX_BYTES := by
    have hpos := Nat.le_mul_of_pos_right (len / f.blockSize.get) f.stride_pos
    have hover : BLOCK_OVERHEAD = 28 := rfl
    unfold BlockFrame.sealedLen at hsize
    omega
  -- every block that opened was sealed where it stands
  have hone : ∀ i < (f.sealedBlocks c).length, ∃ pc : Bytes × Bytes, framing.key = f.current ∧
      pc ∈ pairs ∧
      (∃ b, (f.sealedBlocks c)[i]? = some b ∧ (f.sealedBlocks pc.2)[i]? = some b) ∧
      ms[i]? = some (slice (i * f.blockSize.get) ((i + 1) * f.blockSize.get) pc.1) := by
    intro i hi
    have hb := List.getElem?_eq_getElem hi
    obtain ⟨m, hm, hopen⟩ := hopened i _ hb
    rw [Nat.zero_add] at hopen
    obtain ⟨hid, pc, hpc, hpcb, rfl⟩ :=
      hset.openBlock_ideal hideal honly hshort (by omega) hsecret hopen
    exact ⟨pc, hid, hpc, ⟨_, hb, hpcb⟩, hm⟩
  obtain ⟨picks, hlength, hpicks⟩ := exists_list_of_index hone
  have hnonempty : picks ≠ [] := by
    rintro rfl
    rw [hblocks] at hlength
    cases hlength
  have hms : ms = f.pieces picks := by
    refine List.ext_getElem? fun i => ?_
    cases hi : picks[i]? with
    | some pc => rw [(hpicks i pc hi).2.2.2, BlockFrame.pieces_getElem? hi]
    | none =>
      have hout := List.getElem?_eq_none_iff.1 hi
      rw [List.getElem?_eq_none (by omega), List.getElem?_eq_none]
      unfold BlockFrame.pieces
      rwa [List.length_mapIdx]
  have hflat : ms.flatten.length = len := by
    refine f.flatten_length hsize hcount fun i b m hb hmi => ?_
    rw [hms] at hmi
    obtain ⟨pc, hpc⟩ : ∃ pc, picks[i]? = some pc := by
      have hi := (List.getElem?_eq_some_iff.1 hb).1
      exact ⟨_, List.getElem?_eq_getElem (by omega)⟩
    rw [BlockFrame.pieces_getElem? hpc] at hmi
    cases hmi
    obtain ⟨-, hpair, ⟨b', hb', hpcb⟩, -⟩ := hpicks i pc hpc
    cases hb.symm.trans hb'
    obtain ⟨key, ss, hp, ho⟩ := hset.openable hideal hpair
    exact hp.block_length ho hpcb
  refine ⟨?_, picks, ⟨hnonempty, ?_, hlength.symm, ?_, ?_⟩, ?_⟩
  · obtain ⟨pc, hpc⟩ := List.exists_mem_of_ne_nil _ hnonempty
    obtain ⟨i, hi⟩ := List.getElem?_of_mem hpc
    rw [(BlockFrame.readHeader_ok hread).1, (hpicks i pc hi).1]
    rfl
  · intro pc hpc
    obtain ⟨i, hi⟩ := List.getElem?_of_mem hpc
    exact (hpicks i pc hi).2.1
  · intro i pc hi
    exact (hpicks i pc hi).2.2.1
  · intro i pc hi
    obtain ⟨-, hpair, ⟨b, hb, hpcb⟩, -⟩ := hpicks i pc hi
    obtain ⟨key, ss, hp, ho⟩ := hset.openable hideal hpair
    rw [hlength, ← f.short_of_size hsize hb, ← hp.short_iff ho hpcb]
  · rw [hq, slice_all (by omega), hms]

/-- What recombines opens. -/
theorem BlockFrame.SealedSet.opens (hset : f.SealedSet P pairs made)
    (hideal : P.Ideal (old ++ made)) (hheader : c.take HEADER_LEN = f.header)
    {picks : List (Bytes × Bytes)} (hrec : f.Recombines pairs picks (f.sealedBlocks c)) :
    f.openWhole P c = .ok (f.pieces picks).flatten := by
  have hover : BLOCK_OVERHEAD = 28 := rfl
  have hone : ∀ (i : Nat) b, (f.sealedBlocks c)[i]? = some b → ∃ pc key ss, picks[i]? = some pc ∧
      f.SealedPair P pc key ss ∧ Opening P ss ∧ (f.sealedBlocks pc.2)[i]? = some b := by
    intro i b hb
    have hi := (List.getElem?_eq_some_iff.1 hb).1
    have hpc := List.getElem?_eq_getElem (l := picks) (i := i) (by rw [← hrec.count]; exact hi)
    obtain ⟨b', hb', hpcb⟩ := hrec.block i _ hpc
    rw [hb] at hb'
    cases hb'
    obtain ⟨key, ss, hp, ho⟩ := hset.openable hideal (hrec.picked _ (List.mem_of_getElem? hpc))
    exact ⟨_, key, ss, hpc, hp, ho, hpcb⟩
  have hpos : 0 < picks.length := List.length_pos_iff.2 hrec.nonempty
  obtain ⟨k, hk⟩ : ∃ k, picks.length = k + 1 := ⟨picks.length - 1, by omega⟩
  have hshort : ∀ (i : Nat) b, (f.sealedBlocks c)[i]? = some b →
      (b.length < f.sealedBlockLen ↔ i = k) := by
    intro i b hb
    obtain ⟨pc, key, ss, hpc, hp, ho, hpcb⟩ := hone i b hb
    rw [hp.short_iff ho hpcb, ← hrec.ends i pc hpc, hk]
    omega
  have hlength : HEADER_LEN ≤ c.length := by
    have := congrArg List.length hheader
    rw [List.length_take, f.header_length] at this
    omega
  obtain ⟨last, hlast⟩ : ∃ last, (f.sealedBlocks c)[k]? = some last :=
    ⟨_, List.getElem?_eq_getElem (by rw [hrec.count]; omega)⟩
  obtain ⟨pc0, key, ss0, hpc0, hp0, ho0, hpcb0⟩ := hone k _ hlast
  have hlastlen := hp0.block_length ho0 hpcb0
  have hlastshort := (hshort k _ hlast).2 rfl
  rw [f.stride_eq] at hlastshort
  have hsize := f.size_of_blocks (k := k) (r := last.length - BLOCK_OVERHEAD) hlength (by omega)
    (by rw [hrec.count, hk]) (fun i b hb hi => by
      have := (hshort i b hb).not.2 (by omega)
      have := BlockFrame.sealedBlocks_le hb
      omega) (fun b hb => by rw [hlast] at hb; cases hb; omega)
  have hread : f.readHeader c = .ok ⟨f.blockSize, f.current⟩ := by
    have := f.readHeader_header (c.drop HEADER_LEN) hp0.sealedAs.contains
    rwa [← hheader, List.take_append_drop] at this
  have hall : f.openAll P key f.current 0 (f.sealedBlocks c) = .ok (f.pieces picks) := by
    refine BlockFrame.openAll_ok.2 ⟨?_, fun i b hb => ?_⟩
    · unfold BlockFrame.pieces
      rw [List.length_mapIdx, hrec.count]
    · obtain ⟨pc, key', ss, hpc, hp, ho, hpcb⟩ := hone i b hb
      have hkey : key' = key := by
        have := hp.sealedAs.known
        rw [hp0.sealedAs.known] at this
        exact (Option.some.inj this).symm
      refine ⟨_, BlockFrame.pieces_getElem? hpc, ?_⟩
      rw [Nat.zero_add, ← hkey]
      exact hp.openBlock ho hpcb
  have hflat := f.flatten_length hsize (BlockFrame.openAll_ok.1 hall).1 fun i b m hb hm => by
    obtain ⟨pc, key', ss, hpc, hp, ho, hpcb⟩ := hone i b hb
    rw [BlockFrame.pieces_getElem? hpc] at hm
    cases hm
    exact hp.block_length ho hpcb
  refine BlockFrame.openWhole_ok.2 ⟨_, _, key, _, BlockFrame.plaintextLen_ok.2 hsize, hread,
    hp0.sealedAs.known, hall, ?_, hflat⟩
  rw [slice_all (by omega)]

end Set

/-- **What opens is what recombines.**  The bytes that open are the header and, at every index, a
block that was sealed at that index, of any of the objects, the last one the last of its object;
they open to the pieces those blocks hold. -/
theorem openWhole_iff_recombines {ps cs : List Bytes} {t t' : Trace} {c q : Bytes}
    (hseal : (f.sealAll P ps).run t = .ok cs t') (hideal : P.Ideal t'.sealings)
    (honly : ∀ s ∈ t.sealings, ∀ (id : DataKeyId) secret,
      f.keys[id]? = some secret → s.key ≠ secret)
    (hps : ∀ p ∈ ps, p.length ≤ MAX_BYTES) (hmax : c.length ≤ MAX_BYTES) :
    f.openWhole P c = .ok q ↔ c.take HEADER_LEN = f.header ∧
      ∃ picks, f.Recombines (ps.zip cs) picks (f.sealedBlocks c) ∧
        q = (f.pieces picks).flatten := by
  obtain ⟨made, htrace, hset⟩ := BlockFrame.sealAll_ok hseal
  rw [htrace] at hideal
  constructor
  · intro h
    exact hset.recombines hideal honly (fun pc hpc => hps pc.1 (List.of_mem_zip hpc).1) hmax h
  · rintro ⟨hheader, picks, hrec, rfl⟩
    exact hset.opens hideal hheader hrec

/-! ## Two objects, spliced -/

/-- A block as `oneKeyFrame` seals it with the `n`-th nonce. -/
def sealedAt (n index : Nat) (finalBlock : Bool) (msg : Bytes) : Sealing :=
  ⟨padTo KEY_LEN [], padTo NONCE_LEN (List.replicate NONCE_LEN (UInt8.ofNat n)),
    BlockFrame.associatedData 0 index finalBlock, msg, msg ++ List.replicate TAG_LEN 0⟩

/-- What sealing 65 zeros and 65 ones encrypts. -/
def zerosAndOnes : List Sealing :=
  [sealedAt 0 0 false (List.replicate 64 0), sealedAt 1 1 true [0],
    sealedAt 2 0 false (List.replicate 64 1), sealedAt 3 1 true [1]]

def zerosObject : Bytes := oneKeyFrame.object (zerosAndOnes.take 2)

def onesObject : Bytes := oneKeyFrame.object (zerosAndOnes.drop 2)

/-- The first block of the zeros and the last block of the ones. -/
def splicedObject : Bytes := zerosObject.take 105 ++ onesObject.drop 105

theorem seal_zeros_and_ones :
    (oneKeyFrame.sealAll (Platform.tabled zerosAndOnes)
      [List.replicate 65 0, List.replicate 65 1]).run Trace.empty =
      .ok [zerosObject, onesObject] ⟨4, zerosAndOnes⟩ := by
  rfl

theorem zerosAndOnes_ideal : (Platform.tabled zerosAndOnes).Ideal zerosAndOnes :=
  Platform.tabled_ideal (by simp [zerosAndOnes, sealedAt])

theorem splicedObject_opens : oneKeyFrame.openWhole (Platform.tabled zerosAndOnes)
    splicedObject = .ok (List.replicate 64 0 ++ [1]) := by
  decide +kernel

/-- The spliced object is put together from the two objects block by block. -/
theorem splicedObject_recombines : splicedObject.take HEADER_LEN = oneKeyFrame.header ∧
    ∃ picks, oneKeyFrame.Recombines
        ([List.replicate 65 0, List.replicate 65 1].zip [zerosObject, onesObject]) picks
        (oneKeyFrame.sealedBlocks splicedObject) ∧
      List.replicate 64 0 ++ [1] = (oneKeyFrame.pieces picks).flatten :=
  (openWhole_iff_recombines seal_zeros_and_ones zerosAndOnes_ideal (by simp [Trace.empty])
    (by simp [MAX_BYTES]) (by decide +kernel)).1 splicedObject_opens

/-- What is spliced from the two objects opens, to neither of the plaintexts. -/
theorem spliced_blocks_open :
    (oneKeyFrame.sealAll (Platform.tabled zerosAndOnes)
        [List.replicate 65 0, List.replicate 65 1]).run Trace.empty =
        .ok [zerosObject, onesObject] ⟨4, zerosAndOnes⟩ ∧
      (Platform.tabled zerosAndOnes).Ideal zerosAndOnes ∧
      oneKeyFrame.openWhole (Platform.tabled zerosAndOnes)
        (zerosObject.take 105 ++ onesObject.drop 105) = .ok (List.replicate 64 0 ++ [1]) ∧
      List.replicate 64 0 ++ [1] ∉ [List.replicate 65 (0 : UInt8), List.replicate 65 1] :=
  ⟨seal_zeros_and_ones, zerosAndOnes_ideal, splicedObject_opens, by decide⟩

end EuleDB.Crypto
