import EuleDB.Crypto.KeyringRuns
import EuleDB.Crypto.Refinement

/-!
# Rotation and the objects that are sealed

A rotation adds a key and seals with it from then on.  What was sealed before names an older key,
which the keyring still holds.

* `Keyring.Newest` — the invariant: the current key is held, and no held key is newer.
* `Keyring.Becomes` — runs of operations that succeed, with anything sealed between them.
* `rotation_keeps_objects_readable` — what the frame of one state seals the frame of every later
  state opens, and the frame of a state that does not hold the key yet refuses.
-/

set_option autoImplicit false

namespace EuleDB.Crypto

open Effect FrameFormat

variable {P : Platform}

/-! ## What a run does to the keys -/

/-- The current key is the newest that is held. -/
def Keyring.Newest (k : Keyring) : Prop := k.keys.maxKey? = some k.current

theorem Keyring.Newest.contains {k : Keyring} (hk : k.Newest) : k.keys.contains k.current :=
  Std.ExtTreeMap.mem_iff_contains.1 (Std.ExtTreeMap.maxKey?_eq_some_iff_mem_and_forall.1 hk).1

theorem Keyring.Newest.le {k : Keyring} (hk : k.Newest) {id : DataKeyId}
    (hid : k.keys.contains id) : id.toNat ≤ k.current.toNat := KeySet.le_maxKey hk hid

/-- Every key of `keys` is one of `keys'`, byte for byte. -/
def KeySet.HeldBy (keys keys' : KeySet) : Prop :=
  ∀ (id : DataKeyId) (key : SecretKey), keys[id]? = some key → keys'[id]? = some key

theorem KeySet.HeldBy.trans {keys keys' keys'' : KeySet} (h : keys.HeldBy keys')
    (h' : keys'.HeldBy keys'') : keys.HeldBy keys'' :=
  fun id key hkey => h' id key (h id key hkey)

theorem Keyring.create_newest {passphrase : Bytes} {k : Keyring} {t t' : Trace}
    (h : (create P passphrase).run t = .ok k t') : k.Newest := by
  obtain ⟨key, hkeys, hcurrent, -, -⟩ := create_ok h
  unfold Keyring.Newest
  rw [hkeys, hcurrent, Std.ExtTreeMap.maxKey?_insert]
  simp

/-- A key under the next id is newer than every key that is held, and takes none of them away. -/
theorem Keyring.Newest.insert {k k' : Keyring} {id : DataKeyId} {key : SecretKey} (hk : k.Newest)
    (hnext : (k.keys.maxKey?.getD .FIRST).next = some id)
    (hkeys : k'.keys = k.keys.insert id key) (hcurrent : k'.current = id) :
    (∀ held, k.keys.contains held → held.toNat < id.toNat) ∧ k'.Newest ∧
      k.keys.HeldBy k'.keys := by
  have hfresh := DataKeyId.next_not_held hnext
  unfold Keyring.Newest at hk
  rw [hk, Option.getD_some] at hnext
  have hid := DataKeyId.next_eq_some hnext
  have hnewer : ∀ held, k.keys.contains held → held.toNat < id.toNat := by
    intro held hheld
    have := KeySet.le_maxKey hk hheld
    omega
  refine ⟨hnewer, ?_, ?_⟩
  · have hle : k.current ≤ id := UInt32.le_iff_toNat_le.2 (by omega)
    unfold Keyring.Newest
    rw [hkeys, hcurrent, Std.ExtTreeMap.maxKey?_insert, hk, Option.elim_some,
      if_pos (Std.isLE_compare.2 hle)]
  · intro held secret hheld
    rw [hkeys, Std.ExtTreeMap.getElem?_insert]
    split_ifs with heq
    · have hsame : held = id := (Std.LawfulEqCmp.eq_of_compare heq).symm
      rw [Std.ExtTreeMap.contains_eq_isSome_getElem?, ← hsame, hheld] at hfresh
      cases hfresh
    · exact hheld

/-- **A rotation issues an id that is newer than every id that is held**, and makes it the current
one. -/
theorem Keyring.rotateDataKey_newer {k k' : Keyring} {t t' : Trace} {id : DataKeyId}
    (hk : k.Newest) (h : (rotateDataKey P).run (k, t) = .ok id (k', t')) :
    (∀ held, k.keys.contains held → held.toNat < id.toNat) ∧ k'.current = id ∧ k'.Newest ∧
      k.keys.HeldBy k'.keys := by
  obtain ⟨hnext, key, hkeys, hcurrent, -⟩ := rotateDataKey_ok h
  obtain ⟨hnewer, hnewest, hheld⟩ := hk.insert hnext hkeys hcurrent
  exact ⟨hnewer, hcurrent, hnewest, hheld⟩

/-- One operation keeps the newest key current and every key held. -/
theorem KeyringOp.run_newest {op : KeyringOp} {k k' : Keyring} {t t' : Trace} {u : PUnit}
    (hk : k.Newest) (h : (op.run P).run (k, t) = .ok u (k', t')) :
    k'.Newest ∧ k.keys.HeldBy k'.keys := by
  cases op with
  | rotateDataKey =>
    unfold KeyringOp.run at h
    obtain ⟨id, ⟨k1, t1⟩, hrotate, h1⟩ := bind_ok.1 h
    rw [run_pure] at h1
    cases h1
    obtain ⟨-, -, hnewest, hheld⟩ := Keyring.rotateDataKey_newer hk hrotate
    exact ⟨hnewest, hheld⟩
  | changePassphrase passphrase =>
    unfold KeyringOp.run at h
    obtain ⟨hkeys, hcurrent, -, -⟩ := Keyring.changePassphrase_ok h
    unfold Keyring.Newest at hk ⊢
    rw [hkeys, hcurrent]
    exact ⟨hk, fun _ _ hkey => hkey⟩

theorem KeyringOp.rotate_error {k k' : Keyring} {t t' : Trace} {e : KeyringError}
    (h : (KeyringOp.rotateDataKey.run P).run (k, t) = .error e (k', t')) :
    (Keyring.rotateDataKey P).run (k, t) = .error e (k', t') := by
  rcases bind_error.1 h with hrotate | ⟨_, _, -, hpure⟩
  · exact hrotate
  · cases hpure

/-- Also an operation that fails keeps the newest key current and every key held. -/
theorem KeyringOp.run_newest_of_error {op : KeyringOp} {k k' : Keyring} {t t' : Trace}
    {e : KeyringError} (hk : k.Newest) (h : (op.run P).run (k, t) = .error e (k', t')) :
    k'.Newest ∧ k.keys.HeldBy k'.keys := by
  cases op with
  | rotateDataKey =>
    have hrotate := KeyringOp.rotate_error h
    rcases Keyring.rotateDataKey_error hrotate with ⟨-, rfl⟩ | ⟨id, hnext, ⟨-, rfl⟩ | hkey⟩
    · exact ⟨hk, fun _ _ hkey => hkey⟩
    · exact ⟨hk, fun _ _ hkey => hkey⟩
    · obtain ⟨key, nonce, -, rfl⟩ := hkey
      exact (hk.insert hnext rfl rfl).2
  | changePassphrase passphrase =>
    unfold KeyringOp.run at h
    rcases Keyring.changePassphrase_error h with ⟨-, rfl⟩ | ⟨salt, kek, nonce, -, rfl⟩
    · exact ⟨hk, fun _ _ hkey => hkey⟩
    · exact ⟨hk, fun _ _ hkey => hkey⟩

/-- A keyring that another became through operations that succeeded.  What else was sealed and
drawn between two of them is left open. -/
inductive Keyring.Becomes (P : Platform) (k : Keyring) : Keyring → Prop where
  | refl : Becomes P k k
  | step {op : KeyringOp} {k' k'' : Keyring} {t t' : Trace} {u : PUnit} (h : Becomes P k k')
      (hop : (op.run P).run (k', t) = .ok u (k'', t')) : Becomes P k k''

theorem Keyring.Becomes.rotated {k k' : Keyring} {t t' : Trace} {id : DataKeyId}
    (h : (rotateDataKey P).run (k, t) = .ok id (k', t')) : k.Becomes P k' := by
  have hop : (KeyringOp.rotateDataKey.run P).run (k, t) = .ok ⟨⟩ (k', t') :=
    bind_ok.2 ⟨id, _, h, rfl⟩
  exact Keyring.Becomes.refl.step hop

/-- A run keeps the newest key current and every key held. -/
theorem Keyring.Becomes.newest {k k' : Keyring} (h : k.Becomes P k') (hk : k.Newest) :
    k'.Newest ∧ k.keys.HeldBy k'.keys := by
  induction h with
  | refl => exact ⟨hk, fun _ _ hkey => hkey⟩
  | step _ hop ih =>
    obtain ⟨hk', hheld⟩ := ih
    obtain ⟨hk'', hheld'⟩ := KeyringOp.run_newest hk' hop
    exact ⟨hk'', hheld.trans hheld'⟩

/-! ## Frames that hold more keys, and fewer -/

/-- A frame's keys are among another's, and they frame alike. -/
structure BlockFrame.ExtendedBy (f f' : BlockFrame) : Prop where
  keys : KeySet.HeldBy f.keys f'.keys
  blockSize : f'.blockSize = f.blockSize

section Extended

variable {f f' : BlockFrame}

theorem BlockFrame.ExtendedBy.stride (h : f.ExtendedBy f') :
    f'.sealedBlockLen = f.sealedBlockLen := by
  unfold BlockFrame.sealedBlockLen
  rw [h.blockSize]

theorem BlockFrame.ExtendedBy.readHeader (h : f.ExtendedBy f') {c : Bytes} {framing : Framing}
    (hread : f.readHeader c = .ok framing) : f'.readHeader c = .ok framing := by
  unfold BlockFrame.readHeader at hread ⊢
  dsimp only at hread ⊢
  rw [h.blockSize]
  split_ifs at hread ⊢ with hlen hmagic hversion hdeclared hkey hkey'
  · -- a key that is held stays held
    rw [Bool.not_eq_false, Std.ExtTreeMap.contains_eq_isSome_getElem?] at hkey'
    obtain ⟨secret, hsecret⟩ := Option.isSome_iff_exists.1 hkey'
    rw [Std.ExtTreeMap.contains_eq_isSome_getElem?, h.keys _ _ hsecret] at hkey
    cases hkey
  · exact hread

/-- **A frame that holds more keys opens what the other opens.** -/
theorem BlockFrame.ExtendedBy.openWhole (h : f.ExtendedBy f') {c q : Bytes}
    (hopen : f.openWhole P c = .ok q) : f'.openWhole P c = .ok q := by
  obtain ⟨len, framing, secret, ms, hlen, hread, hsecret, hall, hq, hqlen⟩ :=
    BlockFrame.openWhole_ok.1 hopen
  have hsize : f'.plaintextLen c.length = .ok len := by
    unfold BlockFrame.plaintextLen at hlen ⊢
    rw [h.stride, h.blockSize]
    exact hlen
  have hblocks : f'.sealedBlocks c = f.sealedBlocks c := by
    unfold BlockFrame.sealedBlocks
    rw [h.stride]
  refine BlockFrame.openWhole_ok.2 ⟨len, framing, secret, ms, hsize, h.readHeader hread,
    h.keys _ _ hsecret, ?_, hq, hqlen⟩
  rw [hblocks]
  obtain ⟨hcount, heach⟩ := BlockFrame.openAll_ok.1 hall
  refine BlockFrame.openAll_ok.2 ⟨hcount, fun i b hb => ?_⟩
  obtain ⟨m, hm, hblock⟩ := heach i b hb
  refine ⟨m, hm, ?_⟩
  unfold BlockFrame.openBlock at hblock ⊢
  rw [h.stride]
  exact hblock

/-- **A frame that does not hold an object's key refuses it, naming the key.** -/
theorem BlockFrame.readHeader_unknown (f f' : BlockFrame) (hsize : f'.blockSize = f.blockSize)
    (hunknown : f'.keys.contains f.current = false) (rest : Bytes) :
    f'.readHeader (f.header ++ rest) = .error (.unknownKey f.current) := by
  rw [f.readHeader_of_size f' hsize, if_pos hunknown]

/-- Neither does it open the whole object. -/
theorem BlockFrame.SealedAs.openWhole_unknown {p : Bytes} {key : SecretKey}
    {ss : List Sealing} (hs : f.SealedAs P p key ss) (ho : Opening P ss)
    (hsize : f'.blockSize = f.blockSize) (hunknown : f'.keys.contains f.current = false) :
    f'.openWhole P (f.object ss) = .error (.unknownKey f.current) := by
  have hstride : f'.sealedBlockLen = f.sealedBlockLen := by
    unfold BlockFrame.sealedBlockLen
    rw [hsize]
  have hlen : f'.plaintextLen (f.object ss).length = .ok p.length := by
    refine BlockFrame.plaintextLen_ok.2 ?_
    rw [hs.object_length ho]
    unfold BlockFrame.sealedLen
    rw [hstride, hsize]
  have hread : f'.readHeader (f.object ss) = .error (.unknownKey f.current) :=
    f.readHeader_unknown f' hsize hunknown _
  unfold BlockFrame.openWhole
  rw [hlen]
  simp only [bind, Except.bind]
  rw [hread]

end Extended

/-! ## Runs -/

/-- **Rotation keeps every object readable.**  In a run from a new keyring, through three states:
the current key is held and newest; every key of an earlier state is held, unchanged; a rotation
issues an id above all that are held; and what the second state's frame seals, the third state's
frame opens, and the first state's refuses for its key if it does not hold that. -/
theorem rotation_keeps_objects_readable {made : List Sealing} (hP : P.Ideal made)
    {passphrase : Bytes} {k kz ka kb : Keyring} {t t' : Trace}
    (hcreate : (Keyring.create P passphrase).run t = .ok k t') (hz : k.Becomes P kz)
    (ha : kz.Becomes P ka) (hb : ka.Becomes P kb) :
    (ka.keys.contains ka.current ∧
        ∀ id, ka.keys.contains id → id.toNat ≤ ka.current.toNat) ∧
      kz.keys.HeldBy ka.keys ∧
      (∀ (s s' : Trace) (id : DataKeyId) (k' : Keyring),
        (Keyring.rotateDataKey P).run (ka, s) = .ok id (k', s') →
          k'.current = id ∧ ∀ held, ka.keys.contains held → held.toNat < id.toNat) ∧
      ∀ (blockSize : BlockSize) (p c : Bytes) (s s' : Trace),
        ((ka.frame blockSize).seal P p).run s = .ok c s' → s'.sealings ⊆ made →
          (kb.frame blockSize).openWhole P c = .ok p ∧
            (kz.keys.contains ka.current = false →
              (kz.frame blockSize).readHeader c = .error (.unknownKey ka.current) ∧
                (kz.frame blockSize).openWhole P c = .error (.unknownKey ka.current)) := by
  obtain ⟨hkz, -⟩ := hz.newest (Keyring.create_newest hcreate)
  obtain ⟨hka, hheld⟩ := ha.newest hkz
  obtain ⟨-, hheld'⟩ := hb.newest hka
  refine ⟨⟨hka.contains, fun id hid => hka.le hid⟩, hheld, ?_, ?_⟩
  · intro s s' id k' hrotate
    obtain ⟨hnewer, hcurrent, -, -⟩ := Keyring.rotateDataKey_newer hka hrotate
    exact ⟨hcurrent, hnewer⟩
  · intro blockSize p c s s' hseal hmade
    obtain ⟨key, ss, htrace, rfl, hs⟩ := BlockFrame.seal_ok hseal
    have ho : Opening P ss := hP.opening_of_subset fun x hx =>
      hmade (htrace ▸ List.mem_append_right _ hx)
    have hext : (ka.frame blockSize).ExtendedBy (kb.frame blockSize) := ⟨hheld', rfl⟩
    refine ⟨hext.openWhole (hs.openWhole ho), fun hunknown => ⟨?_, ?_⟩⟩
    · exact (ka.frame blockSize).readHeader_unknown (kz.frame blockSize) rfl hunknown _
    · exact hs.openWhole_unknown ho rfl hunknown

/-! ## One run -/

/-- What the `i`-th draw of `n` bytes gives. -/
def drawn (n i : Nat) : Octets n := padTo n (List.replicate n (UInt8.ofNat i))

/-- A key set as it is wrapped under the passphrase `[1]` and the salt of the second draw. -/
def wrapped (i : Nat) (current : DataKeyId) (keys : KeySet) : Sealing :=
  ⟨padTo KEY_LEN ([1] ++ (drawn SALT_LEN 1).1), drawn NONCE_LEN i, Keyfile.CONTEXT,
    encodeKeySet current keys, encodeKeySet current keys ++ List.replicate TAG_LEN 0⟩

def firstKeys : KeySet := (∅ : KeySet).insert .FIRST (drawn KEY_LEN 0)

def secondKeys : KeySet := firstKeys.insert 2 (drawn KEY_LEN 3)

def thirdKeys : KeySet := secondKeys.insert 3 (drawn KEY_LEN 6)

/-- A keyring is created and rotated, the byte 7 is sealed, and the keyring is rotated again. -/
def rotatedMade : List Sealing :=
  [wrapped 2 .FIRST firstKeys, wrapped 4 2 secondKeys,
    ⟨drawn KEY_LEN 3, drawn NONCE_LEN 5, BlockFrame.associatedData 2 0 true, [7],
      [7] ++ List.replicate TAG_LEN 0⟩,
    wrapped 7 3 thirdKeys]

theorem rotatedMade_ideal : (Platform.tabled rotatedMade).Ideal rotatedMade :=
  Platform.tabled_ideal (by simp [rotatedMade, wrapped])

theorem firstKeys_max : firstKeys.maxKey? = some .FIRST := by
  unfold firstKeys
  rw [Std.ExtTreeMap.maxKey?_insert]
  simp

theorem secondKeys_max : secondKeys.maxKey? = some 2 := by
  unfold secondKeys
  rw [Std.ExtTreeMap.maxKey?_insert, firstKeys_max]
  rfl

/-- A new keyring under a cipher that does not fail. -/
theorem create_tabled (table : List Sealing) : ∃ k t,
    (Keyring.create (Platform.tabled table) [1]).run Trace.empty = .ok k t ∧
      k.keys = firstKeys ∧ k.kek = padTo KEY_LEN ([1] ++ (drawn SALT_LEN 1).1) ∧
      t.draws = 3 ∧ t.sealings = [wrapped 2 .FIRST firstKeys] := ⟨_, _, rfl, rfl, rfl, rfl, rfl⟩

/-- A rotation under a cipher that does not fail: the key and the nonce are the next two draws. -/
theorem rotateDataKey_tabled (table : List Sealing) (k : Keyring) (t : Trace)
    {next : DataKeyId} (hnext : (k.keys.maxKey?.getD .FIRST).next = some next) :
    ∃ k' t', (Keyring.rotateDataKey (Platform.tabled table)).run (k, t) = .ok next (k', t') ∧
      k'.keys = k.keys.insert next (drawn KEY_LEN t.draws) ∧ k'.current = next ∧
      t'.draws = t.draws + 2 ∧ t'.sealings = t.sealings ++
        [⟨k.kek, drawn NONCE_LEN (t.draws + 1), Keyfile.CONTEXT, encodeKeySet next k'.keys,
          encodeKeySet next k'.keys ++ List.replicate TAG_LEN 0⟩] := by
  unfold Keyring.rotateDataKey
  rw [EStateM.run_bind, run_keyring]
  dsimp only
  rw [hnext]
  exact ⟨_, _, rfl, rfl, rfl, rfl, rfl⟩

/-- The byte that was sealed between two rotations opens after the second and not before the
first. -/
theorem rotated_object_opens : ∃ (k ka kb : Keyring) (t1 t2 t3 t4 : Trace) (c : Bytes),
    (Keyring.create (Platform.tabled rotatedMade) [1]).run Trace.empty = .ok k t1 ∧
      (Keyring.rotateDataKey (Platform.tabled rotatedMade)).run (k, t1) = .ok 2 (ka, t2) ∧
      ((ka.frame smallBlocks).seal (Platform.tabled rotatedMade) [7]).run t2 = .ok c t3 ∧
      (Keyring.rotateDataKey (Platform.tabled rotatedMade)).run (ka, t3) = .ok 3 (kb, t4) ∧
      (kb.frame smallBlocks).openWhole (Platform.tabled rotatedMade) c = .ok [7] ∧
      (k.frame smallBlocks).openWhole (Platform.tabled rotatedMade) c =
        .error (.unknownKey 2) := by
  obtain ⟨k, t1, hcreate, hkeys, hkek, hdraws, hmade⟩ := create_tabled rotatedMade
  have hnext : (k.keys.maxKey?.getD .FIRST).next = some 2 := by
    rw [hkeys, firstKeys_max]
    rfl
  obtain ⟨ka, ⟨draws, made⟩, hrotate, hkeys2, hcurrent2, hdraws2, hmade2⟩ :=
    rotateDataKey_tabled rotatedMade k t1 hnext
  dsimp only at hdraws2 hmade2
  rw [hkeys, hdraws] at hkeys2
  rw [hmade, hkek, hdraws, hkeys2] at hmade2
  rw [hdraws] at hdraws2
  have hnext2 : (ka.keys.maxKey?.getD .FIRST).next = some 3 := by
    rw [hkeys2]
    exact secondKeys_max ▸ rfl
  obtain ⟨kb, t4, hrotate2, -⟩ :=
    rotateDataKey_tabled rotatedMade ka ⟨6, rotatedMade.take 3⟩ hnext2
  have hseal : ∃ c, ((ka.frame smallBlocks).seal (Platform.tabled rotatedMade) [7]).run
      ⟨draws, made⟩ = .ok c ⟨6, rotatedMade.take 3⟩ := by
    unfold Keyring.frame
    rw [hkeys2, hcurrent2, hdraws2, hmade2]
    exact ⟨_, rfl⟩
  obtain ⟨c, hseal⟩ := hseal
  obtain ⟨-, -, -, hread⟩ := rotation_keeps_objects_readable rotatedMade_ideal hcreate .refl
    (.rotated hrotate) (.rotated hrotate2)
  obtain ⟨hopens, hrefused⟩ := hread smallBlocks [7] _ _ _ hseal (List.take_subset 3 _)
  rw [hcurrent2, hkeys] at hrefused
  exact ⟨k, ka, kb, t1, _, _, t4, c, hcreate, hrotate, hseal, hrotate2, hopens,
    (hrefused rfl).2⟩

end EuleDB.Crypto
