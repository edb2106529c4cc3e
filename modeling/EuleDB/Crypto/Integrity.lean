import EuleDB.Crypto.Read

/-!
# What a tampered object can answer

One object was sealed under the frame's keys, and something else is stored in its place.

* `getOpts_integrity_iff` — exactly when a read is safe: whatever it answers is what the range
  denotes in the plaintext that was sealed.
* `getOpts_integrity_of_size` — a stored object of the right size is always safe.
* `truncated_to_an_empty_block` — an object cut inside its first block reads as an empty object.

The size alone decides how long the plaintext is taken to be, and a range that is empty
against that length is answered without opening a block.
-/

set_option autoImplicit false

namespace EuleDB.Crypto

open Slice FrameFormat EncryptingObjectStore

variable {P : Platform} {f : BlockFrame}

/-- The bytes of an object that a requested range denotes. -/
def denoted (requested : Option GetRange) (p : Bytes) : Bytes :=
  let wanted := wantedRange requested p.length
  slice wanted.start wanted.stop p

/-- `stored` agrees with `c` on the header and on the sealed blocks that cover `w`. -/
def BlockFrame.Intact (f : BlockFrame) (c stored : Bytes) (w : Range) : Prop :=
  stored.take HEADER_LEN = c.take HEADER_LEN ∧ f.window stored w = f.window c w

theorem BlockFrame.object_header (f : BlockFrame) (ss : List Sealing) :
    (f.object ss).take HEADER_LEN = f.header :=
  List.take_left' f.header_length

/-- What a read of a non-empty range of the stored object can answer. -/
theorem BlockFrame.SealedAs.readRange_iff {p : Bytes} {key : SecretKey} {old ss : List Sealing}
    (hs : f.SealedAs P p key ss) (hP : P.Ideal (old ++ ss))
    (hold : ∀ s ∈ old, ∀ (id : DataKeyId) secret, f.keys[id]? = some secret → s.key ≠ secret)
    {s : MapStore} {location : Path} {object : Object} {q : Bytes} {w : Range} {len : Nat}
    (hobject : s.objects[location]? = some object) (hw : w.start < w.stop) (hstop : w.stop ≤ len)
    (hsize : object.data.length = f.sealedLen len) (hmax : object.data.length ≤ MAX_BYTES)
    (hp : p.length ≤ MAX_BYTES) :
    EncryptingObjectStore.readRange P f (s.getRanges location) location w len = .ok q ↔
      f.Intact (f.object ss) object.data w ∧ q = slice w.start w.stop p := by
  unfold BlockFrame.Intact
  rw [f.object_header]
  constructor
  · intro h
    obtain ⟨hheader, hwin⟩ := hs.readRange_ideal hP hold hobject hw hstop hsize hmax hp h
    rw [hs.readRange hP.opening hobject hw hstop hsize hmax hheader hwin] at h
    cases h
    exact ⟨⟨hheader, hwin⟩, rfl⟩
  · rintro ⟨⟨hheader, hwin⟩, rfl⟩
    exact hs.readRange hP.opening hobject hw hstop hsize hmax hheader hwin

/-- **Exactly when a read of a replaced object is safe.**  Either it is refused, or the range
means the same bytes for the stored size, or it is non-empty and the replacement shows in what
the read looks at. -/
theorem getOpts_integrity_iff {p c : Bytes} {t t' : Trace} {e : EncryptingObjectStore}
    {location : Path} {stored : Object} {options : GetOptions}
    (hseal : (e.frame.seal P p).run t = .ok c t') (hideal : P.Ideal t'.sealings)
    (honly : ∀ s ∈ t.sealings, ∀ (id : DataKeyId) secret,
      e.frame.keys[id]? = some secret → s.key ≠ secret)
    (hp : p.length ≤ MAX_BYTES) (hstored : e.inner.objects[location]? = some stored)
    (hmax : stored.data.length ≤ MAX_BYTES) (hread : options.head = false) :
    (∀ r, e.getOpts P location options = .ok r → r.payload = denoted options.range p) ↔
      ∀ len, MapStore.checkPreconditions options (MapStore.metaOf location stored) = .ok () →
        e.frame.plaintextLen stored.data.length = .ok len →
        let w := wantedRange options.range len
        slice w.start w.stop p = denoted options.range p ∨
          (w.start < w.stop ∧ ¬ e.frame.Intact c stored.data w) := by
  obtain ⟨key, ss, htrace, rfl, hs⟩ := BlockFrame.seal_ok hseal
  rw [htrace] at hideal
  rw [show e.frame.header ++ (ss.map Sealing.block).flatten = e.frame.object ss from rfl]
  constructor
  · intro hsafe len hallowed hlen
    have hsize := BlockFrame.plaintextLen_ok.1 hlen
    have hstop := wantedRange_stop_le options.range len
    have hget := getOpts_eq (P := P) hread hstored hallowed hlen
    dsimp only at hget ⊢
    by_cases hw : (wantedRange options.range len).start < (wantedRange options.range len).stop
    · by_cases hintact : e.frame.Intact (e.frame.object ss) stored.data
          (wantedRange options.range len)
      · have hok := (hs.readRange_iff hideal honly hstored hw hstop hsize hmax hp).2
          ⟨hintact, rfl⟩
        rw [if_neg (by omega), hok] at hget
        exact .inl (hsafe _ hget)
      · exact .inr ⟨hw, hintact⟩
    · -- nothing is opened
      rw [if_pos (by omega)] at hget
      refine .inl ?_
      rw [slice_of_le (by omega)]
      exact hsafe _ hget
  · intro hcond r hr
    obtain ⟨hallowed, len, hlen⟩ := getOpts_allowed hstored hr
    have hsize := BlockFrame.plaintextLen_ok.1 hlen
    have hstop := wantedRange_stop_le options.range len
    rw [getOpts_eq hread hstored hallowed hlen] at hr
    dsimp only at hr
    have hcond := hcond len hallowed hlen
    dsimp only at hcond
    split_ifs at hr with hw
    · cases hr
      rcases hcond with hsame | ⟨hlt, -⟩
      · rw [← hsame, slice_of_le hw]
      · omega
    · cases hq : EncryptingObjectStore.readRange P e.frame (e.inner.getRanges location) location
          (wantedRange options.range len) len with
      | error err => rw [hq] at hr; cases hr
      | ok q =>
        rw [hq] at hr
        cases hr
        obtain ⟨hintact, rfl⟩ :=
          (hs.readRange_iff hideal honly hstored (by omega) hstop hsize hmax hp).1 hq
        rcases hcond with hsame | ⟨-, hbroken⟩
        · exact hsame
        · exact absurd hintact hbroken

/-- A replacement of the right size never changes an answer. -/
theorem getOpts_integrity_of_size {p c : Bytes} {t t' : Trace} {e : EncryptingObjectStore}
    {location : Path} {stored : Object} {options : GetOptions} {r : GetResult}
    (hseal : (e.frame.seal P p).run t = .ok c t') (hideal : P.Ideal t'.sealings)
    (honly : ∀ s ∈ t.sealings, ∀ (id : DataKeyId) secret,
      e.frame.keys[id]? = some secret → s.key ≠ secret)
    (hp : p.length ≤ MAX_BYTES) (hstored : e.inner.objects[location]? = some stored)
    (hmax : stored.data.length ≤ MAX_BYTES) (hread : options.head = false)
    (hsize : stored.data.length = c.length) (hr : e.getOpts P location options = .ok r) :
    r.payload = denoted options.range p := by
  obtain ⟨key, ss, htrace, hobject, hs⟩ := BlockFrame.seal_ok hseal
  have hlength : c.length = e.frame.sealedLen p.length := by
    rw [hobject]
    exact hs.object_length (htrace ▸ hideal : P.Ideal (t.sealings ++ ss)).opening
  refine (getOpts_integrity_iff hseal hideal honly hp hstored hmax hread).2 ?_ r hr
  intro len _ hlen
  have hlen' := BlockFrame.plaintextLen_ok.2 (hsize.trans hlength)
  rw [hlen] at hlen'
  cases hlen'
  exact .inl rfl

/-! ## One object, cut short -/

/-- The smallest blocks. -/
def smallBlocks : BlockSize := ⟨64, by decide, by decide, 6, by decide⟩

/-- A frame with one key and the smallest blocks. -/
def oneKeyFrame : BlockFrame :=
  ⟨(∅ : Std.ExtTreeMap DataKeyId SecretKey).insert 0 (padTo KEY_LEN []), 0,
    ⟨64, by decide, by decide, 6, by decide⟩⟩

/-- The encryption that seals the one byte 7 as an object. -/
def sealedSeven : Sealing :=
  ⟨padTo KEY_LEN [], padTo NONCE_LEN [], BlockFrame.associatedData 0 0 true, [7],
    [7] ++ List.replicate TAG_LEN 0⟩

/-- A store whose one object is what was sealed, cut after `n` bytes. -/
def cutStore (n : Nat) : EncryptingObjectStore :=
  ⟨⟨(∅ : Std.ExtTreeMap Path Object).insert ["object"]
    ⟨(oneKeyFrame.header ++ sealedSeven.block).take n, 0, "0", []⟩, 1⟩, oneKeyFrame⟩

theorem cutStore_object (n : Nat) : (cutStore n).inner.objects[["object"]]? =
    some ⟨(oneKeyFrame.header ++ sealedSeven.block).take n, 0, "0", []⟩ := by
  simp [cutStore]

theorem seal_seven : (oneKeyFrame.seal (Platform.tabled [sealedSeven]) [7]).run Trace.empty =
    .ok (oneKeyFrame.header ++ sealedSeven.block) ⟨1, [sealedSeven]⟩ := by
  rfl

theorem sealedSeven_ideal : (Platform.tabled [sealedSeven]).Ideal [sealedSeven] :=
  Platform.tabled_ideal (by simp [sealedSeven])

/-- The untouched object answers with the byte that was sealed, if it answers. -/
theorem seven_reads_back :
    (cutStore 42).inner.objects[["object"]]? =
        some ⟨oneKeyFrame.header ++ sealedSeven.block, 0, "0", []⟩ ∧
      ∀ r, (cutStore 42).getOpts (Platform.tabled [sealedSeven]) ["object"]
        GetOptions.default = .ok r → r.payload = denoted none [7] := by
  refine ⟨cutStore_object 42, ?_⟩
  have hiff := fun options hread => getOpts_integrity_iff seal_seven sealedSeven_ideal
    (by simp [Trace.empty]) (by decide) (cutStore_object 42) (by decide)
    (hread : GetOptions.head options = false)
  refine (hiff GetOptions.default rfl).2 ?_
  intro len _ hlen
  cases hlen
  exact .inl rfl

/-- The object cut to 41 bytes reads as a complete object without any bytes. -/
theorem truncated_to_an_empty_block :
    (oneKeyFrame.seal (Platform.tabled [sealedSeven]) [7]).run Trace.empty =
        .ok (oneKeyFrame.header ++ sealedSeven.block) ⟨1, [sealedSeven]⟩ ∧
      (Platform.tabled [sealedSeven]).Ideal [sealedSeven] ∧
      (cutStore 41).inner.objects[["object"]]? =
        some ⟨(oneKeyFrame.header ++ sealedSeven.block).take 41, 0, "0", []⟩ ∧
      (cutStore 41).getOpts (Platform.tabled [sealedSeven]) ["object"] GetOptions.default =
        .ok ⟨[], ⟨0, 0⟩, [], ⟨["object"], 0, 0, "0"⟩⟩ ∧
      denoted none [7] = [7] := by
  refine ⟨seal_seven, sealedSeven_ideal, cutStore_object 41, ?_, rfl⟩
  have hlen : (cutStore 41).frame.plaintextLen 41 = .ok 0 := rfl
  rw [getOpts_eq rfl (cutStore_object 41) rfl hlen]
  rfl

end EuleDB.Crypto
