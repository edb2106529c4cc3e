import Mathlib.Data.List.Infix
import EuleDB.Crypto.Integrity

/-!
# A read beside writes

A read makes two requests.  The first one tells the size, and the ranges of the second one are
made for it; another object may have been put in place between them.

* `BlockFrame.Covers` — an object of another size has what a span was made for.
* `BlockFrame.SealedAs.readRange_replaced` — the second request succeeds exactly then.
* `EncryptingObjectStore.getOptsBetween` — the read with its two requests apart.
* `Stored`, `Puts` — an object of some version, and puts that replace it.
* `one_version_iff` — when a read, beside any puts, sees one version of its object.
* `replaced_by_longer` — a read of one byte that fails since two took its place.
-/

set_option autoImplicit false

namespace EuleDB.Crypto

open Slice Effect FrameFormat EncryptingObjectStore

variable {P : Platform} {f : BlockFrame}

/-! ## Sizes -/

theorem BlockFrame.sealedLen_lt (f : BlockFrame) {a b : Nat} (h : a < b) :
    f.sealedLen a < f.sealedLen b := by
  have hblocks := Nat.mul_le_mul_right BLOCK_OVERHEAD
    (Nat.div_le_div_right (c := f.blockSize.get) h.le)
  rw [f.sealedLen_eq, f.sealedLen_eq, Nat.add_mul, Nat.add_mul]
  omega

theorem BlockFrame.sealedLen_le (f : BlockFrame) {a b : Nat} (h : a ≤ b) :
    f.sealedLen a ≤ f.sealedLen b := by
  rcases Nat.eq_or_lt_of_le h with rfl | hlt
  · exact Nat.le_refl _
  · exact (f.sealedLen_lt hlt).le

/-- An object with `stored` bytes of plaintext has the blocks that a span for an object with `len`
bytes asks for, each in full. -/
def BlockFrame.Covers (f : BlockFrame) (w : Range) (len stored : Nat) : Prop :=
  w.stop ≤ stored ∧ (stored ≤ len ∨ f.endBlock w * f.blockSize.get ≤ len)

instance (w : Range) (len stored : Nat) : Decidable (f.Covers w len stored) :=
  inferInstanceAs (Decidable (_ ∧ _))

/-! ## The second request -/

/-- What the second request brings of an object with this frame's header. -/
theorem readRange_sealed {s : MapStore} {location : Path} {object : Object} {w : Range} {len : Nat}
    (hobject : s.objects[location]? = some object) (hw : w.start < w.stop) (hstop : w.stop ≤ len)
    (hmax : f.sealedLen len ≤ MAX_BYTES) (hheader : object.data.take HEADER_LEN = f.header)
    (hcontains : f.keys.contains f.current) :
    readRange P f (s.getRanges location) location w len =
      if object.data.length ≤ (f.ciphertextSpan w len).start then
        .error (.range (.startTooLarge (f.ciphertextSpan w len).start object.data.length))
      else cryptoError location (f.openSpan P
        (slice (f.ciphertextSpan w len).start (f.ciphertextSpan w len).stop object.data)
        (f.ciphertextSpan w len) w ⟨f.blockSize, f.current⟩) := by
  have hlength : HEADER_LEN ≤ object.data.length := by
    have hlen := congrArg List.length hheader
    rw [List.length_take, f.header_length] at hlen
    omega
  have hframing := f.readHeader_header [] hcontains
  rw [List.append_nil] at hframing
  rw [readRange_of_length hobject hw hstop hmax hlength, hheader, hframing]
  rfl

/-! ## An object of another size -/

section Replaced

variable {p : Bytes} {key : SecretKey} {ss : List Sealing}

/-- The blocks of an object that was cut begin like those of the object. -/
theorem BlockFrame.sealedBlocks_take (f : BlockFrame) {c b b' : Bytes} {n i : Nat}
    (hb : (f.sealedBlocks (c.take n))[i]? = some b) (hb' : (f.sealedBlocks c)[i]? = some b') :
    b <+: b' := by
  unfold BlockFrame.sealedBlocks at hb hb'
  rw [getElem?_chunks] at hb hb'
  split_ifs at hb hb'
  cases hb
  cases hb'
  rw [List.drop_take]
  exact List.IsPrefix.drop (List.IsPrefix.take (List.take_prefix _ _) _) _

/-- A block that begins with another has its nonce. -/
theorem Sealing.nonce_of_prefix {s s' : Sealing} (h : s.block <+: s'.block) :
    s.nonce = s'.nonce := by
  obtain ⟨rest, hrest⟩ := h
  unfold Sealing.block at hrest
  rw [List.append_assoc] at hrest
  exact Subtype.ext (List.append_inj_left hrest (s.nonce.2.trans s'.nonce.2.symm))

theorem BlockFrame.openSpan_congr {c : Bytes} {span span' w : Range} {framing : Framing}
    (h : span.start = span'.start) :
    f.openSpan P c span w framing = f.openSpan P c span' w framing := by
  unfold BlockFrame.openSpan
  rw [h]

/-- A span sees no more of an object than the size that it was made for. -/
theorem BlockFrame.slice_span_take (f : BlockFrame) (c : Bytes) {w : Range} {len : Nat}
    (hw : w.start < w.stop) (hstop : w.stop ≤ len) (hmax : f.sealedLen len ≤ MAX_BYTES) :
    slice (f.ciphertextSpan w len).start (f.ciphertextSpan w len).stop (c.take (f.sealedLen len)) =
      slice (f.ciphertextSpan w len).start (f.ciphertextSpan w len).stop c := by
  rw [f.ciphertextSpan_eq hw hstop (f.fits hmax)]
  unfold slice
  rw [List.take_take, Nat.min_eq_left (Nat.min_le_right _ _)]

/-- The last block of an object that was cut to the size of a shorter one does not open: what
opens was sealed with the nonce it begins with, and that block is longer. -/
theorem BlockFrame.SealedAs.openBlock_cut (hs : f.SealedAs P p key ss) {t : Trace}
    (hideal : P.Ideal t.sealings) (honce : t.NoncesOnce) (hmade : ss ⊆ t.sealings) {len : Nat}
    (hlong : len < p.length) {b m : Bytes} {index : Nat}
    (hb : (f.sealedBlocks ((f.object ss).take (f.sealedLen len)))[len / f.blockSize.get]? =
      some b) : f.openBlock P key f.current index b ≠ .ok m := by
  intro hopen
  have ho := hideal.opening_of_subset hmade
  have hcutlen : ((f.object ss).take (f.sealedLen len)).length = f.sealedLen len := by
    rw [List.length_take, hs.object_length ho]
    exact Nat.min_eq_left (f.sealedLen_lt hlong).le
  obtain ⟨made, hmem, hkey, rfl, -, -⟩ := BlockFrame.openBlock_ideal hideal hopen
  -- it begins like the block the whole object has there
  have hcounts := Nat.div_le_div_right (c := f.blockSize.get) hlong.le
  obtain ⟨piece, hpiece⟩ : ∃ piece, ss[len / f.blockSize.get]? = some piece :=
    ⟨_, List.getElem?_eq_getElem (by rw [hs.length]; omega)⟩
  have hbegins := f.sealedBlocks_take hb
    (by rw [hs.sealedBlocks ho, List.getElem?_map, hpiece]; rfl)
  have hsame : made = piece := by
    apply honce _ hmem _ (hmade (List.mem_of_getElem? hpiece))
    · rw [hkey, hs.key_eq _ _ hpiece]
    · exact Sealing.nonce_of_prefix hbegins
  -- and yet is shorter
  have hshort := f.sealedBlocks_getElem? _ hb
  have hdiv := Nat.div_add_mod len f.blockSize.get
  have hmod := Nat.mod_lt len f.blockSize.pos
  have hstride := f.stride_eq
  have hsealed : f.sealedLen len = HEADER_LEN + len / f.blockSize.get * f.sealedBlockLen +
    (len % f.blockSize.get + BLOCK_OVERHEAD) := rfl
  rw [Nat.mul_comm] at hdiv
  rw [hsame, hs.block_length ho hpiece, hcutlen, Nat.add_mul, Nat.add_mul, Nat.one_mul,
    Nat.one_mul] at hshort
  omega

variable (hs : f.SealedAs P p key ss) {s : MapStore} {location : Path} {object : Object}
  {w : Range} {len : Nat} (hobject : s.objects[location]? = some object)
  (hdata : object.data = f.object ss) (hw : w.start < w.stop) (hstop : w.stop ≤ len)
  (hmax : f.sealedLen len ≤ MAX_BYTES) (hp : f.sealedLen p.length ≤ MAX_BYTES)

include hs hobject hdata hw hstop hmax hp

/-- Where the object has what is asked for, it is answered with it. -/
theorem BlockFrame.SealedAs.readRange_of_covers (ho : Opening P ss)
    (hcovers : f.Covers w len p.length) :
    EncryptingObjectStore.readRange P f (s.getRanges location) location w len =
      .ok (slice w.start w.stop p) := by
  obtain ⟨hinside, hfull⟩ := hcovers
  have hsize : object.data.length = f.sealedLen p.length := hdata ▸ hs.object_length ho
  have hheader : object.data.take HEADER_LEN = f.header := hdata ▸ f.object_header ss
  have hown := hs.readRange ho hobject hw hinside hsize (hsize ▸ hp) hheader (by rw [hdata])
  rw [readRange_sealed hobject hw hinside hp hheader hs.contains] at hown
  have hspan := f.ciphertextSpan_eq hw hstop (f.fits hmax)
  have hspan' := f.ciphertextSpan_eq hw hinside (f.fits hp)
  have hstart : (f.ciphertextSpan w len).start = (f.ciphertextSpan w p.length).start := by
    rw [hspan, hspan']
  -- both spans end at the same place in this object
  have hslice : slice (f.ciphertextSpan w len).start (f.ciphertextSpan w len).stop object.data =
      slice (f.ciphertextSpan w p.length).start (f.ciphertextSpan w p.length).stop
        object.data := by
    rw [← slice_min_length _ (f.ciphertextSpan w len).stop,
      ← slice_min_length _ (f.ciphertextSpan w p.length).stop, hstart, hsize, hspan, hspan']
    dsimp only
    congr 1
    rcases hfull with hless | hblocks
    · have hlens := f.sealedLen_le hless
      omega
    · have hcount : f.endBlock w ≤ len / f.blockSize.get :=
        (Nat.le_div_iff_mul_le f.blockSize.pos).2 hblocks
      have hmul := Nat.mul_le_mul_right f.sealedBlockLen hcount
      have hsealed : f.sealedLen len = HEADER_LEN + len / f.blockSize.get * f.sealedBlockLen +
        (len % f.blockSize.get + BLOCK_OVERHEAD) := rfl
      rw [Nat.min_eq_left (show HEADER_LEN + f.endBlock w * f.sealedBlockLen ≤ f.sealedLen len by
        omega)]
      omega
  rw [readRange_sealed hobject hw hstop hmax hheader hs.contains, hslice,
    openSpan_congr hstart, hstart]
  exact hown

omit hp in
/-- An object that ends before the range does is not read. -/
theorem BlockFrame.SealedAs.readRange_of_short (ho : Opening P ss) (hshort : p.length < w.stop)
    (q : Bytes) :
    EncryptingObjectStore.readRange P f (s.getRanges location) location w len ≠ .ok q := by
  intro hq
  have hsize : object.data.length = f.sealedLen p.length := hdata ▸ hs.object_length ho
  have hheader : object.data.take HEADER_LEN = f.header := hdata ▸ f.object_header ss
  have hlens : object.data.length ≤ f.sealedLen len := by
    rw [hsize]
    exact (f.sealedLen_lt (by omega)).le
  rw [readRange_sealed hobject hw hstop hmax hheader hs.contains] at hq
  split_ifs at hq
  have hopen := cryptoError_ok.1 hq
  have hcipher : f.cipher f.current = .ok key := cipher_ok.2 hs.known
  rw [openSpan_eq _ hw hstop hlens (f.fits hmax), hdata] at hopen
  simp only [bind, Except.bind, hcipher, hs.openAll_window ho w, hs.flatten_msgs] at hopen
  split_ifs at hopen with hlen
  -- what opens is no longer than what there is
  rw [length_slice, length_slice, ne_eq, not_not] at hlen
  have hfirst := f.firstBlock_mul_le w
  omega

omit hp in
/-- An object that goes on where the span cuts its last block is not read. -/
theorem BlockFrame.SealedAs.readRange_of_long {t : Trace} (hideal : P.Ideal t.sealings)
    (honce : t.NoncesOnce) (hmade : ss ⊆ t.sealings) (hlong : len < p.length)
    (hcut : len < f.endBlock w * f.blockSize.get) (q : Bytes) :
    EncryptingObjectStore.readRange P f (s.getRanges location) location w len ≠ .ok q := by
  intro hq
  have ho := hideal.opening_of_subset hmade
  have hsize : object.data.length = f.sealedLen p.length := hdata ▸ hs.object_length ho
  have hheader : object.data.take HEADER_LEN = f.header := hdata ▸ f.object_header ss
  have hlens := (f.sealedLen_lt hlong).le
  rw [readRange_sealed hobject hw hstop hmax hheader hs.contains] at hq
  split_ifs at hq
  have hopen := cryptoError_ok.1 hq
  have hcipher : f.cipher f.current = .ok key := cipher_ok.2 hs.known
  -- the span sees the object as if it ended where the first one did
  have hcutlen : (object.data.take (f.sealedLen len)).length = f.sealedLen len := by
    rw [List.length_take, hsize]
    exact Nat.min_eq_left hlens
  rw [← f.slice_span_take object.data hw hstop hmax,
    openSpan_eq _ hw hstop hcutlen.le (f.fits hmax), hdata] at hopen
  rw [hdata] at hcutlen
  simp only [bind, Except.bind, hcipher] at hopen
  cases hall : f.openAll P key f.current (f.firstBlock w)
      (f.window ((f.object ss).take (f.sealedLen len)) w) with
  | error e => rw [hall] at hopen; cases hopen
  | ok ms =>
    -- the last block of the window is the first one's last
    have hle := f.endBlock_le hstop
    have hlt := f.firstBlock_lt_endBlock hw
    have hend : f.endBlock w = len / f.blockSize.get + 1 := by
      have := (Nat.div_lt_iff_lt_mul f.blockSize.pos).2 hcut
      omega
    obtain ⟨i, hi⟩ : ∃ i, len / f.blockSize.get = f.firstBlock w + i :=
      ⟨len / f.blockSize.get - f.firstBlock w, by omega⟩
    have hcount := f.length_sealedBlocks hcutlen
    have hblock := List.getElem?_eq_getElem
      (l := f.sealedBlocks ((f.object ss).take (f.sealedLen len)))
      (i := len / f.blockSize.get) (by omega)
    have hwindow := f.window_getElem? ((f.object ss).take (f.sealedLen len)) w i
    rw [if_pos (by omega), ← hi, hblock] at hwindow
    obtain ⟨m, -, hone⟩ := (BlockFrame.openAll_ok.1 hall).2 i _ hwindow
    exact hs.openBlock_cut hideal honce hmade hlong hblock hone

/-- **The second request succeeds** exactly on an object that has what the span was made for. -/
theorem BlockFrame.SealedAs.readRange_replaced {t : Trace} (hideal : P.Ideal t.sealings)
    (honce : t.NoncesOnce) (hmade : ss ⊆ t.sealings) {q : Bytes} :
    EncryptingObjectStore.readRange P f (s.getRanges location) location w len = .ok q ↔
      f.Covers w len p.length ∧ q = slice w.start w.stop p := by
  have ho := hideal.opening_of_subset hmade
  constructor
  · intro hq
    have hcovers : f.Covers w len p.length := by
      by_contra hnot
      unfold BlockFrame.Covers at hnot
      by_cases hshort : p.length < w.stop
      · exact hs.readRange_of_short hobject hdata hw hstop hmax ho hshort q hq
      · exact hs.readRange_of_long hobject hdata hw hstop hmax hideal honce hmade (by omega)
          (by omega) q hq
    rw [hs.readRange_of_covers hobject hdata hw hstop hmax hp ho hcovers] at hq
    cases hq
    exact ⟨hcovers, rfl⟩
  · rintro ⟨hcovers, rfl⟩
    exact hs.readRange_of_covers hobject hdata hw hstop hmax hp ho hcovers

end Replaced

/-! ## Failures -/

/-- A failure to authenticate, for want of bytes, or over a range. -/
def StoreError.Unsound : StoreError → Prop
  | .frame _ (.authentication _) | .frame _ .truncated | .frame _ .rangeOutsideObject
  | .range _ => True
  | _ => False

theorem BlockFrame.openBlock_error {secret : SecretKey} {id : DataKeyId} {index : Nat} {b : Bytes}
    {err : FrameError} (h : f.openBlock P secret id index b = .error err) :
    err = .truncated ∨ err = .authentication index := by
  unfold BlockFrame.openBlock at h
  split_ifs at h
  · cases h
    exact .inl rfl
  · cases hnonce : toOctets NONCE_LEN (b.take NONCE_LEN) with
    | none =>
      rw [hnonce] at h
      cases h
      exact .inl rfl
    | some nonce =>
      rw [hnonce] at h
      dsimp only at h
      split at h
      · cases h
        exact .inr rfl
      · cases h

theorem BlockFrame.openAll_error {secret : SecretKey} {id : DataKeyId} {index : Nat}
    {blocks : List Bytes} {err : FrameError} {location : Path}
    (h : f.openAll P secret id index blocks = .error err) :
    StoreError.Unsound (.frame location err) := by
  induction blocks generalizing index with
  | nil => cases h
  | cons b blocks ih =>
    unfold BlockFrame.openAll at h
    cases hopen : f.openBlock P secret id index b with
    | error e =>
      rw [hopen] at h
      cases h
      rcases BlockFrame.openBlock_error hopen with rfl | rfl
      · trivial
      · trivial
    | ok m =>
      rw [hopen] at h
      cases hall : f.openAll P secret id (index + 1) blocks with
      | error e =>
        rw [hall] at h
        cases h
        exact ih hall
      | ok ms =>
        rw [hall] at h
        cases h

/-- A second request that fails, fails so. -/
theorem readRange_unsound {s : MapStore} {location : Path} {object : Object} {w : Range}
    {len : Nat} {err : StoreError} {secret : SecretKey}
    (hobject : s.objects[location]? = some object) (hw : w.start < w.stop) (hstop : w.stop ≤ len)
    (hmax : f.sealedLen len ≤ MAX_BYTES) (hheader : object.data.take HEADER_LEN = f.header)
    (hknown : f.keys[f.current]? = some secret)
    (h : readRange P f (s.getRanges location) location w len = .error err) : err.Unsound := by
  have hcontains : f.keys.contains f.current := by
    rw [Std.ExtTreeMap.contains_eq_isSome_getElem?, hknown]
    rfl
  rw [readRange_sealed hobject hw hstop hmax hheader hcontains] at h
  split_ifs at h
  · cases h
    trivial
  · unfold BlockFrame.openSpan at h
    rw [BlockFrame.cipher_ok.2 hknown] at h
    simp only [bind, Except.bind] at h
    split_ifs at h with hguard
    · cases h
      trivial
    · rw [BlockFrame.openBlocks_eq] at h
      generalize hall : BlockFrame.openAll P f secret f.current _ _ = opened at h
      cases opened with
      | error e =>
        cases h
        exact BlockFrame.openAll_error hall
      | ok ms =>
        simp only [Except.map] at h
        split_ifs at h
        · cases h
          trivial
        · cases h

theorem checkPreconditions_error {options : GetOptions} {info : ObjectMeta} {err : StoreError}
    (h : MapStore.checkPreconditions options info = .error err) :
    err = .precondition info.location ∨ err = .notModified info.location := by
  unfold MapStore.checkPreconditions at h
  simp only [bind, Except.bind, pure, Except.pure] at h
  grind

theorem checkPreconditions_sound {options : GetOptions} {info : ObjectMeta} {err : StoreError}
    (h : MapStore.checkPreconditions options info = .error err) : ¬ err.Unsound := by
  rcases checkPreconditions_error h with rfl | rfl
  · exact not_false
  · exact not_false

/-! ## The read as two accesses -/

/-- `getOpts` with its two requests apart: `first` is the inner store when the metadata is asked
for, and `second` when the ranges are. -/
def EncryptingObjectStore.getOptsBetween (P : Platform) (f : BlockFrame) (first second : MapStore)
    (location : Path) (options : GetOptions) : Except StoreError GetResult := do
  let head ← first.getOpts location { options with range := none, head := true }
  let info ← asPlaintext f head.info
  if options.head then pure ⟨[], ⟨0, 0⟩, head.attributes, info⟩
  else
    let wanted := wantedRange options.range info.size
    if wanted.stop ≤ wanted.start then pure ⟨[], wanted, head.attributes, info⟩
    else
      let plaintext ← readRange P f (second.getRanges location) location wanted info.size
      pure ⟨plaintext, wanted, head.attributes, info⟩

/-- Where nothing comes between, it is the read of the store. -/
theorem EncryptingObjectStore.getOpts_between (e : EncryptingObjectStore) (location : Path)
    (options : GetOptions) :
    e.getOpts P location options = getOptsBetween P e.frame e.inner e.inner location options := rfl

theorem EncryptingObjectStore.getOptsBetween_eq {first second : MapStore} {location : Path}
    {object : Object} {options : GetOptions} {len : Nat}
    (hobject : first.objects[location]? = some object)
    (hlen : f.plaintextLen object.data.length = .ok len) :
    getOptsBetween P f first second location options =
      (MapStore.checkPreconditions options (MapStore.metaOf location object)).bind fun _ =>
        let info := { MapStore.metaOf location object with size := len }
        let wanted := wantedRange options.range len
        if options.head then .ok ⟨[], ⟨0, 0⟩, object.attributes, info⟩
        else if wanted.stop ≤ wanted.start then .ok ⟨[], wanted, object.attributes, info⟩
        else (readRange P f (second.getRanges location) location wanted len).map fun bytes =>
          ⟨bytes, wanted, object.attributes, info⟩ := by
  unfold getOptsBetween
  rw [MapStore.getOpts_head hobject]
  cases MapStore.checkPreconditions options (MapStore.metaOf location object) with
  | error err => rfl
  | ok u =>
    simp only [Except.map, bind, Except.bind]
    rw [asPlaintext_eq (show f.plaintextLen (MapStore.metaOf location object).size = .ok len
      from hlen)]
    dsimp only
    split_ifs
    · rfl
    · rfl
    · cases readRange P f (second.getRanges location) location (wantedRange options.range len)
        len <;> rfl

/-! ## Puts -/

/-- Encryptions that were made stay made. -/
def Grows (t t' : Trace) : Prop := t.sealings ⊆ t'.sealings

instance : Std.Refl Grows := ⟨fun _ => List.Subset.refl _⟩

instance : IsTrans Trace Grows := ⟨fun _ _ _ h h' => List.Subset.trans h h'⟩

theorem draw_grows {ε : Type} (len : Nat) (e : ε) : Keeps Grows (draw P len e) := by
  intro t
  change Grows t (final (draw P len e t))
  unfold draw
  cases P.fill t.draws len <;> exact List.Subset.refl _

theorem encryptWith_grows {ε : Type} (k : SecretKey) (n : Nonce) (aad msg : Bytes) (e : ε) :
    Keeps Grows (encryptWith P k n aad msg e) := by
  intro t
  change Grows t (final (encryptWith P k n aad msg e t))
  unfold encryptWith
  cases P.encrypt k n aad msg with
  | none => exact List.Subset.refl _
  | some ct => exact List.subset_append_left _ _

theorem BlockFrame.sealChunks_grows (key : SecretKey) (last index : Nat) (pieces : List Bytes) :
    Keeps Grows (f.sealChunks P key last index pieces) := by
  induction pieces generalizing index with
  | nil => exact Keeps.pure _
  | cons chunk rest ih =>
    refine Keeps.bind (draw_grows _ _) fun nonce => ?_
    refine Keeps.bind (encryptWith_grows _ _ _ _ _) fun ct => ?_
    exact Keeps.bind (ih _) fun out => Keeps.pure _

theorem BlockFrame.seal_grows (plaintext : Bytes) : Keeps Grows (f.seal P plaintext) :=
  Keeps.bind (Keeps.ofExcept _) fun key =>
    Keeps.bind (sealChunks_grows key _ _ _) fun _ => Keeps.pure _

/-- The frame while another of its keys was the current one. -/
def BlockFrame.under (f : BlockFrame) (id : DataKeyId) : BlockFrame := { f with current := id }

/-- The object at `location` is a sealing of `p`, under a key of the frame's set. -/
def Stored (P : Platform) (e : EncryptingObjectStore) (t : Trace) (location : Path) (p : Bytes) :
    Prop :=
  ∃ object id key ss, e.inner.objects[location]? = some object ∧
    (e.frame.under id).SealedAs P p key ss ∧ object.data = (e.frame.under id).object ss ∧
    ss ⊆ t.sealings

/-- Puts at `location`, one after the other, and the versions that they stored. -/
inductive Puts (P : Platform) (location : Path) :
    EncryptingObjectStore → Trace → List Bytes → EncryptingObjectStore → Trace → Prop
  | nil {e t} : Puts P location e t [] e t
  | stored {e t now p options result e' t' versions e'' t''}
      (hput : e.putOpts P now location p options t = (.ok (result, e'), t'))
      (hrest : Puts P location e' t' versions e'' t'') :
      Puts P location e t (p :: versions) e'' t''
  | failed {e t now p options err t' versions e'' t''}
      (hput : e.putOpts P now location p options t = (.error err, t'))
      (hrest : Puts P location e t' versions e'' t'') :
      Puts P location e t versions e'' t''

theorem EncryptingObjectStore.putOpts_grows {e : EncryptingObjectStore} {now : Nat}
    {location : Path} {p : Bytes} {options : PutOptions} {t t' : Trace}
    {x : Except StoreError (PutResult × EncryptingObjectStore)}
    (h : e.putOpts P now location p options t = (x, t')) : Grows t t' := by
  have hgrows := e.frame.seal_grows (P := P) p t
  unfold EncryptingObjectStore.putOpts at h
  cases hseal : (e.frame.seal P p).run t with
  | error err t'' =>
    rw [hseal] at h hgrows
    cases h
    exact hgrows
  | ok c t'' =>
    rw [hseal] at h hgrows
    cases h
    exact hgrows

/-- What a put that succeeds does. -/
theorem EncryptingObjectStore.putOpts_ok {e e' : EncryptingObjectStore} {now : Nat}
    {location : Path} {p : Bytes} {options : PutOptions} {t t' : Trace} {result : PutResult}
    (h : e.putOpts P now location p options t = (.ok (result, e'), t')) :
    e'.frame = e.frame ∧ Stored P e' t' location p := by
  unfold EncryptingObjectStore.putOpts at h
  cases hseal : (e.frame.seal P p).run t with
  | error err t'' =>
    rw [hseal] at h
    cases h
  | ok c t'' =>
    rw [hseal] at h
    obtain ⟨hput, rfl⟩ := Prod.mk.inj h
    unfold MapStore.putOpts at hput
    cases hallowed : e.inner.putAllowed location options.mode with
    | error err =>
      rw [hallowed] at hput
      cases hput
    | ok u =>
      rw [hallowed] at hput
      cases hput
      obtain ⟨key, ss, htrace, hobject, hs⟩ := BlockFrame.seal_ok hseal
      refine ⟨rfl, _, e.frame.current, key, ss, Std.ExtTreeMap.getElem?_insert_self, hs, hobject,
        ?_⟩
      rw [htrace]
      exact List.subset_append_right _ _

theorem Stored.mono {e : EncryptingObjectStore} {t t' : Trace} {location : Path} {p : Bytes}
    (h : Stored P e t location p) (hgrows : Grows t t') : Stored P e t' location p := by
  obtain ⟨object, id, key, ss, hobject, hs, hdata, hmade⟩ := h
  exact ⟨object, id, key, ss, hobject, hs, hdata, List.Subset.trans hmade hgrows⟩

section Puts

variable {e e' : EncryptingObjectStore} {t t' : Trace} {location : Path} {versions : List Bytes}

theorem Puts.frame_eq (h : Puts P location e t versions e' t') : e'.frame = e.frame := by
  induction h with
  | nil => rfl
  | stored hput hrest ih => rw [ih, (EncryptingObjectStore.putOpts_ok hput).1]
  | failed hput hrest ih => exact ih

theorem Puts.grows (h : Puts P location e t versions e' t') : Grows t t' := by
  induction h with
  | nil => exact List.Subset.refl _
  | stored hput hrest ih => exact List.Subset.trans (EncryptingObjectStore.putOpts_grows hput) ih
  | failed hput hrest ih => exact List.Subset.trans (EncryptingObjectStore.putOpts_grows hput) ih

/-- What is stored after puts is the last version of them. -/
theorem Puts.stored_last (h : Puts P location e t versions e' t') {p : Bytes}
    (hstored : Stored P e t location p) : Stored P e' t' location (versions.getLastD p) := by
  induction h generalizing p with
  | nil => exact hstored
  | stored hput hrest ih =>
    rw [List.getLastD_cons]
    exact ih (EncryptingObjectStore.putOpts_ok hput).2
  | failed hput hrest ih =>
    exact ih (hstored.mono (EncryptingObjectStore.putOpts_grows hput))

end Puts

/-! ## What a version's object answers -/

theorem BlockFrame.openBlocks_under (f : BlockFrame) (id : DataKeyId) (secret : SecretKey)
    (key : DataKeyId) (w : Range) (index offset : Nat) (plaintext : Bytes) (blocks : List Bytes) :
    (f.under id).openBlocks P secret key w index offset plaintext blocks =
      f.openBlocks P secret key w index offset plaintext blocks := by
  induction blocks generalizing index offset plaintext with
  | nil => rfl
  | cons b blocks ih =>
    unfold BlockFrame.openBlocks
    simp only [ih]
    rfl

/-- The key that a frame seals with makes no difference to what it opens. -/
theorem readRange_under (f : BlockFrame) (id : DataKeyId)
    (ranges : List Range → Except StoreError (List Bytes)) (location : Path) (w : Range)
    (len : Nat) :
    readRange P (f.under id) ranges location w len = readRange P f ranges location w len := by
  unfold readRange BlockFrame.openSpan
  simp only [BlockFrame.openBlocks_under]
  rfl

section Stored

variable {e : EncryptingObjectStore} {t : Trace} {location : Path} {p : Bytes}
  (hstored : Stored P e t location p)

include hstored

theorem Stored.size (hideal : P.Ideal t.sealings) :
    ∃ object, e.inner.objects[location]? = some object ∧
      e.frame.plaintextLen object.data.length = .ok p.length := by
  obtain ⟨object, id, key, ss, hobject, hs, hdata, hmade⟩ := hstored
  refine ⟨object, hobject, BlockFrame.plaintextLen_ok.2 ?_⟩
  rw [hdata]
  exact hs.object_length (hideal.opening_of_subset hmade)

variable {w : Range} {len : Nat} (hw : w.start < w.stop) (hstop : w.stop ≤ len)
  (hmax : e.frame.sealedLen len ≤ MAX_BYTES)

include hw hstop hmax

theorem Stored.readRange_iff (hp : e.frame.sealedLen p.length ≤ MAX_BYTES)
    (hideal : P.Ideal t.sealings) (honce : t.NoncesOnce) {q : Bytes} :
    readRange P e.frame (e.inner.getRanges location) location w len = .ok q ↔
      e.frame.Covers w len p.length ∧ q = slice w.start w.stop p := by
  obtain ⟨object, id, key, ss, hobject, hs, hdata, hmade⟩ := hstored
  rw [← readRange_under e.frame id]
  exact hs.readRange_replaced hobject hdata hw hstop hmax hp hideal honce hmade

theorem Stored.readRange_unsound {err : StoreError}
    (h : readRange P e.frame (e.inner.getRanges location) location w len = .error err) :
    err.Unsound := by
  obtain ⟨object, id, key, ss, hobject, hs, hdata, hmade⟩ := hstored
  rw [← readRange_under e.frame id] at h
  have hheader : object.data.take HEADER_LEN = (e.frame.under id).header := by
    rw [hdata]
    exact BlockFrame.object_header _ ss
  exact Crypto.readRange_unsound (f := e.frame.under id) hobject hw hstop hmax hheader hs.known h

end Stored

/-! ## One version -/

/-- An answer that is one version's, in length and bytes, or a refusal that blames no bytes. -/
def SeesOneVersion (versions : List Bytes) (options : GetOptions) :
    Except StoreError GetResult → Prop
  | .ok r => ∃ p ∈ versions, r.info.size = p.length ∧
      r.payload = if options.head then [] else denoted options.range p
  | .error err => ¬ err.Unsound

theorem getLastD_mem_cons {α : Type} (l : List α) (a : α) : l.getLastD a ∈ a :: l := by
  rw [List.getLastD_eq_getLast?]
  cases h : l.getLast? with
  | none => exact List.mem_cons_self
  | some b => exact List.mem_cons_of_mem _ (List.mem_of_getLast? h)

/-- A read whose requests find two versions. -/
theorem Stored.sees_iff {e e' : EncryptingObjectStore} {t : Trace} {location : Path}
    {first second : Bytes} {versions : List Bytes} {options : GetOptions}
    (hfirst : Stored P e t location first) (hsecond : Stored P e' t location second)
    (hframe : e'.frame = e.frame) (hideal : P.Ideal t.sealings) (honce : t.NoncesOnce)
    (hmem : first ∈ versions) (hmax : e.frame.sealedLen first.length ≤ MAX_BYTES)
    (hmax' : e.frame.sealedLen second.length ≤ MAX_BYTES) :
    let w := wantedRange options.range first.length
    SeesOneVersion versions options
        (getOptsBetween P e.frame e.inner e'.inner location options) ↔
      ∀ object, e.inner.objects[location]? = some object →
        MapStore.checkPreconditions options (MapStore.metaOf location object) = .ok () →
        options.head = false → w.start < w.stop →
        e.frame.Covers w first.length second.length ∧
          ∃ v ∈ versions, v.length = first.length ∧
            slice w.start w.stop v = slice w.start w.stop second := by
  dsimp only
  have hstop := wantedRange_stop_le options.range first.length
  obtain ⟨object, hobject, hlen⟩ := hfirst.size hideal
  rw [getOptsBetween_eq hobject hlen]
  simp only [hobject, Option.some.injEq, forall_eq']
  cases hallowed : MapStore.checkPreconditions options (MapStore.metaOf location object) with
  | error err =>
    have hsound := checkPreconditions_sound hallowed
    simp [Except.bind, SeesOneVersion, hsound]
  | ok u =>
    simp only [Except.bind]
    split_ifs with hhead hempty
    · -- metadata alone
      simp only [hhead]
      refine iff_of_true ⟨first, hmem, rfl, ?_⟩ fun _ hread => ?_
      · rw [if_pos hhead]
      · cases hread
    · -- an empty range
      refine iff_of_true ⟨first, hmem, rfl, ?_⟩ (by omega)
      rw [if_neg hhead]
      exact (slice_of_le hempty _).symm
    · have hread : options.head = false := by simpa using hhead
      have hw : (wantedRange options.range first.length).start <
        (wantedRange options.range first.length).stop := by omega
      rw [← hframe] at hmax hmax' ⊢
      have hiff := fun q => hsecond.readRange_iff hw hstop hmax hmax' hideal honce (q := q)
      cases hq : readRange P e'.frame (e'.inner.getRanges location) location
          (wantedRange options.range first.length) first.length with
      | error err =>
        have hunsound := hsecond.readRange_unsound hw hstop hmax hq
        constructor
        · intro hsees
          exact absurd hunsound hsees
        · intro hcond
          have hcovers := (hcond trivial hread hw).1
          rw [(hiff _).2 ⟨hcovers, rfl⟩] at hq
          cases hq
      | ok q =>
        obtain ⟨hcovers, rfl⟩ := (hiff q).1 hq
        simp only [Except.map, SeesOneVersion, hread]
        constructor
        · rintro ⟨v, hv, hlength, hbytes⟩ - - -
          refine ⟨hcovers, v, hv, hlength.symm, ?_⟩
          rw [if_neg (by simp), denoted, ← hlength] at hbytes
          exact hbytes.symm
        · intro hcond
          obtain ⟨-, v, hv, hlength, hbytes⟩ := hcond trivial trivial hw
          refine ⟨v, hv, hlength.symm, ?_⟩
          rw [if_neg (by simp), denoted, hlength]
          exact hbytes.symm

/-- **When a read sees one version**, of those that are stored while it runs: `early` before its
first request, `amid` between the two, and `late` after them.  Either it reads no bytes, or what
the second request finds has the blocks that were asked for, with the bytes of a version as long
as the one that the first request found. -/
theorem one_version_iff {e₀ e₁ e₂ e₃ : EncryptingObjectStore} {t₀ t₁ t₂ t₃ : Trace}
    {location : Path} {p : Bytes} {early amid late : List Bytes} {options : GetOptions}
    (hstored : Stored P e₀ t₀ location p) (hearly : Puts P location e₀ t₀ early e₁ t₁)
    (hamid : Puts P location e₁ t₁ amid e₂ t₂) (hlate : Puts P location e₂ t₂ late e₃ t₃)
    (hideal : P.Ideal t₃.sealings) (honce : t₃.NoncesOnce)
    (hfits : ∀ v ∈ p :: (early ++ amid ++ late), e₀.frame.sealedLen v.length ≤ MAX_BYTES) :
    let versions := p :: (early ++ amid ++ late)
    let first := early.getLastD p
    let second := amid.getLastD first
    let w := wantedRange options.range first.length
    SeesOneVersion versions options
        (getOptsBetween P e₀.frame e₁.inner e₂.inner location options) ↔
      ∀ object, e₁.inner.objects[location]? = some object →
        MapStore.checkPreconditions options (MapStore.metaOf location object) = .ok () →
        options.head = false → w.start < w.stop →
        e₀.frame.Covers w first.length second.length ∧
          ∃ v ∈ versions, v.length = first.length ∧
            slice w.start w.stop v = slice w.start w.stop second := by
  dsimp only
  have hframe := hearly.frame_eq
  have hfirst := (hearly.stored_last hstored).mono (List.Subset.trans hamid.grows hlate.grows)
  have hsecond := (hamid.stored_last (hearly.stored_last hstored)).mono hlate.grows
  have hmem : early.getLastD p ∈ p :: (early ++ amid ++ late) := by
    rw [List.append_assoc]
    exact List.mem_append_left _ (getLastD_mem_cons early p)
  have hmem' : amid.getLastD (early.getLastD p) ∈ p :: (early ++ amid ++ late) := by
    rcases List.mem_cons.1 (getLastD_mem_cons amid (early.getLastD p)) with hsame | hin
    · rw [hsame]
      exact hmem
    · exact List.mem_cons_of_mem _
        (List.mem_append_left _ (List.mem_append_right _ hin))
  have hmax := hfits _ hmem
  have hmax' := hfits _ hmem'
  rw [← hframe] at hmax hmax' ⊢
  exact hfirst.sees_iff hsecond hamid.frame_eq hideal honce hmem hmax hmax'

/-! ## One object, replaced -/

/-- The encryption that seals `msg` in a second put. -/
def sealedNext (msg : Bytes) : Sealing :=
  ⟨padTo KEY_LEN [], padTo NONCE_LEN (List.replicate NONCE_LEN 1),
    BlockFrame.associatedData 0 0 true, msg, msg ++ List.replicate TAG_LEN 0⟩

/-- The platform of both puts. -/
def bothPuts (msg : Bytes) : Platform := Platform.tabled [sealedSeven, sealedNext msg]

/-- What has been sealed after the first put. -/
def afterSeven : Trace := ⟨1, [sealedSeven]⟩

/-- What has been sealed after the second put. -/
def afterNext (msg : Bytes) : Trace := ⟨2, [sealedSeven, sealedNext msg]⟩

/-- The store of the byte 7, with `msg` put in its place. -/
def nextStore (msg : Bytes) : EncryptingObjectStore :=
  ⟨⟨(cutStore 42).inner.objects.insert ["object"]
    ⟨oneKeyFrame.header ++ (sealedNext msg).block, 0, toString 1, []⟩, 2⟩, oneKeyFrame⟩

theorem seven_stored (msg : Bytes) :
    Stored (bothPuts msg) (cutStore 42) afterSeven ["object"] [7] := by
  obtain ⟨key, ss, htrace, hobject, hs⟩ := BlockFrame.seal_ok
    (show (oneKeyFrame.seal (bothPuts msg) [7]).run Trace.empty =
      .ok (oneKeyFrame.header ++ sealedSeven.block) afterSeven from rfl)
  refine ⟨_, 0, key, ss, cutStore_object 42, hs, hobject, ?_⟩
  rw [htrace]
  exact List.subset_append_right _ _

theorem bothPuts_ideal (msg : Bytes) : (bothPuts msg).Ideal (afterNext msg).sealings :=
  Platform.tabled_ideal (by simp [sealedSeven, sealedNext])

theorem afterNext_noncesOnce (msg : Bytes) : (afterNext msg).NoncesOnce := by
  have hdiffer : sealedSeven.nonce ≠ (sealedNext msg).nonce :=
    (by decide : sealedSeven.nonce ≠ (sealedNext []).nonce)
  intro s hs s' hs' _ hnonce
  simp only [afterNext, List.mem_cons, List.not_mem_nil, or_false] at hs hs'
  rcases hs with rfl | rfl <;> rcases hs' with rfl | rfl
  · rfl
  · exact absurd hnonce hdiffer
  · exact absurd hnonce.symm hdiffer
  · rfl

theorem put_eight : (cutStore 42).putOpts (bothPuts [8]) 0 ["object"] [8] ⟨.overwrite, []⟩
    afterSeven = (.ok (⟨some (toString 1)⟩, nextStore [8]), afterNext [8]) := by
  rfl

theorem put_longer : (cutStore 42).putOpts (bothPuts [8, 9]) 0 ["object"] [8, 9] ⟨.overwrite, []⟩
    afterSeven = (.ok (⟨some (toString 1)⟩, nextStore [8, 9]), afterNext [8, 9]) := by
  rfl

theorem getOptsBetween_longer : getOptsBetween (bothPuts [8, 9]) oneKeyFrame (cutStore 42).inner
    (nextStore [8, 9]).inner ["object"] GetOptions.default =
      .error (.frame ["object"] (.authentication 0)) := by
  have hlen : oneKeyFrame.plaintextLen 42 = .ok 1 := rfl
  have hobject : (nextStore [8, 9]).inner.objects[["object"]]? =
      some ⟨oneKeyFrame.header ++ (sealedNext [8, 9]).block, 0, toString 1, []⟩ :=
    Std.ExtTreeMap.getElem?_insert_self
  have hread : readRange (bothPuts [8, 9]) oneKeyFrame
      ((nextStore [8, 9]).inner.getRanges ["object"]) ["object"]
      (wantedRange GetOptions.default.range 1) 1 =
        .error (.frame ["object"] (.authentication 0)) := by
    rw [readRange_sealed hobject (by decide) (by decide) (by decide) rfl rfl]
    rfl
  rw [getOptsBetween_eq (cutStore_object 42) hlen]
  dsimp only
  rw [hread]
  rfl

/-- A read of the byte 7 that is replaced by 8 between the requests sees the 8. -/
theorem replaced_by_as_long : SeesOneVersion [[7], [8]] GetOptions.default
    (getOptsBetween (bothPuts [8]) oneKeyFrame (cutStore 42).inner (nextStore [8]).inner
      ["object"] GetOptions.default) := by
  apply Iff.mpr (one_version_iff (seven_stored [8]) .nil (.stored put_eight .nil) .nil
    (bothPuts_ideal [8]) (afterNext_noncesOnce [8]) (by decide))
  intro object _ _ _ _
  exact ⟨by decide, [8], by decide, rfl, rfl⟩

/-- A read of the byte 7 that is replaced by two bytes between the requests fails to
authenticate. -/
theorem replaced_by_longer :
    Stored (bothPuts [8, 9]) (cutStore 42) afterSeven ["object"] [7] ∧
      Puts (bothPuts [8, 9]) ["object"] (cutStore 42) afterSeven [[8, 9]] (nextStore [8, 9])
        (afterNext [8, 9]) ∧
      (bothPuts [8, 9]).Ideal (afterNext [8, 9]).sealings ∧ (afterNext [8, 9]).NoncesOnce ∧
      (∀ v ∈ ([[7], [8, 9]] : List Bytes), oneKeyFrame.sealedLen v.length ≤ MAX_BYTES) ∧
      getOptsBetween (bothPuts [8, 9]) oneKeyFrame (cutStore 42).inner (nextStore [8, 9]).inner
        ["object"] GetOptions.default = .error (.frame ["object"] (.authentication 0)) ∧
      ¬ SeesOneVersion [[7], [8, 9]] GetOptions.default
        (getOptsBetween (bothPuts [8, 9]) oneKeyFrame (cutStore 42).inner
          (nextStore [8, 9]).inner ["object"] GetOptions.default) := by
  refine ⟨seven_stored _, .stored put_longer .nil, bothPuts_ideal _, afterNext_noncesOnce _,
    by decide, getOptsBetween_longer, ?_⟩
  rw [getOptsBetween_longer]
  exact not_not_intro trivial

end EuleDB.Crypto
