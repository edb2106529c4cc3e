import EuleDB.Crypto.Window
import EuleDB.Crypto.Store

/-!
# A read through the encrypting store

* `EncryptingObjectStore.getOpts_eq` — a read that is let through, on an object whose size is a
  sealed one.
* `readRange_of_length`, `readRange_eq` — its second request brings the header and the span.
* `BlockFrame.SealedAs.readRange` — an object with the header and the window of a sealed one is
  read as that one.
* `BlockFrame.SealedAs.readRange_ideal` — under the ideal cipher nothing else is.
-/

set_option autoImplicit false

namespace EuleDB.Crypto

open Slice FrameFormat EncryptingObjectStore

variable {P : Platform} {f : BlockFrame}

theorem cryptoError_ok {α : Type} {location : Path} {x : Except FrameError α} {a : α} :
    cryptoError location x = .ok a ↔ x = .ok a := by
  cases x <;> simp [cryptoError, Except.mapError]

/-! ## Ranges -/

theorem EncryptingObjectStore.wantedRange_stop_le (requested : Option GetRange) (len : Nat) :
    (wantedRange requested len).stop ≤ len := by
  unfold wantedRange
  split <;> simp only [Nat.le_refl]
  exact Nat.min_le_right _ _

theorem MapStore.entry_eq {s : MapStore} {location : Path} {object : Object}
    (hobject : s.objects[location]? = some object) : s.entry location = .ok object := by
  unfold MapStore.entry
  rw [hobject]

theorem getRange_eq (object : Object) {range : Range} (h : range.start < range.stop) :
    MapStore.getRange object range =
      if object.data.length ≤ range.start then
        .error (.range (.startTooLarge range.start object.data.length))
      else .ok (slice range.start range.stop object.data) := by
  unfold MapStore.getRange MapStore.asRange
  dsimp only
  rw [if_neg (by omega)]
  split_ifs
  · rfl
  · simp only [Except.mapError, bind, Except.bind, pure, Except.pure, slice_min_length]

/-! ## Both requests -/

/-- The second request brings the header and the span, where there is something of it. -/
theorem readRange_of_length {s : MapStore} {location : Path} {object : Object} {w : Range}
    {len : Nat} (hobject : s.objects[location]? = some object) (hw : w.start < w.stop)
    (hstop : w.stop ≤ len) (hmax : f.sealedLen len ≤ MAX_BYTES)
    (hlength : HEADER_LEN ≤ object.data.length) :
    readRange P f (s.getRanges location) location w len =
      if object.data.length ≤ (f.ciphertextSpan w len).start then
        .error (.range (.startTooLarge (f.ciphertextSpan w len).start object.data.length))
      else (do
        let framing ← cryptoError location (f.readHeader (object.data.take HEADER_LEN))
        cryptoError location (f.openSpan P
          (slice (f.ciphertextSpan w len).start (f.ciphertextSpan w len).stop object.data)
          (f.ciphertextSpan w len) w framing)) := by
  have hthirteen : HEADER_LEN = 13 := rfl
  have hfirst : MapStore.getRange object ⟨0, HEADER_LEN⟩ =
      .ok (object.data.take HEADER_LEN) := by
    rw [getRange_eq object (by dsimp only; omega), if_neg (by dsimp only; omega)]
    rfl
  unfold readRange MapStore.getRanges
  dsimp only
  rw [MapStore.entry_eq hobject]
  simp only [bind, Except.bind, List.mapM_cons, List.mapM_nil, pure, Except.pure, hfirst,
    getRange_eq object (f.ciphertextSpan_lt hw hstop (f.fits hmax))]
  split_ifs <;> rfl

/-- On an object of the size it was made for, it never fails. -/
theorem readRange_eq {s : MapStore} {location : Path} {object : Object} {w : Range} {len : Nat}
    (hobject : s.objects[location]? = some object) (hw : w.start < w.stop) (hstop : w.stop ≤ len)
    (hsize : object.data.length = f.sealedLen len) (hmax : object.data.length ≤ MAX_BYTES) :
    readRange P f (s.getRanges location) location w len = (do
      let framing ← cryptoError location (f.readHeader (object.data.take HEADER_LEN))
      cryptoError location (f.openSpan P
        (slice (f.ciphertextSpan w len).start (f.ciphertextSpan w len).stop object.data)
        (f.ciphertextSpan w len) w framing)) := by
  have hmax' : f.sealedLen len ≤ MAX_BYTES := hsize ▸ hmax
  have hlt := f.ciphertextSpan_lt hw hstop (f.fits hmax')
  have hinside : (f.ciphertextSpan w len).stop ≤ f.sealedLen len := by
    rw [f.ciphertextSpan_eq hw hstop (f.fits hmax')]
    exact Nat.min_le_right _ _
  have hsealed : f.sealedLen len = HEADER_LEN + len / f.blockSize.get * f.sealedBlockLen +
    (len % f.blockSize.get + BLOCK_OVERHEAD) := rfl
  rw [readRange_of_length hobject hw hstop hmax' (by omega), if_neg (by omega)]

/-- The metadata request. -/
theorem MapStore.getOpts_head {s : MapStore} {location : Path} {object : Object}
    {options : GetOptions} (hobject : s.objects[location]? = some object) :
    s.getOpts location { options with range := none, head := true } =
      (MapStore.checkPreconditions options (MapStore.metaOf location object)).map fun _ =>
        ⟨slice 0 object.data.length object.data, ⟨0, object.data.length⟩, object.attributes,
          MapStore.metaOf location object⟩ := by
  have hcheck : MapStore.checkPreconditions { options with range := none, head := true }
      (MapStore.metaOf location object) =
      MapStore.checkPreconditions options (MapStore.metaOf location object) := rfl
  unfold MapStore.getOpts
  rw [MapStore.entry_eq hobject]
  simp only [bind, Except.bind, hcheck]
  cases MapStore.checkPreconditions options (MapStore.metaOf location object) <;> rfl

theorem asPlaintext_eq {info : ObjectMeta} {len : Nat} (h : f.plaintextLen info.size = .ok len) :
    asPlaintext f info = .ok { info with size := len } := by
  unfold asPlaintext
  rw [h]; rfl

/-- A read that the store lets through. -/
theorem EncryptingObjectStore.getOpts_eq {e : EncryptingObjectStore} {location : Path}
    {object : Object} {options : GetOptions} {len : Nat} (hread : options.head = false)
    (hobject : e.inner.objects[location]? = some object)
    (hallowed : MapStore.checkPreconditions options (MapStore.metaOf location object) = .ok ())
    (hlen : e.frame.plaintextLen object.data.length = .ok len) :
    e.getOpts P location options =
      (let wanted := wantedRange options.range len
       let info := { MapStore.metaOf location object with size := len }
       if wanted.stop ≤ wanted.start then .ok ⟨[], wanted, object.attributes, info⟩
       else (readRange P e.frame (e.inner.getRanges location) location wanted len).map fun bytes =>
         ⟨bytes, wanted, object.attributes, info⟩) := by
  unfold EncryptingObjectStore.getOpts
  rw [MapStore.getOpts_head hobject, hallowed]
  simp only [Except.map, bind, Except.bind]
  rw [asPlaintext_eq (show e.frame.plaintextLen (MapStore.metaOf location object).size = .ok len
    from hlen)]
  simp only [hread, Bool.false_eq_true, if_false]
  split_ifs
  · rfl
  · cases readRange P e.frame (e.inner.getRanges location) location
      (wantedRange options.range len) len <;> rfl

/-- What a read that succeeds has passed. -/
theorem EncryptingObjectStore.getOpts_allowed {e : EncryptingObjectStore} {location : Path}
    {object : Object} {options : GetOptions} {r : GetResult}
    (hobject : e.inner.objects[location]? = some object)
    (h : e.getOpts P location options = .ok r) :
    MapStore.checkPreconditions options (MapStore.metaOf location object) = .ok () ∧
      ∃ len, e.frame.plaintextLen object.data.length = .ok len := by
  unfold EncryptingObjectStore.getOpts at h
  rw [MapStore.getOpts_head hobject] at h
  cases hcheck : MapStore.checkPreconditions options (MapStore.metaOf location object) with
  | error err => rw [hcheck] at h; cases h
  | ok u =>
    refine ⟨rfl, ?_⟩
    cases hlen : e.frame.plaintextLen object.data.length with
    | error err =>
      have : asPlaintext e.frame (MapStore.metaOf location object) =
          .error (.frame location err) := by
        unfold asPlaintext
        rw [show (MapStore.metaOf location object).size = object.data.length from rfl, hlen]
        rfl
      rw [hcheck] at h
      simp only [Except.map, bind, Except.bind, this] at h
      cases h
    | ok len => exact ⟨len, rfl⟩

/-! ## Reading what was sealed -/

section Sealed

variable {p : Bytes} {key : SecretKey} {ss : List Sealing}

theorem BlockFrame.SealedAs.contains (hs : f.SealedAs P p key ss) :
    f.keys.contains f.current := by
  rw [Std.ExtTreeMap.contains_eq_isSome_getElem?, hs.known]; rfl

/-- **An object with the header and the window of a sealed one reads as that one.** -/
theorem BlockFrame.SealedAs.readRange (hs : f.SealedAs P p key ss) (ho : Opening P ss)
    {s : MapStore} {location : Path} {object : Object} {w : Range} {len : Nat}
    (hobject : s.objects[location]? = some object) (hw : w.start < w.stop) (hstop : w.stop ≤ len)
    (hsize : object.data.length = f.sealedLen len) (hmax : object.data.length ≤ MAX_BYTES)
    (hheader : object.data.take HEADER_LEN = f.header)
    (hwin : f.window object.data w = f.window (f.object ss) w) :
    readRange P f (s.getRanges location) location w len = .ok (slice w.start w.stop p) := by
  have hframing := f.readHeader_header [] hs.contains
  rw [List.append_nil] at hframing
  rw [readRange_eq hobject hw hstop hsize hmax, hheader, hframing]
  simp only [cryptoError, Except.mapError, bind, Except.bind]
  rw [hs.openSpan ho rfl hw hstop hsize hmax hwin]

/-- **Under the ideal cipher only such an object is read.** -/
theorem BlockFrame.SealedAs.readRange_ideal (hs : f.SealedAs P p key ss) {old : List Sealing}
    (hP : P.Ideal (old ++ ss))
    (hold : ∀ s ∈ old, ∀ (id : DataKeyId) secret, f.keys[id]? = some secret → s.key ≠ secret)
    {s : MapStore} {location : Path} {object : Object} {q : Bytes} {w : Range} {len : Nat}
    (hobject : s.objects[location]? = some object) (hw : w.start < w.stop) (hstop : w.stop ≤ len)
    (hsize : object.data.length = f.sealedLen len) (hmax : object.data.length ≤ MAX_BYTES)
    (hp : p.length ≤ MAX_BYTES)
    (h : EncryptingObjectStore.readRange P f (s.getRanges location) location w len = .ok q) :
    object.data.take HEADER_LEN = f.header ∧
      f.window object.data w = f.window (f.object ss) w := by
  rw [readRange_eq hobject hw hstop hsize hmax] at h
  cases hread : f.readHeader (object.data.take HEADER_LEN) with
  | error err => rw [hread] at h; cases h
  | ok framing =>
    rw [hread] at h
    have hopen := cryptoError_ok.1 h
    obtain ⟨hkey, hwin⟩ := hs.openSpan_ideal hP hold hw hstop hsize hmax hp hopen
    obtain ⟨hheader, -⟩ := readHeader_ok hread
    rw [List.take_take, Nat.min_self, hkey] at hheader
    exact ⟨hheader, hwin⟩

end Sealed

end EuleDB.Crypto
