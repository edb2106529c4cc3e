import EuleDB.Crypto.Splice

/-!
# The encrypting store refines a plain store

The abstract store is the plain map itself: every object under its plaintext.

* `BlockFrame.openObject` — a stored object as a reader of the encrypting store sees it.
* `Refines` — every object was sealed, and seen through `openObject` the inner store is the
  plain one.
* `step_refines`, `run_refines` — one operation, and a whole history.
* `refines_plain_map` — after every history the two stores give the same answers to reads,
  metadata requests and listings.
-/

set_option autoImplicit false

namespace EuleDB.Crypto

open Slice Effect FrameFormat EncryptingObjectStore

variable {P : Platform} {f : BlockFrame}

/-! ## Histories -/

/-- An operation that changes a store. -/
inductive StoreOp where
  | put (now : Nat) (location : Path) (payload : Bytes) (options : PutOptions)
  | copy (now : Nat) (src dst : Path) (mode : CopyMode)
  | delete (locations : List Path)

/-- A plain store after an operation; one that fails changes nothing. -/
def MapStore.step (s : MapStore) : StoreOp → MapStore
  | .put now location payload options =>
    match s.putOpts now location payload options with
    | .ok (_, s') => s'
    | .error _ => s
  | .copy now src dst mode =>
    match s.copyOpts now src dst mode with
    | .ok s' => s'
    | .error _ => s
  | .delete locations => s.deleteStream locations

/-- The encrypting store after an operation. -/
def EncryptingObjectStore.step (P : Platform) (e : EncryptingObjectStore) (t : Trace) :
    StoreOp → EncryptingObjectStore × Trace
  | .put now location payload options =>
    match e.putOpts P now location payload options t with
    | (.ok (_, e'), t') => (e', t')
    | (.error _, t') => (e, t')
  | .copy now src dst mode =>
    match e.copyOpts now src dst mode with
    | .ok e' => (e', t)
    | .error _ => (e, t)
  | .delete locations => (e.deleteStream locations, t)

/-- Whether an operation gets as far as the inner store: the random source and the cipher are
allowed to fail. -/
def StoreOp.reaches (P : Platform) (f : BlockFrame) (t : Trace) : StoreOp → Bool
  | .put _ _ payload _ =>
    match (f.seal P payload).run t with
    | .ok _ _ => true
    | .error _ _ => false
  | _ => true

/-- An operation whose sealed object a process can hold. -/
def StoreOp.Fits (f : BlockFrame) : StoreOp → Prop
  | .put _ _ payload _ => f.sealedLen payload.length ≤ MAX_BYTES
  | _ => True

/-- A history of the encrypting store, and beside it the plain store given the operations that
reach the inner one. -/
def runBoth (P : Platform) : EncryptingObjectStore → Trace → MapStore → List StoreOp →
    EncryptingObjectStore × MapStore
  | e, _, s, [] => (e, s)
  | e, t, s, op :: ops =>
    let (e', t') := e.step P t op
    runBoth P e' t' (if op.reaches P e.frame t then s.step op else s) ops

/-! ## The abstraction -/

/-- A stored object as a reader of the encrypting store sees it. -/
def BlockFrame.openObject (P : Platform) (f : BlockFrame) (object : Object) : Object :=
  { object with data := match f.openWhole P object.data with
    | .ok plaintext => plaintext
    | .error _ => [] }

/-- An object that this frame sealed, of a size a process can hold. -/
structure BlockFrame.SealedObject (P : Platform) (f : BlockFrame) (object : Object) : Prop where
  made : ∃ p key ss, f.SealedAs P p key ss ∧ object.data = f.object ss
  fits : object.data.length ≤ MAX_BYTES

structure Refines (P : Platform) (e : EncryptingObjectStore) (s : MapStore) : Prop where
  tags : s.nextETag = e.inner.nextETag
  objects : s.objects = e.inner.objects.map fun _ object => e.frame.openObject P object
  made : ∀ (location : Path) object, e.inner.objects[location]? = some object →
    e.frame.SealedObject P object

/-- A sealed object opens to its plaintext. -/
theorem BlockFrame.SealedAs.openWhole {p : Bytes} {key : SecretKey} {ss : List Sealing}
    (hs : f.SealedAs P p key ss) (ho : Opening P ss) : f.openWhole P (f.object ss) = .ok p := by
  have hdiv := Nat.div_add_mod p.length f.blockSize.get
  have hmod := Nat.mod_lt p.length f.blockSize.pos
  have hall := hs.openAll ho 0 ss.length
  have hflat := hs.flatten_msgs 0 ss.length
  rw [List.take_length, List.drop_zero] at hall hflat
  rw [← hs.sealedBlocks ho] at hall
  rw [Nat.mul_comm] at hdiv
  rw [hs.length, Nat.zero_mul, Nat.zero_add, Nat.add_mul, Nat.one_mul,
    slice_all (by omega)] at hflat
  refine BlockFrame.openWhole_ok.2 ⟨p.length, _, key, _, ?_, f.readHeader_header _ hs.contains,
    hs.known, hall, ?_, rfl⟩
  · exact BlockFrame.plaintextLen_ok.2 (hs.object_length ho)
  · rw [hflat, slice_all (Nat.le_refl _)]

theorem BlockFrame.SealedAs.openObject {p : Bytes} {key : SecretKey} {ss : List Sealing}
    (hs : f.SealedAs P p key ss) (ho : Opening P ss) {object : Object}
    (h : object.data = f.object ss) : f.openObject P object = { object with data := p } := by
  unfold BlockFrame.openObject
  rw [h, hs.openWhole ho]

theorem Refines.getElem? {e : EncryptingObjectStore} {s : MapStore} (h : Refines P e s)
    (location : Path) :
    s.objects[location]? = e.inner.objects[location]?.map (e.frame.openObject P) := by
  rw [h.objects, Std.ExtTreeMap.getElem?_map]

theorem Refines.empty (f : BlockFrame) : Refines P ⟨MapStore.empty, f⟩ MapStore.empty := by
  refine ⟨rfl, ?_, fun location object h => by simp [MapStore.empty] at h⟩
  simp [MapStore.empty]

/-- Storing a sealed object is storing its plaintext. -/
theorem Refines.insert {e : EncryptingObjectStore} {s : MapStore} (h : Refines P e s)
    (location : Path) {object : Object} (hobject : e.frame.SealedObject P object) :
    Refines P
      { e with inner := ⟨e.inner.objects.insert location object, e.inner.nextETag + 1⟩ }
      ⟨s.objects.insert location (e.frame.openObject P object), s.nextETag + 1⟩ := by
  refine ⟨by rw [h.tags], ?_, fun l o ho => ?_⟩
  · refine Std.ExtTreeMap.ext_getElem? fun l => ?_
    rw [Std.ExtTreeMap.getElem?_insert, Std.ExtTreeMap.getElem?_map,
      Std.ExtTreeMap.getElem?_insert, h.getElem?]
    split_ifs <;> rfl
  · rw [Std.ExtTreeMap.getElem?_insert] at ho
    split_ifs at ho with hl
    · cases ho
      exact hobject
    · exact h.made l o ho

theorem Refines.erase {e : EncryptingObjectStore} {s : MapStore} (h : Refines P e s)
    (location : Path) :
    Refines P { e with inner := { e.inner with objects := e.inner.objects.erase location } }
      { s with objects := s.objects.erase location } := by
  refine ⟨h.tags, ?_, fun l o ho => ?_⟩
  · refine Std.ExtTreeMap.ext_getElem? fun l => ?_
    rw [Std.ExtTreeMap.getElem?_erase, Std.ExtTreeMap.getElem?_map,
      Std.ExtTreeMap.getElem?_erase, h.getElem?]
    split_ifs <;> rfl
  · rw [Std.ExtTreeMap.getElem?_erase] at ho
    split_ifs at ho
    exact h.made l o ho

/-! ## One operation -/

theorem Refines.putAllowed {e : EncryptingObjectStore} {s : MapStore} (h : Refines P e s)
    (location : Path) (mode : PutMode) :
    s.putAllowed location mode = e.inner.putAllowed location mode := by
  unfold MapStore.putAllowed
  rw [h.getElem?]
  cases e.inner.objects[location]? with
  | none => rfl
  | some object =>
    cases mode with
    | overwrite => rfl
    | create => rfl
    | update tag => cases tag <;> rfl

theorem Refines.put {e : EncryptingObjectStore} {s : MapStore} (h : Refines P e s)
    (hP : P.Correct) {now : Nat} {location : Path} {payload : Bytes} {options : PutOptions}
    {t : Trace} (hfits : e.frame.sealedLen payload.length ≤ MAX_BYTES) :
    Refines P (e.step P t (.put now location payload options)).1
      (if (StoreOp.put now location payload options).reaches P e.frame t then
        s.step (.put now location payload options) else s) := by
  cases hseal : (e.frame.seal P payload).run t with
  | error err t' =>
    have hreach : (StoreOp.put now location payload options).reaches P e.frame t = false := by
      unfold StoreOp.reaches
      dsimp only
      rw [hseal]
    have hstep : e.step P t (.put now location payload options) = (e, t') := by
      unfold EncryptingObjectStore.step EncryptingObjectStore.putOpts
      dsimp only
      rw [hseal]
    rw [hreach, hstep]
    exact h
  | ok c t' =>
    obtain ⟨key, ss, -, hobject, hs⟩ := BlockFrame.seal_ok hseal
    have ho := hP.opening hs
    have hreach : (StoreOp.put now location payload options).reaches P e.frame t = true := by
      unfold StoreOp.reaches
      dsimp only
      rw [hseal]
    rw [hreach, if_pos rfl]
    unfold EncryptingObjectStore.step EncryptingObjectStore.putOpts MapStore.step MapStore.putOpts
    dsimp only
    rw [hseal, h.putAllowed location options.mode, h.tags]
    cases e.inner.putAllowed location options.mode with
    | error err => exact h
    | ok u =>
      have hmade : e.frame.SealedObject P
          ⟨c, now, toString e.inner.nextETag, options.attributes⟩ := by
        refine ⟨⟨payload, key, ss, hs, hobject⟩, ?_⟩
        rw [show c = e.frame.object ss from hobject, hs.object_length ho]
        exact hfits
      have hinsert := h.insert location hmade
      rw [hs.openObject ho hobject, h.tags] at hinsert
      exact hinsert

theorem Refines.copy {e : EncryptingObjectStore} {s : MapStore} (h : Refines P e s)
    {now : Nat} {src dst : Path} {mode : CopyMode} {t : Trace} :
    Refines P (e.step P t (.copy now src dst mode)).1 (s.step (.copy now src dst mode)) := by
  have hdst : s.objects.contains dst = e.inner.objects.contains dst := by
    rw [h.objects, Std.ExtTreeMap.contains_map]
  have hentry := h.getElem? src
  unfold EncryptingObjectStore.step EncryptingObjectStore.copyOpts MapStore.step
    MapStore.copyOpts MapStore.entry
  dsimp only
  rw [hentry, hdst, h.tags]
  cases hsrc : e.inner.objects[src]? with
  | none => exact h
  | some object =>
    simp only [Option.map_some, bind, Except.bind]
    split_ifs with hmode
    · exact h
    · have hmade : e.frame.SealedObject P
          ⟨object.data, now, toString e.inner.nextETag, object.attributes⟩ :=
        ⟨(h.made src object hsrc).made, (h.made src object hsrc).fits⟩
      have hinsert := h.insert dst hmade
      rw [h.tags] at hinsert
      exact hinsert

theorem Refines.delete {e : EncryptingObjectStore} {s : MapStore} (h : Refines P e s)
    (locations : List Path) :
    Refines P (e.deleteStream locations) (s.deleteStream locations) := by
  unfold EncryptingObjectStore.deleteStream MapStore.deleteStream
  induction locations generalizing e s with
  | nil => exact h
  | cons location rest ih => exact ih (h.erase location)

/-- **One operation keeps the refinement.** -/
theorem step_refines {e : EncryptingObjectStore} {s : MapStore} (hP : P.Correct)
    (h : Refines P e s) {op : StoreOp} (hfits : op.Fits e.frame) (t : Trace) :
    Refines P (e.step P t op).1 (if op.reaches P e.frame t then s.step op else s) := by
  cases op with
  | put now location payload options => exact h.put hP hfits
  | copy now src dst mode => exact h.copy
  | delete locations => exact h.delete locations

theorem EncryptingObjectStore.step_frame (e : EncryptingObjectStore) (t : Trace) (op : StoreOp) :
    (e.step P t op).1.frame = e.frame := by
  cases op with
  | put now location payload options =>
    unfold EncryptingObjectStore.step EncryptingObjectStore.putOpts
    dsimp only
    cases (e.frame.seal P payload).run t with
    | error err t' => rfl
    | ok c t' =>
      simp only [bind, Except.bind]
      cases e.inner.putOpts now location c options <;> rfl
  | copy now src dst mode =>
    unfold EncryptingObjectStore.step EncryptingObjectStore.copyOpts
    simp only [bind, Except.bind]
    cases e.inner.copyOpts now src dst mode <;> rfl
  | delete locations => rfl

/-- **A history keeps the refinement.** -/
theorem run_refines {e : EncryptingObjectStore} {s : MapStore} (hP : P.Correct)
    (h : Refines P e s) {ops : List StoreOp} (hfits : ∀ op ∈ ops, op.Fits e.frame) (t : Trace) :
    Refines P (runBoth P e t s ops).1 (runBoth P e t s ops).2 := by
  induction ops generalizing e s t with
  | nil => exact h
  | cons op ops ih =>
    refine ih (step_refines hP h (hfits op List.mem_cons_self) t) (fun op' hop' => ?_) _
    rw [e.step_frame]
    exact hfits op' (List.mem_cons_of_mem _ hop')

/-! ## Reads -/

/-- Preconditions look at an object's tag and date, never at its size. -/
theorem checkPreconditions_size (options : GetOptions) (info : ObjectMeta) (n : Nat) :
    MapStore.checkPreconditions options { info with size := n } =
      MapStore.checkPreconditions options info := by
  unfold MapStore.checkPreconditions
  rfl

/-- A range that holds something is resolved alike by both stores. -/
theorem resolve_eq_wantedRange {requested : Option GetRange} {len : Nat}
    (h : (wantedRange requested len).start < (wantedRange requested len).stop) :
    MapStore.resolve requested len = .ok (wantedRange requested len) := by
  unfold wantedRange at h ⊢
  unfold MapStore.resolve MapStore.asRange
  cases requested with
  | none => rfl
  | some range =>
    cases range with
    | bounded r =>
      dsimp only at h ⊢
      rw [if_neg (by omega), if_neg (by omega), Nat.min_eq_left (by omega : r.start ≤ len)]
      rfl
    | offset start =>
      dsimp only at h ⊢
      rw [if_neg (by omega), Nat.min_eq_left (by omega : start ≤ len)]
      rfl
    | suffix n => rfl

/-- A plain read that the store lets through. -/
theorem MapStore.getOpts_eq {s : MapStore} {location : Path} {object : Object}
    {options : GetOptions} (hobject : s.objects[location]? = some object) :
    s.getOpts location options = (do
      MapStore.checkPreconditions options (MapStore.metaOf location object)
      let range ← MapStore.resolve options.range object.data.length
      pure ⟨slice range.start range.stop object.data, range, object.attributes,
        MapStore.metaOf location object⟩) := by
  unfold MapStore.getOpts
  rw [MapStore.entry_eq hobject]
  rfl

theorem Refines.getOpts_notFound {e : EncryptingObjectStore} {s : MapStore} (h : Refines P e s)
    {location : Path} (hnone : e.inner.objects[location]? = none) (options : GetOptions) :
    e.getOpts P location options = .error (.notFound location) ∧
      s.getOpts location options = .error (.notFound location) := by
  have hplain := h.getElem? location
  rw [hnone] at hplain
  unfold EncryptingObjectStore.getOpts MapStore.getOpts MapStore.entry
  rw [hnone, hplain]
  exact ⟨rfl, rfl⟩

/-- **A read of a part that holds something gives the bytes, the range and the metadata that the
plain store gives.** -/
theorem Refines.getOpts {e : EncryptingObjectStore} {s : MapStore} (h : Refines P e s)
    (hP : P.Correct) {location : Path} {options : GetOptions} (hread : options.head = false)
    (hpart : ∀ object, s.objects[location]? = some object →
      (wantedRange options.range object.data.length).start <
        (wantedRange options.range object.data.length).stop) :
    e.getOpts P location options = s.getOpts location options := by
  cases hobject : e.inner.objects[location]? with
  | none =>
    obtain ⟨he, hs⟩ := h.getOpts_notFound hobject options
    rw [he, hs]
  | some object =>
    obtain ⟨p, key, ss, hs, hdata⟩ := (h.made location object hobject).made
    have hmax := (h.made location object hobject).fits
    have ho := hP.opening hs
    have hplain := h.getElem? location
    rw [hobject, Option.map_some, hs.openObject ho hdata] at hplain
    have hw := hpart _ hplain
    have hsize : object.data.length = e.frame.sealedLen p.length := by
      rw [hdata, hs.object_length ho]
    have hlen := BlockFrame.plaintextLen_ok.2 hsize
    have hcheck := checkPreconditions_size options (MapStore.metaOf location object) p.length
    rw [MapStore.getOpts_eq hplain]
    rw [show MapStore.metaOf location { object with data := p } =
      { MapStore.metaOf location object with size := p.length } from rfl, hcheck]
    cases hallowed : MapStore.checkPreconditions options (MapStore.metaOf location object) with
    | error err =>
      unfold EncryptingObjectStore.getOpts
      rw [MapStore.getOpts_head hobject, hallowed]
      rfl
    | ok u =>
      rw [getOpts_eq hread hobject hallowed hlen]
      dsimp only at hw ⊢
      rw [if_neg (by omega), hs.readRange ho hobject hw (wantedRange_stop_le _ _) hsize hmax
        (by rw [hdata, e.frame.object_header]) (by rw [hdata]), resolve_eq_wantedRange hw]
      rfl

/-- A metadata request reports the plaintext size. -/
theorem Refines.head {e : EncryptingObjectStore} {s : MapStore} (h : Refines P e s)
    (hP : P.Correct) {location : Path} {options : GetOptions} (hhead : options.head = true)
    (hrange : options.range = none) :
    (e.getOpts P location options).map GetResult.info =
      (s.getOpts location options).map GetResult.info := by
  cases hobject : e.inner.objects[location]? with
  | none =>
    obtain ⟨he, hs⟩ := h.getOpts_notFound hobject options
    rw [he, hs]
  | some object =>
    obtain ⟨p, key, ss, hs, hdata⟩ := (h.made location object hobject).made
    have ho := hP.opening hs
    have hplain := h.getElem? location
    rw [hobject, Option.map_some, hs.openObject ho hdata] at hplain
    have hlen : e.frame.plaintextLen (MapStore.metaOf location object).size = .ok p.length := by
      refine BlockFrame.plaintextLen_ok.2 ?_
      rw [← hs.object_length ho, ← hdata]
      rfl
    have hcheck := checkPreconditions_size options (MapStore.metaOf location object) p.length
    rw [MapStore.getOpts_eq hplain, hrange]
    rw [show MapStore.metaOf location { object with data := p } =
      { MapStore.metaOf location object with size := p.length } from rfl, hcheck]
    unfold EncryptingObjectStore.getOpts
    rw [MapStore.getOpts_head hobject]
    cases MapStore.checkPreconditions options (MapStore.metaOf location object) with
    | error err => rfl
    | ok u =>
      simp only [Except.map, bind, Except.bind, asPlaintext_eq hlen, hhead, if_true]
      rfl

/-- The metadata of an object in plaintext terms, where it has any. -/
def BlockFrame.plaintextInfo (f : BlockFrame) (info : ObjectMeta) : ObjectMeta :=
  match asPlaintext f info with
  | .ok info' => info'
  | .error _ => info

theorem BlockFrame.plaintextInfo_location (f : BlockFrame) (info : ObjectMeta) :
    (f.plaintextInfo info).location = info.location := by
  unfold BlockFrame.plaintextInfo asPlaintext
  cases cryptoError info.location (f.plaintextLen info.size) <;> rfl

/-- The listing of the plain store is that of the inner one, with plaintext sizes. -/
theorem Refines.inner_list {e : EncryptingObjectStore} {s : MapStore} (h : Refines P e s)
    (hP : P.Correct) (pre : Option Path) :
    s.list pre = (e.inner.list pre).map e.frame.plaintextInfo ∧
      ∀ info ∈ e.inner.list pre, asPlaintext e.frame info = .ok (e.frame.plaintextInfo info) := by
  have hone : ∀ entry ∈ e.inner.objects.toList,
      asPlaintext e.frame (MapStore.metaOf entry.1 entry.2) =
        .ok (MapStore.metaOf entry.1 (e.frame.openObject P entry.2)) := by
    intro entry hentry
    have hobject := Std.ExtTreeMap.mem_toList_iff_getElem?_eq_some.1 hentry
    obtain ⟨p, key, ss, hs, hdata⟩ := (h.made entry.1 entry.2 hobject).made
    have ho := hP.opening hs
    have hlen : e.frame.plaintextLen (MapStore.metaOf entry.1 entry.2).size = .ok p.length := by
      refine BlockFrame.plaintextLen_ok.2 ?_
      rw [← hs.object_length ho, ← hdata]
      rfl
    rw [asPlaintext_eq hlen, hs.openObject ho hdata]
    rfl
  unfold MapStore.list
  constructor
  · rw [h.objects, Std.ExtTreeMap.toList_map, List.filter_map, List.map_map, List.map_map]
    refine List.map_congr_left fun entry hentry => ?_
    simp only [Function.comp_apply, BlockFrame.plaintextInfo]
    rw [hone entry (List.mem_filter.1 hentry).1]
  · intro info hinfo
    obtain ⟨entry, hentry, rfl⟩ := List.mem_map.1 hinfo
    unfold BlockFrame.plaintextInfo
    rw [hone entry (List.mem_filter.1 hentry).1]

theorem Refines.list {e : EncryptingObjectStore} {s : MapStore} (h : Refines P e s)
    (hP : P.Correct) (pre : Option Path) :
    e.list pre = (s.list pre).map Except.ok := by
  obtain ⟨hlist, hall⟩ := h.inner_list hP pre
  unfold EncryptingObjectStore.list
  rw [hlist, List.map_map]
  exact List.map_congr_left hall

theorem mapM_plaintextInfo {f : BlockFrame} {infos : List ObjectMeta}
    (h : ∀ info ∈ infos, asPlaintext f info = .ok (f.plaintextInfo info)) :
    infos.mapM (asPlaintext f) = .ok (infos.map f.plaintextInfo) := by
  induction infos with
  | nil => rfl
  | cons info infos ih =>
    rw [List.mapM_cons, h info List.mem_cons_self,
      ih fun info' hinfo' => h info' (List.mem_cons_of_mem info hinfo')]
    rfl

theorem Refines.listWithDelimiter {e : EncryptingObjectStore} {s : MapStore}
    (h : Refines P e s) (hP : P.Correct) (pre : Option Path) :
    e.listWithDelimiter pre = .ok (s.listWithDelimiter pre) := by
  obtain ⟨hlist, hall⟩ := h.inner_list hP pre
  unfold EncryptingObjectStore.listWithDelimiter MapStore.listWithDelimiter
  dsimp only
  rw [mapM_plaintextInfo fun info hinfo => hall info (List.mem_filter.1 hinfo).1, hlist,
    List.filter_map, List.filter_map, List.map_map]
  simp only [Function.comp_def, BlockFrame.plaintextInfo_location]
  rfl

/-! ## The encrypting store and the plain map -/

/-- **After every history the encrypting store answers as a plain map does**: reads of a part
that holds something with the same bytes, range and metadata, metadata requests and listings
with plaintext sizes. -/
theorem refines_plain_map (hP : P.Correct) (f : BlockFrame) (t : Trace) {ops : List StoreOp}
    (hfits : ∀ op ∈ ops, op.Fits f) :
    let e := (runBoth P ⟨MapStore.empty, f⟩ t MapStore.empty ops).1
    let s := (runBoth P ⟨MapStore.empty, f⟩ t MapStore.empty ops).2
    (∀ location options, options.head = false →
      (∀ object, s.objects[location]? = some object →
        (wantedRange options.range object.data.length).start <
          (wantedRange options.range object.data.length).stop) →
      e.getOpts P location options = s.getOpts location options) ∧
    (∀ location options, options.head = true → options.range = none →
      (e.getOpts P location options).map GetResult.info =
        (s.getOpts location options).map GetResult.info) ∧
    (∀ pre, e.list pre = (s.list pre).map Except.ok) ∧
    (∀ pre, e.listWithDelimiter pre = .ok (s.listWithDelimiter pre)) := by
  have h := run_refines hP (Refines.empty f) hfits t
  exact ⟨fun _ _ hread hpart => h.getOpts hP hread hpart,
    fun _ _ hhead hrange => h.head hP hhead hrange, h.list hP, h.listWithDelimiter hP⟩

/-- An object is stored, copied and deleted. -/
def moveHistory : List StoreOp :=
  [.put 0 ["a"] [7] ⟨.create, []⟩, .copy 1 ["a"] ["b"] .overwrite, .delete [["a"]]]

theorem moveHistory_refines :
    (runBoth Platform.padding ⟨MapStore.empty, oneKeyFrame⟩ Trace.empty MapStore.empty
        moveHistory).1.list none =
      ((runBoth Platform.padding ⟨MapStore.empty, oneKeyFrame⟩ Trace.empty MapStore.empty
        moveHistory).2.list none).map Except.ok :=
  (refines_plain_map Platform.padding_correct oneKeyFrame Trace.empty (by
    intro op hop
    rcases List.mem_cons.1 hop with rfl | hop
    · show oneKeyFrame.sealedLen 1 ≤ MAX_BYTES
      decide
    · simp only [List.mem_cons, List.not_mem_nil, or_false] at hop
      rcases hop with rfl | rfl <;> trivial)).2.2.1 none

end EuleDB.Crypto
