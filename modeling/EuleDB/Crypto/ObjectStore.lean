import Std.Data.ExtTreeMap.Lemmas
import EuleDB.Lib.Slice
import EuleDB.Crypto.Frame

/-!
# An object store that is a map

The interface the encrypting layer sits between, and the plain store under it: a map from
paths to objects that behaves as the in-memory store of the `object_store` crate is documented
to.

* `GetOptions`, `GetResult`, `PutOptions`, `CopyOptions`, `ObjectMeta`, `StoreError` — what
  passes through the interface.
* `MapStore.getOpts`, `getRanges`, `putOpts`, `copyOpts`, `deleteStream`, `list`,
  `listWithDelimiter` — the operations.
-/

set_option autoImplicit false

namespace EuleDB.Crypto

open Slice

/-- A path, as its segments. -/
abbrev Path := List String

/-- The part of an object a read asks for. -/
inductive GetRange where
  | bounded (range : Range)
  | offset (start : Nat)
  | suffix (len : Nat)
  deriving DecidableEq, Repr

inductive RangeError where
  | startTooLarge (requested length : Nat)
  | inconsistent (start stop : Nat)
  deriving DecidableEq, Repr

inductive StoreError where
  | notFound (path : Path)
  | alreadyExists (path : Path)
  | precondition (path : Path)
  | notModified (path : Path)
  | missingETag
  | range (source : RangeError)
  /-- `Generic`: a framing failure with the object it happened on. -/
  | frame (location : Path) (source : FrameError)
  deriving DecidableEq, Repr

structure ObjectMeta where
  location : Path
  lastModified : Nat
  size : Nat
  eTag : String
  deriving DecidableEq, Repr

/-- The value of an `If-Match` or `If-None-Match` header. -/
inductive ETagMatch where
  | any
  | oneOf (tags : List String)
  deriving DecidableEq, Repr

structure GetOptions where
  ifMatch : Option ETagMatch
  ifNoneMatch : Option ETagMatch
  ifModifiedSince : Option Nat
  ifUnmodifiedSince : Option Nat
  range : Option GetRange
  head : Bool

/-- `GetOptions::default()`. -/
def GetOptions.default : GetOptions := ⟨none, none, none, none, none, false⟩

structure GetResult where
  payload : Bytes
  range : Range
  attributes : List (String × String)
  info : ObjectMeta
  deriving DecidableEq, Repr

inductive PutMode where
  | overwrite
  | create
  | update (eTag : Option String)
  deriving DecidableEq, Repr

structure PutOptions where
  mode : PutMode
  attributes : List (String × String)

structure PutResult where
  eTag : Option String
  deriving DecidableEq, Repr

inductive CopyMode where
  | overwrite
  | create
  deriving DecidableEq, Repr

structure ListResult where
  commonPrefixes : List Path
  objects : List ObjectMeta
  deriving DecidableEq, Repr

/-- What is stored under a path. -/
structure Object where
  data : Bytes
  lastModified : Nat
  eTag : String
  attributes : List (String × String)
  deriving DecidableEq, Repr

structure MapStore where
  objects : Std.ExtTreeMap Path Object
  nextETag : Nat

namespace MapStore

def empty : MapStore := ⟨∅, 0⟩

/-- `GetRange::as_range`. -/
def asRange (range : GetRange) (len : Nat) : Except RangeError Range :=
  match range with
  | .bounded r =>
    if r.stop ≤ r.start then .error (.inconsistent r.start r.stop)
    else if len ≤ r.start then .error (.startTooLarge r.start len)
    else .ok ⟨r.start, min r.stop len⟩
  | .offset start =>
    if len ≤ start then .error (.startTooLarge start len) else .ok ⟨start, len⟩
  | .suffix n => .ok ⟨len - n, len⟩

/-- `GetOptions::check_preconditions`. -/
def checkPreconditions (options : GetOptions) (info : ObjectMeta) : Except StoreError Unit := do
  match options.ifMatch, options.ifUnmodifiedSince with
  | some .any, _ => pure ()
  | some (.oneOf tags), _ =>
    if info.eTag ∈ tags then pure () else .error (.precondition info.location)
  | none, some date =>
    if info.lastModified > date then .error (.precondition info.location) else pure ()
  | none, none => pure ()
  match options.ifNoneMatch, options.ifModifiedSince with
  | some .any, _ => .error (.notModified info.location)
  | some (.oneOf tags), _ =>
    if info.eTag ∈ tags then .error (.notModified info.location) else pure ()
  | none, some date =>
    if info.lastModified ≤ date then .error (.notModified info.location) else pure ()
  | none, none => pure ()

variable (s : MapStore)

def entry (location : Path) : Except StoreError Object :=
  match s.objects[location]? with
  | some object => .ok object
  | none => .error (.notFound location)

/-- The metadata of a stored object. -/
def metaOf (location : Path) (object : Object) : ObjectMeta :=
  ⟨location, object.lastModified, object.data.length, object.eTag⟩

/-- The range of an object of `len` bytes that a request asks for. -/
def resolve (requested : Option GetRange) (len : Nat) : Except StoreError Range :=
  match requested with
  | some range => (asRange range len).mapError .range
  | none => .ok ⟨0, len⟩

def getOpts (location : Path) (options : GetOptions) : Except StoreError GetResult := do
  let object ← s.entry location
  let info := metaOf location object
  checkPreconditions options info
  let range ← resolve options.range object.data.length
  pure ⟨slice range.start range.stop object.data, range, object.attributes, info⟩

def getRange (object : Object) (range : Range) : Except StoreError Bytes := do
  let r ← (asRange (.bounded range) object.data.length).mapError .range
  pure (slice r.start r.stop object.data)

def getRanges (location : Path) (ranges : List Range) : Except StoreError (List Bytes) := do
  let object ← s.entry location
  ranges.mapM (getRange object)

/-- Whether a put may replace what is stored. -/
def putAllowed (location : Path) (mode : PutMode) : Except StoreError Unit :=
  match mode, s.objects[location]? with
  | .overwrite, _ => .ok ()
  | .create, some _ => .error (.alreadyExists location)
  | .create, none => .ok ()
  | .update _, none => .error (.precondition location)
  | .update none, some _ => .error .missingETag
  | .update (some tag), some object =>
    if object.eTag = tag then .ok () else .error (.precondition location)

/-- `put_opts` at time `now`. -/
def putOpts (now : Nat) (location : Path) (payload : Bytes) (options : PutOptions) :
    Except StoreError (PutResult × MapStore) := do
  s.putAllowed location options.mode
  let tag := toString s.nextETag
  pure (⟨some tag⟩, ⟨s.objects.insert location ⟨payload, now, tag, options.attributes⟩,
    s.nextETag + 1⟩)

/-- `copy_opts` at time `now`. -/
def copyOpts (now : Nat) (src dst : Path) (mode : CopyMode) : Except StoreError MapStore := do
  let object ← s.entry src
  if mode = .create ∧ s.objects.contains dst then .error (.alreadyExists dst)
  else
    pure ⟨s.objects.insert dst ⟨object.data, now, toString s.nextETag, object.attributes⟩,
      s.nextETag + 1⟩

def deleteStream (locations : List Path) : MapStore :=
  { s with objects := locations.foldl (fun objects location => objects.erase location) s.objects }

/-- The objects strictly below a prefix. -/
def below (pre : Path) (location : Path) : Bool :=
  pre.isPrefixOf location && decide (pre.length < location.length)

def list (pre : Option Path) : List ObjectMeta :=
  (s.objects.toList.filter fun entry => below (pre.getD []) entry.1).map fun entry =>
    metaOf entry.1 entry.2

def listWithDelimiter (pre : Option Path) : ListResult :=
  let root := pre.getD []
  let found := s.list pre
  let direct (info : ObjectMeta) : Bool := info.location.length = root.length + 1
  ⟨((found.filter fun info => !direct info).map fun info =>
      info.location.take (root.length + 1)).dedup,
    found.filter direct⟩

end MapStore

end EuleDB.Crypto
