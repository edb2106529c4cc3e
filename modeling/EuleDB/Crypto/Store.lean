import EuleDB.Crypto.ObjectStore

/-!
# The encrypting store

The model of `crypto/store.rs`: an object store that seals what is put through it and opens
what is read.

* `EncryptingObjectStore.wantedRange`, `asPlaintext` — ranges and sizes in plaintext terms.
* `EncryptingObjectStore.getOpts` — a read: one metadata request, then the header and the
  blocks that cover the range.
* `EncryptingObjectStore.putOpts`, `copyOpts`, `deleteStream`, `list`, `listWithDelimiter`.
-/

set_option autoImplicit false

namespace EuleDB.Crypto

open Slice FrameFormat

/-- Present a framing failure as a store failure. -/
def cryptoError {α : Type} (location : Path) (x : Except FrameError α) : Except StoreError α :=
  x.mapError (.frame location)

/-- Wraps an object store so that everything passing through it is sealed. -/
structure EncryptingObjectStore where
  inner : MapStore
  frame : BlockFrame

namespace EncryptingObjectStore

/-- Resolve a requested range against the plaintext length. -/
def wantedRange (requested : Option GetRange) (len : Nat) : Range :=
  match requested with
  | none => ⟨0, len⟩
  | some (.bounded range) => ⟨min range.start len, min range.stop len⟩
  | some (.offset start) => ⟨min start len, len⟩
  | some (.suffix n) => ⟨len - n, len⟩

variable (P : Platform) (f : BlockFrame)

/-- Restate an object's metadata in plaintext terms. -/
def asPlaintext (info : ObjectMeta) : Except StoreError ObjectMeta := do
  let size ← cryptoError info.location (f.plaintextLen info.size)
  pure { info with size := size }

/-- The part of `getOpts` that reads bytes: `ranges` is the second request to the store. -/
def readRange (ranges : List Range → Except StoreError (List Bytes)) (location : Path)
    (wanted : Range) (len : Nat) : Except StoreError Bytes := do
  let span := f.ciphertextSpan wanted len
  let fetched ← ranges [⟨0, HEADER_LEN⟩, span]
  let framing ← cryptoError location (f.readHeader (fetched.getD 0 []))
  cryptoError location (f.openSpan P (fetched.getD 1 []) span wanted framing)

variable (e : EncryptingObjectStore)

def getOpts (location : Path) (options : GetOptions) : Except StoreError GetResult := do
  let head ← e.inner.getOpts location { options with range := none, head := true }
  let info ← asPlaintext e.frame head.info
  if options.head then pure ⟨[], ⟨0, 0⟩, head.attributes, info⟩
  else
    let wanted := wantedRange options.range info.size
    if wanted.stop ≤ wanted.start then pure ⟨[], wanted, head.attributes, info⟩
    else
      let plaintext ← readRange P e.frame (e.inner.getRanges location) location wanted info.size
      pure ⟨plaintext, wanted, head.attributes, info⟩

/-- `put_opts` at time `now`: the object is sealed whole and handed down. -/
def putOpts (now : Nat) (location : Path) (payload : Bytes) (options : PutOptions) (t : Trace) :
    Except StoreError (PutResult × EncryptingObjectStore) × Trace :=
  match (e.frame.seal P payload).run t with
  | .error err t' => (.error (.frame location err), t')
  | .ok sealedObject t' =>
    (do
      let (result, inner) ← e.inner.putOpts now location sealedObject options
      pure (result, { e with inner := inner }), t')

def copyOpts (now : Nat) (src dst : Path) (mode : CopyMode) :
    Except StoreError EncryptingObjectStore := do
  let inner ← e.inner.copyOpts now src dst mode
  pure { e with inner := inner }

def deleteStream (locations : List Path) : EncryptingObjectStore :=
  { e with inner := e.inner.deleteStream locations }

/-- A stream of entries, each of which can fail on its own. -/
def list (pre : Option Path) : List (Except StoreError ObjectMeta) :=
  (e.inner.list pre).map (asPlaintext e.frame)

def listWithDelimiter (pre : Option Path) : Except StoreError ListResult := do
  let listing := e.inner.listWithDelimiter pre
  let objects ← listing.objects.mapM (asPlaintext e.frame)
  pure { listing with objects := objects }

end EncryptingObjectStore

end EuleDB.Crypto
