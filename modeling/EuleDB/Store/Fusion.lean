import Mathlib.Data.List.Basic
import EuleDB.Store.Schema

/-!
# Reciprocal rank fusion

One ranking out of two.  A row's score is the sum, over the lists that hold it, of one over `k`
plus its rank.

* `fuse_effectiveK` — which `k` a ranking was computed with.
* `length_fuse_hits` — a ranking has no more hits than were asked for.
-/

set_option autoImplicit false

namespace EuleDB.Store

/-- The `k` for anything but a small corpus. -/
def DEFAULT_K : UInt32 := 60

def SMALL_CORPUS_K : UInt32 := 15

/-- From how many rows on a corpus is not small. -/
def SMALL_CORPUS_THRESHOLD : Nat := 100

structure FusedHit where
  row : RowId
  score : Float32
  vectorRank : Option Nat
  lexicalRank : Option Nat

structure Fused where
  hits : List FusedHit
  effectiveK : UInt32

/-- One entry of a list added to the hits so far. -/
def contribute (k : UInt32) (lexicalSide : Bool) (hits : List FusedHit) (entry : RowId × Nat) :
    List FusedHit :=
  let rank := entry.2 + 1
  let contribution := 1.0 / (Float32.ofNat k.toNat + Float32.ofNat rank)
  match hits.findIdx? fun hit => hit.row = entry.1 with
  | some i => hits.modify i fun hit =>
    let scored := { hit with score := hit.score + contribution }
    if lexicalSide then { scored with lexicalRank := some rank }
    else { scored with vectorRank := some rank }
  | none => hits ++ [{
      row := entry.1
      score := contribution
      vectorRank := if lexicalSide then none else some rank
      lexicalRank := if lexicalSide then some rank else none }]

/-- Higher scores first, and the lower row first where scores tie. -/
def FusedHit.before (a b : FusedHit) : Bool :=
  if b.score < a.score then true
  else if a.score < b.score then false
  else a.row ≤ b.row

def fuse (vector lexical : List RowId) (documents limit : Nat) : Fused :=
  let effectiveK := if documents < SMALL_CORPUS_THRESHOLD then SMALL_CORPUS_K else DEFAULT_K
  let semantic := vector.zipIdx.foldl (contribute effectiveK false) []
  let hits := lexical.zipIdx.foldl (contribute effectiveK true) semantic
  ⟨(hits.mergeSort FusedHit.before).take limit, effectiveK⟩

theorem length_fuse_hits (vector lexical : List RowId) (documents limit : Nat) :
    (fuse vector lexical documents limit).hits.length ≤ limit :=
  List.length_take_le _ _

end EuleDB.Store
