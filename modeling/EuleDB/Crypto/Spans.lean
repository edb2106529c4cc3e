import EuleDB.Crypto.Versions

/-!
# Which blocks a range read fetches

The block at an index holds a stretch of the plaintext and takes a stretch of the object.  A range
read fetches the blocks whose plaintext overlaps the range.

* `BlockFrame.overlapping_eq` — they are consecutive.
* `BlockFrame.ciphertextSpan_blocks` — the span begins and ends with one of them, and its bytes
  are theirs and no other.
* `BlockFrame.openSpan_overlapping` — each of them is opened under its index in the object.
* `range_read_exact` — both, and for a sealed object the blocks are those that were sealed.
-/

set_option autoImplicit false

namespace EuleDB.Crypto

open Slice Endian Effect FrameFormat

/-- A position that is in both ranges. -/
def Range.Overlaps (a b : Range) : Prop :=
  ∃ i, (a.start ≤ i ∧ i < a.stop) ∧ b.start ≤ i ∧ i < b.stop

theorem Range.overlaps_iff {a b : Range} :
    a.Overlaps b ↔ max a.start b.start < min a.stop b.stop := by
  constructor
  · rintro ⟨i, ha, hb⟩
    omega
  · intro h
    exact ⟨max a.start b.start, by omega, by omega⟩

instance (a b : Range) : Decidable (a.Overlaps b) := decidable_of_iff _ Range.overlaps_iff.symm

variable {P : Platform} (f : BlockFrame)

/-! ## Blocks -/

/-- The plaintext that the block at an index holds, in an object of `len` plaintext bytes. -/
def BlockFrame.heldBy (len index : Nat) : Range :=
  ⟨index * f.blockSize.get, min ((index + 1) * f.blockSize.get) len⟩

/-- The bytes that it takes in the object. -/
def BlockFrame.takenBy (len index : Nat) : Range :=
  ⟨HEADER_LEN + index * f.sealedBlockLen,
    min (HEADER_LEN + (index + 1) * f.sealedBlockLen) (f.sealedLen len)⟩

/-- The block at an index. -/
def BlockFrame.blockAt (len : Nat) (c : Bytes) (index : Nat) : Bytes :=
  slice (f.takenBy len index).start (f.takenBy len index).stop c

/-- The indices of the blocks that hold some of a range. -/
def BlockFrame.overlapping (len : Nat) (w : Range) : List Nat :=
  (List.range (len / f.blockSize.get + 1)).filter fun index => (f.heldBy len index).Overlaps w

variable {f} {w : Range} {len : Nat}

/-- The numbers from one bound up to another. -/
theorem filter_range_between {first stop n : Nat} (hfirst : first ≤ stop) (hstop : stop ≤ n) :
    (List.range n).filter (fun i => first ≤ i ∧ i < stop) = List.range' first (stop - first) := by
  have hsplit : List.range n = List.range' 0 first ++
      (List.range' first (stop - first) ++ List.range' stop (n - stop)) := by
    have hrest : List.range' first (stop - first) ++ List.range' stop (n - stop) =
        List.range' first (n - first) := by
      conv_lhs => rw [show stop = first + (stop - first) by omega, Nat.add_sub_cancel_left]
      rw [List.range'_append_1]
      congr 1
      omega
    have hall := List.range'_append_1 (s := 0) (m := first) (n := n - first)
    rw [Nat.zero_add, Nat.add_sub_cancel' (Nat.le_trans hfirst hstop)] at hall
    rw [hrest, hall, List.range_eq_range']
  rw [hsplit, List.filter_append, List.filter_append, List.filter_eq_nil_iff.2,
    List.filter_eq_self.2, List.filter_eq_nil_iff.2, List.nil_append, List.append_nil]
  · intro i hi
    simp only [List.mem_range'_1] at hi
    simp
    omega
  · intro i hi
    simp only [List.mem_range'_1] at hi
    simp
    omega
  · intro i hi
    simp only [List.mem_range'_1] at hi
    simp
    omega

/-- A block holds some of a range where it is not before its first block and not after its last. -/
theorem BlockFrame.heldBy_overlaps (hw : w.start < w.stop) (hstop : w.stop ≤ len) (index : Nat) :
    (f.heldBy len index).Overlaps w ↔ f.firstBlock w ≤ index ∧ index < f.endBlock w := by
  have hB := f.blockSize.pos
  have hfirst : f.firstBlock w ≤ index ↔ w.start < (index + 1) * f.blockSize.get := by
    rw [BlockFrame.firstBlock, ← Nat.lt_succ_iff, Nat.div_lt_iff_lt_mul hB]
  have hend : index < f.endBlock w ↔ index * f.blockSize.get < w.stop := by
    rw [BlockFrame.endBlock, ← Nat.succ_le_iff, Nat.le_div_iff_mul_le hB, Nat.succ_mul]
    omega
  have hmul : index * f.blockSize.get < (index + 1) * f.blockSize.get := by
    rw [Nat.add_mul, Nat.one_mul]
    omega
  rw [Range.overlaps_iff, hfirst, hend, heldBy]
  dsimp only
  omega

/-- **The blocks that hold some of a range** are consecutive. -/
theorem BlockFrame.overlapping_eq (hw : w.start < w.stop) (hstop : w.stop ≤ len) :
    f.overlapping len w = List.range' (f.firstBlock w) (f.endBlock w - f.firstBlock w) := by
  have hsome : ∀ index, decide ((f.heldBy len index).Overlaps w) =
      decide (f.firstBlock w ≤ index ∧ index < f.endBlock w) := fun index =>
    decide_eq_decide.2 (f.heldBy_overlaps hw hstop index)
  unfold overlapping
  rw [List.filter_congr fun index _ => hsome index]
  exact filter_range_between (f.firstBlock_lt_endBlock hw).le (f.endBlock_le hstop)

/-! ## Spans -/

/-- An object has the block at every index it has room for. -/
theorem BlockFrame.sealedBlocks_blockAt {c : Bytes} (hsize : c.length = f.sealedLen len)
    {index : Nat} (hindex : index ≤ len / f.blockSize.get) :
    (f.sealedBlocks c)[index]? = some (f.blockAt len c index) := by
  have hcount := f.length_sealedBlocks hsize
  unfold sealedBlocks at hcount ⊢
  rw [length_chunks] at hcount
  rw [getElem?_chunks, if_pos (by omega), slice_drop]
  unfold blockAt takenBy
  rw [← hsize, slice_min_length]

/-- **The window of a range** is the blocks that hold some of it. -/
theorem BlockFrame.window_eq {c : Bytes} (hsize : c.length = f.sealedLen len)
    (hw : w.start < w.stop) (hstop : w.stop ≤ len) :
    f.window c w = (f.overlapping len w).map (f.blockAt len c) := by
  have hle := f.endBlock_le hstop
  rw [f.overlapping_eq hw hstop]
  refine List.ext_getElem? fun i => ?_
  rw [f.window_getElem?, List.getElem?_map]
  split_ifs with hi
  · rw [f.sealedBlocks_blockAt hsize (by omega), List.getElem?_range' (by omega), Nat.one_mul]
    rfl
  · rw [List.getElem?_eq_none (by rw [List.length_range']; omega)]
    rfl

/-- Consecutive blocks are opened each under its own index. -/
theorem BlockFrame.openAll_range' (secret : SecretKey) (key : DataKeyId) (block : Nat → Bytes)
    (first count : Nat) :
    f.openAll P secret key first ((List.range' first count).map block) =
      (List.range' first count).mapM fun index => f.openBlock P secret key index (block index) := by
  induction count generalizing first with
  | zero => rfl
  | succ count ih =>
    rw [List.range'_succ, List.map_cons, List.mapM_cons, openAll, ih]

/-- What a span is that holds the blocks of a range: all of each, and no other. -/
structure BlockFrame.SpansBlocks (P : Platform) (f : BlockFrame) (len : Nat) (w span : Range) :
    Prop where
  /-- It begins where one of them begins, -/
  starts : ∃ first ∈ f.overlapping len w, span.start = (f.takenBy len first).start
  /-- ends where one of them ends, -/
  stops : ∃ last ∈ f.overlapping len w, span.stop = (f.takenBy len last).stop
  /-- and does not leave the object. -/
  inside : HEADER_LEN ≤ span.start ∧ span.start < span.stop ∧ span.stop ≤ f.sealedLen len
  /-- Its bytes are those of the blocks, in order. -/
  bytes : ∀ c, c.length = f.sealedLen len →
    slice span.start span.stop c = ((f.overlapping len w).map (f.blockAt len c)).flatten
  /-- The number that `openSpan` gives the first block is its index, -/
  numbered : (span.start - HEADER_LEN) % f.sealedBlockLen = 0 ∧
    (f.overlapping len w).head? = some ((span.start - HEADER_LEN) / f.sealedBlockLen)
  /-- and it opens each of them under its index in the object. -/
  opened : ∀ c framing, c.length = f.sealedLen len →
    f.openSpan P (slice span.start span.stop c) span w framing = (do
      let secret ← f.cipher framing.key
      let ms ← (f.overlapping len w).mapM fun index =>
        f.openBlock P secret framing.key index (f.blockAt len c index)
      let out := slice (w.start - w.start / f.blockSize.get * f.blockSize.get)
        (w.stop - w.start / f.blockSize.get * f.blockSize.get) ms.flatten
      if out.length ≠ w.stop - w.start then .error .rangeOutsideObject else .ok out)

/-- **The span of a range** holds the blocks of that range. -/
theorem BlockFrame.ciphertextSpan_blocks (hw : w.start < w.stop) (hstop : w.stop ≤ len)
    (hfits : f.sealedLen len + f.blockSize.get < 2 ^ 64) :
    f.SpansBlocks P len w (f.ciphertextSpan w len) := by
  have hlt := f.firstBlock_lt_endBlock hw
  have hspan := f.ciphertextSpan_eq hw hstop hfits
  have hblocks := f.overlapping_eq hw hstop
  have hcut : ∀ c, c.length = f.sealedLen len →
      chunks f.sealedBlockLen
          (slice (f.ciphertextSpan w len).start (f.ciphertextSpan w len).stop c) =
        (f.overlapping len w).map (f.blockAt len c) := by
    intro c hsize
    rw [f.chunks_span hw hstop hsize.le hfits, f.window_eq hsize hw hstop]
  refine ⟨⟨f.firstBlock w, ?_, ?_⟩, ⟨f.endBlock w - 1, ?_, ?_⟩, ⟨?_, ?_, ?_⟩, fun c hsize => ?_,
    ⟨?_, ?_⟩, fun c framing hsize => ?_⟩
  · rw [hblocks, List.mem_range'_1]
    omega
  · rw [hspan]
    rfl
  · rw [hblocks, List.mem_range'_1]
    omega
  · rw [hspan, takenBy, Nat.sub_add_cancel (by omega)]
  · rw [hspan]
    exact Nat.le_add_right _ _
  · exact f.ciphertextSpan_lt hw hstop hfits
  · rw [hspan]
    exact Nat.min_le_right _ _
  · rw [← hcut c hsize, flatten_chunks f.stride_pos]
  · rw [hspan, Nat.add_sub_cancel_left, Nat.mul_mod_left]
  · rw [hspan, Nat.add_sub_cancel_left, Nat.mul_div_cancel _ f.stride_pos, hblocks,
      List.head?_range', if_neg (by omega)]
  · rw [f.openSpan_eq framing hw hstop hsize.le hfits, f.window_eq hsize hw hstop, hblocks]
    simp only [openAll_range']
    rfl

/-- **A range read stays a range read.**  The span of a range begins and ends with a sealed block
that holds some of it, lies in the object, and is those blocks and no other, each opened under its
index; and the blocks of a sealed object are the ones that `seal` made, each of its part of the
plaintext. -/
theorem range_read_exact (hP : P.Correct) (f : BlockFrame) (w : Range) (len : Nat)
    (hw : w.start < w.stop) (hstop : w.stop ≤ len)
    (hfits : f.sealedLen len + f.blockSize.get < 2 ^ 64) :
    f.SpansBlocks P len w (f.ciphertextSpan w len) ∧
    ∀ (p c : Bytes) (t t' : Trace), p.length = len → (f.seal P p).run t = .ok c t' →
      c.length = f.sealedLen len ∧ ∃ ss, t'.sealings = t.sealings ++ ss ∧
        ss.length = len / f.blockSize.get + 1 ∧ ∀ index s, ss[index]? = some s →
          f.blockAt len c index = s.block ∧
          s.msg = slice (f.heldBy len index).start (f.heldBy len index).stop p := by
  refine ⟨f.ciphertextSpan_blocks hw hstop hfits, ?_⟩
  rintro p c t t' rfl hseal
  obtain ⟨key, ss, htrace, rfl, hs⟩ := f.seal_ok hseal
  have ho := hP.opening hs
  have hsize : (f.object ss).length = f.sealedLen p.length := hs.object_length ho
  refine ⟨hsize, ss, htrace, hs.length, fun index s hindex => ⟨?_, ?_⟩⟩
  · have hlt := (List.getElem?_eq_some_iff.1 hindex).1
    rw [hs.length] at hlt
    have hindex' : index ≤ p.length / f.blockSize.get := by omega
    have hblock := f.sealedBlocks_blockAt hsize hindex'
    rw [hs.sealedBlocks ho, List.getElem?_map, hindex] at hblock
    exact (Option.some.inj hblock).symm
  · rw [hs.msg_eq index s hindex, BlockFrame.heldBy, slice_min_length]

/-- Two bytes at the border of two blocks: both blocks are fetched, and not the empty last one. -/
theorem read_across_blocks :
    oneKeyFrame.overlapping 128 ⟨63, 65⟩ = [0, 1] ∧
      oneKeyFrame.ciphertextSpan ⟨63, 65⟩ 128 = ⟨13, 197⟩ ∧
      oneKeyFrame.SpansBlocks Platform.padding 128 ⟨63, 65⟩
        (oneKeyFrame.ciphertextSpan ⟨63, 65⟩ 128) :=
  ⟨by decide, by decide, (range_read_exact Platform.padding_correct oneKeyFrame ⟨63, 65⟩ 128
    (by decide) (by decide) (by decide)).1⟩

end EuleDB.Crypto
