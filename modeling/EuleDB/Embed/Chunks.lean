import Mathlib.Data.List.TakeWhile
import EuleDB.Lib.BytePositions
import EuleDB.Lib.Cuts
import EuleDB.Crypto.Platform

/-!
# Splitting a text for the model

The model reads `TOKEN_LIMIT` tokens at once, so a longer text is embedded in pieces.  The loop
walks the byte positions at which the tokens end and cuts after every `budget`-th of them.

* `walk_chunks` — what the loop leaves: the slices between the cuts that are not blank.
* `slices_iff` — slices of a text in order, with nothing but whitespace between them, and when
  each of them fits.
* `chunks_lose_nothing` — the chunks are such slices.
* `chunks_fit_iff` — they hold no more tokens than the budget exactly where the text does, or no
  run leaves more tokens behind at the byte it ends at than it was left at the byte it starts from.
* `halves_do_not_fit` — a character that is several tokens is not split by a cut among them.
-/

set_option autoImplicit false

namespace EuleDB.Embed

open Crypto BytePositions Cuts

/-! ## The tokenizer -/

/-- The model's context window, in tokens. -/
def TOKEN_LIMIT : Nat := 512

/-- The prefix E5 expects on stored text. -/
def PASSAGE_PREFIX : Text := "passage: ".toList

inductive EmbedError where
  /-- The text could not be tokenised. -/
  | tokenizer (cause : Text)
  /-- The graph could not be compiled or evaluated. -/
  | inference (cause : Text)
  deriving DecidableEq

/-- What a tokenizer gives for a text: an id for each token, and the bytes it is about. -/
structure Encoding where
  ids : List UInt32
  offsets : List (Nat × Nat)
  length_ids : ids.length = offsets.length

/-- Where the tokens end. -/
def Encoding.ends (encoded : Encoding) : List Nat := encoded.offsets.map Prod.snd

theorem Encoding.length_ends (encoded : Encoding) : encoded.ends.length = encoded.ids.length := by
  rw [ends, List.length_map, encoded.length_ids]

/-- The embedding model, as far as it splits text: its tokenizer, without special tokens. -/
structure Embedder where
  tokenizer : Text → Except Text Encoding

/-- Tokenise, without the special tokens the graph adds for itself. -/
def Embedder.encode (E : Embedder) (text : Text) : Except EmbedError Encoding :=
  (E.tokenizer text).mapError .tokenizer

/-- How many tokens a string costs, without the special tokens the graph adds. -/
def Embedder.tokenCount (E : Embedder) (text : Text) : Except EmbedError Nat := do
  let encoded ← E.encode text
  return encoded.ids.length

/-- How many tokens of text the window has room for.  The prefix costs tokens too, and the window
is the model's hard limit rather than a target. -/
def Embedder.budget (E : Embedder) : Except EmbedError Nat := do
  let cost ← E.tokenCount PASSAGE_PREFIX
  return TOKEN_LIMIT - (cost + 2)

/-! ## The loop -/

/-- The characters `str::trim` takes for whitespace: Unicode's `White_Space`. -/
def isWhitespace (c : Char) : Bool :=
  (0x9 ≤ c.toNat && c.toNat ≤ 0xD) || c.toNat == 0x20 || c.toNat == 0x85 || c.toNat == 0xA0 ||
    c.toNat == 0x1680 || (0x2000 ≤ c.toNat && c.toNat ≤ 0x200A) || c.toNat == 0x2028 ||
    c.toNat == 0x2029 || c.toNat == 0x202F || c.toNat == 0x205F || c.toNat == 0x3000

/-- `str::trim`. -/
def trim (s : Text) : Text :=
  ((s.dropWhile isWhitespace).reverse.dropWhile isWhitespace).reverse

/-- The piece of a text between two positions, where there is one and it is not blank. -/
def piece (text : Text) (start stop : Nat) : Option Text :=
  (get text start stop).filter fun s => !(trim s).isEmpty

/-- What the loop over the tokens carries. -/
structure Walk where
  chunks : List Text
  start : Nat
  taken : Nat

/-- One turn, for the token at `index` of `count`, which ends at `stop`. -/
def Walk.turn (text : Text) (budget count : Nat) (w : Walk) (stop index : Nat) : Walk :=
  let taken := w.taken + 1
  if taken ≥ budget ∨ index + 1 = count then
    { chunks := w.chunks ++ (piece text w.start stop).toList, start := stop, taken := 0 }
  else { w with taken := taken }

/-- Walk the token offsets so a chunk boundary lands between tokens. -/
def walk (text : Text) (budget : Nat) (offsets : List (Nat × Nat)) : Walk :=
  offsets.zipIdx.foldl (fun w token => w.turn text budget offsets.length token.1.2 token.2)
    ⟨[], 0, 0⟩

/-- Split text into pieces that fit the model's window once a prefix is added. -/
def Embedder.chunks (E : Embedder) (text : Text) : Except EmbedError (List Text) := do
  let budget ← E.budget
  let encoded ← E.encode text
  if encoded.ids.length ≤ budget then
    return [text]
  return (walk text budget encoded.offsets).chunks

/-! ## What the loop leaves -/

variable {text : Text} {budget : Nat} {ends : List Nat}

/-- The pieces of `count` runs of tokens, from the `k`-th run on, that are not blank. -/
def pieces (text : Text) (budget : Nat) (ends : List Nat) (k count : Nat) : List Text :=
  (List.range' k count).filterMap fun k =>
    piece text (cutAt ends budget k) (cutAt ends budget (k + 1))

theorem pieces_succ (k count : Nat) :
    pieces text budget ends k (count + 1) =
      (piece text (cutAt ends budget k) (cutAt ends budget (k + 1))).toList ++
        pieces text budget ends (k + 1) count := by
  rw [pieces, List.range'_succ, List.filterMap_cons, pieces]
  split
  case h_1 hnone => simp [hnone]
  case h_2 hsome => simp [hsome]

theorem pieces_concat (k count : Nat) :
    pieces text budget ends k (count + 1) =
      pieces text budget ends k count ++
        (piece text (cutAt ends budget (k + count))
          (cutAt ends budget (k + count + 1))).toList := by
  rw [pieces, List.range'_1_concat, List.filterMap_append, ← pieces, List.filterMap_cons,
    List.filterMap_nil]
  split
  case h_1 hnone => simp [hnone]
  case h_2 hsome => simp [hsome]

/-- The state of the loop after `done` tokens, none of them the last: it has the pieces of the
runs that are full, and counts the tokens since. -/
structure Walked (text : Text) (budget : Nat) (ends : List Nat) (done : Nat) (w : Walk) : Prop where
  chunks : w.chunks = pieces text budget ends 0 (done / budget)
  start : w.start = cutAt ends budget (done / budget)
  taken : w.taken = done % budget

theorem Walked.zero : Walked text budget ends 0 ⟨[], 0, 0⟩ where
  chunks := by simp [pieces]
  start := by simp
  taken := by simp

/-- A turn that cuts adds the piece of one more run. -/
theorem Walked.cut {done stop count : Nat} {w : Walk} (h : Walked text budget ends done w)
    (hstop : cutAt ends budget (done / budget + 1) = stop)
    (hcut : done % budget + 1 ≥ budget ∨ done + 1 = count) :
    w.turn text budget count stop done =
      ⟨pieces text budget ends 0 (done / budget + 1), stop, 0⟩ := by
  rw [Walk.turn, h.taken, if_pos hcut, h.chunks, h.start, pieces_concat, Nat.zero_add, hstop]

/-- A turn for a token that is not the last. -/
theorem Walked.turn {done stop : Nat} {w : Walk} (count : Nat) (hbudget : 1 ≤ budget)
    (h : Walked text budget ends done w) (hstop : ends.take (done + 1) = ends.take done ++ [stop])
    (hcount : done + 1 < count) :
    Walked text budget ends (done + 1) (w.turn text budget count stop done) := by
  have hplace := Nat.div_add_mod done budget
  have hmod := Nat.mod_lt done hbudget
  by_cases hfull : done % budget + 1 = budget
  · -- The run is full, and the cut is made where this token ends.
    have hdone : done + 1 = (done / budget + 1) * budget := by
      rw [Nat.succ_mul, Nat.mul_comm]
      omega
    have hat : cutAt ends budget (done / budget + 1) = stop := by
      rw [hdone] at hstop
      exact cutAt_of_take hstop
    rw [h.cut hat (.inl hfull.ge)]
    have hdiv : (done + 1) / budget = done / budget + 1 := by
      rw [hdone, Nat.mul_div_cancel _ hbudget]
    refine ⟨by rw [hdiv], by rw [hdiv, hat], ?_⟩
    rw [hdone, Nat.mul_mod_left]
  · have hnext : (done + 1) / budget = done / budget ∧ (done + 1) % budget = done % budget + 1 := by
      rw [Nat.div_mod_unique hbudget]
      omega
    have hturn : w.turn text budget count stop done = { w with taken := done % budget + 1 } := by
      rw [Walk.turn, h.taken, if_neg (by omega)]
    rw [hturn]
    refine ⟨?_, ?_, hnext.2.symm⟩
    · rw [hnext.1]
      exact h.chunks
    · rw [hnext.1]
      exact h.start

/-- The rest of the loop, from any state of it. -/
theorem Walked.foldl {before : List Nat} {rest : List (Nat × Nat)} {w : Walk} (hbudget : 1 ≤ budget)
    (h : Walked text budget ends before.length w) (hends : ends = before ++ rest.map Prod.snd)
    (hrest : rest ≠ []) :
    ((rest.zipIdx before.length).foldl
      (fun w token => w.turn text budget ends.length token.1.2 token.2) w).chunks =
        pieces text budget ends 0 ((ends.length - 1) / budget + 1) := by
  induction rest generalizing before w with
  | nil => cases hrest rfl
  | cons token rest ih =>
    rw [List.zipIdx_cons, List.foldl_cons]
    have hstop : ends.take (before.length + 1) = ends.take before.length ++ [token.2] := by
      simp [hends, List.take_append, List.take_of_length_le]
    have hlength : ends.length = before.length + 1 + rest.length := by
      rw [hends, List.length_append, List.length_map, List.length_cons]
      omega
    cases rest with
    | nil =>
      -- The last token ends a run, full or not.
      have hplace := Nat.lt_div_mul_add (a := before.length) hbudget
      have hall : ends.length ≤ (before.length / budget + 1) * budget := by
        rw [Nat.succ_mul, hlength, List.length_nil]
        omega
      have hat : cutAt ends budget (before.length / budget + 1) = token.2 := by
        rw [cutAt_of_le hall, hends, List.map_singleton, last_concat]
      rw [List.zipIdx_nil, List.foldl_nil, h.cut hat (.inr hlength.symm), hlength]
      rfl
    | cons next rest =>
      have hmore : before.length + 1 < ends.length := by
        rw [hlength, List.length_cons]
        omega
      have hturn := h.turn ends.length hbudget hstop hmore
      rw [← List.length_concat (a := token.2)] at hturn ⊢
      exact ih hturn (by rw [hends]; simp) (List.cons_ne_nil _ _)

/-- **What the loop leaves**: the pieces of all runs that are not blank. -/
theorem walk_chunks {offsets : List (Nat × Nat)} (hbudget : 1 ≤ budget) (hoffsets : offsets ≠ []) :
    (walk text budget offsets).chunks =
      pieces text budget (offsets.map Prod.snd) 0 ((offsets.length - 1) / budget + 1) := by
  have hzero : Walked text budget (offsets.map Prod.snd) ([] : List Nat).length ⟨[], 0, 0⟩ :=
    Walked.zero
  have hloop := hzero.foldl hbudget rfl hoffsets
  rw [List.length_map] at hloop
  exact hloop

/-! ## Slices of a text -/

/-- Nothing but whitespace. -/
def Blank (s : Text) : Prop := ∀ c ∈ s, isWhitespace c

instance (s : Text) : Decidable (Blank s) := List.decidableBAll _ s

theorem Blank.append {s t : Text} (hs : Blank s) (ht : Blank t) : Blank (s ++ t) := by
  intro c hc
  exact (List.mem_append.1 hc).elim (hs c) (ht c)

theorem trim_eq_nil_iff {s : Text} : trim s = [] ↔ Blank s := by
  rw [trim, List.reverse_eq_nil_iff, List.dropWhile_eq_nil_iff]
  constructor
  · intro hend c hc
    rw [← List.takeWhile_append_dropWhile (p := isWhitespace) (l := s), List.mem_append] at hc
    obtain hc | hc := hc
    · exact List.mem_takeWhile_imp hc
    · exact hend c (List.mem_reverse.2 hc)
  · intro h c hc
    exact h c (List.dropWhile_subset _ (List.mem_reverse.1 hc))

theorem piece_eq_none {start stop : Nat} {s : Text} (hget : get text start stop = some s)
    (hblank : Blank s) : piece text start stop = none := by
  simp [piece, hget, trim_eq_nil_iff.2 hblank]

theorem piece_eq_some {start stop : Nat} {s : Text} (hget : get text start stop = some s)
    (hblank : ¬Blank s) : piece text start stop = some s := by
  rw [← trim_eq_nil_iff] at hblank
  simp [piece, hget, hblank]

/-- Strings that are slices of a text, in order and none of them over another: what is between
two of them is blank, and so is what is between the last of them and the position `last`.  The
text is what follows the first `pos` bytes of a longer one, and each slice fits where it is. -/
inductive Slices (fits : Nat → Nat → Prop) (last : Nat) : Nat → Text → List Text → Prop
  | done {pos : Nat} {gap rest : Text} (hgap : Blank gap) (hlast : last ≤ pos + size gap) :
      Slices fits last pos (gap ++ rest) []
  | slice {pos : Nat} {gap chunk rest : Text} {chunks : List Text} (hgap : Blank gap)
      (hfits : fits (pos + size gap) (pos + size gap + size chunk))
      (hrest : Slices fits last (pos + size gap + size chunk) rest chunks) :
      Slices fits last pos (gap ++ (chunk ++ rest)) (chunk :: chunks)

/-- What is blank before a string that is not is as long as the text says. -/
theorem gap_unique {gap gap' s rest rest' : Text} (hs : ¬Blank s) (hgap : Blank gap)
    (hgap' : Blank gap') (h : gap ++ (s ++ rest) = gap' ++ (s ++ rest')) :
    gap = gap' ∧ rest = rest' := by
  have hstart : ∀ {g r : Text}, Blank g →
      (g ++ (s ++ r)).takeWhile isWhitespace = g ++ s.takeWhile isWhitespace := by
    intro g r hg
    rw [List.takeWhile_append_of_pos hg]
    congr 1
    rw [List.takeWhile_append, if_neg]
    intro hlength
    apply hs
    apply List.takeWhile_eq_self_iff.1
    exact (List.takeWhile_prefix _).eq_of_length hlength
  have heq := hstart (r := rest) hgap
  rw [h, hstart hgap'] at heq
  obtain rfl := List.append_cancel_right heq
  rw [List.append_cancel_left_eq, List.append_cancel_left_eq] at h
  exact ⟨rfl, h⟩

variable {fits : Nat → Nat → Prop} {lastEnd : Nat}

/-- A slice that is not blank, after what is blank. -/
theorem slices_cons_iff {pos : Nat} {gap s rest : Text} {chunks : List Text} (hgap : Blank gap)
    (hs : ¬Blank s) :
    Slices fits lastEnd pos (gap ++ (s ++ rest)) (s :: chunks) ↔
      fits (pos + size gap) (pos + size gap + size s) ∧
        Slices fits lastEnd (pos + size gap + size s) rest chunks := by
  constructor
  · intro h
    generalize htext : gap ++ (s ++ rest) = t at h
    cases h with
    | slice hgap' hfits hrest =>
      obtain ⟨rfl, rfl⟩ := gap_unique hs hgap hgap' htext
      exact ⟨hfits, hrest⟩
  · rintro ⟨hfits, hrest⟩
    exact .slice hgap hfits hrest

/-- A text that is one slice of itself fits as it is. -/
theorem Slices.fits_whole {s : Text} (h : Slices fits lastEnd 0 s [s]) (hs : ¬Blank s) :
    fits 0 (size s) := by
  have hparts : Slices fits lastEnd 0 ([] ++ (s ++ [])) [s] := by simpa using h
  have hfits := ((slices_cons_iff (by simp [Blank]) hs).1 hparts).1
  simpa using hfits

/-- No run of tokens, from the `k`-th on, has a piece that is not blank and does not fit. -/
def Fit (fits : Nat → Nat → Prop) (text : Text) (budget : Nat) (ends : List Nat) (k count : Nat) :
    Prop :=
  ∀ j, k ≤ j → j < k + count →
    (piece text (cutAt ends budget j) (cutAt ends budget (j + 1))).isSome →
      fits (cutAt ends budget j) (cutAt ends budget (j + 1))

theorem fit_succ_iff {k count : Nat} :
    Fit fits text budget ends k (count + 1) ↔
      ((piece text (cutAt ends budget k) (cutAt ends budget (k + 1))).isSome →
        fits (cutAt ends budget k) (cutAt ends budget (k + 1))) ∧
      Fit fits text budget ends (k + 1) count := by
  constructor
  · intro h
    exact ⟨h k (Nat.le_refl _) (by omega), fun j hlow hhigh => h j (by omega) (by omega)⟩
  · rintro ⟨hfirst, hrest⟩ j hlow hhigh
    obtain rfl | hlt := Nat.eq_or_lt_of_le hlow
    · exact hfirst
    · exact hrest j hlt (by omega)

/-- **The pieces of the runs** are slices of the text, each of which fits, exactly where no piece
that is not blank fails to. -/
theorem slices_iff {k count : Nat} {before gap rest : Text}
    (hordered : ends.Pairwise (· ≤ ·)) (hboundary : ∀ e ∈ ends, Boundary text e)
    (hall : ends.length ≤ (k + count) * budget) (htext : text = before ++ (gap ++ rest))
    (hgap : Blank gap) (hpos : size before + size gap = cutAt ends budget k) :
    Slices fits (last ends) (size before) (gap ++ rest) (pieces text budget ends k count) ↔
      Fit fits text budget ends k count := by
  induction count generalizing k before gap rest with
  | zero =>
    have hdone : last ends ≤ size before + size gap := by
      rw [hpos, cutAt_of_le (by simpa using hall)]
    have hslices : Slices fits (last ends) (size before) (gap ++ rest) [] := .done hgap hdone
    simp only [pieces, List.range'_zero, List.filterMap_nil, hslices, true_iff]
    intro j hlow hhigh
    omega
  | succ count ih =>
    have hcut : ∀ j, Boundary text (cutAt ends budget j) := by
      intro j
      obtain hmem | hzero := cutAt_mem_or_zero ends budget j
      · exact hboundary _ hmem
      · exact hzero ▸ Boundary.zero text
    obtain ⟨s, hget⟩ := (hcut k).get (hcut (k + 1)) (cutAt_le_cutAt hordered)
    obtain ⟨a, rest', hsplit, ha, hs⟩ := get_eq_some_iff.1 hget
    obtain ⟨rfl, rfl⟩ : a = before ++ gap ∧ s ++ rest' = rest := by
      apply append_inj
      · simpa [htext] using hsplit.symm
      · rw [ha, size_append, hpos]
    have hall' : ends.length ≤ (k + 1 + count) * budget := by
      rwa [Nat.add_right_comm, Nat.add_assoc]
    rw [pieces_succ, fit_succ_iff]
    by_cases hblank : Blank s
    · -- A blank piece is dropped, and widens the gap.
      have hpos' : size before + size (gap ++ s) = cutAt ends budget (k + 1) := by
        rw [size_append]
        omega
      have hnext := ih hall' (by rw [htext, List.append_assoc gap]) (hgap.append hblank) hpos'
      rw [piece_eq_none hget hblank]
      simpa using hnext
    · have hpos' : size (before ++ gap ++ s) + size [] = cutAt ends budget (k + 1) := by
        simp only [size_append, size_nil]
        omega
      have htext' : text = before ++ gap ++ s ++ ([] ++ rest') := by simpa using htext
      have hnext := ih hall' htext' (by simp [Blank]) hpos'
      rw [piece_eq_some hget hblank, Option.toList_some, List.singleton_append,
        slices_cons_iff hgap hblank, ← hnext, size_append, size_append, hpos, hs]
      simp

/-! ## The chunks -/

/-- The byte position a piece that is not blank ends at is after the one it starts at. -/
theorem lt_of_isSome_piece {start stop : Nat} (h : (piece text start stop).isSome) :
    start < stop := by
  obtain ⟨s, hs⟩ := Option.isSome_iff_exists.1 h
  rw [piece, Option.filter_eq_some_iff] at hs
  obtain ⟨hget, hkept⟩ := hs
  obtain ⟨a, b, htext, hstart, hstop⟩ := get_eq_some_iff.1 hget
  have hsize : size s ≠ 0 := by
    intro hzero
    simp [eq_nil_of_size hzero, trim] at hkept
  omega

/-- Where a run's piece is not blank, no more of the tokens after the run end at the very byte the
run ends at than tokens of the run end at the byte it starts from. -/
def Level (text : Text) (budget : Nat) (ends : List Nat) : Prop :=
  ∀ k, (piece text (cutAt ends budget k) (cutAt ends budget (k + 1))).isSome →
    (later ends budget k).count (cutAt ends budget (k + 1)) ≤
      (run ends budget k).count (cutAt ends budget k)

/-- Where no two tokens end at one position, no token is level with a cut it comes after. -/
theorem Level.of_strict (hstrict : ends.Pairwise (· < ·)) : Level text budget ends := by
  intro k hpiece
  rw [count_later_eq_zero hstrict (lt_of_isSome_piece hpiece)]
  exact Nat.zero_le _

theorem fit_iff_level (hbudget : 1 ≤ budget) (hordered : ends.Pairwise (· ≤ ·)) :
    Fit (fun start stop => between ends start stop ≤ budget) text budget ends 0
      ((ends.length - 1) / budget + 1) ↔ Level text budget ends := by
  constructor
  · intro h k hpiece
    have hlt := lt_of_isSome_piece hpiece
    rw [← between_le_iff hordered hlt]
    refine h k (Nat.zero_le _) ?_ hpiece
    -- Past the last run, both cuts are where the last token ends.
    rw [Nat.zero_add, Nat.lt_succ_iff, Nat.le_div_iff_mul_le hbudget]
    by_contra hpast
    have hnext : ends.length ≤ (k + 1) * budget := by
      rw [Nat.succ_mul]
      omega
    rw [cutAt_of_le hnext, cutAt_of_le (k := k) (by omega)] at hlt
    exact Nat.lt_irrefl _ hlt
  · intro h k _ _ hpiece
    exact (between_le_iff hordered (lt_of_isSome_piece hpiece)).2 (h k hpiece)

variable {E : Embedder} {encoded : Encoding}

/-- What the code returns: the text as it is when it fits, and otherwise the pieces of its runs. -/
theorem chunks_eq (hbudget : E.budget = .ok budget) (hpos : 1 ≤ budget)
    (hencoded : E.encode text = .ok encoded) :
    E.chunks text = .ok (if encoded.ids.length ≤ budget then [text]
      else pieces text budget encoded.ends 0 ((encoded.ends.length - 1) / budget + 1)) := by
  have hchunks : E.chunks text = if encoded.ids.length ≤ budget then .ok [text]
      else .ok (walk text budget encoded.offsets).chunks := by
    rw [Embedder.chunks, hbudget, hencoded]
    rfl
  rw [hchunks]
  split
  case isTrue => rfl
  case isFalse hlong =>
    have hoffsets : encoded.offsets ≠ [] := by
      intro hnil
      rw [encoded.length_ids, hnil] at hlong
      exact hlong (Nat.zero_le _)
    rw [walk_chunks hpos hoffsets, Encoding.ends, List.length_map]

/-- What is asked of the slices of a text that is returned whole. -/
theorem slices_whole {fits : Nat → Nat → Prop} (hboundary : ∀ e ∈ ends, Boundary text e)
    (hfits : fits 0 (size text)) : Slices fits (last ends) 0 text [text] := by
  have hlast : last ends ≤ size text := by
    obtain hmem | hzero := last_mem_or_zero ends
    · exact (hboundary _ hmem).le_size
    · exact hzero ▸ Nat.zero_le _
  have hdone : Slices fits (last ends) (size text) ([] ++ []) [] :=
    .done (by simp [Blank]) (by simpa using hlast)
  have hslice : Slices fits (last ends) 0 ([] ++ (text ++ [])) [text] := by
    apply Slices.slice
    · simp [Blank]
    · simpa using hfits
    · simpa using hdone
  simpa using hslice

/-- The chunks are slices of the text, and when they are slices that fit. -/
theorem chunks_slices_iff (fits : Nat → Nat → Prop) (hbudget : E.budget = .ok budget)
    (hpos : 1 ≤ budget) (hencoded : E.encode text = .ok encoded)
    (hordered : encoded.ends.Pairwise (· ≤ ·)) (hboundary : ∀ e ∈ encoded.ends, Boundary text e)
    (hwhole : encoded.ids.length ≤ budget → fits 0 (size text)) :
    ∃ chunks, E.chunks text = .ok chunks ∧
      (Slices fits (last encoded.ends) 0 text chunks ↔ encoded.ids.length ≤ budget ∨
        Fit fits text budget encoded.ends 0 ((encoded.ends.length - 1) / budget + 1)) := by
  refine ⟨_, chunks_eq hbudget hpos hencoded, ?_⟩
  split
  case isTrue hfit => simp [hfit, slices_whole hboundary (hwhole hfit)]
  case isFalse hlong =>
    have hplace := Nat.lt_div_mul_add (a := encoded.ends.length - 1) hpos
    have hall : encoded.ends.length ≤ (0 + ((encoded.ends.length - 1) / budget + 1)) * budget := by
      rw [Nat.zero_add, Nat.succ_mul]
      omega
    have hiff : Slices fits (last encoded.ends) (size []) ([] ++ text)
        (pieces text budget encoded.ends 0 ((encoded.ends.length - 1) / budget + 1)) ↔ _ :=
      slices_iff hordered hboundary hall rfl (by simp [Blank]) (by simp)
    simpa [hlong] using hiff

/-- **The chunks lose nothing**: they are slices of the text in order, each from one cut to the
next, and what is in none of them is whitespace or after the last token. -/
theorem chunks_lose_nothing (hbudget : E.budget = .ok budget) (hpos : 1 ≤ budget)
    (hencoded : E.encode text = .ok encoded) (hordered : encoded.ends.Pairwise (· ≤ ·))
    (hboundary : ∀ e ∈ encoded.ends, Boundary text e) :
    ∃ chunks, E.chunks text = .ok chunks ∧
      Slices (fun start stop => encoded.ids.length ≤ budget ∨ ∃ k,
        start = cutAt encoded.ends budget k ∧ stop = cutAt encoded.ends budget (k + 1))
        (last encoded.ends) 0 text chunks := by
  obtain ⟨chunks, hchunks, hiff⟩ :=
    chunks_slices_iff (fun start stop => encoded.ids.length ≤ budget ∨ ∃ k,
      start = cutAt encoded.ends budget k ∧ stop = cutAt encoded.ends budget (k + 1))
      hbudget hpos hencoded hordered hboundary Or.inl
  exact ⟨chunks, hchunks, hiff.2 (.inr fun k _ _ _ => .inr ⟨k, rfl, rfl⟩)⟩

/-- **The chunks fit**: they are slices of the text in order, none with more tokens than the
budget, exactly where the text has no more than the budget itself or its cuts are level. -/
theorem chunks_fit_iff (hbudget : E.budget = .ok budget) (hpos : 1 ≤ budget)
    (hencoded : E.encode text = .ok encoded) (hordered : encoded.ends.Pairwise (· ≤ ·))
    (hboundary : ∀ e ∈ encoded.ends, Boundary text e) :
    ∃ chunks, E.chunks text = .ok chunks ∧
      (Slices (fun start stop => between encoded.ends start stop ≤ budget) (last encoded.ends) 0
        text chunks ↔ encoded.ids.length ≤ budget ∨ Level text budget encoded.ends) := by
  rw [← fit_iff_level hpos hordered]
  apply chunks_slices_iff _ hbudget hpos hencoded hordered hboundary
  intro hfit
  calc between encoded.ends 0 (size text) ≤ encoded.ends.length := between_le_length _ _
    _ = encoded.ids.length := encoded.length_ends
    _ ≤ budget := hfit

/-! ## A tokenizer of characters -/

/-- The bytes that the tokens of a text are about, when each character is one token and the
fraction `½`, which is three characters once it is decomposed, is three. -/
def characterOffsets : Nat → Text → List (Nat × Nat)
  | _, [] => []
  | pos, c :: text =>
    List.replicate (if c = '½' then 3 else 1) (pos, pos + c.utf8Size) ++
      characterOffsets (pos + c.utf8Size) text

/-- What a tokenizer of characters gives, with one id for all of them. -/
def characterTokens (text : Text) : Encoding where
  ids := (characterOffsets 0 text).map fun _ => 3
  offsets := characterOffsets 0 text
  length_ids := List.length_map _

def characters : Embedder := ⟨fun text => .ok (characterTokens text)⟩

theorem boundary_of_mem_characterOffsets {pos : Nat} {text : Text} {token : Nat × Nat}
    (h : token ∈ characterOffsets pos text) : ∃ n, Boundary text n ∧ token.2 = pos + n := by
  induction text generalizing pos with
  | nil => cases h
  | cons c text ih =>
    rw [characterOffsets, List.mem_append, List.mem_replicate] at h
    obtain ⟨-, rfl⟩ | h := h
    · exact ⟨c.utf8Size, (Boundary.zero text).cons c, rfl⟩
    · obtain ⟨n, hn, hend⟩ := ih h
      exact ⟨c.utf8Size + n, hn.cons c, by omega⟩

theorem pairwise_characterOffsets (pos : Nat) (text : Text) :
    (characterOffsets pos text).Pairwise fun a b => a.2 ≤ b.2 := by
  induction text generalizing pos with
  | nil => exact List.Pairwise.nil
  | cons c text ih =>
    rw [characterOffsets, List.pairwise_append]
    refine ⟨List.pairwise_replicate.2 (.inr (Nat.le_refl _)), ih _, ?_⟩
    intro a ha b hb
    obtain ⟨n, -, hend⟩ := boundary_of_mem_characterOffsets hb
    rw [List.eq_of_mem_replicate ha, hend]
    exact Nat.le_add_right _ _

theorem ordered_characterTokens (text : Text) :
    (characterTokens text).ends.Pairwise (· ≤ ·) :=
  List.pairwise_map.2 (pairwise_characterOffsets 0 text)

theorem boundary_characterTokens (text : Text) :
    ∀ e ∈ (characterTokens text).ends, Boundary text e := by
  intro e he
  obtain ⟨token, htoken, rfl⟩ := List.mem_map.1 he
  obtain ⟨n, hn, hend⟩ := boundary_of_mem_characterOffsets htoken
  rwa [hend, Nat.zero_add]

/-- One letter more than the window has room for. -/
def letters : Text := List.replicate 502 'a'

/-- The last letter becomes a chunk of its own. -/
theorem letters_become_two_chunks : ∃ chunks, characters.chunks letters = .ok chunks ∧
    Slices (fun start stop => between (characterTokens letters).ends start stop ≤ 501)
      (last (characterTokens letters).ends) 0 letters chunks := by
  have hends : (characterTokens letters).ends = List.range' 1 502 := by decide +kernel
  have hlevel : Level letters 501 (characterTokens letters).ends := by
    rw [hends]
    exact Level.of_strict List.pairwise_lt_range'
  have hbudget : characters.budget = .ok 501 := by decide +kernel
  have hencoded : characters.encode letters = .ok (characterTokens letters) := rfl
  obtain ⟨chunks, hchunks, hiff⟩ := chunks_fit_iff hbudget (by decide) hencoded
    (ordered_characterTokens _) (boundary_characterTokens _)
  exact ⟨chunks, hchunks, hiff.2 (.inr hlevel)⟩

/-- As many characters as the window has room for, the last of them three tokens. -/
def halves : Text := List.replicate 500 'a' ++ ['½']

/-- The text is returned whole, with two tokens more than there is room for: the cut after the
first token of the fraction takes all of its bytes. -/
theorem halves_do_not_fit :
    characters.budget = .ok 501 ∧ characters.encode halves = .ok (characterTokens halves) ∧
      (characterTokens halves).ends.Pairwise (· ≤ ·) ∧
      (∀ e ∈ (characterTokens halves).ends, Boundary halves e) ∧
      characters.chunks halves = .ok [halves] ∧
      ¬Slices (fun start stop => between (characterTokens halves).ends start stop ≤ 501)
        (last (characterTokens halves).ends) 0 halves [halves] := by
  refine ⟨by decide +kernel, rfl, ordered_characterTokens _, boundary_characterTokens _,
    by decide +kernel, ?_⟩
  have hblank : ¬Blank halves := by decide +kernel
  have hmore : ¬between (characterTokens halves).ends 0 (size halves) ≤ 501 := by decide +kernel
  exact fun h => hmore (h.fits_whole hblank)

end EuleDB.Embed
