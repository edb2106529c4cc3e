import Mathlib.Data.List.Basic
import Mathlib.Tactic.Ring

/-!
# Slices and chunks of lists

Two views of one list: the half-open slice `slice s e l`, and the list of consecutive
pieces `chunks n l` of `n` elements (the last one possibly shorter).

* `slice_append`, `slice_flatMap` — a slice of a concatenation is the concatenation of the
  slices of its parts, each taken relative to where the part starts.
* `chunks_cons`, `chunks_append` — `chunks` peels off one full piece at a time.
* `chunks_flatten` — cutting a concatenation of full pieces gives the pieces back.
* `chunks_slice` — a slice that starts and ends on piece boundaries has as its
  pieces exactly the pieces of the whole that it covers.
-/

set_option autoImplicit false

namespace Slice

variable {α : Type*}

/-- `l[start..stop]`, clamped to the list. -/
def slice (start stop : Nat) (l : List α) : List α := (l.take stop).drop start

@[simp] theorem length_slice (s e : Nat) (l : List α) :
    (slice s e l).length = min e l.length - s := by
  simp [slice]

@[simp] theorem slice_nil (s e : Nat) : slice s e ([] : List α) = [] := by
  simp [slice]

theorem getElem?_slice (s e i : Nat) (l : List α) :
    (slice s e l)[i]? = if s + i < e then l[s + i]? else none := by
  unfold slice
  rw [List.getElem?_drop, List.getElem?_take]

theorem slice_of_le {s e : Nat} (h : e ≤ s) (l : List α) : slice s e l = [] :=
  List.drop_eq_nil_of_le (by simp; omega)

theorem slice_of_length_le {s : Nat} {l : List α} (e : Nat) (h : l.length ≤ s) :
    slice s e l = [] :=
  List.drop_eq_nil_of_le (by simp; omega)

theorem slice_all {e : Nat} {l : List α} (h : l.length ≤ e) : slice 0 e l = l := by
  simp [slice, List.take_of_length_le h]

theorem slice_min_length (s e : Nat) (l : List α) :
    slice s (min e l.length) l = slice s e l := by
  unfold slice
  rw [← List.take_eq_take_min]

theorem slice_append (s e : Nat) (a b : List α) :
    slice s e (a ++ b) = slice s e a ++ slice (s - a.length) (e - a.length) b := by
  unfold slice
  rw [List.take_append, List.drop_append, List.length_take]
  by_cases h : e ≤ a.length
  · rw [show e - a.length = 0 by omega]; simp
  · rw [show min e a.length = a.length by omega]

/-- Slicing a slice: both bounds shift by where the first one starts. -/
theorem slice_slice (s e s' e' : Nat) (l : List α) :
    slice s' e' (slice s e l) = slice (s + s') (min (s + e') e) l := by
  refine List.ext_getElem? fun i => ?_
  simp only [getElem?_slice, Nat.add_assoc]
  split_ifs <;> first | rfl | omega

theorem slice_drop (k s e : Nat) (l : List α) :
    slice s e (l.drop k) = slice (k + s) (k + e) l := by
  refine List.ext_getElem? fun i => ?_
  simp only [getElem?_slice, List.getElem?_drop, Nat.add_assoc]
  split_ifs <;> first | rfl | omega

/-- Two adjacent slices join. -/
theorem slice_append_slice {s m e : Nat} (hs : s ≤ m) (he : m ≤ e) (l : List α) :
    slice s m l ++ slice m e l = slice s e l := by
  refine List.ext_getElem? fun i => ?_
  rw [List.getElem?_append, length_slice]
  simp only [getElem?_slice]
  by_cases hl : m ≤ l.length
  · rw [Nat.min_eq_left hl]
    by_cases hi : i < m - s
    · rw [if_pos hi, if_pos (by omega), if_pos (by omega)]
    · rw [if_neg hi, show m + (i - (m - s)) = s + i by omega]
  · have hnone : ∀ j, m ≤ j → l[j]? = none := fun j hj => List.getElem?_eq_none (by omega)
    rw [Nat.min_eq_right (by omega)]
    by_cases hi : i < l.length - s
    · rw [if_pos hi, if_pos (by omega), if_pos (by omega)]
    · have hlen : l[s + i]? = none := List.getElem?_eq_none (by omega)
      rw [if_neg hi, hnone _ (by omega), hlen, ite_self, ite_self]

/-- Consecutive slices of `n` elements add up to one slice. -/
theorem slice_flatMap (n k count : Nat) (l : List α) :
    (List.range' k count).flatMap (fun i => slice (i * n) ((i + 1) * n) l) =
      slice (k * n) ((k + count) * n) l := by
  induction count generalizing k with
  | zero => simp [slice_of_le]
  | succ count ih =>
    rw [List.range'_succ, List.flatMap_cons, ih, show k + 1 + count = k + (count + 1) by omega]
    exact slice_append_slice (Nat.mul_le_mul_right n (by omega))
      (Nat.mul_le_mul_right n (by omega)) l

/-- The middle of three parts. -/
theorem slice_middle {s e : Nat} {a b : List α} (c : List α) (ha : a.length = s)
    (hb : s + b.length = e) : slice s e (a ++ b ++ c) = b := by
  have hlen : (a ++ b).length = e := by rw [List.length_append]; omega
  unfold slice
  rw [List.take_left' hlen, List.drop_left' ha]

/-! ## Chunks -/

/-- The consecutive pieces of `n` elements; the last one holds what is left. -/
def chunks (n : Nat) (l : List α) : List (List α) :=
  (List.range ((l.length + n - 1) / n)).map fun i => slice (i * n) ((i + 1) * n) l

@[simp] theorem chunks_nil (n : Nat) : chunks n ([] : List α) = [] := by
  rcases Nat.eq_zero_or_pos n with rfl | hn
  · simp [chunks]
  · have : (n - 1) / n = 0 := Nat.div_eq_of_lt (by omega)
    simp [chunks, this]

theorem chunks_cons {n : Nat} (hn : 0 < n) {l : List α} (hl : l ≠ []) :
    chunks n l = l.take n :: chunks n (l.drop n) := by
  have hpos : 0 < l.length := List.length_pos_iff.2 hl
  have hcount : (l.length + n - 1) / n = ((l.drop n).length + n - 1) / n + 1 := by
    rw [List.length_drop]
    rcases Nat.le_total l.length n with h | h
    · rw [show l.length + n - 1 = l.length - 1 + n by omega, Nat.add_div_right _ hn,
        show l.length - n + n - 1 = n - 1 by omega, Nat.div_eq_of_lt (by omega : l.length - 1 < n),
        Nat.div_eq_of_lt (by omega : n - 1 < n)]
    · rw [show l.length + n - 1 = l.length - n + n - 1 + n by omega, Nat.add_div_right _ hn]
  unfold chunks
  rw [hcount, List.range_succ_eq_map, List.map_cons, List.map_map]
  congr 1
  · simp [slice]
  · refine List.map_congr_left fun i _ => ?_
    simp only [Function.comp_apply, slice_drop, Nat.succ_eq_add_one]
    congr 1 <;> ring

theorem chunks_append {n : Nat} (hn : 0 < n) {a : List α} (ha : a.length = n) (l : List α) :
    chunks n (a ++ l) = a :: chunks n l := by
  have hne : a ++ l ≠ [] := by
    intro h
    rw [List.append_eq_nil_iff] at h
    rw [h.1] at ha; simp at ha; omega
  rw [chunks_cons hn hne, List.take_left' ha, List.drop_left' ha]

theorem chunks_of_length_le {n : Nat} {l : List α} (hl : l ≠ []) (h : l.length ≤ n) :
    chunks n l = [l] := by
  have hn : 0 < n := Nat.lt_of_lt_of_le (List.length_pos_iff.2 hl) h
  rw [chunks_cons hn hl, List.take_of_length_le h, List.drop_eq_nil_of_le h, chunks_nil]

theorem chunks_drop {n : Nat} (hn : 0 < n) (k : Nat) (l : List α) :
    (chunks n l).drop k = chunks n (l.drop (k * n)) := by
  induction k generalizing l with
  | zero => simp
  | succ k ih =>
    by_cases hl : l = []
    · simp [hl]
    · rw [chunks_cons hn hl, List.drop_succ_cons, ih, List.drop_drop]
      congr 2; ring

theorem chunks_take {n : Nat} (hn : 0 < n) (k : Nat) (l : List α) :
    (chunks n l).take k = chunks n (l.take (k * n)) := by
  induction k generalizing l with
  | zero => simp
  | succ k ih =>
    by_cases hl : l = []
    · simp [hl]
    · have hne : l.take ((k + 1) * n) ≠ [] := by
        have := List.length_pos_iff.2 hl
        have hk : 0 < (k + 1) * n := Nat.mul_pos (by omega) hn
        intro h
        rw [List.take_eq_nil_iff] at h
        rcases h with h | h
        · omega
        · exact hl h
      have hle : n ≤ (k + 1) * n := Nat.le_mul_of_pos_left n (by omega)
      rw [chunks_cons hn hl, List.take_succ_cons, ih, chunks_cons hn hne, List.take_take,
        Nat.min_eq_left hle, List.drop_take]
      congr 4
      rw [Nat.add_mul, Nat.one_mul, Nat.add_sub_cancel]

@[simp] theorem length_chunks (n : Nat) (l : List α) :
    (chunks n l).length = (l.length + n - 1) / n := by
  simp [chunks]

theorem getElem?_chunks (n i : Nat) (l : List α) :
    (chunks n l)[i]? =
      if i < (l.length + n - 1) / n then some (slice (i * n) ((i + 1) * n) l) else none := by
  unfold chunks
  rw [List.getElem?_map]
  split_ifs with h
  · rw [List.getElem?_range h]; rfl
  · rw [List.getElem?_eq_none (by simpa using h)]; rfl

theorem flatten_chunks {n : Nat} (hn : 0 < n) (l : List α) : (chunks n l).flatten = l := by
  have h := slice_flatMap n 0 ((l.length + n - 1) / n) l
  have hdiv := Nat.div_add_mod (l.length + n - 1) n
  have hmod := Nat.mod_lt (l.length + n - 1) hn
  rw [Nat.mul_comm] at hdiv
  rw [Nat.zero_mul, Nat.zero_add, slice_all (by omega)] at h
  rwa [← List.range_eq_range', List.flatMap_def] at h

/-- Pieces that were full, all but a last one that may be shorter, are found again. -/
theorem chunks_flatten {n : Nat} (blocks : List (List α)) {last : List α}
    (hfull : ∀ b ∈ blocks, b.length = n) (hne : last ≠ []) (hle : last.length ≤ n) :
    chunks n (blocks ++ [last]).flatten = blocks ++ [last] := by
  have hn : 0 < n := Nat.lt_of_lt_of_le (List.length_pos_iff.2 hne) hle
  induction blocks with
  | nil => simpa using chunks_of_length_le hne hle
  | cons b blocks ih =>
    rw [List.cons_append, List.flatten_cons, chunks_append hn (hfull b List.mem_cons_self),
      ih fun b' hb' => hfull b' (List.mem_cons_of_mem b hb')]

theorem chunks_flatten_full {n : Nat} (hn : 0 < n) (blocks : List (List α))
    (hfull : ∀ b ∈ blocks, b.length = n) : chunks n blocks.flatten = blocks := by
  induction blocks with
  | nil => simp
  | cons b blocks ih =>
    rw [List.flatten_cons, chunks_append hn (hfull b List.mem_cons_self),
      ih fun b' hb' => hfull b' (List.mem_cons_of_mem b hb')]

/-- Full pieces and a last one: how long they are together. -/
theorem length_flatten_blocks {n k r : Nat} {blocks : List (List α)}
    (hcount : blocks.length = k + 1)
    (hfull : ∀ (i : Nat) b, blocks[i]? = some b → i < k → b.length = n)
    (hlast : ∀ b, blocks[k]? = some b → b.length = r) :
    blocks.flatten.length = k * n + r := by
  induction k generalizing blocks with
  | zero =>
    obtain ⟨b, rfl⟩ := List.length_eq_one_iff.1 hcount
    simpa using hlast b rfl
  | succ k ih =>
    obtain ⟨b, rest, rfl⟩ := List.exists_cons_of_length_eq_add_one hcount
    have hrest : rest.flatten.length = k * n + r := by
      refine ih (by simpa using hcount) (fun i b' hb' hi => ?_) (fun b' hb' => hlast b' hb')
      exact hfull (i + 1) b' hb' (by omega)
    rw [List.flatten_cons, List.length_append, hrest, hfull 0 b rfl (by omega)]
    ring

/-- A slice on piece boundaries has as its pieces the pieces it covers. -/
theorem chunks_slice {n : Nat} (hn : 0 < n) (first last : Nat) (l : List α) :
    chunks n (slice (first * n) (last * n) l) = ((chunks n l).take last).drop first := by
  rw [chunks_take hn, chunks_drop hn]; rfl

end Slice
