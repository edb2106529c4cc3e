import Mathlib.Data.List.Nodup

/-!
# Lists whose entries carry a key

* `filter_mergeSort` — sorting does not move entries that are in order among themselves.
* `filter_flatMap` — blocks that belong to different keys are read back key by key.
-/

set_option autoImplicit false

namespace Keyed

variable {α β κ : Type} [DecidableEq κ]

/-- Sorting leaves the entries that satisfy `p` as they are, where they are in order. -/
theorem filter_mergeSort {le : α → α → Bool} (trans : ∀ a b c, le a b → le b c → le a c)
    (total : ∀ a b, (le a b || le b a) = true) {l : List α} {p : α → Bool}
    (hsorted : (l.filter p).Pairwise fun a b => le a b) :
    (l.mergeSort le).filter p = l.filter p := by
  have hsub : List.Sublist (l.filter p) (l.mergeSort le) :=
    List.sublist_mergeSort trans total hsorted List.filter_sublist
  have hkept : List.Sublist (l.filter p) ((l.mergeSort le).filter p) := by
    have := hsub.filter p
    rwa [List.filter_filter, List.filter_congr fun x _ => Bool.and_self (p x)] at this
  have hperm : ((l.mergeSort le).filter p).Perm (l.filter p) :=
    (List.mergeSort_perm l le).filter p
  exact (hkept.eq_of_length hperm.length_eq.symm).symm

/-- A block of entries that all carry one key has none of another. -/
theorem filter_block {key : β → κ} {k k' : κ} {block : List β} (hblock : ∀ b ∈ block, key b = k) :
    (block.filter fun b => key b = k') = if k = k' then block else [] := by
  split_ifs with heq
  · rw [List.filter_eq_self]
    intro b hb
    simpa using (hblock b hb).trans heq
  · rw [List.filter_eq_nil_iff]
    intro b hb
    simpa [hblock b hb] using heq

/-- Blocks of entries, one block for each of several keys, read back by key. -/
theorem filter_flatMap {name : α → κ} {key : β → κ} {f : α → List β} {l : List α} {a : α}
    (hkeys : ∀ a, ∀ b ∈ f a, key b = name a) (hnodup : (l.map name).Nodup) (ha : a ∈ l) :
    ((l.flatMap f).filter fun b => key b = name a) = f a := by
  induction l with
  | nil => cases ha
  | cons first l ih =>
    rw [List.map_cons, List.nodup_cons] at hnodup
    rw [List.flatMap_cons, List.filter_append, filter_block (hkeys first)]
    rcases List.mem_cons.1 ha with rfl | hrest
    · have hnone : ((l.flatMap f).filter fun b => key b = name a) = [] := by
        rw [List.filter_eq_nil_iff]
        intro b hb
        obtain ⟨other, hother, hb⟩ := List.mem_flatMap.1 hb
        have hne : name other ≠ name a := by
          intro heq
          exact hnodup.1 (heq ▸ List.mem_map_of_mem hother)
        simpa [hkeys other b hb] using hne
      rw [if_pos rfl, hnone, List.append_nil]
    · have hne : name first ≠ name a := by
        intro heq
        exact hnodup.1 (heq ▸ List.mem_map_of_mem hrest)
      rw [if_neg hne, List.nil_append, ih hnodup.2 hrest]

end Keyed
