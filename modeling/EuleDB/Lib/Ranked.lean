import Mathlib.Data.List.TakeWhile
import Mathlib.Data.List.Perm.Basic

/-!
# Ranked lists

A list sorted by a comparison that orders its entries strictly.

* `OrdersOn.mergeSort_eq` — a sorted list with the same entries is the ranking.
* `OrdersOn.filter_mergeSort` — the ranking of some entries is the ranking, less the others.
* `OrdersOn.take_mergeSort_filter` — entries with enough of the others ahead of them do not matter
  for the first places.
-/

set_option autoImplicit false

namespace Ranked

variable {α β : Type} {le : α → α → Bool}

/-- A comparison that orders the entries of a list, none of them level with another. -/
structure OrdersOn (le : α → α → Bool) (l : List α) : Prop where
  total : ∀ a ∈ l, ∀ b ∈ l, le a b || le b a
  trans : ∀ a ∈ l, ∀ b ∈ l, ∀ c ∈ l, le a b → le b c → le a c
  antisymm : ∀ a ∈ l, ∀ b ∈ l, le a b → le b a → a = b

namespace OrdersOn

theorem mono {l l' : List α} (h : OrdersOn le l) (hsub : ∀ a ∈ l', a ∈ l) : OrdersOn le l' where
  total a ha b hb := h.total a (hsub a ha) b (hsub b hb)
  trans a ha b hb c hc := h.trans a (hsub a ha) b (hsub b hb) c (hsub c hc)
  antisymm a ha b hb := h.antisymm a (hsub a ha) b (hsub b hb)

theorem pairwise_mergeSort {l : List α} (h : OrdersOn le l) :
    (l.mergeSort le).Pairwise fun a b => le a b := by
  have hsorted : (l.attach.mergeSort fun a b => le a.1 b.1).Pairwise fun a b => le a.1 b.1 :=
    List.pairwise_mergeSort (fun a b c => h.trans a.1 a.2 b.1 b.2 c.1 c.2)
      (fun a b => h.total a.1 a.2 b.1 b.2) l.attach
  have hmap := List.map_mergeSort (r := fun a b : {a // a ∈ l} => le a.1 b.1) (s := le)
    (f := Subtype.val) (l := l.attach) fun _ _ _ _ => rfl
  rw [List.attach_map_subtype_val] at hmap
  rw [← hmap, List.pairwise_map]
  exact hsorted

/-- **A sorted list with the same entries is the ranking.** -/
theorem mergeSort_eq {l s : List α} (h : OrdersOn le l) (hperm : s.Perm l)
    (hsorted : s.Pairwise fun a b => le a b) : l.mergeSort le = s := by
  have hanti : ∀ a b, a ∈ l.mergeSort le → b ∈ s → le a b = true → le b a = true → a = b := by
    intro a b ha hb
    exact h.antisymm a (List.mem_mergeSort.1 ha) b (hperm.subset hb)
  exact List.Perm.eq_of_pairwise hanti h.pairwise_mergeSort hsorted
    ((List.mergeSort_perm l le).trans hperm.symm)

theorem mergeSort_congr {l l' : List α} (h : OrdersOn le l) (hperm : l'.Perm l) :
    l.mergeSort le = l'.mergeSort le := by
  apply h.mergeSort_eq ((List.mergeSort_perm l' le).trans hperm)
  exact (h.mono fun a ha => hperm.subset ha).pairwise_mergeSort

/-- **The ranking of some entries** is the ranking, less the others. -/
theorem filter_mergeSort {l : List α} (h : OrdersOn le l) (p : α → Bool) :
    (l.filter p).mergeSort le = (l.mergeSort le).filter p := by
  apply (h.mono fun a ha => (List.mem_filter.1 ha).1).mergeSort_eq
  · exact (List.mergeSort_perm l le).filter p
  · exact h.pairwise_mergeSort.sublist List.filter_sublist

/-- The others ahead of the first entry that does not matter stand at the places before it. -/
theorem length_ahead_le {s before after : List α} {a : α} {p : α → Bool} (h : OrdersOn le s)
    (hs : s = before ++ a :: after) (hsorted : s.Pairwise fun a b => le a b) (ha : ¬p a) :
    (s.filter fun b => p b && le b a).length ≤ before.length := by
  have hafter : after.filter (fun b => p b && le b a) = [] := by
    rw [List.filter_eq_nil_iff]
    intro b hb hahead
    rw [Bool.and_eq_true] at hahead
    rw [hs, List.pairwise_append] at hsorted
    have hbehind := (List.pairwise_cons.1 hsorted.2.1).1 b hb
    have hsame := h.antisymm a (by simp [hs]) b (by simp [hs, hb]) hbehind hahead.2
    exact ha (hsame ▸ hahead.1)
  rw [hs, List.filter_append, List.filter_cons_of_neg (by simp [ha]), hafter, List.append_nil]
  exact List.length_filter_le _ _

/-- **Entries with enough of the others ahead of them** do not matter for the first places. -/
theorem take_mergeSort_filter {l : List α} {n : Nat} (h : OrdersOn le l) (p : α → Bool)
    (hahead : ∀ a ∈ l, ¬p a → n ≤ (l.filter fun b => p b && le b a).length) :
    ((l.filter p).mergeSort le).take n = (l.mergeSort le).take n := by
  rw [h.filter_mergeSort]
  have hsorted := h.pairwise_mergeSort
  have hord : OrdersOn le (l.mergeSort le) := h.mono fun a ha => List.mem_mergeSort.1 ha
  generalize hs : l.mergeSort le = s at hsorted hord ⊢
  have hsplit := List.takeWhile_append_dropWhile (p := p) (l := s)
  cases hrest : s.dropWhile p with
  | nil =>
    rw [hrest, List.append_nil] at hsplit
    rw [← hsplit, List.filter_eq_self.2 fun a ha => List.mem_takeWhile_imp ha]
  | cons a after =>
    have hfirst : ¬p a := by
      have := List.head?_dropWhile_not p s
      rw [hrest] at this
      simpa using this
    rw [hrest] at hsplit
    have hmem : a ∈ l := by
      rw [← (List.mergeSort_perm l le).mem_iff, hs, ← hsplit]
      simp
    have hle := hahead a hmem hfirst
    rw [← ((List.mergeSort_perm l le).filter _).length_eq, hs] at hle
    have hlen := Nat.le_trans hle (hord.length_ahead_le hsplit.symm hsorted hfirst)
    rw [← hsplit, List.filter_append, List.take_append_of_le_length hlen]
    rw [List.filter_eq_self.2 fun b hb => List.mem_takeWhile_imp hb,
      List.take_append_of_le_length hlen]

/-- The first places of a ranking are ahead of every other entry. -/
theorem ahead_of_mem_take {l : List α} {n : Nat} (h : OrdersOn le l) {a b : α}
    (ha : a ∈ (l.mergeSort le).take n) (hb : b ∈ l) (hnot : b ∉ (l.mergeSort le).take n) :
    le a b := by
  have hsorted := h.pairwise_mergeSort
  rw [← List.take_append_drop n (l.mergeSort le), List.pairwise_append] at hsorted
  have hdrop : b ∈ (l.mergeSort le).drop n := by
    rw [← (List.mergeSort_perm l le).mem_iff, ← List.take_append_drop n (l.mergeSort le),
      List.mem_append] at hb
    exact hb.resolve_left hnot
  exact hsorted.2.2 a ha b hdrop

end OrdersOn

end Ranked
