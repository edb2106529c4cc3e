import Mathlib.Data.List.Count
import Mathlib.Data.List.Induction

/-!
# Marks that are cut in runs

Marks on a line in order, with a cut at every `n`-th of them.

* `cutAt_le_cutAt` — the cuts are in order.
* `countP_between` — how many marks lie between two cuts: a mark that is level with the cut
  it comes after counts before it.
* `countP_between_le_iff` — when these are no more than a run.
-/

set_option autoImplicit false

namespace Cuts

/-- The last mark, `0` where there is none. -/
def last (marks : List Nat) : Nat := marks.getLast?.getD 0

@[simp] theorem last_nil : last [] = 0 := rfl

@[simp] theorem last_concat (marks : List Nat) (m : Nat) : last (marks ++ [m]) = m := by
  simp [last]

theorem last_mem_or_zero (marks : List Nat) : last marks ∈ marks ∨ last marks = 0 := by
  cases marks using List.reverseRecOn with
  | nil => exact .inr rfl
  | append_singleton marks m => simp

theorem le_last {marks : List Nat} (hsorted : marks.Pairwise (· ≤ ·)) {m : Nat} (hm : m ∈ marks) :
    m ≤ last marks := by
  cases marks using List.reverseRecOn with
  | nil => cases hm
  | append_singleton marks m' =>
    rw [last_concat]
    rw [List.pairwise_append] at hsorted
    obtain hm | hm := List.mem_append.1 hm
    · exact hsorted.2.2 m hm m' (List.mem_singleton.2 rfl)
    · exact Nat.le_of_eq (List.mem_singleton.1 hm)

theorem last_le {marks later : List Nat} (hsorted : (marks ++ later).Pairwise (· ≤ ·)) {m : Nat}
    (hm : m ∈ later) : last marks ≤ m := by
  rw [List.pairwise_append] at hsorted
  obtain hlast | hlast := last_mem_or_zero marks
  · exact hsorted.2.2 _ hlast m hm
  · exact hlast ▸ Nat.zero_le m

/-- Where the `k`-th cut is, when one is made at every `n`-th mark. -/
def cutAt (marks : List Nat) (n k : Nat) : Nat := last (marks.take (k * n))

/-- The marks between the `k`-th cut and the next, both counted by place. -/
def run (marks : List Nat) (n k : Nat) : List Nat := (marks.drop (k * n)).take n

/-- The marks after that next cut, counted by place. -/
def later (marks : List Nat) (n k : Nat) : List Nat := marks.drop ((k + 1) * n)

variable {marks : List Nat} {n k : Nat}

theorem take_append_run : marks.take (k * n) ++ run marks n k = marks.take ((k + 1) * n) := by
  rw [run, Nat.succ_mul, List.take_add]

theorem take_run_later : marks.take (k * n) ++ (run marks n k ++ later marks n k) = marks := by
  rw [← List.append_assoc, take_append_run, later, List.take_append_drop]

@[simp] theorem cutAt_zero : cutAt marks n 0 = 0 := by simp [cutAt]

theorem cutAt_of_le (h : marks.length ≤ k * n) : cutAt marks n k = last marks := by
  rw [cutAt, List.take_of_length_le h]

theorem cutAt_mem_or_zero (marks : List Nat) (n k : Nat) :
    cutAt marks n k ∈ marks ∨ cutAt marks n k = 0 :=
  (last_mem_or_zero _).imp_left fun h => List.mem_of_mem_take h

theorem cutAt_of_take {before : List Nat} {m : Nat} (hplace : marks.take (k * n) = before ++ [m]) :
    cutAt marks n k = m := by
  rw [cutAt, hplace, last_concat]

theorem le_cutAt (hsorted : marks.Pairwise (· ≤ ·)) {m : Nat} (hm : m ∈ marks.take (k * n)) :
    m ≤ cutAt marks n k :=
  le_last (hsorted.sublist (List.take_sublist _ _)) hm

theorem cutAt_le (hsorted : marks.Pairwise (· ≤ ·)) {m : Nat} (hm : m ∈ marks.drop (k * n)) :
    cutAt marks n k ≤ m :=
  last_le (by rwa [List.take_append_drop]) hm

theorem cutAt_le_cutAt (hsorted : marks.Pairwise (· ≤ ·)) :
    cutAt marks n k ≤ cutAt marks n (k + 1) := by
  obtain hmem | hzero := last_mem_or_zero (marks.take (k * n))
  · apply le_cutAt hsorted
    rw [← take_append_run]
    exact List.mem_append_left _ hmem
  · rw [cutAt, hzero]
    exact Nat.zero_le _

/-- The marks between two byte positions, one that is level with the first left out. -/
def between (marks : List Nat) (start stop : Nat) : Nat :=
  marks.countP fun m => start < m && m ≤ stop

theorem between_le_length (start stop : Nat) : between marks start stop ≤ marks.length :=
  List.countP_le_length

/-- **How many marks lie between two cuts**: those of the run which are not level with the cut
before it, and those after the run which are level with the cut that ends it. -/
theorem between_add_count (hsorted : marks.Pairwise (· ≤ ·))
    (hlt : cutAt marks n k < cutAt marks n (k + 1)) :
    between marks (cutAt marks n k) (cutAt marks n (k + 1)) +
        (run marks n k).count (cutAt marks n k) =
      (run marks n k).length + (later marks n k).count (cutAt marks n (k + 1)) := by
  have hbefore : between (marks.take (k * n)) (cutAt marks n k) (cutAt marks n (k + 1)) = 0 := by
    rw [between, List.countP_eq_zero]
    intro m hm
    have := le_cutAt hsorted hm
    simp
    omega
  have hrun : between (run marks n k) (cutAt marks n k) (cutAt marks n (k + 1)) +
      (run marks n k).count (cutAt marks n k) = (run marks n k).length := by
    rw [List.length_eq_countP_add_countP
      (fun m => cutAt marks n k < m && m ≤ cutAt marks n (k + 1))]
    congr 1
    apply List.countP_congr
    intro m hm
    have hlow : cutAt marks n k ≤ m := cutAt_le hsorted (List.mem_of_mem_take hm)
    have hhigh : m ≤ cutAt marks n (k + 1) := by
      apply le_cutAt hsorted
      rw [← take_append_run]
      exact List.mem_append_right _ hm
    simp
    omega
  have hlater : between (later marks n k) (cutAt marks n k) (cutAt marks n (k + 1)) =
      (later marks n k).count (cutAt marks n (k + 1)) := by
    apply List.countP_congr
    intro m hm
    have := cutAt_le hsorted hm
    simp
    omega
  have hsplit : between marks (cutAt marks n k) (cutAt marks n (k + 1)) =
      between (marks.take (k * n)) (cutAt marks n k) (cutAt marks n (k + 1)) +
        (between (run marks n k) (cutAt marks n k) (cutAt marks n (k + 1)) +
          between (later marks n k) (cutAt marks n k) (cutAt marks n (k + 1))) := by
    rw [between, between, between, between, ← List.countP_append, ← List.countP_append,
      take_run_later]
  omega

/-- **The marks between two cuts are no more than a run** exactly when no more of the marks
after the run are level with its end than marks of the run with its start. -/
theorem between_le_iff (hsorted : marks.Pairwise (· ≤ ·))
    (hlt : cutAt marks n k < cutAt marks n (k + 1)) :
    between marks (cutAt marks n k) (cutAt marks n (k + 1)) ≤ n ↔
      (later marks n k).count (cutAt marks n (k + 1)) ≤
        (run marks n k).count (cutAt marks n k) := by
  have hcount := between_add_count hsorted hlt
  have hle : (run marks n k).count (cutAt marks n k) ≤ (run marks n k).length :=
    List.count_le_length
  obtain hlater | hfull : later marks n k = [] ∨ (run marks n k).length = n := by
    rw [later, List.drop_eq_nil_iff, run, List.length_take, List.length_drop, Nat.succ_mul]
    omega
  · have hrun : (run marks n k).length ≤ n := List.length_take_le _ _
    rw [hlater, List.count_nil] at hcount ⊢
    omega
  · omega

/-- Where no two marks are level, no more lie between two cuts than a run. -/
theorem count_later_eq_zero (hstrict : marks.Pairwise (· < ·))
    (hlt : cutAt marks n k < cutAt marks n (k + 1)) :
    (later marks n k).count (cutAt marks n (k + 1)) = 0 := by
  obtain hmem | hzero := last_mem_or_zero (marks.take ((k + 1) * n))
  · rw [List.count_eq_zero]
    intro hlater
    rw [← List.take_append_drop ((k + 1) * n) marks, List.pairwise_append] at hstrict
    exact Nat.lt_irrefl _ (hstrict.2.2 _ hmem _ hlater)
  · rw [← cutAt] at hzero
    omega

end Cuts
