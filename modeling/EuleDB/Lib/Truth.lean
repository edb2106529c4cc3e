import Mathlib.Data.List.Basic

/-!
# Three-valued truth

A condition over missing values is true, false or unknown.

* `conj_eq_true`, `disj_eq_true` — when several conditions together, and when one of them, are true.
-/

set_option autoImplicit false

namespace ThreeValued

inductive Truth where
  | true
  | unknown
  | false
  deriving DecidableEq

namespace Truth

/-- False where one is false, true where both are true. -/
def and : Truth → Truth → Truth
  | false, _ | _, false => false
  | true, true => true
  | _, _ => unknown

/-- True where one is true, false where both are false. -/
def or : Truth → Truth → Truth
  | true, _ | _, true => true
  | false, false => false
  | _, _ => unknown

theorem and_eq_true {a b : Truth} : a.and b = true ↔ a = true ∧ b = true := by
  cases a <;> cases b <;> decide

theorem or_eq_true {a b : Truth} : a.or b = true ↔ a = true ∨ b = true := by
  cases a <;> cases b <;> decide

def conj (conditions : List Truth) : Truth := conditions.foldr and true

def disj (conditions : List Truth) : Truth := conditions.foldr or false

theorem conj_eq_true {conditions : List Truth} :
    conj conditions = true ↔ ∀ t ∈ conditions, t = true := by
  induction conditions with
  | nil => exact iff_of_true rfl (by simp)
  | cons first conditions ih =>
    rw [List.forall_mem_cons, ← ih]
    exact and_eq_true

theorem disj_eq_true {conditions : List Truth} :
    disj conditions = true ↔ ∃ t ∈ conditions, t = true := by
  induction conditions with
  | nil => exact iff_of_false (fun h => Truth.noConfusion h) (by simp)
  | cons first conditions ih =>
    rw [List.exists_mem_cons_iff, ← ih]
    exact or_eq_true

end Truth

end ThreeValued
