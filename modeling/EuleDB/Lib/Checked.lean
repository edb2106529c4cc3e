import Mathlib.Algebra.Ring.Nat
import Mathlib.Data.Option.Basic

/-!
# Checked arithmetic

Unsigned numbers of `w` bits whose operations say when a result does not fit: `none` stands for an
overflow or an underflow.

* `add_eq_some`, `mul_eq_some`, `sub_eq_some` — an operation has a result exactly where the exact
  result fits, and then it is that.
-/

set_option autoImplicit false

namespace Checked

variable {w a b n : Nat}

/-- A number, where it fits in `w` bits. -/
def fit (w n : Nat) : Option Nat := if n < 2 ^ w then some n else none

def add (w a b : Nat) : Option Nat := fit w (a + b)

def mul (w a b : Nat) : Option Nat := fit w (a * b)

def sub (a b : Nat) : Option Nat := if b ≤ a then some (a - b) else none

@[simp] theorem fit_eq_some {m : Nat} : fit w n = some m ↔ n < 2 ^ w ∧ n = m := by
  simp [fit]

@[simp] theorem add_eq_some : add w a b = some n ↔ a + b < 2 ^ w ∧ a + b = n := by
  simp [add]

@[simp] theorem mul_eq_some : mul w a b = some n ↔ a * b < 2 ^ w ∧ a * b = n := by
  simp [mul]

@[simp] theorem sub_eq_some : sub a b = some n ↔ b ≤ a ∧ a - b = n := by
  simp [sub]

end Checked
