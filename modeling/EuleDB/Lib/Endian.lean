import Mathlib.Algebra.Ring.Nat
import Mathlib.Data.List.Basic

/-!
# Fixed-width byte encodings of natural numbers

`leBytes k v` are the `k` low bytes of `v`, least significant first; `ofLe` reads bytes
back.  `beBytes` is the same with the most significant byte first.

* `ofLe_leBytes` — reading back what was written gives `v` modulo `256 ^ k`.
* `leBytes_ofLe` — every byte string is the encoding of the number it spells, so a fixed-width
  field has exactly one spelling.
-/

set_option autoImplicit false

namespace Endian

/-- The `k` low bytes of `v`, least significant first. -/
def leBytes : Nat → Nat → List UInt8
  | 0, _ => []
  | k + 1, v => UInt8.ofNat v :: leBytes k (v / 256)

/-- The number a byte string spells, least significant byte first. -/
def ofLe : List UInt8 → Nat
  | [] => 0
  | b :: bs => b.toNat + 256 * ofLe bs

/-- The `k` low bytes of `v`, most significant first. -/
def beBytes (k v : Nat) : List UInt8 := (leBytes k v).reverse

@[simp] theorem length_leBytes (k v : Nat) : (leBytes k v).length = k := by
  induction k generalizing v with
  | zero => rfl
  | succ k ih => simp [leBytes, ih]

@[simp] theorem length_beBytes (k v : Nat) : (beBytes k v).length = k := by
  simp [beBytes]

theorem ofLe_leBytes (k v : Nat) : ofLe (leBytes k v) = v % 256 ^ k := by
  induction k generalizing v with
  | zero => simp [leBytes, ofLe, Nat.mod_one]
  | succ k ih =>
    rw [leBytes, ofLe, ih, Nat.pow_succ, Nat.mul_comm (256 ^ k), Nat.mod_mul]
    simp

theorem leBytes_ofLe (l : List UInt8) : leBytes l.length (ofLe l) = l := by
  induction l with
  | nil => rfl
  | cons b l ih =>
    have hb := b.toNat_lt
    rw [List.length_cons, leBytes, ofLe, show (b.toNat + 256 * ofLe l) / 256 = ofLe l by omega, ih]
    congr 1
    apply UInt8.toNat_inj.1
    simp

theorem ofLe_lt (l : List UInt8) : ofLe l < 256 ^ l.length := by
  induction l with
  | nil => simp [ofLe]
  | cons b l ih =>
    have hb := b.toNat_lt
    rw [ofLe, List.length_cons, Nat.pow_succ]
    omega

theorem leBytes_inj {k v w : Nat} (hv : v < 256 ^ k) (hw : w < 256 ^ k)
    (h : leBytes k v = leBytes k w) : v = w := by
  have := congrArg ofLe h
  rwa [ofLe_leBytes, ofLe_leBytes, Nat.mod_eq_of_lt hv, Nat.mod_eq_of_lt hw] at this

theorem beBytes_inj {k v w : Nat} (hv : v < 256 ^ k) (hw : w < 256 ^ k)
    (h : beBytes k v = beBytes k w) : v = w :=
  leBytes_inj hv hw (List.reverse_injective h)

end Endian
