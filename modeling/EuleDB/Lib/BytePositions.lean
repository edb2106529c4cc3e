import Mathlib.Data.List.Basic

/-!
# Byte positions in a text

A text is a list of characters; a position in it is a number of bytes of its UTF-8.

* `splitAt_eq_some_iff` — a text splits exactly at the positions between characters.
* `get_eq_some_iff` — what a slice between two positions is.
* `Boundary.get` — there is a slice between any two positions that are in order.
-/

set_option autoImplicit false

namespace BytePositions

/-- How many bytes a text takes. -/
def size : List Char → Nat
  | [] => 0
  | c :: t => c.utf8Size + size t

@[simp] theorem size_nil : size [] = 0 := rfl

@[simp] theorem size_cons (c : Char) (t : List Char) : size (c :: t) = c.utf8Size + size t := rfl

@[simp] theorem size_append (s t : List Char) : size (s ++ t) = size s + size t := by
  induction s with
  | nil => simp
  | cons c s ih => simp [ih, Nat.add_assoc]

theorem eq_nil_of_size {t : List Char} (h : size t = 0) : t = [] := by
  cases t with
  | nil => rfl
  | cons c t =>
    have hpos := c.utf8Size_pos
    rw [size_cons] at h
    omega

/-- The two parts of a text at a byte position, where this lies between characters. -/
def splitAt : List Char → Nat → Option (List Char × List Char)
  | t, 0 => some ([], t)
  | [], _ + 1 => none
  | c :: t, n + 1 =>
    if c.utf8Size ≤ n + 1 then
      (splitAt t (n + 1 - c.utf8Size)).map fun parts => (c :: parts.1, parts.2)
    else none

theorem splitAt_size (s t : List Char) : splitAt (s ++ t) (size s) = some (s, t) := by
  induction s with
  | nil => simp [splitAt]
  | cons c s ih =>
    have hpos := c.utf8Size_pos
    obtain ⟨n, hn⟩ : ∃ n, c.utf8Size + size s = n + 1 := ⟨c.utf8Size + size s - 1, by omega⟩
    have hrest : n + 1 - c.utf8Size = size s := by omega
    rw [size_cons, hn, List.cons_append, splitAt, if_pos (by omega), hrest, ih]
    rfl

/-- **A text splits** exactly at the positions between its characters. -/
theorem splitAt_eq_some_iff {t a b : List Char} {n : Nat} :
    splitAt t n = some (a, b) ↔ t = a ++ b ∧ size a = n := by
  constructor
  · intro h
    induction t generalizing a n with
    | nil =>
      cases n with
      | zero => simp_all [splitAt]
      | succ n => simp [splitAt] at h
    | cons c t ih =>
      cases n with
      | zero => simp_all [splitAt]
      | succ n =>
        rw [splitAt] at h
        split at h
        case isTrue hfits =>
          rw [Option.map_eq_some_iff] at h
          obtain ⟨⟨a', b'⟩, hsplit, heq⟩ := h
          obtain ⟨rfl, rfl⟩ := Prod.mk.inj heq
          obtain ⟨rfl, hsize⟩ := ih hsplit
          refine ⟨rfl, ?_⟩
          simp only [size_cons, hsize]
          omega
        case isFalse => cases h
  · rintro ⟨rfl, rfl⟩
    exact splitAt_size a b

/-- Two ways to split a text at one position are the same. -/
theorem append_inj {a a' b b' : List Char} (h : a ++ b = a' ++ b') (hsize : size a = size a') :
    a = a' ∧ b = b' := by
  have hsplit := splitAt_size a b
  rw [h, hsize, splitAt_size, Option.some.injEq, Prod.mk.injEq] at hsplit
  exact ⟨hsplit.1.symm, hsplit.2.symm⟩

/-- The slice of a text between two byte positions, as `str::get` gives it: none where one is
inside a character or past the end, or where they are not in order. -/
def get (t : List Char) (start stop : Nat) : Option (List Char) :=
  if start ≤ stop then
    match splitAt t start with
    | some (_, rest) => (splitAt rest (stop - start)).map Prod.fst
    | none => none
  else none

theorem get_eq_some_iff {t p : List Char} {start stop : Nat} :
    get t start stop = some p ↔
      ∃ a b, t = a ++ p ++ b ∧ size a = start ∧ start + size p = stop := by
  constructor
  · intro h
    unfold get at h
    split at h
    case isTrue hle =>
      split at h
      case h_1 a rest hrest =>
        rw [Option.map_eq_some_iff] at h
        obtain ⟨⟨p', b⟩, hsplit, rfl⟩ := h
        obtain ⟨rfl, ha⟩ := splitAt_eq_some_iff.1 hrest
        obtain ⟨rfl, hp⟩ := splitAt_eq_some_iff.1 hsplit
        refine ⟨a, b, by simp, ha, ?_⟩
        simp only [hp]
        omega
      case h_2 => cases h
    case isFalse => cases h
  · rintro ⟨a, b, rfl, rfl, rfl⟩
    rw [get, if_pos (Nat.le_add_right _ _), List.append_assoc, splitAt_size]
    simp only [Nat.add_sub_cancel_left, splitAt_size, Option.map_some]

/-- A position between two characters of a text, or at an end of it. -/
def Boundary (t : List Char) (n : Nat) : Prop := ∃ a b, t = a ++ b ∧ size a = n

theorem boundary_iff {t : List Char} {n : Nat} : Boundary t n ↔ (splitAt t n).isSome := by
  rw [Option.isSome_iff_exists]
  constructor
  · rintro ⟨a, b, hsplit⟩
    exact ⟨(a, b), splitAt_eq_some_iff.2 hsplit⟩
  · rintro ⟨⟨a, b⟩, hsplit⟩
    exact ⟨a, b, splitAt_eq_some_iff.1 hsplit⟩

instance (t : List Char) (n : Nat) : Decidable (Boundary t n) :=
  decidable_of_iff _ boundary_iff.symm

namespace Boundary

theorem zero (t : List Char) : Boundary t 0 := ⟨[], t, rfl, rfl⟩

theorem cons {t : List Char} {n : Nat} (c : Char) (h : Boundary t n) :
    Boundary (c :: t) (c.utf8Size + n) := by
  obtain ⟨a, b, rfl, rfl⟩ := h
  exact ⟨c :: a, b, rfl, size_cons c a⟩

theorem le_size {t : List Char} {n : Nat} (h : Boundary t n) : n ≤ size t := by
  obtain ⟨a, b, rfl, rfl⟩ := h
  simp

/-- A position after another one lies in what follows that one. -/
theorem drop {a t : List Char} {n : Nat} (h : Boundary (a ++ t) (size a + n)) : Boundary t n := by
  obtain ⟨a', b', hsplit, hsize⟩ := h
  obtain ⟨p, hp⟩ | ⟨p, hp⟩ := List.append_eq_append_iff.1 hsplit
  · obtain ⟨rfl, rfl⟩ := hp
    refine ⟨p, b', rfl, ?_⟩
    rw [size_append] at hsize
    omega
  · obtain ⟨rfl, rfl⟩ := hp
    rw [size_append] at hsize
    have hn : n = 0 := by omega
    exact hn ▸ zero _

/-- **There is a slice** from one position to any other that is not before it. -/
theorem get {t : List Char} {start stop : Nat} (hstart : Boundary t start)
    (hstop : Boundary t stop) (hle : start ≤ stop) :
    ∃ p, BytePositions.get t start stop = some p := by
  obtain ⟨a, rest, rfl, rfl⟩ := hstart
  obtain ⟨n, rfl⟩ := Nat.exists_eq_add_of_le hle
  obtain ⟨p, b, rfl, rfl⟩ := hstop.drop
  exact ⟨p, get_eq_some_iff.2 ⟨a, b, by simp, rfl, rfl⟩⟩

end Boundary

end BytePositions
