import Mathlib.Data.Int.Log
import Mathlib.Data.List.TakeWhile
import Mathlib.Data.NNRat.Floor
import EuleDB.Lib.Lines

/-!
# Numerals and the floats they stand for

The grammar in which the standard library's `str::parse` reads a float, and what is done with the
float.  A float is a sign and an exact magnitude, and what is inexact is one function: which
magnitude is nearest to a number.

* `readNumber_eq_some` — a number without an exponent is read from its own spelling and no other.
* `parseNat_eq_some`, `parseU64_number` — what reads as an unsigned integer is a number without a
  point.
* `natCast_le_saturate` — a cast rounds down, and stops at the largest integer.
-/

set_option autoImplicit false

namespace Numerals

open Lines

/-! ## Reading -/

inductive Sign where
  | plus
  | minus
  deriving DecidableEq

/-- How a sign is written, where there is one. -/
def signText : Option Sign → List Char
  | none => []
  | some .plus => ['+']
  | some .minus => ['-']

/-- How a fraction is written, where there is one. -/
def fractionText : Option (List Char) → List Char
  | none => []
  | some digits => '.' :: digits

/-- A number as it is written, with a digit on one side of its point at least. -/
structure Number where
  sign : Option Sign
  whole : List Char
  fraction : Option (List Char)
  exponent : Option ℤ
  isDigit : ∀ c ∈ whole ++ fraction.getD [], c.isDigit = true
  ne_nil : whole ++ fraction.getD [] ≠ []
  deriving DecidableEq

inductive Numeral where
  | nan
  | infinity (sign : Option Sign)
  | number (n : Number)
  deriving DecidableEq

def takeSign : List Char → Option Sign × List Char
  | '+' :: text => (some .plus, text)
  | '-' :: text => (some .minus, text)
  | text => (none, text)

def takeFraction : List Char → Option (List Char) × List Char
  | '.' :: text => (some (text.takeWhile Char.isDigit), text.dropWhile Char.isDigit)
  | text => (none, text)

/-- What ends a number: nothing, or an exponent. -/
def readExponent : List Char → Option (Option ℤ)
  | [] => some none
  | c :: text =>
    if c = 'e' ∨ c = 'E' then
      let (sign, digits) := takeSign text
      if digits ≠ [] ∧ digits.all Char.isDigit then
        let size : ℤ := Nat.ofDigitChars 10 digits 0
        some (some (if sign = some .minus then -size else size))
      else none
    else none

theorem isDigit_of_mem_takeFraction (text : List Char) :
    ∀ c ∈ (takeFraction text).1.getD [], c.isDigit = true := by
  unfold takeFraction
  split
  · exact fun c hc => List.mem_takeWhile_imp hc
  · exact fun c hc => absurd hc List.not_mem_nil

theorem isDigit_of_mem_append {whole fraction : List Char}
    (hwhole : ∀ c ∈ whole, c.isDigit = true) (hfraction : ∀ c ∈ fraction, c.isDigit = true) :
    ∀ c ∈ whole ++ fraction, c.isDigit = true := by
  intro c hc
  rcases List.mem_append.1 hc with hc | hc
  · exact hwhole c hc
  · exact hfraction c hc

def readNumber (text : List Char) : Option Number :=
  let signed := takeSign text
  let whole := signed.2.takeWhile Char.isDigit
  let pointed := takeFraction (signed.2.dropWhile Char.isDigit)
  if hne : whole ++ pointed.1.getD [] ≠ [] then
    (readExponent pointed.2).map fun exponent =>
      ⟨signed.1, whole, pointed.1, exponent,
        isDigit_of_mem_append (fun _ hc => List.mem_takeWhile_imp hc)
          (isDigit_of_mem_takeFraction _), hne⟩
  else none

/-- Read a numeral: a number, or one of the names, in any case. -/
def read (text : List Char) : Option Numeral :=
  match readNumber text with
  | some n => some (.number n)
  | none =>
    let (sign, name) := takeSign text
    let name := name.map Char.toLower
    if name = "nan".toList then some .nan
    else if name = "inf".toList ∨ name = "infinity".toList then some (.infinity sign)
    else none

/-! ## Spelling -/

/-- A number as it is written, up to its exponent. -/
def Number.mantissa (n : Number) : List Char :=
  signText n.sign ++ (n.whole ++ fractionText n.fraction)

theorem isDigit_ne {c : Char} (h : c.isDigit = true) : c ≠ '+' ∧ c ≠ '-' ∧ c ≠ '.' := by
  refine ⟨?_, ?_, ?_⟩ <;> rintro rfl <;> exact absurd h (by decide)

theorem takeSign_append (sign : Option Sign) {text : List Char}
    (h : ∀ c ∈ text.head?, c ≠ '+' ∧ c ≠ '-') :
    takeSign (signText sign ++ text) = (sign, text) := by
  cases sign with
  | none =>
    rw [signText, List.nil_append]
    unfold takeSign
    split
    · exact absurd rfl (h '+' rfl).1
    · exact absurd rfl (h '-' rfl).2
    · rfl
  | some sign => cases sign <;> rfl

theorem signText_takeSign (text : List Char) :
    signText (takeSign text).1 ++ (takeSign text).2 = text := by
  unfold takeSign
  split <;> rfl

theorem fractionText_takeFraction (text : List Char) :
    fractionText (takeFraction text).1 ++ (takeFraction text).2 = text := by
  unfold takeFraction
  split
  · rename_i text
    exact congrArg ('.' :: ·) List.takeWhile_append_dropWhile
  · rfl

theorem takeFraction_fractionText {fraction : Option (List Char)}
    (h : ∀ c ∈ fraction.getD [], c.isDigit = true) :
    takeFraction (fractionText fraction) = (fraction, []) := by
  cases fraction with
  | none => rfl
  | some digits =>
    have htake : digits.takeWhile Char.isDigit = digits := List.takeWhile_eq_self_iff.2 h
    have hdrop : digits.dropWhile Char.isDigit = [] := List.dropWhile_eq_nil_iff.2 h
    rw [fractionText, takeFraction, htake, hdrop]

theorem readExponent_eq_none {text : List Char} (h : readExponent text = some none) :
    text = [] := by
  cases text with
  | nil => rfl
  | cons c text =>
    unfold readExponent at h
    dsimp only at h
    split_ifs at h
    all_goals simp at h

theorem readNumber_eq {text : List Char} {n : Number} :
    readNumber text = some n ↔
      (takeSign text).1 = n.sign ∧
      (takeSign text).2.takeWhile Char.isDigit = n.whole ∧
      (takeFraction ((takeSign text).2.dropWhile Char.isDigit)).1 = n.fraction ∧
      readExponent (takeFraction ((takeSign text).2.dropWhile Char.isDigit)).2 =
        some n.exponent := by
  unfold readNumber
  dsimp only
  constructor
  · intro h
    split_ifs at h
    obtain ⟨exponent, hexponent, rfl⟩ := Option.map_eq_some_iff.1 h
    exact ⟨rfl, rfl, rfl, hexponent⟩
  · rintro ⟨hsign, hwhole, hfraction, hexponent⟩
    obtain ⟨sign, whole, fraction, exponent, isDigit, hne⟩ := n
    dsimp only at hsign hwhole hfraction hexponent
    subst hsign hwhole hfraction
    rw [dif_pos hne, hexponent]
    rfl

/-- **A number without an exponent** is read from its own spelling and from no other. -/
theorem readNumber_eq_some {text : List Char} {n : Number} (hexponent : n.exponent = none) :
    readNumber text = some n ↔ text = n.mantissa := by
  rw [readNumber_eq, hexponent]
  constructor
  · rintro ⟨hsign, hwhole, hfraction, hend⟩
    have htail := readExponent_eq_none hend
    have hpoint := fractionText_takeFraction ((takeSign text).2.dropWhile Char.isDigit)
    rw [htail, List.append_nil, hfraction] at hpoint
    have htext := signText_takeSign text
    rw [hsign, ← List.takeWhile_append_dropWhile (p := Char.isDigit) (l := (takeSign text).2),
      hwhole, ← hpoint] at htext
    exact htext.symm
  · rintro rfl
    have hdigits : ∀ c ∈ n.whole, c.isDigit = true := fun c hc =>
      n.isDigit c (List.mem_append_left _ hc)
    have hfraction : ∀ c ∈ n.fraction.getD [], c.isDigit = true := fun c hc =>
      n.isDigit c (List.mem_append_right _ hc)
    have hpoint : ∀ c ∈ (fractionText n.fraction).head?, c = '.' := by
      intro c hc
      unfold fractionText at hc
      split at hc
      · cases hc
      · exact (Option.some.inj hc).symm
    have hhead : ∀ c ∈ (n.whole ++ fractionText n.fraction).head?, c ≠ '+' ∧ c ≠ '-' := by
      intro c hc
      cases hwhole : n.whole with
      | nil =>
        rw [hwhole, List.nil_append] at hc
        rw [hpoint c hc]
        decide
      | cons d whole =>
        rw [hwhole] at hc
        have hd := isDigit_ne (hdigits d (by rw [hwhole]; exact List.mem_cons_self))
        rw [← Option.some.inj hc]
        exact ⟨hd.1, hd.2.1⟩
    have hstop : (fractionText n.fraction).takeWhile Char.isDigit = [] ∧
        (fractionText n.fraction).dropWhile Char.isDigit = fractionText n.fraction := by
      cases n.fraction <;> exact ⟨rfl, rfl⟩
    have htake : (n.whole ++ fractionText n.fraction).takeWhile Char.isDigit = n.whole := by
      rw [List.takeWhile_append_of_pos hdigits, hstop.1, List.append_nil]
    have hdrop : (n.whole ++ fractionText n.fraction).dropWhile Char.isDigit =
        fractionText n.fraction := by
      rw [List.dropWhile_append_of_pos hdigits, hstop.2]
    unfold Number.mantissa
    rw [takeSign_append n.sign hhead]
    dsimp only
    rw [htake, hdrop, takeFraction_fractionText hfraction]
    exact ⟨rfl, rfl, rfl, rfl⟩

/-! ## Integers -/

/-- The digits as one number. -/
def Number.digits (n : Number) : ℕ := Nat.ofDigitChars 10 (n.whole ++ n.fraction.getD []) 0

/-- Neither a minus nor a point nor an exponent. -/
def Number.IsInteger (n : Number) : Prop :=
  n.sign ≠ some .minus ∧ n.fraction = none ∧ n.exponent = none

instance (n : Number) : Decidable n.IsInteger := inferInstanceAs (Decidable (_ ∧ _ ∧ _))

/-- Digits and a sign in front of them. -/
def Number.integer (sign : Option Sign) (digits : List Char) (hne : digits ≠ [])
    (hdigits : ∀ c ∈ digits, c.isDigit = true) : Number where
  sign := sign
  whole := digits
  fraction := none
  exponent := none
  isDigit := by simpa using hdigits
  ne_nil := by simpa using hne

theorem Number.mantissa_integer (sign : Option Sign) {digits : List Char} (hne : digits ≠ [])
    (hdigits : ∀ c ∈ digits, c.isDigit = true) :
    (Number.integer sign digits hne hdigits).mantissa = signText sign ++ digits := by
  rw [mantissa, integer, fractionText, List.append_nil]

theorem parseNat_plus {digits : List Char} (hne : digits ≠ [])
    (hdigits : ∀ c ∈ digits, c.isDigit = true) :
    parseNat ('+' :: digits) = some (Nat.ofDigitChars 10 digits 0) :=
  if_pos ⟨hne, List.all_eq_true.2 hdigits⟩

theorem parseNat_signText {sign : Option Sign} (hsign : sign ≠ some .minus) {digits : List Char}
    (hne : digits ≠ []) (hdigits : ∀ c ∈ digits, c.isDigit = true) :
    parseNat (signText sign ++ digits) = some (Nat.ofDigitChars 10 digits 0) := by
  cases sign with
  | none => exact parseNat_digits hne hdigits
  | some sign =>
    cases sign with
    | plus => exact parseNat_plus hne hdigits
    | minus => exact absurd rfl hsign

/-- A text that reads as an unsigned integer: its digits, or a plus sign and its digits. -/
theorem exists_of_parseNat {text : List Char} {k : ℕ} (h : parseNat text = some k) :
    ∃ sign digits, sign ≠ some .minus ∧ digits ≠ [] ∧ (∀ c ∈ digits, c.isDigit = true) ∧
      text = signText sign ++ digits ∧ k = Nat.ofDigitChars 10 digits 0 := by
  unfold parseNat at h
  dsimp only at h
  split at h
  · rename_i rest
    split_ifs at h with hdigits
    exact ⟨some .plus, rest, by decide, hdigits.1, List.all_eq_true.1 hdigits.2, rfl,
      (Option.some.inj h).symm⟩
  · split_ifs at h with hdigits
    exact ⟨none, text, by decide, hdigits.1, List.all_eq_true.1 hdigits.2, rfl,
      (Option.some.inj h).symm⟩

/-- **What reads as an unsigned integer** is a number without a minus, a point or an exponent. -/
theorem parseNat_eq_some {text : List Char} {k : ℕ} :
    parseNat text = some k ↔ ∃ n, readNumber text = some n ∧ n.IsInteger ∧ k = n.digits := by
  constructor
  · intro h
    obtain ⟨sign, digits, hsign, hne, hdigits, rfl, rfl⟩ := exists_of_parseNat h
    refine ⟨.integer sign digits hne hdigits, ?_, ⟨hsign, rfl, rfl⟩, ?_⟩
    · rw [readNumber_eq_some rfl, Number.mantissa_integer]
    · rw [Number.digits, Number.integer, Option.getD_none, List.append_nil]
  · rintro ⟨n, hread, ⟨hsign, hfraction, hexponent⟩, rfl⟩
    have htext := (readNumber_eq_some hexponent).1 hread
    have hdigits := n.isDigit
    have hne := n.ne_nil
    rw [hfraction, Option.getD_none, List.append_nil] at hdigits hne
    rw [htext, Number.mantissa, Number.digits, hfraction, fractionText, Option.getD_none,
      List.append_nil, parseNat_signText hsign hne hdigits]

/-- The largest unsigned integer of 64 bits. -/
def U64_MAX : ℕ := 2 ^ 64 - 1

/-- An unsigned integer of 64 bits, parsed. -/
def parseU64 (text : List Char) : Option ℕ := (parseNat text).filter fun k => k ≤ U64_MAX

theorem read_eq_number {text : List Char} {n : Number} :
    read text = some (.number n) ↔ readNumber text = some n := by
  unfold read
  cases readNumber text with
  | none =>
    dsimp only
    split_ifs <;> simp
  | some m => simp

theorem parseU64_eq_some {text : List Char} {k : ℕ} :
    parseU64 text = some k ↔
      ∃ n, read text = some (.number n) ∧ (n.IsInteger ∧ n.digits ≤ U64_MAX) ∧ k = n.digits := by
  simp only [parseU64, Option.filter_eq_some_iff, parseNat_eq_some, read_eq_number,
    decide_eq_true_eq]
  constructor
  · rintro ⟨⟨n, hread, hinteger, rfl⟩, hmax⟩
    exact ⟨n, hread, ⟨hinteger, hmax⟩, rfl⟩
  · rintro ⟨n, hread, ⟨hinteger, hmax⟩, rfl⟩
    exact ⟨⟨n, hread, hinteger, rfl⟩, hmax⟩

/-- What the parse of an integer makes of a number. -/
theorem parseU64_number {text : List Char} {n : Number} (hread : read text = some (.number n)) :
    parseU64 text = if n.IsInteger ∧ n.digits ≤ U64_MAX then some n.digits else none := by
  ext k
  rw [parseU64_eq_some, hread]
  split_ifs with hinteger
  · constructor
    · rintro ⟨m, hm, -, rfl⟩
      rw [Numeral.number.inj (Option.some.inj hm)]
    · intro hk
      exact ⟨n, rfl, hinteger, (Option.some.inj hk).symm⟩
  · constructor
    · rintro ⟨m, hm, hm', -⟩
      rw [← Numeral.number.inj (Option.some.inj hm)] at hm'
      exact absurd hm' hinteger
    · intro hk
      cases hk

theorem parseU64_eq_none {text : List Char} (h : ∀ n, read text ≠ some (.number n)) :
    parseU64 text = none := by
  rw [Option.eq_none_iff_forall_ne_some]
  intro k hk
  obtain ⟨n, hread, -⟩ := parseU64_eq_some.1 hk
  exact h n hread

/-! ## Floats -/

/-- What a number is: its digits, its point and its exponent, without its sign. -/
def Number.amount (n : Number) : ℚ≥0 :=
  n.digits * 10 ^ (n.exponent.getD 0 - (n.fraction.getD []).length)

/-- A number without a point and an exponent. -/
theorem Number.amount_integer {n : Number} (hfraction : n.fraction = none)
    (hexponent : n.exponent = none) : n.amount = n.digits := by
  simp [amount, hfraction, hexponent]

/-- A number with a point and no exponent. -/
theorem Number.amount_fraction {n : Number} {fraction : List Char}
    (hfraction : n.fraction = some fraction) (hexponent : n.exponent = none) :
    n.amount = n.digits / 10 ^ fraction.length := by
  simp [amount, hfraction, hexponent, div_eq_mul_inv]

/-- The inexact part of an arithmetic: the float nearest to a magnitude, or infinity. -/
structure Rounding where
  nearest : ℚ≥0 → WithTop ℚ≥0

/-- Nothing is lost. -/
def Rounding.exact : Rounding := ⟨fun q => q⟩

/-- The whole number nearest to `q`, and the even one of two. -/
def roundEven (q : ℚ≥0) : ℕ :=
  let floor := q.num / q.den
  let rest := q.num % q.den
  if 2 * rest < q.den ∨ 2 * rest = q.den ∧ floor % 2 = 0 then floor else floor + 1

/-- A float of 64 bits: 53 of them, and none below `2 ^ -1074`. -/
def nearestDouble (q : ℚ≥0) : WithTop ℚ≥0 :=
  let place : ℚ≥0 := 2 ^ max (Int.log 2 q - 52) (-1074)
  let rounded := roundEven (q / place) * place
  if rounded < 2 ^ 1024 then (rounded : WithTop ℚ≥0) else ⊤

/-- Floats of 64 bits. -/
def Rounding.double : Rounding := ⟨nearestDouble⟩

/-- A float: no number, or a sign and a magnitude. -/
inductive Value where
  | nan
  | signed (negative : Bool) (magnitude : WithTop ℚ≥0)

/-- The float that a numeral is read as. -/
def Numeral.value (R : Rounding) : Numeral → Value
  | .nan => .nan
  | .infinity sign => .signed (sign = some .minus) ⊤
  | .number n => .signed (n.sign = some .minus) (R.nearest n.amount)

/-- A float, parsed. -/
def parseFloat (R : Rounding) (text : List Char) : Option Value := (read text).map (Numeral.value R)

/-- Not less than zero, which both zeros are not. -/
def Value.nonneg : Value → Bool
  | .nan => false
  | .signed negative magnitude => !negative || magnitude = 0

/-- A magnitude times a float that is a positive integer. -/
def Rounding.scaled (R : Rounding) (scale : ℕ) : WithTop ℚ≥0 → WithTop ℚ≥0
  | ⊤ => ⊤
  | (q : ℚ≥0) => R.nearest (q * scale)

/-- A magnitude times an integer, in an arithmetic. -/
def Rounding.product (R : Rounding) (scale : ℕ) (q : ℚ≥0) : WithTop ℚ≥0 :=
  R.scaled scale (R.nearest q)

def Value.times (R : Rounding) (scale : ℕ) : Value → Value
  | .nan => .nan
  | .signed negative magnitude => .signed negative (R.scaled scale magnitude)

/-- A magnitude rounded down, or the largest integer where it is more than that. -/
def saturate : WithTop ℚ≥0 → ℕ
  | ⊤ => U64_MAX
  | (q : ℚ≥0) => min ⌊q⌋₊ U64_MAX

/-- The cast of a float to an unsigned integer. -/
def Value.toU64 : Value → ℕ
  | .nan => 0
  | .signed true _ => 0
  | .signed false magnitude => saturate magnitude

@[simp] theorem saturate_top : saturate ⊤ = U64_MAX := rfl

@[simp] theorem saturate_coe (q : ℚ≥0) : saturate q = min ⌊q⌋₊ U64_MAX := rfl

theorem saturate_le (m : WithTop ℚ≥0) : saturate m ≤ U64_MAX := by
  unfold saturate
  split
  · exact le_rfl
  · exact Nat.min_le_right _ _

/-- **A cast rounds down** and stops at the largest integer. -/
theorem natCast_le_saturate {k : ℕ} (hk : k ≤ U64_MAX) (m : WithTop ℚ≥0) :
    k ≤ saturate m ↔ ((k : ℚ≥0) : WithTop ℚ≥0) ≤ m := by
  cases m with
  | top => simpa using hk
  | coe q =>
    rw [saturate_coe, le_min_iff, WithTop.coe_le_coe, Nat.le_floor_iff (zero_le)]
    exact and_iff_left hk

/-- Two casts give the same number where no integer up to the largest is on one side of what is
cast first and on the other side of what is cast then. -/
theorem saturate_eq_iff {m m' : WithTop ℚ≥0} :
    saturate m = saturate m' ↔
      ∀ k : ℕ, k ≤ U64_MAX →
        (((k : ℚ≥0) : WithTop ℚ≥0) ≤ m ↔ ((k : ℚ≥0) : WithTop ℚ≥0) ≤ m') := by
  constructor
  · intro h k hk
    rw [← natCast_le_saturate hk, ← natCast_le_saturate hk, h]
  · intro h
    have hm := saturate_le m
    have hm' := saturate_le m'
    apply le_antisymm
    · rw [natCast_le_saturate hm, ← h _ hm, ← natCast_le_saturate hm]
    · rw [natCast_le_saturate hm', h _ hm', ← natCast_le_saturate hm']

end Numerals
