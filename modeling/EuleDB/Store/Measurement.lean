import EuleDB.Embed.Chunks
import EuleDB.Lib.Numerals

/-!
# How many rows a plan examined

The engine renders the plan that it ran, and each step's `rows_scanned=` metric in it is a count
for human eyes: `1`, `1.00 K`, `2.50 M`.

* `parseHumanCount`, `widestScan` — the readers, over any arithmetic of floats.
* `HasForm` — what a rendered count is, and what it stands for.
* `readsRight_iff` — which texts are read as their form says, or refused where they have none.
* `measures_right_iff` — which plans are measured by the widest of their counts, and not by fewer
  of them.
-/

set_option autoImplicit false

namespace EuleDB.Store

open Crypto Lines Numerals

/-! ## The readers -/

def METRIC : Text := "rows_scanned=".toList

/-- What a suffix multiplies with. -/
def scaleOf : Text → Option ℕ
  | ['K'] => some 1000
  | ['M'] => some 1000000
  | ['G'] => some 1000000000
  | _ => none

/-- The digits of a count, and their scale. -/
def digitsAndScale (text : Text) : Option (Text × ℕ) :=
  match splitOnce ' ' text with
  | some (digits, suffix) => (scaleOf suffix).map fun scale => (digits, scale)
  | none => some (text, 1)

/-- Read back a count the engine formatted for a human. -/
def parseHumanCount (R : Rounding) (text : Text) : Option ℕ := do
  let (digits, scale) ← digitsAndScale text
  match parseU64 digits with
  | some exact => some (min (exact * scale) U64_MAX)
  | none => do
    let value ← (parseFloat R digits).filter Value.nonneg
    some (value.times R scale).toU64

/-- The characters a count may be of. -/
def inCount (c : Char) : Bool := c = '.' || c = ' ' || c.isAlphanum

/-- What is taken for a count behind each metric of a plan. -/
def scannedCounts (plan : Text) : List Text :=
  (matchesOf METRIC plan).map fun rest => Embed.trim (rest.takeWhile inCount)

/-- The widest `rows_scanned` any step of an executed plan reports, and zero where none does. -/
def widestScan (R : Rounding) (plan : Text) : ℕ :=
  ((scannedCounts plan).filterMap (parseHumanCount R)).max?.getD 0

/-! ## Rendered counts -/

/-- One digit or more. -/
def IsDigits (digits : Text) : Prop := digits ≠ [] ∧ ∀ c ∈ digits, c.isDigit = true

instance (digits : Text) : Decidable (IsDigits digits) :=
  @instDecidableAnd _ _ _ (List.decidableBAll _ digits)

/-- A decimal number, and what it is: digits, or digits on both sides of a point. -/
inductive IsDecimal : Text → ℚ≥0 → Prop
  | integer {digits : Text} (h : IsDigits digits) :
    IsDecimal digits (Nat.ofDigitChars 10 digits 0)
  | point {whole fraction : Text} (hwhole : IsDigits whole) (hfraction : IsDigits fraction) :
    IsDecimal (whole ++ '.' :: fraction)
      (Nat.ofDigitChars 10 (whole ++ fraction) 0 / 10 ^ fraction.length)

/-- A rendered count, and what it stands for: an integer, or a decimal number, one space and a
suffix, which is exact and rounded down. -/
inductive HasForm : Text → ℕ → Prop
  | integer {digits : Text} (h : IsDigits digits) : HasForm digits (Nat.ofDigitChars 10 digits 0)
  | scaled {number suffix : Text} {q : ℚ≥0} {scale : ℕ} (hnumber : IsDecimal number q)
    (hsuffix : scaleOf suffix = some scale) : HasForm (number ++ ' ' :: suffix) ⌊q * scale⌋₊

/-- A number as a rendered count has it: no sign, no exponent, and digits on both sides of a
point, which only stands in front of a suffix. -/
def Formed (scale : ℕ) (n : Number) : Prop :=
  n.sign = none ∧ n.exponent = none ∧ n.whole ≠ [] ∧ n.fraction ≠ some [] ∧
    (scale = 1 → n.fraction = none)

instance (scale : ℕ) (n : Number) : Decidable (Formed scale n) :=
  inferInstanceAs (Decidable (_ ∧ _ ∧ _ ∧ _ ∧ _))

theorem scaleOf_cases {suffix : Text} {scale : ℕ} (h : scaleOf suffix = some scale) :
    (suffix = ['K'] ∨ suffix = ['M'] ∨ suffix = ['G']) ∧ 1 < scale := by
  unfold scaleOf at h
  split at h
  · exact ⟨.inl rfl, by rw [← Option.some.inj h]; decide⟩
  · exact ⟨.inr (.inl rfl), by rw [← Option.some.inj h]; decide⟩
  · exact ⟨.inr (.inr rfl), by rw [← Option.some.inj h]; decide⟩
  · cases h

theorem scale_pos {text digits : Text} {scale : ℕ}
    (h : digitsAndScale text = some (digits, scale)) : 0 < scale := by
  unfold digitsAndScale at h
  split at h
  · obtain ⟨scale', hscale, heq⟩ := Option.map_eq_some_iff.1 h
    obtain ⟨-, rfl⟩ := Prod.mk.inj heq
    exact Nat.lt_trans Nat.zero_lt_one (scaleOf_cases hscale).2
  · obtain ⟨-, rfl⟩ := Prod.mk.inj (Option.some.inj h)
    exact Nat.zero_lt_one

theorem read_integer {digits : Text} (h : IsDigits digits) :
    readNumber digits = some (.integer none digits h.1 h.2) := by
  rw [readNumber_eq_some rfl, Number.mantissa_integer]
  rfl

/-- A decimal number with a point. -/
def decimal {whole fraction : Text} (hwhole : IsDigits whole) (hfraction : IsDigits fraction) :
    Number where
  sign := none
  whole := whole
  fraction := some fraction
  exponent := none
  isDigit := isDigit_of_mem_append hwhole.2 hfraction.2
  ne_nil := List.append_ne_nil_of_left_ne_nil hwhole.1 fraction

theorem read_decimal {whole fraction : Text} (hwhole : IsDigits whole)
    (hfraction : IsDigits fraction) :
    readNumber (whole ++ '.' :: fraction) = some (decimal hwhole hfraction) := by
  rw [readNumber_eq_some rfl]
  rfl

theorem isDigits_whole {n : Number} (h : n.whole ≠ []) : IsDigits n.whole :=
  ⟨h, fun c hc => n.isDigit c (List.mem_append_left _ hc)⟩

theorem isDigits_fraction {n : Number} {fraction : Text} (hfraction : n.fraction = some fraction)
    (h : n.fraction ≠ some []) : IsDigits fraction := by
  refine ⟨fun hnil => h (by rw [hfraction, hnil]), fun c hc => ?_⟩
  exact n.isDigit c (List.mem_append_right _ (by rw [hfraction]; exact hc))

/-- **A decimal number** is what reads as a number without a sign and an exponent, and with digits
on both sides of its point. -/
theorem isDecimal_iff {text : Text} {q : ℚ≥0} :
    IsDecimal text q ↔
      ∃ n, readNumber text = some n ∧ n.sign = none ∧ n.exponent = none ∧ n.whole ≠ [] ∧
        n.fraction ≠ some [] ∧ q = n.amount := by
  constructor
  · intro h
    cases h with
    | integer h =>
      refine ⟨_, read_integer h, rfl, rfl, h.1, nofun, ?_⟩
      rw [Number.amount_integer rfl rfl, Number.digits, Number.integer, Option.getD_none,
        List.append_nil]
    | point hwhole hfraction =>
      refine ⟨_, read_decimal hwhole hfraction, rfl, rfl, hwhole.1, ?_, ?_⟩
      · intro h
        exact hfraction.1 (Option.some.inj h)
      · rw [Number.amount_fraction rfl rfl]
        rfl
  · rintro ⟨n, hread, hsign, hexponent, hwhole, hfraction, rfl⟩
    have hdigits := isDigits_whole hwhole
    rw [(readNumber_eq_some hexponent).1 hread, Number.mantissa, hsign, signText, List.nil_append]
    cases hpoint : n.fraction with
    | none =>
      rw [Number.amount_integer hpoint hexponent, Number.digits, hpoint, fractionText,
        Option.getD_none, List.append_nil]
      exact .integer hdigits
    | some fraction =>
      rw [Number.amount_fraction hpoint hexponent, Number.digits, hpoint]
      exact .point hdigits (isDigits_fraction hpoint hfraction)

theorem space_not_mem_isDigits {digits : Text} (h : IsDigits digits) : ' ' ∉ digits := fun hmem =>
  absurd (h.2 ' ' hmem) (by decide)

theorem IsDecimal.space_not_mem {text : Text} {q : ℚ≥0} (h : IsDecimal text q) : ' ' ∉ text := by
  cases h with
  | integer h => exact space_not_mem_isDigits h
  | point hwhole hfraction =>
    rw [List.mem_append, List.mem_cons, not_or, not_or]
    exact ⟨space_not_mem_isDigits hwhole, by decide, space_not_mem_isDigits hfraction⟩

/-- An integer is as many rows as it says, times its scale. -/
theorem floor_integer {n : Number} {scale : ℕ} (hfraction : n.fraction = none)
    (hexponent : n.exponent = none) : ⌊n.amount * scale⌋₊ = n.digits * scale := by
  rw [Number.amount_integer hfraction hexponent, ← Nat.cast_mul, Nat.floor_natCast]

/-- **A rendered count** is what reads as a number of that form, in front of a suffix or none. -/
theorem hasForm_iff {text : Text} {k : ℕ} :
    HasForm text k ↔ ∃ digits scale n, digitsAndScale text = some (digits, scale) ∧
      read digits = some (.number n) ∧ Formed scale n ∧ k = ⌊n.amount * scale⌋₊ := by
  constructor
  · intro h
    cases h with
    | integer h =>
      have hparts : digitsAndScale text = some (text, 1) := by
        rw [digitsAndScale, splitOnce_eq_none (space_not_mem_isDigits h)]
      refine ⟨text, 1, _, hparts, read_eq_number.2 (read_integer h),
        ⟨rfl, rfl, h.1, nofun, fun _ => rfl⟩, ?_⟩
      rw [floor_integer rfl rfl, mul_one, Number.digits, Number.integer, Option.getD_none,
        List.append_nil]
    | @scaled number suffix q scale hnumber hsuffix =>
      obtain ⟨n, hread, hsign, hexponent, hwhole, hfraction, rfl⟩ := isDecimal_iff.1 hnumber
      have hparts : digitsAndScale (number ++ ' ' :: suffix) = some (number, scale) := by
        rw [digitsAndScale, splitOnce_append hnumber.space_not_mem]
        dsimp only
        rw [hsuffix]
        rfl
      have hscale := (scaleOf_cases hsuffix).2
      exact ⟨number, scale, n, hparts, read_eq_number.2 hread,
        ⟨hsign, hexponent, hwhole, hfraction, fun hone => absurd hone (by omega)⟩, rfl⟩
  · rintro ⟨digits, scale, n, hparts, hread, ⟨hsign, hexponent, hwhole, hfraction, hunit⟩, rfl⟩
    rw [read_eq_number] at hread
    unfold digitsAndScale at hparts
    split at hparts
    · rename_i digits' suffix hsplit
      obtain ⟨scale', hscale, heq⟩ := Option.map_eq_some_iff.1 hparts
      obtain ⟨rfl, rfl⟩ := Prod.mk.inj heq
      rw [eq_of_splitOnce hsplit]
      exact .scaled (isDecimal_iff.2 ⟨n, hread, hsign, hexponent, hwhole, hfraction, rfl⟩) hscale
    · obtain ⟨rfl, rfl⟩ := Prod.mk.inj (Option.some.inj hparts)
      have hpoint := hunit rfl
      rw [(readNumber_eq_some hexponent).1 hread, floor_integer hpoint hexponent, mul_one,
        Number.digits, Number.mantissa, hsign, hpoint, signText, fractionText, Option.getD_none,
        List.append_nil, List.nil_append]
      exact .integer (isDigits_whole hwhole)

theorem hasForm_number {text digits : Text} {scale k : ℕ} {n : Number}
    (hparts : digitsAndScale text = some (digits, scale))
    (hread : read digits = some (.number n)) :
    HasForm text k ↔ Formed scale n ∧ k = ⌊n.amount * scale⌋₊ := by
  rw [hasForm_iff]
  constructor
  · rintro ⟨digits', scale', n', hparts', hread', hform⟩
    obtain ⟨rfl, rfl⟩ := Prod.mk.inj (Option.some.inj (hparts.symm.trans hparts'))
    obtain rfl := Numeral.number.inj (Option.some.inj (hread.symm.trans hread'))
    exact hform
  · intro hform
    exact ⟨digits, scale, n, hparts, hread, hform⟩

/-! ## Reading a count -/

section Reading

variable (R : Rounding) (scale : ℕ) {text digits : Text}

/-- What is made of a numeral: of an integer as an integer, and of anything else as a float. -/
def countOf : Numeral → Option ℕ
  | .nan => none
  | .infinity sign => if sign = some .minus then none else some U64_MAX
  | .number n =>
    if n.IsInteger ∧ n.digits ≤ U64_MAX then some (min (n.digits * scale) U64_MAX)
    else if n.sign = some .minus then if R.nearest n.amount = 0 then some 0 else none
    else some (saturate (R.product scale n.amount))

theorem parseHumanCount_eq {scale : ℕ} (hparts : digitsAndScale text = some (digits, scale)) :
    parseHumanCount R text = (read digits).bind (countOf R scale) := by
  unfold parseHumanCount parseFloat
  rw [hparts, Option.bind_eq_bind, Option.bind_some]
  dsimp only
  cases hread : read digits with
  | none =>
    rw [parseU64_eq_none (by rw [hread]; nofun)]
    rfl
  | some numeral =>
    rw [Option.map_some, Option.bind_some]
    cases numeral with
    | nan =>
      rw [parseU64_eq_none (by rw [hread]; nofun)]
      rfl
    | infinity sign =>
      rw [parseU64_eq_none (by rw [hread]; nofun)]
      rcases sign with - | - | - <;> rfl
    | number n =>
      rw [parseU64_number hread, countOf]
      split_ifs with hinteger hsign hzero
      · rfl
      · simp [Numeral.value, Option.filter_some, Value.nonneg, Value.times, Value.toU64, hsign,
          hzero]
      · simp [Numeral.value, Option.filter_some, Value.nonneg, hsign, hzero]
      · simp [Numeral.value, Option.filter_some, Value.nonneg, Value.times, Value.toU64, hsign,
          Rounding.product]

/-- A text that is read as its form says, or refused where it has none. -/
def ReadsRight (text : Text) : Prop := ∀ k, parseHumanCount R text = some k ↔ HasForm text k

/-- No integer up to the largest is on one side of an amount and on the other side of what the
arithmetic makes of it. -/
def KeepsAmount (q : ℚ≥0) : Prop :=
  ∀ k : ℕ, k ≤ U64_MAX →
    (((k : ℚ≥0) : WithTop ℚ≥0) ≤ R.product scale q ↔
      ((k : ℚ≥0) : WithTop ℚ≥0) ≤ ((q * scale : ℚ≥0) : WithTop ℚ≥0))

instance (q : ℚ≥0) : Decidable (KeepsAmount R scale q) :=
  decidable_of_iff (saturate (R.product scale q) = saturate (q * scale : ℚ≥0)) saturate_eq_iff

/-- Exact arithmetic keeps every amount. -/
theorem keepsAmount_exact (q : ℚ≥0) : KeepsAmount .exact scale q := fun _ _ => Iff.rfl

/-- A numeral that is counted as its form says, or not at all where it has none: no number; an
infinity with a minus; a number with a minus that is not rounded to zero; or a number of that form
that is not more than the largest integer, and that the arithmetic keeps where it has a point. -/
def LegibleAs : Numeral → Prop
  | .nan => True
  | .infinity sign => sign = some .minus
  | .number n =>
    (n.sign = some .minus → R.nearest n.amount ≠ 0) ∧
      (n.sign ≠ some .minus → Formed scale n ∧ ⌊n.amount * scale⌋₊ ≤ U64_MAX ∧
        (n.fraction ≠ none → KeepsAmount R scale n.amount))

instance (numeral : Numeral) : Decidable (LegibleAs R scale numeral) :=
  match numeral with
  | .nan => inferInstanceAs (Decidable True)
  | .infinity sign => inferInstanceAs (Decidable (sign = some .minus))
  | .number n =>
    inferInstanceAs (Decidable ((n.sign = some .minus → _) ∧ (n.sign ≠ some .minus → _)))

/-- A text whose numeral, where it has one in front of a unit or alone, is legible. -/
def Legible (text : Text) : Prop :=
  ∀ parts ∈ digitsAndScale text, ∀ numeral ∈ read parts.1, LegibleAs R parts.2 numeral

instance (text : Text) : Decidable (Legible R text) :=
  inferInstanceAs (Decidable (∀ parts ∈ digitsAndScale text, ∀ numeral ∈ read parts.1, _))

/-- A numeral that stands for one row or more: an infinity, an integer that is not zero, or a
number whose product with its scale is at least one in the arithmetic; each without a minus. -/
def CountsAs : Numeral → Prop
  | .nan => False
  | .infinity sign => sign ≠ some .minus
  | .number n =>
    n.sign ≠ some .minus ∧ if n.IsInteger ∧ n.digits ≤ U64_MAX then 1 ≤ n.digits
      else 1 ≤ R.product scale n.amount

/-- A text whose numeral stands for one row or more. -/
def Counts (text : Text) : Prop :=
  ∃ parts ∈ digitsAndScale text, ∃ numeral ∈ read parts.1, CountsAs R parts.2 numeral

variable {R} {scale}

theorem countOf_le {numeral : Numeral} {k : ℕ} (h : countOf R scale numeral = some k) :
    k ≤ U64_MAX := by
  unfold countOf at h
  split at h
  · cases h
  · split_ifs at h
    exact (Option.some.inj h).symm.le
  · split_ifs at h
    · rw [← Option.some.inj h]
      exact Nat.min_le_right _ _
    · rw [← Option.some.inj h]
      exact Nat.zero_le _
    · rw [← Option.some.inj h]
      exact saturate_le _

variable {n : Number}

/-- A number without a minus is counted. -/
theorem countOf_isSome (hsign : n.sign ≠ some .minus) : (countOf R scale (.number n)).isSome := by
  rw [countOf, if_neg hsign]
  split_ifs <;> rfl

/-- A number with a minus is counted where it is rounded to zero, and then as that. -/
theorem countOf_minus (hsign : n.sign = some .minus) :
    countOf R scale (.number n) = if R.nearest n.amount = 0 then some 0 else none := by
  rw [countOf, if_neg fun h => h.1.1 hsign, if_pos hsign]

/-- **A number of the form of a count** is counted as what it stands for, where that is not more
than the largest integer and the arithmetic keeps it. -/
theorem countOf_formed (hscale : 0 < scale) (hform : Formed scale n) :
    countOf R scale (.number n) = some ⌊n.amount * scale⌋₊ ↔
      ⌊n.amount * scale⌋₊ ≤ U64_MAX ∧ (n.fraction ≠ none → KeepsAmount R scale n.amount) := by
  obtain ⟨hsign, hexponent, -, -, -⟩ := hform
  have hplus : n.sign ≠ some .minus := by rw [hsign]; decide
  by_cases hfraction : n.fraction = none
  · have hexact : ⌊n.amount * scale⌋₊ = n.digits * scale := floor_integer hfraction hexponent
    constructor
    · intro h
      exact ⟨countOf_le h, fun hpoint => absurd hfraction hpoint⟩
    · rintro ⟨hmax, -⟩
      rw [hexact] at hmax ⊢
      have hdigits : n.digits ≤ U64_MAX := (Nat.le_mul_of_pos_right _ hscale).trans hmax
      rw [countOf, if_pos ⟨⟨hplus, hfraction, hexponent⟩, hdigits⟩, min_eq_left hmax]
  · have hcount : countOf R scale (.number n) = some (saturate (R.product scale n.amount)) := by
      rw [countOf, if_neg fun h => hfraction h.1.2.1, if_neg hplus]
    constructor
    · intro h
      have hmax := countOf_le h
      rw [hcount] at h
      refine ⟨hmax, fun _ => saturate_eq_iff.1 ?_⟩
      rw [Option.some.inj h, saturate_coe, min_eq_left hmax]
    · rintro ⟨hmax, hkeeps⟩
      have hsaturate := saturate_eq_iff.2 (hkeeps hfraction)
      rw [hcount, hsaturate, saturate_coe, min_eq_left hmax]

/-- A count has a number in front of its unit. -/
theorem not_hasForm (hparts : digitsAndScale text = some (digits, scale))
    (hread : ∀ n, read digits ≠ some (.number n)) (k : ℕ) : ¬HasForm text k := by
  intro hform
  obtain ⟨digits', scale', n, hparts', hnumber, -⟩ := hasForm_iff.1 hform
  obtain ⟨rfl, rfl⟩ := Prod.mk.inj (Option.some.inj (hparts.symm.trans hparts'))
  exact hread n hnumber

/-- No count is in another unit. -/
theorem not_hasForm_of_unit (hparts : digitsAndScale text = none) (k : ℕ) : ¬HasForm text k := by
  intro hform
  obtain ⟨digits, scale, n, hparts', -⟩ := hasForm_iff.1 hform
  rw [hparts] at hparts'
  cases hparts'

/-- What has no form is to be refused. -/
theorem readsRight_of_formless (hform : ∀ k, ¬HasForm text k) :
    ReadsRight R text ↔ parseHumanCount R text = none := by
  constructor
  · intro h
    rw [Option.eq_none_iff_forall_ne_some]
    exact fun k hk => hform k ((h k).1 hk)
  · intro hnone k
    rw [hnone]
    exact ⟨nofun, fun hk => absurd hk (hform k)⟩

theorem readsRight_number (hparts : digitsAndScale text = some (digits, scale))
    (hread : read digits = some (.number n)) :
    ReadsRight R text ↔ LegibleAs R scale (.number n) := by
  have hparse : parseHumanCount R text = countOf R scale (.number n) := by
    rw [parseHumanCount_eq R hparts, hread, Option.bind_some]
  have hform := fun k => hasForm_number (k := k) hparts hread
  have hscale := scale_pos hparts
  by_cases hsign : n.sign = some .minus
  · have hformless : ∀ k, ¬HasForm text k := by
      intro k hk
      have hplain := ((hform k).1 hk).1.1
      rw [hsign] at hplain
      cases hplain
    rw [readsRight_of_formless hformless, hparse, countOf_minus hsign]
    constructor
    · intro h
      refine ⟨fun _ hzero => ?_, fun hplus => absurd hsign hplus⟩
      rw [if_pos hzero] at h
      cases h
    · rintro ⟨hnonzero, -⟩
      exact if_neg (hnonzero hsign)
  · constructor
    · intro h
      -- It is counted, so it must have a form, and be counted as what it stands for.
      obtain ⟨k, hk⟩ := Option.isSome_iff_exists.1 (countOf_isSome hsign)
      rw [← hparse] at hk
      obtain ⟨hformed, -⟩ := (hform k).1 ((h k).1 hk)
      have hcount := (h _).2 ((hform _).2 ⟨hformed, rfl⟩)
      rw [hparse, countOf_formed hscale hformed] at hcount
      exact ⟨fun hminus => absurd hminus hsign, fun _ => ⟨hformed, hcount⟩⟩
    · rintro ⟨-, hlegible⟩ k
      obtain ⟨hformed, hkeeps⟩ := hlegible hsign
      rw [hform, hparse, (countOf_formed hscale hformed).2 hkeeps, Option.some_inj, eq_comm]
      exact (and_iff_right hformed).symm

/-- **Which texts are read right**: those that are legible. -/
theorem readsRight_iff (text : Text) : ReadsRight R text ↔ Legible R text := by
  unfold Legible
  cases hparts : digitsAndScale text with
  | none =>
    refine iff_of_true ((readsRight_of_formless (not_hasForm_of_unit hparts)).2 ?_) nofun
    rw [parseHumanCount, hparts]
    rfl
  | some parts =>
    obtain ⟨digits, scale⟩ := parts
    have hparse := parseHumanCount_eq R hparts
    simp only [Option.mem_some_iff, forall_eq']
    cases hread : read digits with
    | none =>
      have hformless := not_hasForm hparts fun n => by rw [hread]; nofun
      rw [hread] at hparse
      exact iff_of_true ((readsRight_of_formless hformless).2 hparse) nofun
    | some numeral =>
      rw [hread, Option.bind_some] at hparse
      simp only [Option.mem_some_iff, forall_eq']
      cases numeral with
      | nan =>
        have hformless := not_hasForm hparts fun n => by rw [hread]; nofun
        exact iff_of_true ((readsRight_of_formless hformless).2 hparse) trivial
      | infinity sign =>
        have hformless := not_hasForm hparts fun n => by rw [hread]; nofun
        rw [readsRight_of_formless hformless, hparse, countOf, LegibleAs]
        split_ifs with hsign
        · exact iff_of_true rfl hsign
        · exact iff_of_false nofun hsign
      | number n => exact readsRight_number hparts hread

theorem countsAs_iff (hscale : 0 < scale) (numeral : Numeral) :
    CountsAs R scale numeral ↔ ∃ k ∈ countOf R scale numeral, 1 ≤ k := by
  cases numeral with
  | nan => exact iff_of_false id (by simp [countOf])
  | infinity sign =>
    rw [CountsAs, countOf]
    split_ifs with hsign
    · exact iff_of_false (fun h => h hsign) (by simp)
    · exact iff_of_true hsign ⟨U64_MAX, rfl, by decide⟩
  | number n =>
    by_cases hsign : n.sign = some .minus
    · rw [countOf_minus hsign]
      refine iff_of_false (fun h => h.1 hsign) ?_
      rintro ⟨k, hk, hpos⟩
      split_ifs at hk
      · rw [← Option.some.inj hk] at hpos
        exact absurd hpos (by decide)
      · cases hk
    · rw [CountsAs, countOf, and_iff_right hsign, if_neg hsign]
      split_ifs with hinteger
      · have hmax : 1 ≤ U64_MAX := by decide
        simp only [Option.mem_some_iff, exists_eq_left', le_min_iff, hmax, and_true]
        rw [Nat.one_le_iff_ne_zero, Nat.one_le_iff_ne_zero, Nat.mul_ne_zero_iff]
        exact (and_iff_left hscale.ne').symm
      · have hone := natCast_le_saturate (k := 1) (by decide) (R.product scale n.amount)
        simp only [Option.mem_some_iff, exists_eq_left', hone]
        rw [Nat.cast_one, WithTop.coe_one]

/-- A text is counted as one row or more exactly where its numeral stands for that. -/
theorem counts_iff (text : Text) : Counts R text ↔ ∃ k ∈ parseHumanCount R text, 1 ≤ k := by
  unfold Counts
  cases hparts : digitsAndScale text with
  | none => simp [parseHumanCount, hparts]
  | some parts =>
    obtain ⟨digits, scale⟩ := parts
    rw [parseHumanCount_eq R hparts]
    cases hread : read digits with
    | none => simp [hread]
    | some numeral => simp [hread, countsAs_iff (scale_pos hparts)]

end Reading

/-! ## Measuring a plan -/

section Plans

/-- `text` without the spaces at its ends. -/
def stripSpaces (text : Text) : Text :=
  ((text.dropWhile (· = ' ')).reverse.dropWhile (· = ' ')).reverse

/-- What a plan says of the metric, up to a delimiter: every value, wherever the metric stands. -/
def valuesOf (ends : Char → Bool) (plan : Text) : List Text :=
  (occurrences METRIC plan).map fun rest => stripSpaces (rest.takeWhile fun c => !ends c)

/-- A plan whose counts are read right, and that is measured by the widest of them, or as zero
where one of them has no form. -/
structure MeasuresRight (R : Rounding) (ends : Char → Bool) (plan : Text) : Prop where
  reads : ∀ text ∈ scannedCounts plan, ReadsRight R text
  widest : ∀ counts, List.Forall₂ HasForm (valuesOf ends plan) counts →
    widestScan R plan = counts.max?.getD 0
  refuses : (∃ value ∈ valuesOf ends plan, ∀ k, ¬HasForm value k) → widestScan R plan = 0

theorem isDigits_inCount {digits : Text} (h : IsDigits digits) :
    ∀ c ∈ digits, inCount c = true := by
  intro c hc
  have hdigit := h.2 c hc
  simp [inCount, Char.isAlphanum, hdigit]

theorem IsDecimal.inCount {text : Text} {q : ℚ≥0} (h : IsDecimal text q) :
    ∀ c ∈ text, inCount c = true := by
  cases h with
  | integer h => exact isDigits_inCount h
  | point hwhole hfraction =>
    rw [List.forall_mem_append, List.forall_mem_cons]
    exact ⟨isDigits_inCount hwhole, by decide, isDigits_inCount hfraction⟩

/-- The scanner does not stop inside a count. -/
theorem HasForm.inCount {text : Text} {k : ℕ} (h : HasForm text k) :
    ∀ c ∈ text, inCount c = true := by
  cases h with
  | integer h => exact isDigits_inCount h
  | scaled hnumber hsuffix =>
    rw [List.forall_mem_append, List.forall_mem_cons]
    refine ⟨hnumber.inCount, by decide, ?_⟩
    rcases (scaleOf_cases hsuffix).1 with rfl | rfl | rfl <;>
      exact List.forall_mem_singleton.2 (by decide)

theorem toNat_of_isAlphanum {c : Char} (h : c.isAlphanum = true) :
    0x30 ≤ c.toNat ∧ c.toNat ≤ 0x7A := by
  rcases Bool.or_eq_true_iff.1 h with h | h
  · rcases Bool.or_eq_true_iff.1 h with h | h
    · have hupper : c.val ≥ 'A'.val ∧ c.val ≤ 'Z'.val := of_decide_eq_true h
      have hlow : 0x41 ≤ c.toNat := UInt32.le_iff_toNat_le.1 hupper.1
      have hhigh : c.toNat ≤ 0x5A := UInt32.le_iff_toNat_le.1 hupper.2
      omega
    · have hlower := Bool.and_eq_true_iff.1 h
      have hlow : 0x61 ≤ c.toNat := UInt32.le_iff_toNat_le.1 (of_decide_eq_true hlower.1)
      have hhigh : c.toNat ≤ 0x7A := UInt32.le_iff_toNat_le.1 (of_decide_eq_true hlower.2)
      omega
  · obtain ⟨hlow, hhigh⟩ := Char.isDigit_iff_toNat.1 h
    exact ⟨hlow, Nat.le_trans hhigh (by decide)⟩

/-- Of the characters of a count, the space is the only one that is trimmed. -/
theorem isWhitespace_inCount {c : Char} (h : inCount c = true) :
    Embed.isWhitespace c = decide (c = ' ') := by
  unfold Store.inCount at h
  rw [Bool.or_eq_true, Bool.or_eq_true, decide_eq_true_eq, decide_eq_true_eq] at h
  rcases h with (rfl | rfl) | h
  · decide
  · decide
  · have hspace : c ≠ ' ' := by
      rintro rfl
      exact absurd h (by decide)
    have hrange := toNat_of_isAlphanum h
    rw [decide_eq_false hspace]
    unfold Embed.isWhitespace
    simp
    omega

theorem dropWhile_congr {p q : Char → Bool} {text : Text} (h : ∀ c ∈ text, p c = q c) :
    text.dropWhile p = text.dropWhile q := by
  induction text with
  | nil => rfl
  | cons c text ih =>
    rw [List.forall_mem_cons] at h
    rw [List.dropWhile_cons, List.dropWhile_cons, h.1, ih h.2]

theorem trim_eq_stripSpaces {text : Text} (h : ∀ c ∈ text, inCount c = true) :
    Embed.trim text = stripSpaces text := by
  have hspace : ∀ text : Text, (∀ c ∈ text, inCount c = true) →
      text.dropWhile Embed.isWhitespace = text.dropWhile (· = ' ') := fun text h =>
    dropWhile_congr fun c hc => isWhitespace_inCount (h c hc)
  unfold Embed.trim stripSpaces
  rw [hspace text h, hspace]
  intro c hc
  exact h c ((List.dropWhile_suffix _).subset (List.mem_reverse.1 hc))

theorem mem_dropWhile {p : Char → Bool} {text : Text} {c : Char} (h : c ∈ text) :
    c ∈ text.dropWhile p ∨ p c = true := by
  rw [← List.takeWhile_append_dropWhile (p := p) (l := text), List.mem_append] at h
  rcases h with h | h
  · exact .inr (List.mem_takeWhile_imp h)
  · exact .inl h

/-- What is stripped is spaces. -/
theorem mem_stripSpaces {text : Text} {c : Char} (h : c ∈ text) :
    c ∈ stripSpaces text ∨ c = ' ' := by
  unfold stripSpaces
  rcases mem_dropWhile (p := (· = ' ')) h with h | h
  · rw [List.mem_reverse]
    exact (mem_dropWhile (List.mem_reverse.2 h)).imp_right of_decide_eq_true
  · exact .inr (of_decide_eq_true h)

/-- The scanner and a reader that goes on to a delimiter take the same, where what the reader
takes are characters of a count. -/
theorem takeWhile_eq {p q : Char → Bool} {text : Text} (hpq : ∀ c, p c = true → q c = true)
    (h : ∀ c ∈ text.takeWhile q, p c = true) : text.takeWhile p = text.takeWhile q := by
  induction text with
  | nil => rfl
  | cons c text ih =>
    rw [List.takeWhile_cons] at h
    rw [List.takeWhile_cons, List.takeWhile_cons]
    cases hq : q c with
    | false =>
      have hp : p c = false := by
        by_contra hp
        rw [hpq c (by simpa using hp)] at hq
        cases hq
      simp [hp]
    | true =>
      rw [hq, if_pos rfl, List.forall_mem_cons] at h
      rw [h.1, if_pos rfl, if_pos rfl, ih h.2]

variable {R : Rounding} {ends : Char → Bool} {plan : Text}

theorem scannedCounts_eq (plan : Text) :
    scannedCounts plan =
      (occurrences METRIC plan).map fun rest => Embed.trim (rest.takeWhile inCount) := by
  have hpattern : METRIC = 'r' :: "ows_scanned=".toList := rfl
  unfold scannedCounts
  rw [hpattern, matchesOf_eq (by decide)]

/-- **The scanner takes every value whole** that is a rendered count, and each once. -/
theorem scannedCounts_eq_valuesOf (hends : ∀ c, inCount c = true → ends c = false)
    (hforms : ∀ value ∈ valuesOf ends plan, ∃ k, HasForm value k) :
    scannedCounts plan = valuesOf ends plan := by
  rw [scannedCounts_eq, valuesOf]
  refine List.map_congr_left fun rest hrest => ?_
  obtain ⟨k, hform⟩ := hforms _ (List.mem_map_of_mem hrest)
  have hcounts : ∀ c ∈ rest.takeWhile (fun c => !ends c), inCount c = true := by
    intro c hc
    rcases mem_stripSpaces hc with hc | rfl
    · exact hform.inCount c hc
    · decide
  have htake : rest.takeWhile inCount = rest.takeWhile fun c => !ends c :=
    takeWhile_eq (fun c hc => by rw [hends c hc]; rfl) hcounts
  rw [htake, trim_eq_stripSpaces hcounts]

theorem exists_form {texts : List Text} {counts : List ℕ}
    (hforms : List.Forall₂ HasForm texts counts) : ∀ text ∈ texts, ∃ k, HasForm text k := by
  induction hforms with
  | nil => exact nofun
  | @cons text k texts counts hform _ ih => exact List.forall_mem_cons.2 ⟨⟨k, hform⟩, ih⟩

/-- Counts that are read right are read as what they stand for. -/
theorem filterMap_parse {texts : List Text} {counts : List ℕ}
    (hforms : List.Forall₂ HasForm texts counts) (hreads : ∀ text ∈ texts, ReadsRight R text) :
    texts.filterMap (parseHumanCount R) = counts := by
  induction hforms with
  | nil => rfl
  | cons hform _ ih =>
    rw [List.forall_mem_cons] at hreads
    rw [List.filterMap_cons_some ((hreads.1 _).2 hform), ih hreads.2]

/-- A plan is measured as zero where nothing in it is counted as one row or more. -/
theorem widestScan_eq_zero :
    widestScan R plan = 0 ↔ ∀ text ∈ scannedCounts plan, ¬Counts R text := by
  unfold widestScan
  constructor
  · intro hzero text htext hcounts
    obtain ⟨k, hk, hpos⟩ := (counts_iff text).1 hcounts
    have hmem := List.mem_filterMap.2 ⟨text, htext, hk⟩
    have hle := List.le_max?_getD_of_mem (k := 0) hmem
    omega
  · intro hnone
    cases hmax : ((scannedCounts plan).filterMap (parseHumanCount R)).max? with
    | none => rfl
    | some k =>
      obtain ⟨text, htext, hk⟩ := List.mem_filterMap.1 (List.max?_mem hmax)
      by_contra hpos
      exact hnone text htext ((counts_iff text).2 ⟨k, hk, Nat.one_le_iff_ne_zero.2 hpos⟩)

/-- **When a plan is measured right.**  A text is read right exactly where it is legible; and a
plan is measured right exactly where each of its counts is legible, and all its values are
rendered counts or none of what is scanned is counted as one row or more. -/
theorem measures_right_iff (R : Rounding) (ends : Char → Bool)
    (hends : ∀ c, inCount c = true → ends c = false) :
    (∀ text, ReadsRight R text ↔ Legible R text) ∧
    ∀ plan, MeasuresRight R ends plan ↔
      (∀ text ∈ scannedCounts plan, Legible R text) ∧
      ((∀ value ∈ valuesOf ends plan, ∃ k, HasForm value k) ∨
        ∀ text ∈ scannedCounts plan, ¬Counts R text) := by
  refine ⟨readsRight_iff, fun plan => ⟨fun h => ⟨fun text htext => ?_, ?_⟩, ?_⟩⟩
  · exact (readsRight_iff text).1 (h.reads text htext)
  · rw [or_iff_not_imp_left]
    intro hforms
    simp only [not_forall, not_exists] at hforms
    obtain ⟨value, hvalue, hformless⟩ := hforms
    exact widestScan_eq_zero.1 (h.refuses ⟨value, hvalue, hformless⟩)
  · rintro ⟨hlegible, hplan⟩
    have hreads : ∀ text ∈ scannedCounts plan, ReadsRight R text := fun text htext =>
      (readsRight_iff text).2 (hlegible text htext)
    refine ⟨hreads, fun counts hcounts => ?_, ?_⟩
    · have hforms := exists_form hcounts
      rw [scannedCounts_eq_valuesOf hends hforms] at hreads
      rw [widestScan, scannedCounts_eq_valuesOf hends hforms, filterMap_parse hcounts hreads]
    · rintro ⟨value, hvalue, hformless⟩
      rcases hplan with hforms | hnone
      · obtain ⟨k, hk⟩ := hforms value hvalue
        exact absurd hk (hformless k)
      · exact widestScan_eq_zero.2 hnone

/-- What stands behind a value in a plan. -/
def delimiter (c : Char) : Bool := c = ',' || c = ']' || c = '\n'

theorem delimiter_inCount (c : Char) (h : inCount c = true) : delimiter c = false := by
  by_contra hc
  rw [Bool.not_eq_false, delimiter, Bool.or_eq_true, Bool.or_eq_true, decide_eq_true_eq,
    decide_eq_true_eq, decide_eq_true_eq] at hc
  rcases hc with (rfl | rfl) | rfl <;> exact absurd h (by decide)

/-- Two steps of a plan: a row was looked up, and a thousand were scanned for it. -/
def lookup : Text :=
  "LanceRead: metrics=[rows_scanned=1, bytes_read=8.13 K]\n".toList ++
    "  LanceRead: metrics=[rows_scanned=1.00 K, iops=3]".toList

/-- It is measured by the thousand. -/
theorem lookup_measured :
    widestScan .double lookup = 1000 ∧ MeasuresRight .double delimiter lookup := by
  have hscanned : scannedCounts lookup = ["1".toList, "1.00 K".toList] := by decide
  have hvalues : valuesOf delimiter lookup = ["1".toList, "1.00 K".toList] := by decide
  refine ⟨by decide +kernel,
    ((measures_right_iff .double delimiter delimiter_inCount).2 lookup).2 ⟨?_, .inl ?_⟩⟩
  · rw [hscanned]
    decide +kernel
  · rw [hvalues, List.forall_mem_cons, List.forall_mem_cons]
    have hone : IsDigits ['1'] := by decide
    have hzeros : IsDigits ['0', '0'] := by decide
    exact ⟨⟨_, .integer hone⟩, ⟨_, .scaled (.point hone hzeros) rfl⟩, nofun⟩

/-- A plan with one count in a unit that the reader does not know. -/
def renamed : Text := "rows_scanned=1.00 T, rows_scanned=5".toList

/-- It is measured by the other count, and not as zero.  Of texts that are no rendered count, a
float without a unit, a sign, an exponent and an infinity are counted; and of those that are one,
what floats lose of `2.01 K` is a row. -/
theorem renamed_under_reported :
    widestScan .double renamed = 5 ∧ ¬MeasuresRight .double delimiter renamed ∧
      ∀ read ∈ [("1.5", 1), ("+5", 5), ("1e3", 1000), ("inf", U64_MAX), ("2.01 K", 2009)],
        parseHumanCount .double read.1.toList = some read.2 ∧
          ¬ReadsRight .double read.1.toList := by
  have hfive : widestScan .double renamed = 5 := by decide +kernel
  refine ⟨hfive, fun h => ?_, ?_⟩
  · have hvalue : "1.00 T".toList ∈ valuesOf delimiter renamed := by decide
    have hunit : digitsAndScale "1.00 T".toList = none := by decide
    have hzero := h.refuses ⟨_, hvalue, not_hasForm_of_unit hunit⟩
    rw [hfive] at hzero
    cases hzero
  · simp only [readsRight_iff]
    decide +kernel

end Plans

end EuleDB.Store
