import Mathlib.Data.List.Basic
import Mathlib.Data.List.Induction

/-!
# Text in lines and fields

Texts are lists of characters.  The readers follow the standard library's `str::lines`,
`str::split`, `str::match_indices` and `str::parse`.

* `lines_flatMap` — the lines of concatenated lines, each written with its newline: what was
  written, less one carriage return at the end of each.
* `lines_append`, `exists_last_line` — behind a newline the lines start anew, and what follows the
  last newline is one more line.
* `splitOnce_append` — a field is what stands before the first of its ends.
* `matchesOf_eq` — where a pattern's first character is in it once, its matches are all its
  occurrences.
* `parseNat_toDigits` — a number that was printed is read back.
* `utf8Decode_eq_some` — the bytes of a text decode to it, and nothing else does.
-/

set_option autoImplicit false

namespace Lines

/-! ## Lines -/

/-- The pieces of a text, each up to and with its newline. -/
def splitInclusive : List Char → List (List Char)
  | [] => []
  | c :: text =>
    if c = '\n' then [c] :: splitInclusive text
    else
      match splitInclusive text with
      | [] => [[c]]
      | piece :: pieces => (c :: piece) :: pieces

/-- `text` without `c` at its end, or `none` when it ends otherwise. -/
def stripSuffix (c : Char) (text : List Char) : Option (List Char) :=
  if text.getLast? = some c then some text.dropLast else none

/-- `text` without one carriage return at its end, if it has one there. -/
def dropCarriageReturn (text : List Char) : List Char := (stripSuffix '\r' text).getD text

/-- A piece without its newline, and without a carriage return before that newline. -/
def lineOf (piece : List Char) : List Char :=
  match stripSuffix '\n' piece with
  | none => piece
  | some line => dropCarriageReturn line

/-- `str::lines`. -/
def lines (text : List Char) : List (List Char) := (splitInclusive text).map lineOf

theorem splitInclusive_newline {line : List Char} (h : '\n' ∉ line) (rest : List Char) :
    splitInclusive (line ++ '\n' :: rest) = (line ++ ['\n']) :: splitInclusive rest := by
  induction line with
  | nil => simp [splitInclusive]
  | cons c line ih =>
    rw [List.mem_cons, not_or] at h
    rw [List.cons_append, splitInclusive, if_neg (Ne.symm h.1), ih h.2]
    rfl

/-- The pieces of a text are all of it. -/
theorem flatten_splitInclusive (text : List Char) : (splitInclusive text).flatten = text := by
  induction text with
  | nil => rfl
  | cons c text ih =>
    rw [splitInclusive]
    split_ifs with hc
    · rw [List.flatten_cons, ih, hc]
      rfl
    · split
      · rename_i hsplit
        rw [hsplit] at ih
        rw [← ih]
        rfl
      · rename_i piece pieces hsplit
        rw [hsplit] at ih
        rw [← ih]
        rfl

theorem stripSuffix_append_singleton (c : Char) (text : List Char) :
    stripSuffix c (text ++ [c]) = some text := by
  unfold stripSuffix
  rw [List.getLast?_concat, if_pos rfl, List.dropLast_concat]

theorem lineOf_newline (line : List Char) : lineOf (line ++ ['\n']) = dropCarriageReturn line := by
  unfold lineOf
  rw [stripSuffix_append_singleton]

/-- **The lines of concatenated lines**: each line back, less one carriage return at its end. -/
theorem lines_flatMap {α : Type} (line : α → List Char) (records : List α)
    (h : ∀ r ∈ records, '\n' ∉ line r) :
    lines (records.flatMap fun r => line r ++ ['\n']) =
      records.map fun r => dropCarriageReturn (line r) := by
  induction records with
  | nil => rfl
  | cons r records ih =>
    have hr := h r List.mem_cons_self
    have htail := ih fun r' hr' => h r' (List.mem_cons_of_mem _ hr')
    unfold lines at htail ⊢
    rw [List.flatMap_cons, List.append_assoc, List.singleton_append, splitInclusive_newline hr,
      List.map_cons, lineOf_newline, htail, List.map_cons]

/-- Texts joined by a character, and that character once more at the end. -/
theorem intercalate_concat (c : Char) {texts : List (List Char)} (h : texts ≠ []) :
    [c].intercalate texts ++ [c] = texts.flatMap fun text => text ++ [c] := by
  induction texts with
  | nil => exact absurd rfl h
  | cons text texts ih =>
    cases texts with
    | nil => simp
    | cons next texts =>
      have hrest := ih (List.cons_ne_nil next texts)
      rw [List.intercalate_cons_cons, List.append_assoc, hrest]
      rfl

/-- A text that is empty or ends with a newline. -/
def Ended (text : List Char) : Prop := text = [] ∨ text.getLast? = some '\n'

instance (text : List Char) : Decidable (Ended text) := inferInstanceAs (Decidable (_ ∨ _))

theorem ended_append_newline (text : List Char) : Ended (text ++ ['\n']) :=
  .inr List.getLast?_concat

theorem splitInclusive_ne_nil {text : List Char} (h : text ≠ []) : splitInclusive text ≠ [] := by
  cases text with
  | nil => exact absurd rfl h
  | cons c text =>
    unfold splitInclusive
    split_ifs
    · exact List.cons_ne_nil _ _
    · split <;> exact List.cons_ne_nil _ _

theorem splitInclusive_append {a : List Char} (h : Ended a) (b : List Char) :
    splitInclusive (a ++ b) = splitInclusive a ++ splitInclusive b := by
  induction a with
  | nil => rfl
  | cons c a ih =>
    rw [List.cons_append, splitInclusive, splitInclusive]
    by_cases ha : a = []
    · subst ha
      have hc : c = '\n' := by
        rcases h with h | h
        · cases h
        · exact Option.some.inj h
      rw [if_pos hc, if_pos hc]
      rfl
    · have hended : Ended a := by
        rcases h with h | h
        · cases h
        · rw [List.getLast?_cons_of_ne_nil ha] at h
          exact .inr h
      rw [ih hended]
      split_ifs with hc
      · rfl
      · obtain ⟨piece, pieces, hsplit⟩ :=
          List.exists_cons_of_ne_nil (splitInclusive_ne_nil ha)
        rw [hsplit]
        rfl

/-- **Behind a newline the lines start anew.** -/
theorem lines_append {a : List Char} (h : Ended a) (b : List Char) :
    lines (a ++ b) = lines a ++ lines b := by
  unfold lines
  rw [splitInclusive_append h, List.map_append]

/-- A text without a newline is one line, as it is. -/
theorem lines_of_not_mem {text : List Char} (h : '\n' ∉ text) (hne : text ≠ []) :
    lines text = [text] := by
  have hsplit : splitInclusive text = [text] := by
    induction text with
    | nil => exact absurd rfl hne
    | cons c text ih =>
      rw [List.mem_cons, not_or] at h
      rw [splitInclusive, if_neg (Ne.symm h.1)]
      by_cases htext : text = []
      · rw [htext]
        rfl
      · rw [ih h.2 htext]
  have hstrip : stripSuffix '\n' text = none := by
    unfold stripSuffix
    rw [if_neg]
    intro hlast
    exact h (List.mem_of_getLast? hlast)
  unfold lines
  rw [hsplit, List.map_singleton]
  unfold lineOf
  rw [hstrip]

theorem lines_line {line : List Char} (h : '\n' ∉ line) :
    lines (line ++ ['\n']) = [dropCarriageReturn line] := by
  unfold lines
  rw [splitInclusive_newline h, List.map_cons, lineOf_newline]
  rfl

/-- A text is what stands up to its last newline and one last line. -/
theorem exists_last_line (text : List Char) :
    ∃ front last, text = front ++ last ∧ Ended front ∧ '\n' ∉ last := by
  induction text using List.reverseRecOn with
  | nil => exact ⟨[], [], rfl, .inl rfl, List.not_mem_nil⟩
  | append_singleton text c ih =>
    by_cases hc : c = '\n'
    · subst hc
      exact ⟨text ++ ['\n'], [], (List.append_nil _).symm, ended_append_newline text,
        List.not_mem_nil⟩
    · obtain ⟨front, last, rfl, hended, hlast⟩ := ih
      refine ⟨front, last ++ [c], List.append_assoc _ _ _, hended, ?_⟩
      rw [List.mem_append, List.mem_singleton, not_or]
      exact ⟨hlast, Ne.symm hc⟩

theorem dropCarriageReturn_eq_self {text : List Char} :
    dropCarriageReturn text = text ↔ text.getLast? ≠ some '\r' := by
  unfold dropCarriageReturn stripSuffix
  split
  · rename_i hlast
    have hne : text ≠ [] := by
      rintro rfl
      cases hlast
    have hlength := List.length_pos_iff.2 hne
    refine ⟨fun h => ?_, fun h => absurd hlast h⟩
    rw [Option.getD_some] at h
    have := congrArg List.length h
    rw [List.length_dropLast] at this
    omega
  · rename_i hlast
    exact ⟨fun _ => hlast, fun _ => rfl⟩

/-- What stands before a nonempty end has no part in what is dropped. -/
theorem dropCarriageReturn_append {front : List Char} (text : List Char)
    (h : front.getLast? ≠ some '\r') :
    dropCarriageReturn (front ++ text) = front ++ dropCarriageReturn text := by
  cases text with
  | nil => rw [List.append_nil, dropCarriageReturn_eq_self.2 h]; exact (List.append_nil _).symm
  | cons c text =>
    unfold dropCarriageReturn stripSuffix
    rw [List.getLast?_append_of_ne_nil _ (List.cons_ne_nil c text)]
    split
    · rw [Option.getD_some, Option.getD_some,
        List.dropLast_append_of_ne_nil (List.cons_ne_nil c text)]
    · rfl

/-! ## Fields -/

/-- `str::split_once`. -/
def splitOnce (c : Char) : List Char → Option (List Char × List Char)
  | [] => none
  | d :: text =>
    if d = c then some ([], text)
    else (splitOnce c text).map fun parts => (d :: parts.1, parts.2)

theorem splitOnce_append {c : Char} {field : List Char} (h : c ∉ field) (rest : List Char) :
    splitOnce c (field ++ c :: rest) = some (field, rest) := by
  induction field with
  | nil => exact if_pos rfl
  | cons d field ih =>
    rw [List.mem_cons, not_or] at h
    rw [List.cons_append, splitOnce, if_neg (Ne.symm h.1), ih h.2]
    rfl

theorem splitOnce_eq_none {c : Char} {text : List Char} (h : c ∉ text) :
    splitOnce c text = none := by
  induction text with
  | nil => rfl
  | cons d text ih =>
    rw [List.mem_cons, not_or] at h
    rw [splitOnce, if_neg (Ne.symm h.1), ih h.2]
    rfl

theorem eq_of_splitOnce {c : Char} {text field rest : List Char}
    (h : splitOnce c text = some (field, rest)) : text = field ++ c :: rest := by
  induction text generalizing field with
  | nil => cases h
  | cons d text ih =>
    rw [splitOnce] at h
    split_ifs at h with hd
    · obtain ⟨rfl, rfl⟩ := Prod.mk.inj (Option.some.inj h)
      rw [hd]
      rfl
    · obtain ⟨⟨front, back⟩, hparts, heq⟩ := Option.map_eq_some_iff.1 h
      obtain ⟨rfl, rfl⟩ := Prod.mk.inj heq
      rw [ih hparts]
      rfl

/-! ## Occurrences -/

/-- What stands behind each place where a text has the pattern. -/
def occurrences (pattern text : List Char) : List (List Char) :=
  text.tails.filterMap pattern.isPrefixOf?

/-- What stands behind each match, from the left.  No match begins inside the one before it, so
`skip` characters are passed over first. -/
def matchesFrom (pattern : List Char) : Nat → List Char → List (List Char)
  | _, [] => []
  | skip + 1, _ :: text => matchesFrom pattern skip text
  | 0, c :: text =>
    match pattern.isPrefixOf? (c :: text) with
    | some rest => rest :: matchesFrom pattern (pattern.length - 1) text
    | none => matchesFrom pattern 0 text

/-- `str::match_indices`, as far as what stands behind the matches. -/
def matchesOf (pattern text : List Char) : List (List Char) := matchesFrom pattern 0 text

theorem occurrences_cons (pattern : List Char) (c : Char) (text : List Char) :
    occurrences pattern (c :: text) =
      (pattern.isPrefixOf? (c :: text)).toList ++ occurrences pattern text := by
  unfold occurrences
  rw [List.tails, List.filterMap_cons]
  cases pattern.isPrefixOf? (c :: text) <;> rfl

theorem isPrefixOf?_of_ne {c d : Char} (h : d ≠ c) (pattern text : List Char) :
    (c :: pattern).isPrefixOf? (d :: text) = none := by
  rw [List.isPrefixOf?, if_neg (by simpa using Ne.symm h)]

theorem matchesFrom_eq {c : Char} {pattern : List Char} (hc : c ∉ pattern) (skip : Nat)
    (text : List Char) (hskip : c ∉ text.take skip) :
    matchesFrom (c :: pattern) skip text = occurrences (c :: pattern) text := by
  induction text generalizing skip with
  | nil =>
    unfold matchesFrom
    rfl
  | cons d text ih =>
    rw [occurrences_cons]
    cases skip with
    | succ skip =>
      rw [List.take_succ_cons, List.mem_cons, not_or] at hskip
      rw [isPrefixOf?_of_ne (Ne.symm hskip.1), matchesFrom, ih skip hskip.2]
      rfl
    | zero =>
      rw [matchesFrom]
      cases hprefix : (c :: pattern).isPrefixOf? (d :: text) with
      | none => exact ih 0 (by simp)
      | some rest =>
        have htext := List.append_eq_of_isPrefixOf?_eq_some hprefix
        rw [List.cons_append] at htext
        obtain ⟨-, rfl⟩ := List.cons.inj htext
        have hinside : c ∉ (pattern ++ rest).take pattern.length := by
          rw [List.take_left]
          exact hc
        exact congrArg (rest :: ·) (ih pattern.length hinside)

/-- **The matches of a pattern** are all its occurrences, where its first character is in it
once: no two of them share a character. -/
theorem matchesOf_eq {c : Char} {pattern : List Char} (hc : c ∉ pattern) (text : List Char) :
    matchesOf (c :: pattern) text = occurrences (c :: pattern) text :=
  matchesFrom_eq hc 0 text (by simp)

/-! ## Numbers -/

/-- The digits of an unsigned number, read with an optional plus sign. -/
def parseNat (text : List Char) : Option Nat :=
  let digits := match text with
    | '+' :: rest => rest
    | _ => text
  if digits ≠ [] ∧ digits.all Char.isDigit then some (Nat.ofDigitChars 10 digits 0) else none

theorem parseNat_digits {text : List Char} (hne : text ≠ [])
    (hdigits : ∀ c ∈ text, c.isDigit = true) :
    parseNat text = some (Nat.ofDigitChars 10 text 0) := by
  have hsign : ∀ t : List Char, '+' ∉ t → (match t with
      | '+' :: rest => rest
      | _ => t) = t := by
    intro t ht
    split
    · exact absurd List.mem_cons_self ht
    · rfl
  have hplus : '+' ∉ text := fun hmem => absurd (hdigits '+' hmem) (by decide)
  unfold parseNat
  dsimp only
  rw [hsign text hplus, if_pos ⟨hne, List.all_eq_true.2 hdigits⟩]

theorem parseNat_toDigits (n : Nat) : parseNat (Nat.toDigits 10 n) = some n := by
  have hdigits : ∀ c ∈ Nat.toDigits 10 n, c.isDigit := fun c hc =>
    Nat.isDigit_of_mem_toDigits (by decide) (by decide) hc
  rw [parseNat_digits Nat.toDigits_ne_nil hdigits,
    Nat.ofDigitChars_toDigits (by decide) (by decide)]

/-! ## UTF-8 -/

/-- The bytes of a text. -/
def utf8 (text : List Char) : List UInt8 := text.flatMap String.utf8EncodeChar

/-- The text of a byte string, if it is UTF-8. -/
def utf8Decode (bytes : List UInt8) : Option (List Char) :=
  bytes.toByteArray.utf8Decode?.map Array.toList

@[simp] theorem utf8_nil : utf8 [] = [] := rfl

@[simp] theorem utf8_append (a b : List Char) : utf8 (a ++ b) = utf8 a ++ utf8 b :=
  List.flatMap_append

theorem utf8Decode_utf8 (text : List Char) : utf8Decode (utf8 text) = some text := by
  have h := List.utf8Decode?_utf8Encode (l := text)
  unfold utf8Decode utf8
  rw [show (text.flatMap String.utf8EncodeChar).toByteArray = text.utf8Encode from rfl, h]
  rfl

/-- **The bytes of a text decode to it, and no other bytes do.** -/
theorem utf8Decode_eq_some {bytes : List UInt8} {text : List Char} :
    utf8Decode bytes = some text ↔ bytes = utf8 text := by
  constructor
  · intro h
    unfold utf8Decode at h
    obtain ⟨chars, hdecode, rfl⟩ := Option.map_eq_some_iff.1 h
    have hsome : bytes.toByteArray.utf8Decode?.isSome := by rw [hdecode]; rfl
    have hencode := ByteArray.utf8Encode_get_utf8Decode? (h := hsome)
    simp only [hdecode, Option.get_some] at hencode
    have hbytes : (utf8 chars.toList).toByteArray = bytes.toByteArray := hencode
    have := congrArg (fun b => b.data.toList) hbytes
    simpa using this.symm
  · rintro rfl
    exact utf8Decode_utf8 text

theorem utf8_inj {a b : List Char} (h : utf8 a = utf8 b) : a = b := by
  have hdecoded := congrArg utf8Decode h
  rw [utf8Decode_utf8, utf8Decode_utf8] at hdecoded
  exact Option.some.inj hdecoded

/-- The newline's byte is in no other character. -/
theorem newline_of_mem_utf8 {text : List Char} (h : 10 ∈ utf8 text) : '\n' ∈ text := by
  unfold utf8 at h
  obtain ⟨c, hc, hbyte⟩ := List.mem_flatMap.1 h
  -- every byte of a longer encoding is 128 or more
  have hhigh : ∀ n, 128 ≤ n → n < 256 → (10 : UInt8) ≠ UInt8.ofNat n := by
    intro n hge hlt heq
    have := congrArg UInt8.toNat heq
    rw [UInt8.toNat_ofNat_of_lt' hlt] at this
    change 10 = n at this
    omega
  unfold String.utf8EncodeChar at hbyte
  dsimp only at hbyte
  split_ifs at hbyte with hone htwo hthree
  · rw [List.mem_singleton] at hbyte
    have hval := congrArg UInt8.toNat hbyte
    rw [UInt8.toNat_ofNat_of_lt' (Nat.lt_of_le_of_lt hone (by decide))] at hval
    have hnewline : c = '\n' := Char.ext (UInt32.toNat_inj.1 hval.symm)
    rw [← hnewline]
    exact hc
  · simp only [List.mem_cons, List.not_mem_nil, or_false] at hbyte
    rcases hbyte with h | h <;> exact absurd h (hhigh _ (by omega) (by omega))
  · simp only [List.mem_cons, List.not_mem_nil, or_false] at hbyte
    rcases hbyte with h | h | h <;> exact absurd h (hhigh _ (by omega) (by omega))
  · simp only [List.mem_cons, List.not_mem_nil, or_false] at hbyte
    rcases hbyte with h | h | h | h <;> exact absurd h (hhigh _ (by omega) (by omega))

end Lines
