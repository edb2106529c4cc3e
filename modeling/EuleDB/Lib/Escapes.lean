import Mathlib.Data.List.Basic

/-!
# Escaped text

A code that writes some characters as an escape and a letter, so that the rest of a format never
meets them.  A `table` lists the characters that are written so, each with its letter.

* `chain_eq_encode` — replacing the characters one after another through the whole text is the
  same as writing it character by character, where the escape goes first and no letter is a
  character that is replaced later.
* `decode_encode` — one pass over the escapes gives the text back.
* `not_mem_encode` — a character of the table that is no letter is not in an encoded text.
-/

set_option autoImplicit false

namespace Escapes

variable {α : Type} [DecidableEq α]

/-- Every occurrence of one character replaced. -/
def replace (old : α) (new text : List α) : List α :=
  text.flatMap fun c => if c = old then new else [c]

variable (esc : α) (table : List (α × α))

/-- One entry of the table after another, each through the whole text. -/
def chain (text : List α) : List α :=
  table.foldl (fun text entry => replace entry.1 [esc, entry.2] text) text

/-- The entry a character has in the table. -/
def entryOf (c : α) : Option (α × α) := table.find? fun entry => entry.1 = c

def encodeChar (c : α) : List α :=
  match entryOf table c with
  | some entry => [esc, entry.2]
  | none => [c]

/-- Character by character. -/
def encode (text : List α) : List α := text.flatMap (encodeChar esc table)

/-- One pass that knows what each letter stands for.  An escape before anything else is kept, and
dropped at the end. -/
def decode (letters : α → Option α) : List α → List α
  | [] => []
  | c :: text =>
    if c ≠ esc then c :: decode letters text
    else
      match text with
      | [] => []
      | d :: text =>
        match letters d with
        | some meant => meant :: decode letters text
        | none => esc :: d :: decode letters text

variable {esc table} {letters : α → Option α}

theorem entryOf_eq_some {c : α} {entry : α × α} (h : entryOf table c = some entry) :
    entry ∈ table ∧ entry.1 = c :=
  ⟨List.mem_of_find?_eq_some h, by simpa using List.find?_some h⟩

theorem encodeChar_of_ne {c : α} (h : ∀ entry ∈ table, entry.1 ≠ c) :
    encodeChar esc table c = [c] := by
  have hnone : entryOf table c = none := List.find?_eq_none.2 (by simpa using h)
  unfold encodeChar
  rw [hnone]

/-- **A chain of replacements** is an encoding character by character, where what an entry writes
is nothing that a later entry replaces. -/
theorem chain_eq_encode (h : table.Pairwise fun a b => b.1 ≠ esc ∧ b.1 ≠ a.2) (text : List α) :
    chain esc table text = encode esc table text := by
  induction table generalizing text with
  | nil =>
    have hchar : encodeChar esc ([] : List (α × α)) = fun c => [c] := rfl
    rw [chain, List.foldl_nil, encode, hchar, List.flatMap_singleton']
  | cons entry table ih =>
    rw [List.pairwise_cons] at h
    have hrest := ih h.2 (replace entry.1 [esc, entry.2] text)
    unfold chain at hrest ⊢
    rw [List.foldl_cons, hrest, encode, replace, List.flatMap_assoc, encode]
    congr 1
    funext c
    by_cases hc : c = entry.1
    · -- What this entry wrote stays as it is.
      have hesc : encodeChar esc table esc = [esc] :=
        encodeChar_of_ne fun later hlater => (h.1 later hlater).1
      have hletter : encodeChar esc table entry.2 = [entry.2] :=
        encodeChar_of_ne fun later hlater => (h.1 later hlater).2
      rw [if_pos hc, List.flatMap_cons, List.flatMap_singleton, hesc, hletter]
      simp [encodeChar, entryOf, hc]
    · rw [if_neg hc, List.flatMap_singleton]
      have hskip : entryOf (entry :: table) c = entryOf table c :=
        List.find?_cons_of_neg (by simpa using Ne.symm hc)
      unfold encodeChar
      rw [hskip]

/-- What one character is written as is read as that character. -/
theorem decode_encodeChar (hesc : (entryOf table esc).isSome)
    (hletters : ∀ entry ∈ table, letters entry.2 = some entry.1) (c : α) (text : List α) :
    decode esc letters (encodeChar esc table c ++ text) = c :: decode esc letters text := by
  unfold encodeChar
  cases hc : entryOf table c with
  | none =>
    have hne : c ≠ esc := by
      rintro rfl
      rw [hc] at hesc
      cases hesc
    rw [List.singleton_append, decode.eq_def]
    exact if_pos hne
  | some entry =>
    obtain ⟨hmem, rfl⟩ := entryOf_eq_some hc
    have hletter := hletters entry hmem
    rw [List.cons_append, List.singleton_append, decode.eq_def]
    simp [hletter]

/-- What stands behind an encoded text is read as it would be by itself. -/
theorem decode_encode_append (hesc : (entryOf table esc).isSome)
    (hletters : ∀ entry ∈ table, letters entry.2 = some entry.1) (text rest : List α) :
    decode esc letters (encode esc table text ++ rest) = text ++ decode esc letters rest := by
  induction text with
  | nil => rfl
  | cons c text ih =>
    unfold encode at ih ⊢
    rw [List.flatMap_cons, List.append_assoc, decode_encodeChar hesc hletters, ih,
      List.cons_append]

/-- **An encoded text is read back.** -/
theorem decode_encode (hesc : (entryOf table esc).isSome)
    (hletters : ∀ entry ∈ table, letters entry.2 = some entry.1) (text : List α) :
    decode esc letters (encode esc table text) = text := by
  have happend := decode_encode_append hesc hletters text []
  rw [List.append_nil, decode, List.append_nil] at happend
  exact happend

/-- A character of the table is not in an encoded text, unless it is a letter or the escape. -/
theorem not_mem_encode {c : α} (hc : (entryOf table c).isSome) (hne : c ≠ esc)
    (hletters : ∀ entry ∈ table, entry.2 ≠ c) (text : List α) : c ∉ encode esc table text := by
  unfold encode
  rw [List.mem_flatMap]
  rintro ⟨d, -, hmem⟩
  unfold encodeChar at hmem
  cases hd : entryOf table d with
  | none =>
    rw [hd, List.mem_singleton] at hmem
    rw [hmem, hd] at hc
    cases hc
  | some entry =>
    rw [hd, List.mem_cons, List.mem_singleton] at hmem
    rcases hmem with hmem | hmem
    · exact hne hmem
    · exact hletters entry (entryOf_eq_some hd).1 hmem.symm

end Escapes
