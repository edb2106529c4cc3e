import Mathlib.Data.UInt
import EuleDB.Crypto.Platform
import EuleDB.Lib.Endian
import EuleDB.Lib.Escapes
import EuleDB.Lib.Lines
import EuleDB.Lib.Sha256

/-!
# Records of the audit log and their lines

An `AuditRecord` says what was asked, how it resolved and how many rows it touched, and names the
record before it.  A log is a text of one line a record: fields separated by tabs, the two
free-form ones escaped.

* `unescape_escape` — escaping loses nothing.
* `AuditRecord.fromLine_line` — a line without its carriage return is read back as the record it
  was written from, less one carriage return at the end of its plan.
* `parse_toLines` — what a whole log is read back as.
-/

set_option autoImplicit false

namespace EuleDB.Audit

open Crypto Endian Lines

/-- How long a link is. -/
def HASH_LEN : Nat := 32

abbrev Hash := Octets HASH_LEN

/-- What a record's predecessor is when it starts a chain rather than continuing one. -/
def ANCHOR : Hash := ⟨List.replicate HASH_LEN 0, List.length_replicate⟩

/-- The prefix that marks a record as a new anchor. -/
def REANCHOR : Text := "re-anchor after broken link ".toList

inductive AuditError where
  | unavailable (path cause : Text)
  | brokenChain (link : UInt64)
  | nothingToReanchor
  | malformed (reason : String)
  deriving DecidableEq

/-- What was asked, how it resolved, what it touched, and the link to the entry before it. -/
structure AuditRecord where
  sequence : UInt64
  previous : Hash
  query : Text
  plan : Text
  rows : UInt64
  hash : Hash
  deriving DecidableEq

/-! ## The link of a record -/

section Link

variable (sha256 : Bytes → Hash)

/-- A length as a `u64`, the largest one when it does not fit. -/
def lengthField (bytes : Bytes) : Bytes := beBytes 8 (min bytes.length (UInt64.size - 1))

/-- The bytes a link is the hash of. -/
def AuditRecord.preimage (r : AuditRecord) : Bytes :=
  r.previous.1 ++ beBytes 8 r.sequence.toNat ++ lengthField (utf8 r.query) ++ utf8 r.query ++
    lengthField (utf8 r.plan) ++ utf8 r.plan ++ beBytes 8 r.rows.toNat

def AuditRecord.recompute (r : AuditRecord) : Hash := sha256 r.preimage

/-- A record with its own hash already computed. -/
def AuditRecord.sealed (sequence : UInt64) (previous : Hash) (query plan : Text) (rows : UInt64) :
    AuditRecord :=
  let record : AuditRecord := ⟨sequence, previous, query, plan, rows, ANCHOR⟩
  { record with hash := record.recompute sha256 }

@[simp] theorem AuditRecord.recompute_sealed (sequence : UInt64) (previous : Hash)
    (query plan : Text) (rows : UInt64) :
    (AuditRecord.sealed sha256 sequence previous query plan rows).recompute sha256 =
      (AuditRecord.sealed sha256 sequence previous query plan rows).hash := rfl

end Link

/-- The hash function the log uses. -/
def digest (bytes : Bytes) : Hash := ⟨Sha256.sha256 bytes, Sha256.length_sha256 bytes⟩

/-! ## Escaping -/

def escapeChar : Char → Text
  | '\\' => ['\\', '\\']
  | '\t' => ['\\', 't']
  | '\n' => ['\\', 'n']
  | other => [other]

/-- The two characters the line format uses are escaped, and the escape itself. -/
def escape (text : Text) : Text := text.flatMap escapeChar

/-- Undoes `escape`.  A trailing lone backslash is dropped. -/
def unescape : Text → Text
  | [] => []
  | c :: text =>
    if c ≠ '\\' then c :: unescape text
    else
      match text with
      | '\\' :: text => '\\' :: unescape text
      | 't' :: text => '\t' :: unescape text
      | 'n' :: text => '\n' :: unescape text
      | other :: text => '\\' :: other :: unescape text
      | [] => []

theorem escapeChar_other {c : Char} (hbackslash : c ≠ '\\') (htab : c ≠ '\t')
    (hnewline : c ≠ '\n') : escapeChar c = [c] := by
  unfold escapeChar
  split <;> first | contradiction | rfl

theorem unescape_cons {c : Char} (h : c ≠ '\\') (text : Text) :
    unescape (c :: text) = c :: unescape text := by
  rw [unescape.eq_def]
  exact if_pos h

/-- What is escaped, and by which letter. -/
def ESCAPES : List (Char × Char) := [('\\', '\\'), ('\t', 't'), ('\n', 'n')]

/-- What a letter behind a backslash is taken for. -/
def letter : Char → Option Char
  | '\\' => some '\\'
  | 't' => some '\t'
  | 'n' => some '\n'
  | _ => none

theorem letter_other {c : Char} (hbackslash : c ≠ '\\') (ht : c ≠ 't') (hn : c ≠ 'n') :
    letter c = none := by
  unfold letter
  split <;> first | contradiction | rfl

theorem escape_eq (text : Text) : escape text = Escapes.encode '\\' ESCAPES text := by
  have hchar : escapeChar = Escapes.encodeChar '\\' ESCAPES := by
    funext c
    unfold escapeChar
    split
    · rfl
    · rfl
    · rfl
    · rename_i hbackslash htab hnewline
      rw [Escapes.encodeChar_of_ne]
      simp [ESCAPES, Ne.symm hbackslash, Ne.symm htab, Ne.symm hnewline]
  unfold escape Escapes.encode
  rw [hchar]

theorem unescape_eq (text : Text) : unescape text = Escapes.decode '\\' letter text := by
  induction text using unescape.induct with
  | case1 => rfl
  | case2 c text hc ih =>
    rw [unescape_cons hc, Escapes.decode.eq_def]
    simp [hc, ih]
  | case3 c hc text ih => simp [unescape, Escapes.decode, hc, letter, ih]
  | case4 c hc text ih => simp [unescape, Escapes.decode, hc, letter, ih]
  | case5 c hc text ih => simp [unescape, Escapes.decode, hc, letter, ih]
  | case6 c hc other text hbackslash ht hn ih =>
    rw [unescape.eq_def, Escapes.decode.eq_def]
    simp [hc, letter_other hbackslash ht hn, ih]
  | case7 c hc => simp [unescape, Escapes.decode, hc]

/-- What stands behind an escaped text is read as it would be by itself. -/
theorem unescape_escape_append (text rest : Text) :
    unescape (escape text ++ rest) = text ++ unescape rest := by
  rw [unescape_eq, unescape_eq, escape_eq]
  exact Escapes.decode_encode_append (by decide) (by decide) text rest

theorem unescape_escape (text : Text) : unescape (escape text) = text := by
  rw [unescape_eq, escape_eq]
  exact Escapes.decode_encode (by decide) (by decide) text

/-- Neither a tab nor a newline is left. -/
theorem not_mem_escape {c : Char} (hc : c = '\t' ∨ c = '\n') (text : Text) :
    c ∉ escape text := by
  rw [escape_eq]
  rcases hc with rfl | rfl
  · exact Escapes.not_mem_encode (by decide) (by decide) (by decide) text
  · exact Escapes.not_mem_encode (by decide) (by decide) (by decide) text

/-- Escaping changes no last carriage return. -/
theorem dropCarriageReturn_escape (text : Text) :
    dropCarriageReturn (escape text) = escape (dropCarriageReturn text) := by
  rcases List.eq_nil_or_concat text with rfl | ⟨front, c, rfl⟩
  · rfl
  · rw [List.concat_eq_append]
    by_cases hc : c = '\r'
    · subst hc
      have hescape : escape (front ++ ['\r']) = escape front ++ ['\r'] := by
        unfold escape
        rw [List.flatMap_append]
        rfl
      unfold dropCarriageReturn
      rw [hescape, stripSuffix_append_singleton, stripSuffix_append_singleton]
      rfl
    · have hplain : dropCarriageReturn (front ++ [c]) = front ++ [c] := by
        refine dropCarriageReturn_eq_self.2 ?_
        rw [List.getLast?_concat]
        simpa using hc
      rw [hplain]
      refine dropCarriageReturn_eq_self.2 ?_
      unfold escape
      rw [List.flatMap_append, List.flatMap_cons, List.flatMap_nil, List.append_nil]
      unfold escapeChar
      split
      · simp
      · simp
      · simp
      · rw [List.getLast?_concat]
        simpa using hc

/-! ## Hashes as text -/

/-- A byte as two lowercase hex digits. -/
def hexByte (b : UInt8) : Text := [Nat.digitChar (b.toNat / 16), Nat.digitChar (b.toNat % 16)]

/-- Bytes as lowercase hex. -/
def hex (bytes : Bytes) : Text := bytes.flatMap hexByte

/-- `char::to_digit` for base 16. -/
def toDigit (c : Char) : Option Nat :=
  if '0' ≤ c ∧ c ≤ '9' then some (c.toNat - '0'.toNat)
  else if 'a' ≤ c ∧ c ≤ 'f' then some (c.toNat - 'a'.toNat + 10)
  else if 'A' ≤ c ∧ c ≤ 'F' then some (c.toNat - 'A'.toNat + 10)
  else none

/-- `u8::from_str_radix` for base 16 on two characters, the first of which may be a plus sign. -/
def hexPair (high low : Char) : Option UInt8 := do
  let h ← if high = '+' then some 0 else toDigit high
  let l ← toDigit low
  pure (UInt8.ofNat (16 * h + l))

def hexPairs : Text → Option Bytes
  | [] => some []
  | [_] => none
  | high :: low :: text => do
    let byte ← hexPair high low
    let bytes ← hexPairs text
    pure (byte :: bytes)

/-- Hex back to bytes, or `none` if it is not exactly one hash.  The length is the one in bytes. -/
def unhex (text : Text) : Option Hash :=
  if (utf8 text).length ≠ HASH_LEN * 2 then none
  else do
    let bytes ← hexPairs text
    toOctets HASH_LEN bytes

theorem toDigit_digitChar : ∀ n < 16, toDigit (Nat.digitChar n) = some n := by decide

theorem digitChar_ne_plus : ∀ n < 16, Nat.digitChar n ≠ '+' := by decide

theorem utf8_digitChar : ∀ n < 16, (String.utf8EncodeChar (Nat.digitChar n)).length = 1 := by
  decide

theorem hexPair_hexByte (b : UInt8) :
    hexPair (Nat.digitChar (b.toNat / 16)) (Nat.digitChar (b.toNat % 16)) = some b := by
  have hb := b.toNat_lt
  have hhigh : b.toNat / 16 < 16 := by omega
  have hlow : b.toNat % 16 < 16 := by omega
  unfold hexPair
  rw [if_neg (digitChar_ne_plus _ hhigh), toDigit_digitChar _ hhigh, toDigit_digitChar _ hlow]
  simp only [Option.bind_eq_bind, Option.bind_some, Option.pure_def, Nat.div_add_mod,
    UInt8.ofNat_toNat]

theorem hexPairs_hex (bytes : Bytes) : hexPairs (hex bytes) = some bytes := by
  induction bytes with
  | nil => rfl
  | cons b bytes ih =>
    unfold hex at ih ⊢
    rw [List.flatMap_cons]
    unfold hexByte
    rw [List.cons_append, List.cons_append, List.nil_append, hexPairs, hexPair_hexByte]
    unfold hexByte at ih
    rw [ih]
    rfl

theorem length_utf8_hex (bytes : Bytes) : (utf8 (hex bytes)).length = bytes.length * 2 := by
  induction bytes with
  | nil => rfl
  | cons b bytes ih =>
    have hb := b.toNat_lt
    have hbyte : (utf8 (hexByte b)).length = 2 := by
      have hhigh := utf8_digitChar (b.toNat / 16) (by omega)
      have hlow := utf8_digitChar (b.toNat % 16) (by omega)
      unfold utf8 hexByte
      rw [List.flatMap_cons, List.flatMap_cons, List.flatMap_nil, List.append_nil,
        List.length_append, hhigh, hlow]
    unfold hex at ih ⊢
    rw [List.flatMap_cons, utf8_append, List.length_append, ih, hbyte, List.length_cons]
    omega

theorem unhex_hex (h : Hash) : unhex (hex h.1) = some h := by
  unfold unhex
  rw [if_neg (by rw [length_utf8_hex, h.2]; exact not_not.2 rfl), hexPairs_hex]
  exact toOctets_eq h.2

/-! ## Lines -/

/-- A number as text. -/
def decimal (n : UInt64) : Text := Nat.toDigits 10 n.toNat

/-- `str::parse::<u64>`. -/
def parseU64 (text : Text) : Option UInt64 := do
  let n ← parseNat text
  if n < UInt64.size then some (UInt64.ofNat n) else none

theorem parseU64_decimal (n : UInt64) : parseU64 (decimal n) = some n := by
  unfold parseU64 decimal
  rw [parseNat_toDigits]
  simp [n.toNat_lt_size]

def AuditRecord.line (r : AuditRecord) : Text :=
  decimal r.sequence ++ '\t' :: (hex r.previous.1 ++ '\t' :: (hex r.hash.1 ++ '\t' ::
    (decimal r.rows ++ '\t' :: (escape r.query ++ '\t' :: escape r.plan))))

/-- The record as one line. -/
def AuditRecord.toLine (r : AuditRecord) : Text := r.line ++ ['\n']

/-- The next field of a line, or the reason there is none. -/
def field (fields : List Text) (i : Nat) (reason : String) : Except AuditError Text :=
  match fields[i]? with
  | some text => .ok text
  | none => .error (.malformed reason)

/-- What a field reads as, or the reason it does not. -/
def reading {α : Type} (value : Option α) (reason : String) : Except AuditError α :=
  match value with
  | some a => .ok a
  | none => .error (.malformed reason)

/-- Read a record back from its line.  Further fields are not looked at. -/
def AuditRecord.fromLine (line : Text) : Except AuditError AuditRecord := do
  let fields := line.splitOn '\t'
  let sequence ← reading (parseU64 (← field fields 0 "no sequence"))
    "the sequence is not a number"
  let previous ← reading (unhex (← field fields 1 "no previous hash")) "bad previous hash"
  let hash ← reading (unhex (← field fields 2 "no hash")) "bad hash"
  let rows ← reading (parseU64 (← field fields 3 "no row count"))
    "the row count is not a number"
  let query := unescape (← field fields 4 "no query")
  let plan := unescape (← field fields 5 "no plan")
  pure ⟨sequence, previous, query, plan, rows, hash⟩

/-- Every record in a log's contents. -/
def parse (raw : Text) : Except AuditError (List AuditRecord) :=
  ((lines raw).filter fun line => !line.isEmpty).mapM AuditRecord.fromLine

theorem tab_not_mem_toDigits (n : Nat) {c : Char} (hc : c.isDigit = false) :
    c ∉ Nat.toDigits 10 n := by
  intro hmem
  have := Nat.isDigit_of_mem_toDigits (by decide) (by decide) hmem
  rw [hc] at this
  cases this

theorem hexDigit_ne {c : Char} (hc : c ∈ ['\t', '\n']) : ∀ n < 16, Nat.digitChar n ≠ c := by
  rcases List.mem_cons.1 hc with rfl | hc
  · decide
  · cases List.mem_singleton.1 hc
    decide

theorem not_mem_hex {c : Char} (hc : c ∈ ['\t', '\n']) (bytes : Bytes) : c ∉ hex bytes := by
  unfold hex
  rw [List.mem_flatMap]
  rintro ⟨b, -, hmem⟩
  have hb := b.toNat_lt
  unfold hexByte at hmem
  rw [List.mem_cons, List.mem_singleton] at hmem
  rcases hmem with h | h
  · exact hexDigit_ne hc _ (by omega) h.symm
  · exact hexDigit_ne hc _ (by omega) h.symm

theorem AuditRecord.newline_not_mem_line (r : AuditRecord) : '\n' ∉ r.line := by
  have hdecimal : ∀ n, '\n' ∉ decimal n := fun n => tab_not_mem_toDigits n.toNat (by decide)
  have hhex : ∀ bytes, '\n' ∉ hex bytes := not_mem_hex (by decide)
  have hescape : ∀ text, '\n' ∉ escape text := not_mem_escape (.inr rfl)
  unfold line
  simp [hdecimal, hhex, hescape]

/-- The fields of a line, with any text for its last one. -/
theorem splitOn_line (r : AuditRecord) {last : Text} (hlast : '\t' ∉ last) :
    (decimal r.sequence ++ '\t' :: (hex r.previous.1 ++ '\t' :: (hex r.hash.1 ++ '\t' ::
      (decimal r.rows ++ '\t' :: (escape r.query ++ '\t' :: last))))).splitOn '\t' =
      [decimal r.sequence, hex r.previous.1, hex r.hash.1, decimal r.rows, escape r.query,
        last] := by
  have hdecimal : ∀ n, '\t' ∉ decimal n := fun n => tab_not_mem_toDigits n.toNat (by decide)
  have hhex : ∀ bytes, '\t' ∉ hex bytes := not_mem_hex (by decide)
  rw [List.splitOn_append_cons_self_of_not_mem (hdecimal _),
    List.splitOn_append_cons_self_of_not_mem (hhex _),
    List.splitOn_append_cons_self_of_not_mem (hhex _),
    List.splitOn_append_cons_self_of_not_mem (hdecimal _),
    List.splitOn_append_cons_self_of_not_mem (not_mem_escape (.inl rfl) _),
    List.splitOn_eq_singleton hlast]

/-- A record less one carriage return at the end of its plan. -/
def AuditRecord.dropCarriageReturn (r : AuditRecord) : AuditRecord :=
  { r with plan := Lines.dropCarriageReturn r.plan }

/-- A line less its last carriage return is the line of the record less its own. -/
theorem AuditRecord.dropCarriageReturn_line (r : AuditRecord) :
    Lines.dropCarriageReturn r.line = r.dropCarriageReturn.line := by
  have hfront : ∀ last, decimal r.sequence ++ '\t' :: (hex r.previous.1 ++ '\t' ::
      (hex r.hash.1 ++ '\t' :: (decimal r.rows ++ '\t' :: (escape r.query ++ '\t' :: last)))) =
      (decimal r.sequence ++ '\t' :: (hex r.previous.1 ++ '\t' :: (hex r.hash.1 ++ '\t' ::
        (decimal r.rows ++ '\t' :: escape r.query))) ++ ['\t']) ++ last := by
    intro last
    simp
  unfold AuditRecord.dropCarriageReturn line
  rw [hfront, hfront, dropCarriageReturn_append _ (by rw [List.getLast?_concat]; decide),
    dropCarriageReturn_escape]

/-- The line of a record is read as that record. -/
theorem AuditRecord.fromLine_own_line (r : AuditRecord) : AuditRecord.fromLine r.line = .ok r := by
  unfold fromLine line
  rw [splitOn_line r (not_mem_escape (.inl rfl) _)]
  simp only [field, reading, List.getElem?_cons_zero, List.getElem?_cons_succ, bind,
    Except.bind, parseU64_decimal, unhex_hex, unescape_escape]
  rfl

theorem AuditRecord.fromLine_line (r : AuditRecord) :
    AuditRecord.fromLine (Lines.dropCarriageReturn r.line) = .ok r.dropCarriageReturn := by
  rw [r.dropCarriageReturn_line, AuditRecord.fromLine_own_line]

theorem AuditRecord.line_ne_nil (r : AuditRecord) :
    (Lines.dropCarriageReturn r.line).isEmpty = false := by
  have h := r.fromLine_line
  cases hline : Lines.dropCarriageReturn r.line with
  | nil =>
    rw [hline] at h
    cases h
  | cons c text => rfl

/-- **What a log is read back as**: its records, each less a carriage return at the end of its
plan. -/
theorem parse_toLines (records : List AuditRecord) :
    parse (records.flatMap AuditRecord.toLine) =
      .ok (records.map AuditRecord.dropCarriageReturn) := by
  have hlines : lines (records.flatMap AuditRecord.toLine) =
      records.map fun r => Lines.dropCarriageReturn r.line :=
    lines_flatMap AuditRecord.line records fun r _ => r.newline_not_mem_line
  unfold parse
  rw [hlines]
  clear hlines
  induction records with
  | nil => rfl
  | cons r records ih =>
    rw [List.map_cons, List.filter_cons_of_pos (by rw [r.line_ne_nil]; rfl), List.mapM_cons,
      r.fromLine_line, ih]
    rfl

end EuleDB.Audit
