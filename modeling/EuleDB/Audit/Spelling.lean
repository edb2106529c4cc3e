import EuleDB.Audit.Tail

/-!
# How a log is spelled

`fromLine` reads more lines than `line` writes: numbers with a plus sign or leading zeros, hashes
in capitals, escapes that `escape` never makes, further fields.  `parse` passes over blank lines
and carriage returns.  None of that is in a record, so none of it is hashed.

* `spelled` — how `line` spells: six fields, plain decimals, lowercase hex, whole escapes.
* `fromLine_spelled` — a line that is read as a record is that record's line exactly when it is
  spelled so.
* `parse_canonical` — and a whole log, when every piece of it is such a line and its newline.
* `verified_spelling_iff` — what that says of a file that verifies.
-/

set_option autoImplicit false

namespace EuleDB.Audit

open Crypto Lines Effect

/-! ## Numbers -/

/-- Digits without a leading zero, or a zero. -/
def plainNumber (text : Text) : Bool :=
  text == ['0'] || (text != [] && text.head? != some '0' && text.all Char.isDigit)

theorem digitChar_of_isDigit {c : Char} (h : c.isDigit = true) :
    c.toNat - '0'.toNat < 10 ∧ Nat.digitChar (c.toNat - '0'.toNat) = c := by
  have hrange : 48 ≤ c.toNat ∧ c.toNat ≤ 57 := by
    unfold Char.isDigit at h
    rw [Bool.and_eq_true, decide_eq_true_eq, decide_eq_true_eq] at h
    exact ⟨h.1, h.2⟩
  have hzero : '0'.toNat = 48 := rfl
  have hdigits : ∀ n < 10, Nat.digitChar n = Char.ofNat (48 + n) := by decide
  refine ⟨by omega, ?_⟩
  rw [hdigits _ (by omega), hzero, Nat.add_sub_cancel' hrange.1, Char.ofNat_toNat]

/-- Digits without a leading zero are the digits of the number they read as. -/
theorem toDigits_ofDigitChars {text : Text} (hne : text ≠ []) (hhead : text.head? ≠ some '0')
    (hdigits : ∀ c ∈ text, c.isDigit = true) :
    0 < Nat.ofDigitChars 10 text 0 ∧ Nat.toDigits 10 (Nat.ofDigitChars 10 text 0) = text := by
  induction text using List.reverseRecOn with
  | nil => exact absurd rfl hne
  | append_singleton front c ih =>
    have hc := digitChar_of_isDigit
      (hdigits c (List.mem_append_right _ (List.mem_singleton_self c)))
    have hvalue : Nat.ofDigitChars 10 (front ++ [c]) 0 =
        10 * Nat.ofDigitChars 10 front 0 + (c.toNat - '0'.toNat) := by
      rw [Nat.ofDigitChars_append, Nat.ofDigitChars_cons, Nat.ofDigitChars_nil]
    rw [hvalue]
    by_cases hfront : front = []
    · subst hfront
      rw [Nat.ofDigitChars_nil, Nat.mul_zero, Nat.zero_add]
      constructor
      · -- the one digit is not the zero
        by_contra hzero
        have hdigit := hc.2
        rw [Nat.eq_zero_of_not_pos hzero] at hdigit
        exact hhead (congrArg some hdigit.symm)
      · rw [Nat.toDigits_of_lt_base hc.1, hc.2]
        rfl
    · rw [List.head?_append_of_ne_nil _ hfront] at hhead
      obtain ⟨hpos, hread⟩ := ih hfront hhead fun d hd => hdigits d (List.mem_append_left _ hd)
      refine ⟨by omega, ?_⟩
      rw [← Nat.toDigits_append_toDigits (by decide) hpos hc.1, hread,
        Nat.toDigits_of_lt_base hc.1, hc.2]

/-- A plain number that is read is printed as it stood. -/
theorem decimal_of_parseU64 {text : Text} {n : UInt64} (hread : parseU64 text = some n)
    (hplain : plainNumber text = true) : decimal n = text := by
  unfold plainNumber at hplain
  rw [Bool.or_eq_true, beq_iff_eq] at hplain
  rcases hplain with rfl | hplain
  · cases hread
    rfl
  · simp only [Bool.and_eq_true, bne_iff_ne, List.all_eq_true] at hplain
    obtain ⟨⟨hne, hhead⟩, hdigits⟩ := hplain
    unfold parseU64 at hread
    rw [parseNat_digits hne hdigits] at hread
    simp only [Option.bind_eq_bind, Option.bind_some] at hread
    split_ifs at hread with hlt
    cases hread
    unfold decimal
    rw [UInt64.toNat_ofNat_of_lt' hlt]
    exact (toDigits_ofDigitChars hne hhead hdigits).2

theorem plainNumber_decimal (n : UInt64) : plainNumber (decimal n) = true := by
  have hdigits : ∀ c ∈ Nat.toDigits 10 n.toNat, c.isDigit = true := fun c hc =>
    Nat.isDigit_of_mem_toDigits (by decide) (by decide) hc
  have hhead : ∀ m : Nat, m ≠ 0 → (Nat.toDigits 10 m).head? ≠ some '0' := by
    intro m
    induction m using Nat.strongRecOn with
    | ind m ih =>
      intro hm
      by_cases hlt : m < 10
      · have hdigit : ∀ d < 10, d ≠ 0 → Nat.digitChar d ≠ '0' := by decide
        rw [Nat.toDigits_of_lt_base hlt]
        intro heq
        exact hdigit m hlt hm (Option.some.inj heq)
      · rw [Nat.toDigits_of_base_le (by decide) (by omega),
          List.head?_append_of_ne_nil _ Nat.toDigits_ne_nil]
        exact ih (m / 10) (by omega) (by omega)
  unfold plainNumber decimal
  by_cases hzero : n.toNat = 0
  · rw [hzero]
    rfl
  · simp only [Bool.or_eq_true, Bool.and_eq_true, bne_iff_ne, List.all_eq_true]
    exact .inr ⟨⟨Nat.toDigits_ne_nil, hhead _ hzero⟩, hdigits⟩

/-! ## Hashes -/

def lowerHexDigit (c : Char) : Bool := ('0' ≤ c && c ≤ '9') || ('a' ≤ c && c ≤ 'f')

/-- No capital and no sign. -/
def lowerHex (text : Text) : Bool := text.all lowerHexDigit

theorem toDigit_lower {c : Char} (hc : lowerHexDigit c = true) :
    ∃ n, toDigit c = some n ∧ n < 16 ∧ Nat.digitChar n = c := by
  have hrange : (48 ≤ c.toNat ∧ c.toNat ≤ 57) ∨ 97 ≤ c.toNat ∧ c.toNat ≤ 102 := by
    unfold lowerHexDigit at hc
    simp only [Bool.or_eq_true, Bool.and_eq_true, decide_eq_true_eq] at hc
    exact hc
  have hall : ∀ n, (48 ≤ n ∧ n ≤ 57) ∨ 97 ≤ n ∧ n ≤ 102 →
      ∃ d, toDigit (Char.ofNat n) = some d ∧ d < 16 ∧ Nat.digitChar d = Char.ofNat n := by
    rintro n (⟨hlow, hhigh⟩ | ⟨hlow, hhigh⟩)
    · have hdigits : ∀ d < 10, toDigit (Char.ofNat (48 + d)) = some d ∧
          Nat.digitChar d = Char.ofNat (48 + d) := by decide
      obtain ⟨hread, hchar⟩ := hdigits (n - 48) (by omega)
      rw [Nat.add_sub_cancel' hlow] at hread hchar
      exact ⟨n - 48, hread, by omega, hchar⟩
    · have hdigits : ∀ d < 6, toDigit (Char.ofNat (97 + d)) = some (d + 10) ∧
          Nat.digitChar (d + 10) = Char.ofNat (97 + d) := by decide
      obtain ⟨hread, hchar⟩ := hdigits (n - 97) (by omega)
      rw [Nat.add_sub_cancel' hlow] at hread hchar
      exact ⟨n - 97 + 10, hread, by omega, hchar⟩
  obtain ⟨d, hread, hd, hchar⟩ := hall c.toNat hrange
  rw [Char.ofNat_toNat] at hread hchar
  exact ⟨d, hread, hd, hchar⟩

theorem hexByte_of_hexPair {high low : Char} {b : UInt8} (hread : hexPair high low = some b)
    (hhigh : lowerHexDigit high = true) (hlow : lowerHexDigit low = true) :
    hexByte b = [high, low] := by
  obtain ⟨h, hh, hlt, hchar⟩ := toDigit_lower hhigh
  obtain ⟨l, hl, hlt', hchar'⟩ := toDigit_lower hlow
  have hsign : high ≠ '+' := by
    rintro rfl
    exact absurd hhigh (by decide)
  unfold hexPair at hread
  rw [if_neg hsign, hh, hl] at hread
  cases hread
  unfold hexByte
  rw [UInt8.toNat_ofNat_of_lt' (show 16 * h + l < UInt8.size by unfold UInt8.size; omega),
    show (16 * h + l) / 16 = h by omega, show (16 * h + l) % 16 = l by omega, hchar, hchar']

theorem hex_of_hexPairs (text : Text) : ∀ bytes, hexPairs text = some bytes →
    lowerHex text = true → hex bytes = text := by
  fun_induction hexPairs text with
  | case1 =>
    intro bytes hread _
    cases hread
    rfl
  | case2 c =>
    intro bytes hread _
    cases hread
  | case3 high low text ih =>
    intro bytes hread hlower
    unfold lowerHex at hlower ih
    rw [List.all_cons, List.all_cons, Bool.and_eq_true, Bool.and_eq_true] at hlower
    obtain ⟨byte, hbyte, hrest⟩ := Option.bind_eq_some_iff.1 hread
    obtain ⟨others, hothers, hcons⟩ := Option.bind_eq_some_iff.1 hrest
    cases hcons
    unfold hex at ih ⊢
    rw [List.flatMap_cons, ih others hothers hlower.2.2,
      hexByte_of_hexPair hbyte hlower.1 hlower.2.1]
    rfl

/-- A lowercase hash that is read is printed as it stood. -/
theorem hex_of_unhex {text : Text} {h : Hash} (hread : unhex text = some h)
    (hlower : lowerHex text = true) : hex h.1 = text := by
  unfold unhex at hread
  split_ifs at hread
  obtain ⟨bytes, hbytes, hoctets⟩ := Option.bind_eq_some_iff.1 hread
  have hsame : h.1 = bytes := by
    unfold toOctets at hoctets
    split_ifs at hoctets
    cases hoctets
    rfl
  rw [hsame]
  exact hex_of_hexPairs text bytes hbytes hlower

theorem lowerHex_hex (bytes : Bytes) : lowerHex (hex bytes) = true := by
  have hdigits : ∀ n < 16, lowerHexDigit (Nat.digitChar n) = true := by decide
  unfold lowerHex hex
  rw [List.all_eq_true]
  intro c hc
  obtain ⟨b, -, hb⟩ := List.mem_flatMap.1 hc
  have hlt := b.toNat_lt
  unfold hexByte at hb
  rw [List.mem_cons, List.mem_singleton] at hb
  rcases hb with rfl | rfl
  · exact hdigits _ (by omega)
  · exact hdigits _ (by omega)

/-! ## Escapes -/

/-- Every backslash starts an escape that `escape` makes, and neither a tab nor a newline is
left. -/
def escaped : Text → Bool
  | [] => true
  | c :: text =>
    if c = '\\' then
      match text with
      | d :: text => (d == '\\' || d == 't' || d == 'n') && escaped text
      | [] => false
    else c != '\t' && c != '\n' && escaped text

theorem escape_cons (c : Char) (text : Text) : escape (c :: text) = escapeChar c ++ escape text :=
  List.flatMap_cons

theorem escaped_escape (text : Text) : escaped (escape text) = true := by
  induction text with
  | nil => rfl
  | cons c text ih =>
    rw [escape_cons]
    unfold escapeChar
    split
    · rw [List.cons_append, List.cons_append, List.nil_append, escaped.eq_def]
      simp [ih]
    · rw [List.cons_append, List.cons_append, List.nil_append, escaped.eq_def]
      simp [ih]
    · rw [List.cons_append, List.cons_append, List.nil_append, escaped.eq_def]
      simp [ih]
    · rename_i hbackslash htab hnewline
      rw [List.singleton_append, escaped.eq_def]
      dsimp only
      rw [if_neg hbackslash, ih, Bool.and_true, Bool.and_eq_true, bne_iff_ne, bne_iff_ne]
      exact ⟨htab, hnewline⟩

/-- What was escaped so is escaped back to the same text. -/
theorem escape_unescape (text : Text) : escaped text = true → escape (unescape text) = text := by
  fun_induction escaped text with
  | case1 => exact fun _ => rfl
  | case2 d text ih =>
    intro hescaped
    simp only [Bool.and_eq_true, Bool.or_eq_true, beq_iff_eq] at hescaped
    obtain ⟨hd, hrest⟩ := hescaped
    have htext := ih hrest
    rcases hd with (rfl | rfl) | rfl
    · simp [unescape, escape_cons, escapeChar, htext]
    · simp [unescape, escape_cons, escapeChar, htext]
    · simp [unescape, escape_cons, escapeChar, htext]
  | case3 => exact fun hescaped => absurd hescaped Bool.false_ne_true
  | case4 c text hbackslash ih =>
    intro hescaped
    simp only [Bool.and_eq_true, bne_iff_ne] at hescaped
    obtain ⟨⟨htab, hnewline⟩, hrest⟩ := hescaped
    rw [unescape_cons hbackslash, escape_cons, escapeChar_other hbackslash htab hnewline,
      ih hrest]
    rfl

/-! ## Lines -/

/-- Six fields, each as it is printed. -/
def spelled (line : Text) : Bool :=
  match line.splitOn '\t' with
  | [sequence, previous, hash, rows, query, plan] =>
    plainNumber sequence && lowerHex previous && lowerHex hash && plainNumber rows &&
      escaped query && escaped plan
  | _ => false

theorem spelled_line (r : AuditRecord) : spelled r.line = true := by
  unfold spelled AuditRecord.line
  rw [splitOn_line r (not_mem_escape (.inl rfl) _)]
  simp only [plainNumber_decimal, lowerHex_hex, escaped_escape, Bool.and_self]

theorem reading_ok {α : Type} {value : Option α} {reason : String} {a : α}
    (h : reading value reason = .ok a) : value = some a := by
  cases value with
  | none => cases h
  | some b =>
    cases h
    rfl

/-- What a line with six fields is read as. -/
theorem fromLine_fields {line sequence previous hash rows query plan : Text} {r : AuditRecord}
    (hfields : line.splitOn '\t' = [sequence, previous, hash, rows, query, plan])
    (h : AuditRecord.fromLine line = .ok r) :
    parseU64 sequence = some r.sequence ∧ unhex previous = some r.previous ∧
      unhex hash = some r.hash ∧ parseU64 rows = some r.rows ∧ r.query = unescape query ∧
        r.plan = unescape plan := by
  unfold AuditRecord.fromLine at h
  rw [hfields] at h
  simp only [field, List.getElem?_cons_zero, List.getElem?_cons_succ, bind, Except.bind] at h
  cases hsequence : reading (parseU64 sequence) "the sequence is not a number" with
  | error e => rw [hsequence] at h; cases h
  | ok n =>
  cases hprevious : reading (unhex previous) "bad previous hash" with
  | error e => rw [hsequence, hprevious] at h; cases h
  | ok p =>
  cases hhash : reading (unhex hash) "bad hash" with
  | error e => rw [hsequence, hprevious, hhash] at h; cases h
  | ok d =>
  cases hrows : reading (parseU64 rows) "the row count is not a number" with
  | error e => rw [hsequence, hprevious, hhash, hrows] at h; cases h
  | ok m =>
  rw [hsequence, hprevious, hhash, hrows] at h
  cases h
  exact ⟨reading_ok hsequence, reading_ok hprevious, reading_ok hhash, reading_ok hrows, rfl, rfl⟩

/-- **A line that is read as a record is that record's line exactly when it is spelled so.** -/
theorem fromLine_spelled {line : Text} {r : AuditRecord}
    (h : AuditRecord.fromLine line = .ok r) : line = r.line ↔ spelled line = true := by
  constructor
  · rintro rfl
    exact spelled_line r
  · intro hspelled
    unfold spelled at hspelled
    split at hspelled
    · rename_i sequence previous hash rows query plan hfields
      simp only [Bool.and_eq_true] at hspelled
      obtain ⟨⟨⟨⟨⟨hsequence, hprevious⟩, hhash⟩, hrows⟩, hquery⟩, hplan⟩ := hspelled
      obtain ⟨hreadS, hreadP, hreadH, hreadR, hreadQ, hreadPl⟩ := fromLine_fields hfields h
      have hline : ['\t'].intercalate (line.splitOn '\t') = line :=
        List.intercalate_splitOn '\t'
      rw [hfields] at hline
      unfold AuditRecord.line
      rw [decimal_of_parseU64 hreadS hsequence, hex_of_unhex hreadP hprevious,
        hex_of_unhex hreadH hhash, decimal_of_parseU64 hreadR hrows, hreadQ, hreadPl,
        escape_unescape query hquery, escape_unescape plan hplan, ← hline]
      simp [List.intercalate, List.intersperse]
    · cases hspelled

/-! ## Logs -/

/-- A spelled line without a carriage return, and its newline. -/
def spelledPiece (piece : Text) : Bool :=
  piece.getLast? == some '\n' && piece.dropLast.getLast? != some '\r' && spelled piece.dropLast

/-- Nothing but spelled lines. -/
def canonical (raw : Text) : Bool := (splitInclusive raw).all spelledPiece

theorem splitInclusive_toLines (records : List AuditRecord) :
    splitInclusive (records.flatMap AuditRecord.toLine) = records.map AuditRecord.toLine := by
  induction records with
  | nil => rfl
  | cons r records ih =>
    unfold AuditRecord.toLine at ih ⊢
    rw [List.flatMap_cons, List.append_assoc, List.singleton_append,
      splitInclusive_newline r.newline_not_mem_line, ih, List.map_cons]

/-- Pieces that are spelled lines are the lines of what they are read as. -/
theorem flatten_spelled {pieces : List Text} (h : pieces.all spelledPiece = true)
    {records : List AuditRecord}
    (hread : ((pieces.map lineOf).filter fun line => !line.isEmpty).mapM AuditRecord.fromLine =
      .ok records) :
    pieces.flatten = records.flatMap AuditRecord.toLine := by
  induction pieces generalizing records with
  | nil =>
    cases hread
    rfl
  | cons piece pieces ih =>
    rw [List.all_cons, Bool.and_eq_true] at h
    obtain ⟨hpiece, hpieces⟩ := h
    unfold spelledPiece at hpiece
    simp only [Bool.and_eq_true, beq_iff_eq, bne_iff_ne] at hpiece
    obtain ⟨⟨hnewline, hreturn⟩, hspelled⟩ := hpiece
    generalize hline : piece.dropLast = line at hreturn hspelled
    have hcut : piece = line ++ ['\n'] := by
      rw [← hline]
      exact (List.dropLast_append_getLast? '\n' hnewline).symm
    have hlineOf : lineOf piece = line := by
      rw [hcut, lineOf_newline, dropCarriageReturn_eq_self.2 hreturn]
    have hne : line.isEmpty = false := by
      cases line with
      | nil => exact absurd hspelled (by decide)
      | cons c line => rfl
    rw [List.map_cons, hlineOf, List.filter_cons_of_pos (by rw [hne]; rfl), List.mapM_cons]
      at hread
    cases hfirst : AuditRecord.fromLine line with
    | error e =>
      rw [hfirst] at hread
      cases hread
    | ok r =>
      cases hrest : ((pieces.map lineOf).filter fun line => !line.isEmpty).mapM
          AuditRecord.fromLine with
      | error e =>
        rw [hfirst, hrest] at hread
        cases hread
      | ok rest =>
        rw [hfirst, hrest] at hread
        cases hread
        have hown : line = r.line := (fromLine_spelled hfirst).2 hspelled
        rw [List.flatten_cons, List.flatMap_cons, ih hpieces hrest, hcut, hown]
        rfl

/-- **A log is the lines of what it is read as exactly when it holds nothing but spelled lines.** -/
theorem parse_canonical {raw : Text} {records : List AuditRecord}
    (h : parse raw = .ok records) :
    raw = records.flatMap AuditRecord.toLine ↔ canonical raw = true := by
  constructor
  · rintro rfl
    rw [parse_toLines, Except.ok.injEq] at h
    unfold canonical
    rw [splitInclusive_toLines, List.all_map, List.all_eq_true]
    intro r hr
    have hplain : r.dropCarriageReturn = r := by
      have hmap : records.map AuditRecord.dropCarriageReturn = records.map id := by
        rw [h, List.map_id]
      exact List.map_inj_left.1 hmap r hr
    have hreturn : r.line.getLast? ≠ some '\r' := by
      rw [← dropCarriageReturn_eq_self, r.dropCarriageReturn_line, hplain]
    show spelledPiece (r.line ++ ['\n']) = true
    unfold spelledPiece
    rw [List.getLast?_concat, List.dropLast_concat, spelled_line]
    simpa using hreturn
  · intro hcanonical
    rw [← flatten_splitInclusive raw]
    exact flatten_spelled hcanonical h

/-! ## Files -/

/-- The file is a text of nothing but spelled lines. -/
def LogFile.Canonical (file : LogFile) : Prop :=
  ∃ raw, file.content.getD [] = utf8 raw ∧ canonical raw = true

theorem LogFile.Reads.canonical_iff {file : LogFile} {records : List AuditRecord}
    (h : file.Reads records) :
    file.content.getD [] = utf8 (records.flatMap AuditRecord.toLine) ↔ file.Canonical := by
  obtain ⟨raw, hraw, hparse⟩ := h
  have hspelling := parse_canonical hparse
  constructor
  · intro hlines
    rw [hraw] at hlines
    exact ⟨raw, hraw, hspelling.1 (utf8_inj hlines)⟩
  · rintro ⟨raw', hraw', hcanonical⟩
    rw [hraw] at hraw'
    rw [← utf8_inj hraw'] at hcanonical
    rw [hraw, ← hspelling.2 hcanonical]

/-- Of two files that hold the same records, one of them canonical. -/
theorem LogFile.Reads.same_content_iff {file edited : LogFile} {records : List AuditRecord}
    (h : file.Reads records) (h' : edited.Reads records) (hcanonical : file.Canonical) :
    edited.content.getD [] = file.content.getD [] ↔ edited.Canonical := by
  rw [h.canonical_iff.2 hcanonical]
  exact h'.canonical_iff

/-- **Exactly the spelled lines, and the files made of them, are what their records are written
as.**  A file that verifies is the lines of its records when it is canonical; an edit of such a
file that keeps the records leaves it no longer so. -/
theorem verified_spelling_iff (sha256 : Bytes → Hash) (log : AuditLog) :
    (∀ r : AuditRecord, AuditRecord.fromLine r.line = .ok r) ∧
      (∀ line r, AuditRecord.fromLine line = .ok r →
        (line ++ ['\n'] = r.toLine ↔ spelled line = true)) ∧
      ∀ file : LogFile, (log.verify sha256).run file = .ok ⟨⟩ file → ∃ records,
        log.records.run file = .ok records file ∧
          (file.content.getD [] = utf8 (records.flatMap AuditRecord.toLine) ↔ file.Canonical) ∧
          (file.Canonical → ∀ edited found, (log.verify sha256).run edited = .ok ⟨⟩ edited →
            log.records.run edited = .ok found edited →
              ((edited.content.getD [] ≠ file.content.getD [] → found ≠ records) ↔
                (found = records → edited.Canonical))) := by
  refine ⟨AuditRecord.fromLine_own_line, fun line r hread => ?_, fun file hverify => ?_⟩
  · rw [← fromLine_spelled hread]
    unfold AuditRecord.toLine
    exact List.append_left_inj ['\n']
  · obtain ⟨hfault, -, records, hreads, -⟩ := AuditLog.verify_ok.1 hverify
    refine ⟨records, AuditLog.records_ok.2 ⟨hfault, hreads, rfl⟩, hreads.canonical_iff, ?_⟩
    intro hcanonical edited found _ hfound
    obtain ⟨-, hreads', -⟩ := AuditLog.records_ok.1 hfound
    constructor
    · rintro hchanged rfl
      rw [← hreads.same_content_iff hreads' hcanonical]
      by_contra hcontent
      exact hchanged hcontent rfl
    · rintro hsame hcontent rfl
      exact hcontent ((hreads.same_content_iff hreads' hcanonical).2 (hsame rfl))

theorem unescape_escape_backslash (text : Text) : unescape (escape text ++ ['\\']) = text := by
  have hdropped : unescape ['\\'] = [] := rfl
  rw [unescape_escape_append, hdropped, List.append_nil]

/-- A lone backslash behind a record's line is not in the record. -/
theorem fromLine_backslash (r : AuditRecord) :
    AuditRecord.fromLine (r.line ++ ['\\']) = .ok r := by
  have hline : r.line ++ ['\\'] = decimal r.sequence ++ '\t' :: (hex r.previous.1 ++ '\t' ::
      (hex r.hash.1 ++ '\t' :: (decimal r.rows ++ '\t' :: (escape r.query ++ '\t' ::
        (escape r.plan ++ ['\\']))))) := by
    unfold AuditRecord.line
    simp
  have htab : '\t' ∉ escape r.plan ++ ['\\'] := by
    rw [List.mem_append, not_or]
    exact ⟨not_mem_escape (.inl rfl) _, by decide⟩
  unfold AuditRecord.fromLine
  rw [hline, splitOn_line r htab]
  simp only [field, reading, List.getElem?_cons_zero, List.getElem?_cons_succ, bind,
    Except.bind, parseU64_decimal, unhex_hex, unescape_escape, unescape_escape_backslash]
  rfl

/-- A log of one record with a lone backslash behind its line: it verifies. -/
theorem lone_backslash_verifies :
    let r := AuditRecord.sealed digest 0 ANCHOR "scan `docs`".toList [] 0
    let file : LogFile := ⟨some (utf8 (r.line ++ ['\\', '\n'])), none⟩
    ((AuditLog.mk LOG_FILE).verify digest).run file = .ok ⟨⟩ file ∧
      (AuditLog.mk LOG_FILE).records.run file = .ok [r] file ∧ r.isReanchor = false ∧
        file.content.getD [] ≠ utf8 ([r].flatMap AuditRecord.toLine) := by
  intro r file
  have hreads : file.Reads [r] := by
    refine ⟨r.line ++ ['\\', '\n'], rfl, ?_⟩
    have hcut : r.line ++ ['\\', '\n'] = r.line ++ ['\\'] ++ ['\n'] := by simp
    have hnewline : '\n' ∉ r.line ++ ['\\'] := by
      rw [List.mem_append, not_or]
      exact ⟨r.newline_not_mem_line, by decide⟩
    have hreturn : dropCarriageReturn (r.line ++ ['\\']) = r.line ++ ['\\'] := by
      rw [dropCarriageReturn_eq_self, List.getLast?_concat]
      decide
    unfold parse
    rw [hcut, lines_line hnewline, hreturn, List.filter_cons_of_pos (by simp),
      List.filter_nil, List.mapM_cons, fromLine_backslash]
    rfl
  have hunbroken : firstBreak digest [r] = none := firstBreak_sealed digest _ _ _ _
  refine ⟨AuditLog.verify_ok.2 ⟨rfl, rfl, [r], hreads, hunbroken⟩,
    AuditLog.records_ok.2 ⟨rfl, hreads, rfl⟩, by decide, ?_⟩
  intro hsame
  have htext : r.line ++ ['\\', '\n'] = [r].flatMap AuditRecord.toLine := utf8_inj hsame
  rw [List.flatMap_singleton] at htext
  unfold AuditRecord.toLine at htext
  have hends : ['\\', '\n'] = ['\n'] := List.append_cancel_left htext
  cases hends

/-- A file with the one record that an append to a fresh log writes. -/
theorem verified_spelling_one :
    let r := AuditRecord.sealed digest 0 ANCHOR "scan `docs`".toList [] 0
    ∃ records, (AuditLog.mk LOG_FILE).records.run (LogFile.fresh.put r) =
        .ok records (LogFile.fresh.put r) ∧
      ((LogFile.fresh.put r).content.getD [] = utf8 (records.flatMap AuditRecord.toLine) ↔
        (LogFile.fresh.put r).Canonical) := by
  intro r
  have hunbroken : firstBreak digest [r] = none := firstBreak_sealed digest _ _ _ _
  have hverify : ((AuditLog.mk LOG_FILE).verify digest).run (LogFile.fresh.put r) =
      .ok ⟨⟩ (LogFile.fresh.put r) := by
    have hholds : (LogFile.fresh.put r).Holds ([] ++ [r]) := LogFile.fresh_holds.append r
    exact AuditLog.verify_ok.2 ⟨rfl, rfl, [r], hholds.reads, hunbroken⟩
  obtain ⟨records, hrecords, hlines, -⟩ :=
    (verified_spelling_iff digest (AuditLog.mk LOG_FILE)).2.2 _ hverify
  exact ⟨records, hrecords, hlines⟩

end EuleDB.Audit
