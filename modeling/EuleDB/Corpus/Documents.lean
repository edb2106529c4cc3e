import EuleDB.Crypto.Platform
import EuleDB.Lib.Escapes
import EuleDB.Lib.Lines

/-!
# The reference corpus

A corpus is a text of one line a document, its fields separated by tabs.  A script fetches the
documents and writes them, and the loader reads them.

* `escape`, `collect`, `body` — the writer, in the words of the script.
* `unescape`, `Document.fromLine`, `parse` — the loader.
* `unescape_escape` — the script's replacements, one after another through the whole text, are
  undone by the loader's one pass.
* `corpus_round_trip` — what is written is read back.
-/

set_option autoImplicit false

namespace EuleDB.Corpus

open Crypto Escapes Lines

/-- One document of the corpus. -/
structure Document where
  id : Text
  language : Text
  title : Text
  text : Text
  deriving DecidableEq

/-! ## The script -/

def LANGUAGES : List Text := ["de".toList, "fr".toList, "pl".toList, "en".toList]

/-- The offset skips the alphabetically first articles. -/
def OFFSET : Nat := 1000

/-- The server caps a page. -/
def PAGE : Nat := 100

/-- Escape the characters the line format uses, and the escape itself. -/
def escape (text : Text) : Text :=
  let text := replace '\\' ['\\', '\\'] text
  let text := replace '\t' ['\\', 't'] text
  let text := replace '\n' ['\\', 'n'] text
  replace '\r' ['\\', 'r'] text

/-- A row of a page, as far as the script reads it. -/
structure Record where
  id : Text
  title : Option Text
  text : Option Text

/-- The line of a document. -/
def line (id language title text : Text) : Text :=
  ['\t'].intercalate [id, language, escape title, escape text]

section Fetch

-- One page of rows, or what the fetch failed with after its retries.
variable (fetchPage : Text → Nat → Nat → Except Text (List Record))

/-- The pages of a language that are left when `taken` rows were asked for. -/
def pages (perLanguage : Nat) (language : Text) (taken : Nat) : Except Text (List Record) :=
  if taken < perLanguage then do
    let want := min PAGE (perLanguage - taken)
    let rows ← fetchPage language (OFFSET + taken) want
    let rest ← pages perLanguage language (taken + want)
    pure (rows ++ rest)
  else pure []
termination_by perLanguage - taken
decreasing_by
  have hpage : 0 < PAGE := by decide
  omega

/-- The rows of every language, in order. -/
def rows (perLanguage : Nat) : Except Text (List (Text × Record)) := do
  let fetched ← LANGUAGES.mapM fun language => do
    let records ← pages fetchPage perLanguage language 0
    pure (records.map fun record => (language, record))
  pure fetched.flatten

/-- What is made of every row.  A stub, which is a text of fewer than 500 characters, is left
out. -/
def collectAs {α : Type} (made : Text → Text → Text → Text → α) (perLanguage : Nat) :
    Except Text (List α) := do
  let rows ← rows fetchPage perLanguage
  pure (rows.filterMap fun (language, record) =>
    let text := record.text.getD []
    if text.length < 500 then none
    else some (made (language ++ '-' :: record.id) language (record.title.getD []) text))

/-- One line per document: id, language, title, text. -/
def collect (perLanguage : Nat) : Except Text (List Text) := collectAs fetchPage line perLanguage

/-- The documents these lines are of. -/
def documents (perLanguage : Nat) : Except Text (List Document) :=
  collectAs fetchPage Document.mk perLanguage

end Fetch

/-- The text of the file. -/
def body (lines : List Text) : Text := ['\n'].intercalate lines ++ ['\n']

/-! ## The loader -/

/-- Undo the escaping the fetcher applies.  A trailing lone backslash is dropped. -/
def unescape : Text → Text
  | [] => []
  | c :: text =>
    if c ≠ '\\' then c :: unescape text
    else
      match text with
      | '\\' :: text => '\\' :: unescape text
      | 't' :: text => '\t' :: unescape text
      | 'n' :: text => '\n' :: unescape text
      | 'r' :: text => '\r' :: unescape text
      | other :: text => '\\' :: other :: unescape text
      | [] => []

/-- Read one document from one line, or nothing where it is not four fields. -/
def Document.fromLine (line : Text) : Option Document :=
  match line.splitOn '\t' with
  | [id, language, title, text] => some ⟨id, language, unescape title, unescape text⟩
  | _ => none

/-- Every readable document in a corpus file. -/
def parse (raw : Text) : List Document :=
  ((lines raw).filter fun line => !line.isEmpty).filterMap Document.fromLine

/-! ## Escaping -/

/-- What the script replaces, in its order, and by which letter. -/
def ESCAPES : List (Char × Char) := [('\\', '\\'), ('\t', 't'), ('\n', 'n'), ('\r', 'r')]

/-- What the loader takes a letter for. -/
def letter : Char → Option Char
  | '\\' => some '\\'
  | 't' => some '\t'
  | 'n' => some '\n'
  | 'r' => some '\r'
  | _ => none

theorem escape_eq (text : Text) : escape text = encode '\\' ESCAPES text := by
  have horder : ESCAPES.Pairwise fun a b => b.1 ≠ '\\' ∧ b.1 ≠ a.2 := by decide
  exact chain_eq_encode horder text

theorem letter_other {c : Char} (hbackslash : c ≠ '\\') (ht : c ≠ 't') (hn : c ≠ 'n')
    (hr : c ≠ 'r') : letter c = none := by
  unfold letter
  split <;> first | contradiction | rfl

/-- The loader's pass is the one that takes each letter for what it stands for. -/
theorem unescape_eq (text : Text) : unescape text = decode '\\' letter text := by
  induction text using unescape.induct with
  | case1 => rfl
  | case2 c text hc ih =>
    rw [unescape.eq_def, decode.eq_def]
    simp [hc, ih]
  | case3 c hc text ih => simp [unescape, decode, hc, letter, ih]
  | case4 c hc text ih => simp [unescape, decode, hc, letter, ih]
  | case5 c hc text ih => simp [unescape, decode, hc, letter, ih]
  | case6 c hc text ih => simp [unescape, decode, hc, letter, ih]
  | case7 c hc other text hbackslash ht hn hr ih =>
    rw [unescape.eq_def, decode.eq_def]
    simp [hc, letter_other hbackslash ht hn hr, ih]
  | case8 c hc => simp [unescape, decode, hc]

/-- **Escaping loses nothing.** -/
theorem unescape_escape (text : Text) : unescape (escape text) = text := by
  rw [unescape_eq, escape_eq]
  exact decode_encode (by decide) (by decide) text

/-- No character that the line format uses is left. -/
theorem not_mem_escape {c : Char} (hc : c ∈ ['\t', '\n', '\r']) (text : Text) :
    c ∉ escape text := by
  rw [escape_eq]
  simp only [List.mem_cons, List.not_mem_nil, or_false] at hc
  rcases hc with rfl | rfl | rfl <;> exact not_mem_encode (by decide) (by decide) (by decide) text

/-! ## The file -/

/-- A text that leaves the line format alone. -/
def Plain (text : Text) : Prop := '\t' ∉ text ∧ '\r' ∉ text ∧ '\n' ∉ text

instance (text : Text) : Decidable (Plain text) := inferInstanceAs (Decidable (_ ∧ _ ∧ _))

/-- The line of a document. -/
def Document.line (d : Document) : Text := Corpus.line d.id d.language d.title d.text

/-- A document whose identity is plain. -/
structure Document.Plain (d : Document) : Prop where
  id : Corpus.Plain d.id
  language : Corpus.Plain d.language

theorem Document.line_eq (d : Document) :
    d.line = d.id ++ '\t' :: (d.language ++ '\t' :: (escape d.title ++ '\t' :: escape d.text)) := by
  simp [line, Corpus.line, List.intercalate_cons_cons]

variable {d : Document}

theorem Document.Plain.not_mem_line (h : d.Plain) {c : Char} (hc : c = '\r' ∨ c = '\n') :
    c ∉ d.line := by
  have hescape : ∀ text, c ∉ escape text := by
    intro text
    apply not_mem_escape
    rcases hc with rfl | rfl <;> decide
  have hplain : ∀ {text}, Corpus.Plain text → c ∉ text := by
    intro text htext
    rcases hc with rfl | rfl
    · exact htext.2.1
    · exact htext.2.2
  have htab : c ≠ '\t' := by
    rcases hc with rfl | rfl <;> decide
  rw [d.line_eq]
  simp [hplain h.id, hplain h.language, hescape, htab]

/-- **A line is read as its document.** -/
theorem Document.Plain.fromLine_line (h : d.Plain) : Document.fromLine d.line = some d := by
  have htab : ∀ text, '\t' ∉ escape text := fun text => not_mem_escape (by decide) text
  unfold fromLine
  rw [d.line_eq, List.splitOn_append_cons_self_of_not_mem h.id.1,
    List.splitOn_append_cons_self_of_not_mem h.language.1,
    List.splitOn_append_cons_self_of_not_mem (htab _), List.splitOn_eq_singleton (htab _)]
  simp only [unescape_escape]

/-- **What is written is read back.** -/
theorem parse_body {docs : List Document} (h : ∀ d ∈ docs, d.Plain) :
    parse (body (docs.map Document.line)) = docs := by
  by_cases hdocs : docs = []
  · -- A file without documents is one empty line.
    rw [hdocs]
    rfl
  have hbody : body (docs.map Document.line) = docs.flatMap fun d => d.line ++ ['\n'] := by
    unfold body
    rw [intercalate_concat _ (by simpa using hdocs), List.flatMap_map]
  have hlines : lines (body (docs.map Document.line)) = docs.map Document.line := by
    rw [hbody, lines_flatMap Document.line docs fun d hd => (h d hd).not_mem_line (.inr rfl)]
    refine List.map_congr_left fun d hd => dropCarriageReturn_eq_self.2 fun hlast => ?_
    exact (h d hd).not_mem_line (.inl rfl) (List.mem_of_getLast? hlast)
  have hfull : ∀ text ∈ docs.map Document.line, (!text.isEmpty) = true := by
    intro text htext
    obtain ⟨d, -, rfl⟩ := List.mem_map.1 htext
    rw [d.line_eq]
    simp
  unfold parse
  rw [hlines, List.filter_eq_self.2 hfull, List.filterMap_map]
  calc docs.filterMap (Document.fromLine ∘ Document.line)
      = docs.filterMap some := List.filterMap_congr fun d hd => (h d hd).fromLine_line
    _ = docs := List.filterMap_some

/-- The lines that are collected are those of the documents. -/
theorem collect_eq (fetchPage : Text → Nat → Nat → Except Text (List Record)) (perLanguage : Nat) :
    collect fetchPage perLanguage =
      (documents fetchPage perLanguage).map (List.map Document.line) := by
  unfold collect documents collectAs
  cases rows fetchPage perLanguage with
  | error e => rfl
  | ok rows =>
    refine congrArg Except.ok ?_
    rw [List.map_filterMap]
    refine List.filterMap_congr fun row _ => ?_
    obtain ⟨language, record⟩ := row
    dsimp only
    split_ifs
    · rfl
    · rfl

/-- **The corpus writer and reader agree.**  The file that is written of any documents, whatever
their titles and texts, is read as these documents; and so is the one the script writes of what it
fetched. -/
theorem corpus_round_trip :
    (∀ docs : List Document, (∀ d ∈ docs, d.Plain) →
      parse (body (docs.map Document.line)) = docs) ∧
    ∀ (fetchPage : Text → Nat → Nat → Except Text (List Record)) (perLanguage : Nat)
      (docs : List Document), documents fetchPage perLanguage = .ok docs →
      (∀ d ∈ docs, d.Plain) →
      ∃ lines, collect fetchPage perLanguage = .ok lines ∧ parse (body lines) = docs := by
  refine ⟨fun docs hplain => parse_body hplain, fun fetchPage perLanguage docs hdocs hplain => ?_⟩
  refine ⟨docs.map Document.line, ?_, parse_body hplain⟩
  rw [collect_eq, hdocs]
  rfl

/-- A document whose title looks escaped, and whose text holds every character that is. -/
def sample : Document where
  id := "en-7".toList
  language := "en".toList
  title := "C:\\temp\\new".toList
  text := List.replicate 500 'a' ++ "\\\t\n\r\\n".toList

theorem sample_plain : ∀ d ∈ [sample], d.Plain := by
  intro d hd
  obtain rfl := List.mem_singleton.1 hd
  exact ⟨by decide, by decide⟩

/-- A page with the document and a stub, for one of the languages. -/
def samplePage (language : Text) (_offset _length : Nat) : Except Text (List Record) :=
  if language = "en".toList then
    .ok [⟨"7".toList, some sample.title, some sample.text⟩, ⟨"8".toList, none, none⟩]
  else .ok []

theorem documents_samplePage : documents samplePage 10 = .ok [sample] := by
  have hlong : ¬ sample.text.length < 500 := by
    unfold sample
    dsimp only
    rw [List.length_append, List.length_replicate]
    omega
  simp [documents, collectAs, rows, pages, LANGUAGES, PAGE, samplePage, bind, Except.bind, pure,
    Except.pure, hlong]
  rfl

/-- The document, written and read by itself and out of a page. -/
theorem sample_round_trip :
    parse (body [sample.line]) = [sample] ∧
      ∃ lines, collect samplePage 10 = .ok lines ∧ parse (body lines) = [sample] :=
  ⟨corpus_round_trip.1 [sample] sample_plain,
    corpus_round_trip.2 samplePage 10 [sample] documents_samplePage sample_plain⟩

end EuleDB.Corpus
