import PacketGuard.Policy.CsvFields
import PacketGuard.Policy.Written

/-! # Settings as they are written

Settings come as sections of keys and values, as a table or as an object, and
`parse_policy_text` picks the reader by the characters it finds.  What is written
in each of the formats is read back entry by entry.

Each format has types for what can be written: an entry, a scalar or a cell that
carries what its reader needs to find its end again (no quote inside a quoted
string, no bracket in front of a section name).  The lemma about one entry says
that the reader, standing in front of it, returns the entry and stands behind it;
the result about a file is an induction over its entries, with the line number or
the rest of the text as what changes.

The choice of the reader comes first.  A text without firewall lines is scanned as
one of unknown dialect (`policyMachine_unknown`), and then goes to the reader of
sections for an equals sign and a bracket, else to that of tables for a comma and a
newline, else to that of objects for a brace or a quote (`parseSettings`).  So the
result about tables asks for a text that has not both characters of the first, and
the one about objects for one that gets past the first two.
-/
namespace PacketGuard.Policy
open PacketGuard.Core PacketGuard.Lib
open PacketGuard.Rules (stripQuotes_quoted)

/-! ## Texts without firewall rules -/

theorem policyMachine_unknown {lines : List Str}
    (h : ∀ line ∈ lines, ¬ Recognised (trim (removeComment line))) :
    policyMachine.run lines = { n := lines.length } := by
  induction lines using List.reverseRecOn with
  | nil => rfl
  | append_singleton lines line ih =>
    rw [Machine.run_concat, ih fun l hl => h l (List.mem_append_left _ hl), List.length_append,
      List.length_singleton]
    exact PolicyScan.step_other _ (h line (by simp))

/-- **A text without firewall rules is its settings**: no rule, no review, and the
dialect says whether there are any. -/
theorem parsePolicyText_settings {text : Str}
    (h : ∀ line ∈ getlines '\n' text, ¬ Recognised (trim (removeComment line))) :
    parsePolicyText text =
      { dominantDialect := if (parseSettings text).1.isEmpty then .unknown else .genericPolicy
        settings := (parseSettings text).1
        diagnostics := (parseSettings text).2 } := by
  have hscanned : scannedFile text =
      { dominantDialect := if (parseSettings text).1.isEmpty then .unknown else .genericPolicy
        settings := (parseSettings text).1
        diagnostics := (parseSettings text).2 } := by
    unfold scannedFile
    simp only [policyMachine_unknown h, List.isEmpty_nil, if_true, List.nil_append]
  have hduplicate : ∀ dialect settings diagnostics,
      duplicateRules { dominantDialect := dialect, settings, diagnostics } = [] := fun _ _ _ => rfl
  rw [parsePolicyText, hscanned]
  simp only [hduplicate, shadowedRules, orderingWarnings, shadowedFrom, orderingFrom,
    reviewDiagnostics, List.flatMap_nil, List.append_nil]

/-! ## Sections of keys and values -/

/-- A key and its value, written `key = "value"`. -/
structure IniEntry where
  key : Str
  value : Str
  key_ne : key ≠ []
  key_trimmed : Trimmed key
  key_head : key.head? ≠ some '['
  key_quiet : ∀ c ∈ key, Quiet c ∧ c ≠ '=' ∧ c ≠ '\n'
  value_plain : ∀ c ∈ value, (c ≠ '"' ∧ c ≠ '\\') ∧ c ≠ '\n'

/-- A line of an INI file: the header of a section, an entry or a line without content. -/
inductive IniLine
  | header (name : Str) (trimmed : Trimmed name) (quiet : ∀ c ∈ name, Quiet c ∧ c ≠ '\n')
  | entry (e : IniEntry)
  | blank (line : Str) (empty : (trim (removeComment line)).isEmpty = true) (oneLine : '\n' ∉ line)

theorem blank_nil : Blank [] := fun _ hc => absurd hc List.not_mem_nil

theorem blank_space : Blank [' '] := by
  intro c hc
  rw [List.mem_singleton.mp hc]
  rfl

namespace IniEntry

def text (e : IniEntry) : Str := e.key ++ " = ".toList ++ '"' :: (e.value ++ ['"'])

theorem uncommented_text (e : IniEntry) : Uncommented e.text := by
  have hkey : Uncommented e.key := uncommented_of_quiet fun c hc => (e.key_quiet c hc).1
  have hmark : Uncommented " = ".toList := uncommented_of_quiet (by simp [Quiet])
  exact (hkey.append hmark).append (uncommented_quoted fun c hc => (e.value_plain c hc).1)

theorem trimmed_text (e : IniEntry) : Trimmed e.text := by
  constructor
  · intro c hc
    rw [text, List.append_assoc, List.head?_append_of_ne_nil _ e.key_ne] at hc
    exact e.key_trimmed.1 c hc
  · intro c hc
    have hlast : e.text.getLast? = some '"' := by
      rw [text, List.getLast?_append, ← List.cons_append, List.getLast?_concat]
      rfl
    rw [hlast] at hc
    cases hc
    rfl

end IniEntry

namespace IniLine

def text : IniLine → Str
  | header name _ _ => '[' :: (name ++ [']'])
  | entry e => e.text
  | blank line _ _ => line

theorem newline_notMem_text (l : IniLine) : '\n' ∉ l.text := by
  intro hmem
  cases l with
  | header name trimmed quiet =>
    rcases List.mem_cons.mp hmem with hc | hmem
    · cases hc
    · rcases List.mem_append.mp hmem with hmem | hmem
      · exact (quiet _ hmem).2 rfl
      · cases List.mem_singleton.mp hmem
  | entry e =>
    simp only [text, IniEntry.text, List.mem_append, List.mem_cons, List.not_mem_nil, or_false]
      at hmem
    rcases hmem with (hmem | hmem) | hmem | hmem | hmem
    · exact (e.key_quiet _ hmem).2.2 rfl
    · simp at hmem
    · cases hmem
    · exact (e.value_plain _ hmem).2 rfl
    · cases hmem
  | blank line empty oneLine => exact oneLine hmem

end IniLine

/-- The settings of the lines behind line `n`, in the section `section_`. -/
def iniSettings (section_ : Str) (n : Nat) : List IniLine → List PolicyKV
  | [] => []
  | .header name _ _ :: lines => iniSettings name (n + 1) lines
  | .entry e :: lines =>
    ⟨section_, toLower e.key, e.value, n + 1⟩ :: iniSettings section_ (n + 1) lines
  | .blank _ _ _ :: lines => iniSettings section_ (n + 1) lines

/-- **Step lemma**, for the header of a section. -/
theorem parseIniLines_header {name : Str} (trimmed : Trimmed name)
    (quiet : ∀ c ∈ name, Quiet c ∧ c ≠ '\n')
    (section_ : Str) (n : Nat) (lines : List Str) :
    parseIniLines section_ n (('[' :: (name ++ [']'])) :: lines) =
      parseIniLines name (n + 1) lines := by
  have hkeep : Uncommented ('[' :: (name ++ [']'])) := by
    refine uncommented_of_quiet fun c hc => ?_
    rcases List.mem_cons.mp hc with rfl | hc
    · simp [Quiet]
    · rcases List.mem_append.mp hc with hc | hc
      · exact (quiet c hc).1
      · rw [List.mem_singleton.mp hc]
        simp [Quiet]
  have hlast : ('[' :: (name ++ [']'])).getLast? = some ']' := by
    rw [← List.cons_append, List.getLast?_concat]
  have hclean : trim (removeComment ('[' :: (name ++ [']']))) = '[' :: (name ++ [']']) := by
    rw [hkeep.removeComment_eq]
    refine trim_eq_self ⟨fun c hc => ?_, fun c hc => ?_⟩
    · cases hc
      rfl
    · rw [hlast] at hc
      cases hc
      rfl
  have hname : (substr 1 ('[' :: (name ++ [']']))).take (('[' :: (name ++ [']'])).length - 2) =
      name := by
    simp [substr]
  rw [parseIniLines]
  simp only [hclean, hname, hlast, trim_eq_self trimmed, List.isEmpty_cons, List.head?_cons]
  simp

/-- **Step lemma**, for an entry. -/
theorem parseIniLines_entry (e : IniEntry) (section_ : Str) (n : Nat) (lines : List Str) :
    parseIniLines section_ n (e.text :: lines) =
      (⟨section_, toLower e.key, e.value, n + 1⟩ :: (parseIniLines section_ (n + 1) lines).1,
        (parseIniLines section_ (n + 1) lines).2) := by
  have hclean : trim (removeComment e.text) = e.text := by
    rw [e.uncommented_text.removeComment_eq, trim_eq_self e.trimmed_text]
  have hhead : e.text.head? ≠ some '[' := by
    rw [IniEntry.text, List.append_assoc, List.head?_append_of_ne_nil _ e.key_ne]
    exact e.key_head
  have hne : e.text.isEmpty = false := by
    rw [List.isEmpty_eq_false_iff, IniEntry.text]
    simp
  have hnone : '=' ∉ e.key ++ [' '] := by
    intro hmem
    rcases List.mem_append.mp hmem with hmem | hmem
    · exact (e.key_quiet _ hmem).2.1 rfl
    · cases List.mem_singleton.mp hmem
  have htext : e.text = (e.key ++ [' ']) ++ '=' :: (' ' :: '"' :: (e.value ++ ['"'])) := by
    simp [IniEntry.text]
  have hfind : find '=' e.text = some (e.key ++ [' ']).length := by
    rw [htext, find_append_cons hnone]
  have hkey : trim (e.text.take (e.key ++ [' ']).length) = e.key := by
    rw [htext, List.take_left]
    exact trim_blank_append blank_nil e.key_trimmed blank_space e.key_ne
  have hvalue : trim (substr ((e.key ++ [' ']).length + 1) e.text) = '"' :: (e.value ++ ['"']) := by
    have hrest : substr ((e.key ++ [' ']).length + 1) e.text = [' '] ++
        ('"' :: (e.value ++ ['"'])) ++ [] := by
      rw [htext, substr, ← List.drop_drop, List.drop_left]
      simp
    have htrimmed : Trimmed ('"' :: (e.value ++ ['"'])) := by
      rw [← Rules.trim_quoted]
      exact trimmed_trim _
    rw [hrest]
    exact trim_blank_append blank_space htrimmed blank_nil (List.cons_ne_nil _ _)
  rw [parseIniLines]
  simp only [hclean, hne, hhead, hfind, hkey, hvalue, stripQuotes_quoted]
  simp

/-- **Run lemma.** -/
theorem parseIniLines_written (lines : List IniLine) (section_ : Str) (n : Nat) :
    parseIniLines section_ n (lines.map IniLine.text) = (iniSettings section_ n lines, []) := by
  induction lines generalizing section_ n with
  | nil => rfl
  | cons l lines ih =>
    rw [List.map_cons]
    cases l with
    | header name trimmed quiet =>
      rw [IniLine.text, parseIniLines_header trimmed quiet, ih]
      rfl
    | entry e =>
      rw [IniLine.text, parseIniLines_entry, ih]
      rfl
    | blank line empty oneLine =>
      rw [IniLine.text, parseIniLines]
      simp only [empty, if_true]
      exact ih section_ (n + 1)

/-- **Sections of settings are read back**, with the section and the line of every
entry, when no line looks like a firewall rule. -/
theorem parsePolicyText_ini (lines : List IniLine)
    (hheader : ∃ name trimmed quiet, .header name trimmed quiet ∈ lines)
    (hentry : ∃ e, .entry e ∈ lines)
    (hrules : ∀ l ∈ lines, ¬ Recognised (trim (removeComment l.text))) :
    parsePolicyText (textOf (lines.map IniLine.text)) =
      { dominantDialect := .genericPolicy, settings := iniSettings [] 0 lines } := by
  have hlines : getlines '\n' (textOf (lines.map IniLine.text)) = lines.map IniLine.text := by
    refine getlines_textOf fun line hline => ?_
    obtain ⟨l, -, rfl⟩ := List.mem_map.mp hline
    exact l.newline_notMem_text
  have hmem : ∀ l ∈ lines, ∀ c ∈ l.text, c ∈ textOf (lines.map IniLine.text) := by
    intro l hl c hc
    exact List.mem_flatMap.mpr ⟨l.text, List.mem_map_of_mem hl, List.mem_append_left _ hc⟩
  have hparse : parseSettings (textOf (lines.map IniLine.text)) = (iniSettings [] 0 lines, []) := by
    obtain ⟨e, he⟩ := hentry
    obtain ⟨name, trimmed, quiet, hname⟩ := hheader
    have hequals : '=' ∈ textOf (lines.map IniLine.text) :=
      hmem _ he '=' (by simp [IniLine.text, IniEntry.text])
    have hbracket : '[' ∈ textOf (lines.map IniLine.text) := hmem _ hname '[' List.mem_cons_self
    rw [parseSettings, if_pos ⟨hequals, hbracket⟩, parseIniPolicy, hlines, parseIniLines_written]
  have hsome : (iniSettings [] 0 lines).isEmpty = false := by
    obtain ⟨e, he⟩ := hentry
    have hcontributes : ∀ (lines : List IniLine) section_ n, .entry e ∈ lines →
        iniSettings section_ n lines ≠ [] := by
      intro lines
      induction lines with
      | nil => exact fun _ _ h => absurd h List.not_mem_nil
      | cons l lines ih =>
        intro section_ n h
        cases l with
        | entry e' => exact List.cons_ne_nil _ _
        | header name trimmed quiet =>
          rcases List.mem_cons.mp h with h | h
          · cases h
          · exact ih name (n + 1) h
        | blank line empty oneLine =>
          rcases List.mem_cons.mp h with h | h
          · cases h
          · exact ih section_ (n + 1) h
    exact List.isEmpty_eq_false_iff.mpr (hcontributes lines [] 0 he)
  rw [parsePolicyText_settings, hparse]
  · simp only [hsome]
    rfl
  · intro line hline
    rw [hlines] at hline
    obtain ⟨l, hl, rfl⟩ := List.mem_map.mp hline
    exact hrules l hl

/-- `Length = "14 # letters"`. -/
def lengthEntry : IniEntry where
  key := "Length".toList
  value := "14 # letters".toList
  key_ne := by decide
  key_trimmed := trimmed_of_ends rfl
  key_head := by decide
  key_quiet := by simp [Quiet]
  value_plain := by simp

/-- An entry of a section, with a mark of comments in its value. -/
theorem parsePolicyText_ini_length :
    (parsePolicyText (textOf ["[auth]".toList, "Length = \"14 # letters\"".toList])).settings =
      [⟨"auth".toList, "length".toList, "14 # letters".toList, 2⟩] := by
  have hrules : ¬ Recognised (trim (removeComment "[auth]".toList)) ∧
      ¬ Recognised (trim (removeComment lengthEntry.text)) := by
    unfold Recognised
    decide
  have hread := parsePolicyText_ini
    [.header "auth".toList (trimmed_of_ends rfl) (by simp [Quiet]), .entry lengthEntry]
    ⟨_, _, _, List.mem_cons_self⟩ ⟨lengthEntry, by simp⟩
    (List.forall_mem_cons.mpr
      ⟨hrules.1, List.forall_mem_cons.mpr ⟨hrules.2, fun _ hl => absurd hl List.not_mem_nil⟩⟩)
  exact congrArg PolicyFile.settings hread

/-! ## Objects -/

/-- A value of an object. -/
inductive JsonScalar
  | string (content : Str) (plain : '"' ∉ content)
  | word (name : String) (known : name ∈ ["true", "false", "null"])
  | number (negative : Bool) (digits : Str) (decimal : isDecimal digits = true)

namespace JsonScalar

/-- The value as it is read. -/
def value : JsonScalar → Str
  | string content _ => content
  | word name _ => name.toList
  | number negative digits _ => (if negative then ['-'] else []) ++ digits

/-- The value as it is written. -/
def text : JsonScalar → Str
  | string content _ => '"' :: (content ++ ['"'])
  | word name _ => name.toList
  | number negative digits _ => (if negative then ['-'] else []) ++ digits

end JsonScalar

/-- A property of an object, with the text between the property before and this one. -/
structure JsonField where
  gap : Str
  key : Str
  before : Str
  after : Str
  value : JsonScalar
  gap_plain : '"' ∉ gap
  gap_head : ∀ c ∈ gap.head?, isDigit c = false
  gap_ne : gap ≠ []
  key_ne : key ≠ []
  key_plain : '"' ∉ key
  before_blank : Blank before
  after_blank : Blank after

def JsonField.text (f : JsonField) : Str :=
  '"' :: (f.key ++ '"' :: (f.before ++ ':' :: (f.after ++ f.value.text)))

/-- Properties in their gaps, and what follows the last of them. -/
def objectText (fields : List JsonField) (tail : Str) : Str :=
  fields.flatMap (fun f => f.gap ++ f.text) ++ tail

theorem untilQuote_append {content : Str} (h : '"' ∉ content) (rest : Str) :
    untilQuote (content ++ '"' :: rest) = some (content, rest) := by
  have htake : (content ++ '"' :: rest).takeWhile (· ≠ '"') = content := by
    rw [List.takeWhile_append_of_pos]
    · simp
    · intro c hc
      have hne : c ≠ '"' := fun heq => h (heq ▸ hc)
      simpa using hne
  unfold untilQuote
  simp only [htake, List.drop_left]

/-- A number is read up to the first character that is no digit. -/
theorem jsonNumber_append (negative : Bool) {digits rest : Str} (h : isDecimal digits = true)
    (hrest : ∀ c ∈ rest.head?, isDigit c = false) :
    jsonNumber ((if negative then ['-'] else []) ++ digits ++ rest) =
      some ((if negative then ['-'] else []) ++ digits, rest) := by
  obtain ⟨hne, hall⟩ := isDecimal_iff.mp h
  obtain ⟨d, digits', rfl⟩ := List.exists_cons_of_ne_nil hne
  have hd : d ≠ '-' := by
    rintro rfl
    exact absurd (List.all_eq_true.mp hall '-' List.mem_cons_self) (by decide)
  have htake : ((d :: digits') ++ rest).takeWhile isDigit = d :: digits' := by
    rw [List.takeWhile_append_of_pos (List.all_eq_true.mp hall)]
    cases rest with
    | nil => simp
    | cons c rest => simp [hrest c rfl]
  cases negative with
  | false =>
    unfold jsonNumber
    simp only [List.cons_append] at htake
    simp [hd, htake]
  | true =>
    unfold jsonNumber
    simp only [List.cons_append] at htake
    simp [htake]

theorem jsonValue_text (v : JsonScalar) {rest : Str} (hrest : ∀ c ∈ rest.head?, isDigit c = false) :
    jsonValue (v.text ++ rest) = some (v.value, rest) := by
  cases v with
  | string content plain =>
    rw [jsonValue, JsonScalar.text, List.cons_append, List.append_assoc]
    exact untilQuote_append plain rest
  | word name known =>
    rw [jsonValue, JsonScalar.text]
    simp only [List.mem_cons, List.not_mem_nil, or_false] at known
    rcases known with rfl | rfl | rfl <;> rfl
  | number negative digits decimal =>
    have hnumber := jsonNumber_append negative decimal hrest
    obtain ⟨hne, hall⟩ := isDecimal_iff.mp decimal
    obtain ⟨d, digits', rfl⟩ := List.exists_cons_of_ne_nil hne
    have hd : isDigit d = true := List.all_eq_true.mp hall d List.mem_cons_self
    have hother : ∀ c, isDigit c = false → c ≠ '-' →
        ((if negative then ['-'] else []) ++ (d :: digits') ++ rest).head? ≠ some c := by
      intro c hc hminus hhead
      cases negative with
      | false =>
        cases hhead
        rw [hd] at hc
        cases hc
      | true =>
        cases hhead
        exact hminus rfl
    have hwords : ["true", "false", "null"].find? (fun word =>
        startsWith ((if negative then ['-'] else []) ++ (d :: digits') ++ rest) word.toList) =
          none := by
      refine List.find?_eq_none.mpr fun word hword hstarts => ?_
      have hprefix := List.isPrefixOf_iff_prefix.mp hstarts
      simp only [List.mem_cons, List.not_mem_nil, or_false] at hword
      rcases hword with rfl | rfl | rfl
      · exact hother 't' rfl (by decide) (head?_of_isPrefix hprefix rfl)
      · exact hother 'f' rfl (by decide) (head?_of_isPrefix hprefix rfl)
      · exact hother 'n' rfl (by decide) (head?_of_isPrefix hprefix rfl)
    rw [jsonValue, JsonScalar.text, if_neg (hother '"' rfl (by decide)), hwords]
    exact hnumber

theorem dropWhile_blank {blank rest : Str} (h : Blank blank)
    (hrest : ∀ c ∈ rest.head?, isSpace c = false) :
    (blank ++ rest).dropWhile isSpace = rest := by
  rw [List.dropWhile_append_of_pos h]
  cases rest with
  | nil => rfl
  | cons c rest => rw [List.dropWhile_cons_of_neg (by simp [hrest c rfl])]

/-- A value starts with no white space. -/
theorem isSpace_head_text (v : JsonScalar) (rest : Str) :
    ∀ c ∈ (v.text ++ rest).head?, isSpace c = false := by
  intro c hc
  cases v with
  | string content plain =>
    cases hc
    rfl
  | word name known =>
    simp only [List.mem_cons, List.not_mem_nil, or_false] at known
    rcases known with rfl | rfl | rfl <;>
      · cases hc
        rfl
  | number negative digits decimal =>
    obtain ⟨hne, hall⟩ := isDecimal_iff.mp decimal
    obtain ⟨d, digits', rfl⟩ := List.exists_cons_of_ne_nil hne
    cases negative with
    | false =>
      cases hc
      exact isSpace_of_isDigit (List.all_eq_true.mp hall c List.mem_cons_self)
    | true =>
      cases hc
      rfl

/-- **One property.** -/
theorem jsonPair_text (f : JsonField) {rest : Str} (hrest : ∀ c ∈ rest.head?, isDigit c = false) :
    jsonPair (f.text ++ rest) = some (f.key, f.value.value, rest) := by
  have huntil : untilQuote ((f.text ++ rest).drop 1) =
      some (f.key, f.before ++ ':' :: (f.after ++ (f.value.text ++ rest))) := by
    have htext : (f.text ++ rest).drop 1 = f.key ++ '"' ::
        (f.before ++ ':' :: (f.after ++ (f.value.text ++ rest))) := by
      simp [JsonField.text]
    rw [htext]
    exact untilQuote_append f.key_plain _
  have hcolon : (f.before ++ ':' :: (f.after ++ (f.value.text ++ rest))).dropWhile isSpace =
      ':' :: (f.after ++ (f.value.text ++ rest)) :=
    dropWhile_blank f.before_blank (by
      rintro c hc
      cases hc
      rfl)
  have hvalue := dropWhile_blank f.after_blank (isSpace_head_text f.value rest)
  have hkey : f.key.isEmpty = false := List.isEmpty_eq_false_iff.mpr f.key_ne
  rw [jsonPair, if_neg (by simp [JsonField.text]), huntil]
  simp only [hcolon, hkey, List.head?_cons, List.drop_succ_cons, List.drop_zero, hvalue,
    jsonValue_text f.value hrest]
  simp

/-- Between the properties nothing is found. -/
theorem jsonPairsFrom_gap {gap : Str} (h : '"' ∉ gap) (rest : Str) :
    jsonPairsFrom 0 (gap ++ rest) = jsonPairsFrom 0 rest := by
  induction gap with
  | nil => rfl
  | cons c gap ih =>
    rw [List.mem_cons, not_or] at h
    have hnone : jsonPair (c :: (gap ++ rest)) = none := by
      rw [jsonPair, if_pos]
      simpa using Ne.symm h.1
    rw [List.cons_append, jsonPairsFrom, hnone]
    exact ih h.2

/-- What a match has taken is passed over. -/
theorem jsonPairsFrom_taken (taken rest : Str) :
    jsonPairsFrom taken.length (taken ++ rest) = jsonPairsFrom 0 rest := by
  induction taken with
  | nil => rfl
  | cons c taken ih => exact ih

/-- **All properties**, from left to right. -/
theorem jsonPairsFrom_objectText (fields : List JsonField) {tail : Str} (hplain : '"' ∉ tail)
    (hdigit : ∀ c ∈ tail.head?, isDigit c = false) :
    jsonPairsFrom 0 (objectText fields tail) = fields.map fun f => (f.key, f.value.value) := by
  induction fields with
  | nil =>
    have hnone := jsonPairsFrom_gap hplain []
    rw [List.append_nil] at hnone
    exact hnone
  | cons f fields ih =>
    have hrest : ∀ c ∈ (objectText fields tail).head?, isDigit c = false := by
      cases fields with
      | nil => exact hdigit
      | cons f' fields =>
        intro c hc
        rw [objectText, List.flatMap_cons, List.append_assoc, List.append_assoc,
          List.head?_append_of_ne_nil _ f'.gap_ne] at hc
        exact f'.gap_head c hc
    have htext : objectText (f :: fields) tail = f.gap ++ (f.text ++ objectText fields tail) := by
      simp [objectText]
    obtain ⟨more, hmore⟩ : ∃ more, f.text = '"' :: more := ⟨_, rfl⟩
    have hpair := jsonPair_text f hrest
    rw [hmore] at hpair
    rw [htext, jsonPairsFrom_gap f.gap_plain, hmore, List.cons_append, jsonPairsFrom]
    rw [List.cons_append] at hpair
    simp only [hpair, List.length_append, Nat.add_sub_cancel, List.map_cons]
    rw [jsonPairsFrom_taken, ih]

/-- **The properties of an object are read back** in their order, when the text is
not taken for one of the other formats. -/
theorem parsePolicyText_json (fields : List JsonField) (hne : fields ≠ []) {tail : Str}
    (hplain : '"' ∉ tail)
    (hdigit : ∀ c ∈ tail.head?, isDigit c = false)
    (hini : '=' ∉ objectText fields tail ∨ '[' ∉ objectText fields tail)
    (hcsv : ',' ∉ objectText fields tail ∨ '\n' ∉ objectText fields tail)
    (hrules : ∀ line ∈ getlines '\n' (objectText fields tail),
      ¬ Recognised (trim (removeComment line))) :
    parsePolicyText (objectText fields tail) =
      { dominantDialect := .genericPolicy
        settings := (fields.zipIdx 1).map fun f =>
          ⟨"json".toList, toLower f.1.key, f.1.value.value, f.2⟩ } := by
  have hquote : '"' ∈ objectText fields tail := by
    obtain ⟨f, fields, rfl⟩ := List.exists_cons_of_ne_nil hne
    simp [objectText, JsonField.text]
  have hpairs : ((jsonPairsFrom 0 (objectText fields tail)).zipIdx 1).map
      (fun pair : (Str × Str) × Nat =>
        (⟨"json".toList, toLower pair.1.1, pair.1.2, pair.2⟩ : PolicyKV)) =
      (fields.zipIdx 1).map fun f => ⟨"json".toList, toLower f.1.key, f.1.value.value, f.2⟩ := by
    rw [jsonPairsFrom_objectText fields hplain hdigit, List.zipIdx_map, List.map_map]
    rfl
  have hsome : ((fields.zipIdx 1).map fun f =>
      (⟨"json".toList, toLower f.1.key, f.1.value.value, f.2⟩ : PolicyKV)).isEmpty = false := by
    obtain ⟨f, fields, rfl⟩ := List.exists_cons_of_ne_nil hne
    rfl
  have hparse : parseSettings (objectText fields tail) =
      ((fields.zipIdx 1).map fun f => ⟨"json".toList, toLower f.1.key, f.1.value.value, f.2⟩,
        []) := by
    rw [parseSettings, if_neg (by tauto), if_neg (by tauto), if_pos (Or.inr hquote),
      parseJsonLikePolicy]
    simp only [hpairs, hsome]
    rfl
  rw [parsePolicyText_settings hrules, hparse]
  simp only [hsome]
  rfl

/-- A property with a number, one with a word. -/
def lengthField : JsonField where
  gap := ['{']
  key := "Length".toList
  before := []
  after := [' ']
  value := .number false "14".toList rfl
  gap_plain := by decide
  gap_head := fun c hc => by
    cases hc
    rfl
  gap_ne := by decide
  key_ne := by decide
  key_plain := by decide
  before_blank := blank_nil
  after_blank := blank_space

def lockedField : JsonField where
  gap := ", ".toList
  key := "locked".toList
  before := [' ']
  after := []
  value := .word "true" (by decide)
  gap_plain := by decide
  gap_head := fun c hc => by
    cases hc
    rfl
  gap_ne := by decide
  key_ne := by decide
  key_plain := by decide
  before_blank := blank_space
  after_blank := blank_nil

theorem parsePolicyText_json_length :
    (parsePolicyText "\x7b\"Length\": 14, \"locked\" :true\x7d".toList).settings =
      [⟨"json".toList, "length".toList, "14".toList, 1⟩,
      ⟨"json".toList, "locked".toList, "true".toList, 2⟩] := by
  have htext : "\x7b\"Length\": 14, \"locked\" :true\x7d".toList =
      objectText [lengthField, lockedField] "\x7d".toList := rfl
  have hrules : ∀ line ∈ getlines '\n' (objectText [lengthField, lockedField] "\x7d".toList),
      ¬ Recognised (trim (removeComment line)) := by
    unfold Recognised
    decide
  have hdigit : ∀ c ∈ "\x7d".toList.head?, isDigit c = false := by
    intro c hc
    cases hc
    rfl
  rw [htext, parsePolicyText_json [lengthField, lockedField] (List.cons_ne_nil _ _)
    (by decide) hdigit
    (Or.inl (by decide)) (Or.inr (by decide)) hrules]
  rfl

/-! ## Tables -/

/-- A cell of a table, and one of the ways to write it. -/
structure CsvCell where
  value : Str
  text : Str
  written : CsvWritten value text
  trimmed : Trimmed value
  unquoted : stripQuotes value = value
  oneLine : '\n' ∉ value

namespace CsvCell

theorem trimmed_text (cell : CsvCell) : Trimmed cell.text := by
  obtain ⟨value, text, written, trimmed, -, -⟩ := cell
  cases written with
  | plain hcomma hquote => exact trimmed
  | quoted =>
    have hquoted := trimmed_trim ('"' :: (value.flatMap doubleQuote ++ ['"']))
    rw [Rules.trim_quoted] at hquoted
    exact hquoted

theorem newline_notMem_text (cell : CsvCell) : '\n' ∉ cell.text := by
  obtain ⟨value, text, written, -, -, oneLine⟩ := cell
  cases written with
  | plain hcomma hquote => exact oneLine
  | quoted =>
    intro hmem
    simp only [List.mem_cons, List.mem_append, List.mem_flatMap, List.not_mem_nil, or_false] at hmem
    rcases hmem with hmem | ⟨c, hc, hmem⟩ | hmem
    · cases hmem
    · unfold doubleQuote at hmem
      split at hmem
      · simp at hmem
      · rw [← List.mem_singleton.mp hmem] at hc
        exact oneLine hc
    · cases hmem

end CsvCell

/-- A row of a table, which is not blank. -/
structure CsvLine where
  cells : List CsvCell
  nonempty : cells ≠ []
  filled : [','].intercalate (cells.map CsvCell.text) ≠ []

namespace CsvLine

def text (row : CsvLine) : Str := [','].intercalate (row.cells.map CsvCell.text)

def values (row : CsvLine) : List Str := row.cells.map CsvCell.value

theorem clean_text (row : CsvLine) : trim row.text = row.text := by
  refine trim_eq_self (trimmed_joined rfl fun p hp => ?_)
  obtain ⟨cell, -, rfl⟩ := List.mem_map.mp hp
  exact cell.trimmed_text

theorem newline_notMem_text (row : CsvLine) : '\n' ∉ row.text := by
  intro hmem
  rcases Rules.ListText.mem_joined hmem with hc | ⟨p, hp, hc⟩
  · cases hc
  · obtain ⟨cell, -, rfl⟩ := List.mem_map.mp hp
    exact cell.newline_notMem_text hc

/-- A row is split into the values of its cells. -/
theorem csvSplitLine_text (row : CsvLine) : csvSplitLine row.text = row.values := by
  have hcells : ∀ cells : List CsvCell, cells ≠ [] →
      csvSplitFrom [] false ([','].intercalate (cells.map CsvCell.text)) =
        cells.map CsvCell.value := by
    intro cells
    induction cells with
    | nil => exact fun hne => absurd rfl hne
    | cons cell cells ih =>
      intro _
      cases cells with
      | nil =>
        have hcell := cell.written.csvSplitFrom_eq (show ([] : Str).head? ≠ some '"' from by simp)
        rw [List.append_nil] at hcell
        rw [List.map_singleton, List.intercalate_singleton, hcell, csvSplitFrom,
          trim_eq_self cell.trimmed]
        rfl
      | cons next cells =>
        rw [List.map_cons, List.map_cons, List.intercalate_cons_cons, List.append_assoc,
          cell.written.csvSplitFrom_eq (by simp), List.singleton_append, csvSplitFrom_comma,
          trim_eq_self cell.trimmed, ← List.map_cons, ih (List.cons_ne_nil _ _), List.map_cons]
        rfl
  exact hcells row.cells row.nonempty

/-- A row of two cells holds a comma. -/
theorem comma_mem_text {row : CsvLine} (h : 2 ≤ row.cells.length) : ',' ∈ row.text := by
  obtain ⟨cell, more, hmore⟩ := List.exists_cons_of_ne_nil row.nonempty
  obtain ⟨next, cells, hcells⟩ : ∃ next cells, more = next :: cells := by
    refine List.exists_cons_of_ne_nil ?_
    rintro rfl
    rw [hmore, List.length_singleton] at h
    omega
  rw [text, hmore, hcells, List.map_cons, List.map_cons, List.intercalate_cons_cons]
  simp

end CsvLine

/-- The settings of a row in line `n`, cell by cell. -/
def rowSettings (headers : List Str) (row : CsvLine) (n : Nat) : List PolicyKV :=
  (row.values.zip headers).map fun col => ⟨"row".toList ++ natToString n, col.2, col.1, n⟩

/-- What is said about a row with too few or too many cells. -/
def rowNotes (headers : List Str) (row : CsvLine) (n : Nat) : Diagnostics :=
  if row.cells.length ≠ headers.length then
    Diagnostics.warn "policy.csv".toList "row column count differs from header".toList n
  else []

theorem csvRow_values (headers : List Str) (row : CsvLine) (n : Nat) :
    csvRow headers row.values n = rowSettings headers row n := by
  refine List.map_congr_left fun col hcol => ?_
  obtain ⟨cell, -, hcell⟩ := List.mem_map.mp (List.of_mem_zip hcol).1
  rw [← hcell, cell.unquoted]

/-- **Run lemma**, behind the header. -/
theorem parseCsvLines_written {headers : List Str} (hne : headers ≠ []) (rows : List CsvLine)
    (n : Nat) :
    parseCsvLines headers n (rows.map CsvLine.text) =
      ((rows.zipIdx (n + 1)).flatMap (fun row => rowSettings headers row.1 row.2),
        (rows.zipIdx (n + 1)).flatMap fun row => rowNotes headers row.1 row.2) := by
  induction rows generalizing n with
  | nil => rfl
  | cons row rows ih =>
    have hfilled : row.text.isEmpty = false := List.isEmpty_eq_false_iff.mpr row.filled
    have hheaders : headers.isEmpty = false := List.isEmpty_eq_false_iff.mpr hne
    have hlength : row.values.length = row.cells.length := List.length_map _
    rw [List.map_cons, parseCsvLines]
    simp only [row.clean_text, hfilled, hheaders, row.csvSplitLine_text, csvRow_values, ih, hlength,
      List.zipIdx_cons, List.flatMap_cons]
    rfl

/-- Every row below a header makes a setting. -/
theorem isEmpty_rowSettings {headers : List Str} (hne : headers ≠ []) (rows : List CsvLine) :
    ((rows.zipIdx 2).flatMap fun row => rowSettings headers row.1 row.2).isEmpty =
      decide (rows = []) := by
  cases rows with
  | nil => rfl
  | cons row rows =>
    obtain ⟨cell, cells, hcells⟩ := List.exists_cons_of_ne_nil row.nonempty
    obtain ⟨name, names, hnames⟩ := List.exists_cons_of_ne_nil hne
    rw [List.zipIdx_cons, List.flatMap_cons, rowSettings, CsvLine.values, hcells, hnames]
    rfl

/-- **A table is read back cell by cell**, under the names of its columns in lower
case, when the text is not taken for one of the other formats. -/
theorem parsePolicyText_csv (header : CsvLine) (hwide : 2 ≤ header.cells.length)
    (rows : List CsvLine)
    (hini : '=' ∉ textOf ((header :: rows).map CsvLine.text) ∨
      '[' ∉ textOf ((header :: rows).map CsvLine.text))
    (hrules : ∀ row ∈ header :: rows, ¬ Recognised (trim (removeComment row.text))) :
    parsePolicyText (textOf ((header :: rows).map CsvLine.text)) =
      { dominantDialect := if rows = [] then .unknown else .genericPolicy
        settings := (rows.zipIdx 2).flatMap fun row =>
          rowSettings (header.values.map toLower) row.1 row.2
        diagnostics := (rows.zipIdx 2).flatMap fun row =>
          rowNotes (header.values.map toLower) row.1 row.2 } := by
  have hlines : getlines '\n' (textOf ((header :: rows).map CsvLine.text)) =
      (header :: rows).map CsvLine.text := by
    refine getlines_textOf fun line hline => ?_
    obtain ⟨row, -, rfl⟩ := List.mem_map.mp hline
    exact row.newline_notMem_text
  have hcomma : ',' ∈ textOf ((header :: rows).map CsvLine.text) :=
    List.mem_flatMap.mpr ⟨header.text, List.mem_cons_self,
      List.mem_append_left _ (CsvLine.comma_mem_text hwide)⟩
  have hnewline : '\n' ∈ textOf ((header :: rows).map CsvLine.text) :=
    List.mem_flatMap.mpr ⟨header.text, List.mem_cons_self, by simp⟩
  have hheaders : (header.values.map fun c => toLower (stripQuotes c)) =
      header.values.map toLower := by
    refine List.map_congr_left fun c hc => ?_
    obtain ⟨cell, -, rfl⟩ := List.mem_map.mp hc
    rw [cell.unquoted]
  have hnames : header.values.map toLower ≠ [] := by
    have hcells := header.nonempty
    simpa [CsvLine.values] using hcells
  have hfilled : header.text.isEmpty = false := List.isEmpty_eq_false_iff.mpr header.filled
  have hparse : parseSettings (textOf ((header :: rows).map CsvLine.text)) =
      ((rows.zipIdx 2).flatMap (fun row => rowSettings (header.values.map toLower) row.1 row.2),
        (rows.zipIdx 2).flatMap fun row => rowNotes (header.values.map toLower) row.1 row.2) := by
    rw [parseSettings, if_neg (by tauto), if_pos ⟨hcomma, hnewline⟩, parseCsvPolicy, hlines,
      List.map_cons, parseCsvLines]
    simp only [header.clean_text, hfilled, header.csvSplitLine_text, hheaders,
      List.isEmpty_nil, if_true]
    exact parseCsvLines_written hnames rows 1
  rw [parsePolicyText_settings, hparse]
  · simp only [isEmpty_rowSettings hnames, decide_eq_true_eq]
  · intro line hline
    rw [hlines] at hline
    obtain ⟨row, hrow, rfl⟩ := List.mem_map.mp hline
    exact hrules row hrow

/-- A cell without quotes. -/
def plainCell (value : Str) (hcomma : ',' ∉ value) (hquote : '"' ∉ value) (trimmed : Trimmed value)
    (unquoted : stripQuotes value = value) (oneLine : '\n' ∉ value) : CsvCell :=
  ⟨value, value, .plain hcomma hquote, trimmed, unquoted, oneLine⟩

def lengthHeader : CsvLine where
  cells := [plainCell "Key".toList (by decide) (by decide) (trimmed_of_ends rfl) rfl (by decide),
    plainCell "Value".toList (by decide) (by decide) (trimmed_of_ends rfl) rfl (by decide)]
  nonempty := List.cons_ne_nil _ _
  filled := by decide

/-- The first cell is in quotes, for the comma in it. -/
def lengthRow : CsvLine where
  cells := [⟨"min, max".toList, _, .quoted, trimmed_of_ends rfl, rfl, by decide⟩,
    plainCell "14".toList (by decide) (by decide) (trimmed_of_ends rfl) rfl (by decide)]
  nonempty := List.cons_ne_nil _ _
  filled := List.cons_ne_nil _ _

theorem parsePolicyText_csv_length :
    (parsePolicyText (textOf ["Key,Value".toList, "\"min, max\",14".toList])).settings =
      [⟨"row2".toList, "key".toList, "min, max".toList, 2⟩,
      ⟨"row2".toList, "value".toList, "14".toList, 2⟩] := by
  have hrules : ¬ Recognised (trim (removeComment lengthHeader.text)) ∧
      ¬ Recognised (trim (removeComment lengthRow.text)) := by
    unfold Recognised
    decide
  have hread := parsePolicyText_csv lengthHeader (Nat.le_refl 2) [lengthRow] (Or.inl (by decide))
    (List.forall_mem_cons.mpr
      ⟨hrules.1, List.forall_mem_cons.mpr ⟨hrules.2, fun _ hl => absurd hl List.not_mem_nil⟩⟩)
  exact congrArg PolicyFile.settings hread

end PacketGuard.Policy
