import PacketGuard.Core.TextFile
import PacketGuard.Ioc.Inference
import PacketGuard.Ioc.Loading
import PacketGuard.Ioc.UrlTwice
import PacketGuard.Rules.RoundTrip

/-! # Indicator feeds

A feed is written line by line: the type of an indicator, its value, its role and
its attributes, between commas.  Reading it gives the indicators back, the first
of every key, and the others as duplicates.
-/
namespace PacketGuard.Ioc
open PacketGuard.Core PacketGuard.Lib

/-! ## Fields -/

/-- A field of a line, which no reader of lines, comments or fields cuts. -/
structure FieldText (text : Str) : Prop where
  nonempty : text ≠ []
  trimmed : Trimmed text
  uncommented : Uncommented text
  noComma : ',' ∉ text
  oneLine : '\n' ∉ text

theorem fieldText_of_quiet {text : Str} (hne : text ≠ [])
    (h : ∀ c ∈ text, Quiet c ∧ isSpace c = false ∧ c ≠ ',') : FieldText text where
  nonempty := hne
  trimmed := NoSpace.trimmed fun c hc => (h c hc).2.1
  uncommented := uncommented_of_quiet fun c hc => (h c hc).1
  noComma hc := (h _ hc).2.2 rfl
  oneLine hc := absurd (h _ hc).2.1 (by decide)

theorem fieldText_of_letters {text : Str} (hne : text ≠ []) (h : text.all isAlnum = true) :
    FieldText text := by
  refine fieldText_of_quiet hne fun c hc => ?_
  have hletter := List.all_eq_true.mp h c hc
  refine ⟨Rules.quiet_of_isAlnum hletter, isSpace_of_isAlnum hletter, ?_⟩
  rintro rfl
  cases hletter

/-- What may stand in double quotes. -/
def QuotedChar (c : Char) : Prop := c ≠ '"' ∧ c ≠ '\\' ∧ c ≠ ',' ∧ c ≠ '\n'

def quoted (text : Str) : Str := '"' :: (text ++ ['"'])

theorem mem_quoted {text : Str} {c : Char} (h : c ∈ quoted text) : c = '"' ∨ c ∈ text := by
  simpa [quoted, or_comm] using h

/-- A text in double quotes, behind a name. -/
theorem fieldText_quoted {name text : Str}
    (hname : ∀ c ∈ name, Quiet c ∧ isSpace c = false ∧ c ≠ ',')
    (h : ∀ c ∈ text, QuotedChar c) : FieldText (name ++ quoted text) where
  nonempty := by simp [quoted]
  trimmed := by
    constructor
    · intro c hc
      cases name with
      | nil =>
        cases hc
        rfl
      | cons d name =>
        cases hc
        exact (hname _ List.mem_cons_self).2.1
    · intro c hc
      rw [quoted, ← List.cons_append, ← List.append_assoc, List.getLast?_concat] at hc
      cases hc
      rfl
  uncommented := (uncommented_of_quiet fun c hc => (hname c hc).1).append
    (uncommented_quoted fun c hc => ⟨(h c hc).1, (h c hc).2.1⟩)
  noComma hc := by
    rcases List.mem_append.mp hc with hc | hc
    · exact (hname _ hc).2.2 rfl
    · rcases mem_quoted hc with hc | hc
      · cases hc
      · exact (h _ hc).2.2.1 rfl
  oneLine hc := by
    rcases List.mem_append.mp hc with hc | hc
    · exact absurd (hname _ hc).2.1 (by decide)
    · rcases mem_quoted hc with hc | hc
      · cases hc
      · exact (h _ hc).2.2.2 rfl

/-! ## Values -/

/-- The value of an indicator as it is written. A URL is written in quotes, where
its slashes start no comment. -/
inductive FeedValue
  | ip (address : IPv4Address)
  | cidr (range : CIDRRange) (short : range.prefixLength ≤ 32)
  | domain (name : Str) (valid : isValidDomain name = true) (whole : NoSpace name)
  | url (address : Str) (plain : ∀ c ∈ address, QuotedChar c)
  | hash (digest : Str) (plain : ∀ c ∈ digest, isAlnum c = true ∨ c = ':' ∨ c = '-')
      (known : (normalizeHash digest).length ∈ hashLengths)

/-- What a value is made of outside of quotes. -/
def ValueChar (c : Char) : Prop := isAlnum c = true ∨ c ∈ ['.', '-', '*', ':', '/']

theorem ValueChar.ne {c d : Char} (h : ValueChar c)
    (hd : (isAlnum d || ['.', '-', '*', ':', '/'].contains d) = false) :
    c ≠ d := by
  rw [Bool.or_eq_false_iff] at hd
  rintro rfl
  rcases h with h | h
  · exact Bool.false_ne_true (hd.1.symm.trans h)
  · exact Bool.false_ne_true (hd.2.symm.trans (List.contains_iff_mem.mpr h))

theorem ValueChar.noSpace {c : Char} (h : ValueChar c) : isSpace c = false := by
  rcases h with h | h
  · exact isSpace_of_isAlnum h
  · simp only [List.mem_cons, List.not_mem_nil, or_false] at h
    rcases h with rfl | rfl | rfl | rfl | rfl <;> rfl

theorem valueChar_of_isDigit {c : Char} (h : isDigit c = true) : ValueChar c :=
  Or.inl (by simp [Char.isAlphanum, h])

theorem ValueChar.quiet {c : Char} (h : ValueChar c) (hslash : c ≠ '/') : Quiet c :=
  ⟨h.ne rfl, h.ne rfl, h.ne rfl, hslash, h.ne rfl⟩

/-- A range is printed with its network masked. -/
theorem toString_masked (r : CIDRRange) : r.masked.toString = r.toString := by
  rw [CIDRRange.toString, CIDRRange.toString, CIDRRange.masked, BitVec.and_assoc, BitVec.and_self]

namespace FeedValue

def type : FeedValue → IocType
  | ip _ => .ip
  | cidr _ _ => .cidr
  | domain _ _ _ => .domain
  | url _ _ => .url
  | hash _ _ _ => .hash

def content : FeedValue → Str
  | ip address => ipv4ToString address
  | cidr range _ => range.toString
  | domain name _ _ => name
  | url address _ => address
  | hash digest _ _ => digest

def text (v : FeedValue) : Str := if v.type = .url then quoted v.content else v.content

/-- The normal form under which it is filed. -/
def normalized : FeedValue → Str
  | ip address => ipv4ToString address
  | cidr range _ => range.toString
  | domain name _ _ => normalizeDomain name
  | url address _ => normalizeUrl address
  | hash digest _ _ => normalizeHash digest

def address? : FeedValue → Option IPv4Address
  | ip address => some address
  | _ => none

def range? : FeedValue → Option CIDRRange
  | cidr range _ => some range.masked
  | _ => none

theorem type_ne_unknown (v : FeedValue) : v.type ≠ .unknown := by
  cases v <;> simp [type]

theorem valueChar_content {v : FeedValue} (h : v.type ≠ .url) : ∀ c ∈ v.content, ValueChar c := by
  intro c hc
  cases v with
  | ip address =>
    rcases mem_ipv4ToString hc with hdigit | rfl
    · exact valueChar_of_isDigit hdigit
    · simp [ValueChar]
  | cidr range short =>
    rcases mem_cidrToString hc with hdigit | rfl | rfl
    · exact valueChar_of_isDigit hdigit
    · simp [ValueChar]
    · simp [ValueChar]
  | domain name valid whole =>
    rcases hostChar_of_isValidDomain valid hc with hspace | halnum | hmark
    · rw [whole c hc] at hspace
      cases hspace
    · exact Or.inl halnum
    · simp only [List.mem_cons, List.not_mem_nil, or_false] at hmark
      rcases hmark with rfl | rfl | rfl <;> simp [ValueChar]
  | url address plain => exact absurd rfl h
  | hash digest plain known =>
    rcases plain c hc with halnum | rfl | rfl
    · exact Or.inl halnum
    · simp [ValueChar]
    · simp [ValueChar]

/-- Only a range has a slash outside of quotes. -/
theorem uncommented_content {v : FeedValue} (h : v.type ≠ .url) : Uncommented v.content := by
  have hquiet : '/' ∉ v.content → Uncommented v.content := fun hslash =>
    uncommented_of_quiet fun c hc =>
      (valueChar_content h c hc).quiet (ne_of_mem_of_not_mem hc hslash)
  cases v with
  | ip address => exact hquiet (not_mem_ipv4ToString rfl (by decide) address)
  | cidr range short => exact Rules.uncommented_cidrToString range
  | domain name valid whole =>
    exact hquiet (not_mem_host fun c hc => hostChar_of_isValidDomain valid hc).2.1
  | url address plain => exact absurd rfl h
  | hash digest plain known =>
    refine hquiet fun hslash => ?_
    rcases plain _ hslash with hc | hc | hc <;> cases hc

theorem content_ne_nil {v : FeedValue} (h : v.type ≠ .url) : v.content ≠ [] := by
  cases v with
  | ip address => exact ipv4ToString_ne_nil address
  | cidr range short => simp [content, CIDRRange.toString]
  | domain name valid whole => exact ne_nil_of_isValidDomain valid
  | url address plain => exact absurd rfl h
  | hash digest plain known =>
    rintro rfl
    exact absurd (le_of_mem_hashLengths _ known) (by decide)

theorem fieldText_text (v : FeedValue) : FieldText v.text := by
  unfold text
  split
  · cases v with
    | url address plain => exact fieldText_quoted (fun c hc => absurd hc List.not_mem_nil) plain
    | ip | cidr | domain | hash => contradiction
  · rename_i h
    have hchars := valueChar_content h
    exact
      { nonempty := content_ne_nil h
        trimmed := NoSpace.trimmed fun c hc => (hchars c hc).noSpace
        uncommented := uncommented_content h
        noComma := fun hc => (hchars _ hc).ne rfl rfl
        oneLine := fun hc => (hchars _ hc).ne rfl rfl }

/-- Quotes are taken off. -/
theorem stripQuotes_text (v : FeedValue) : stripQuotes (trim v.text) = v.content := by
  unfold text
  split
  · rw [quoted, Rules.trim_quoted, Rules.stripQuotes_quoted]
  · rename_i h
    have hchars := valueChar_content h
    have htrim : trim v.content = v.content :=
      trim_eq_self (NoSpace.trimmed fun c hc => (hchars c hc).noSpace)
    have hhead : v.content.head? ≠ some '"' ∧ v.content.head? ≠ some '\'' :=
      ⟨fun hc => (hchars _ (List.mem_of_head? hc)).ne rfl rfl, fun hc =>
        (hchars _ (List.mem_of_head? hc)).ne rfl rfl⟩
    simp [stripQuotes, htrim, hhead.1, hhead.2]

/-- The value is checked and filed in its normal form. -/
theorem completeIndicator_content (v : FeedValue) {ind : Indicator} (htype : ind.type = v.type)
    (hip : ind.ip = none) (hcidr : ind.cidr = none) :
    completeIndicator ind v.content =
      .ok { ind with normalized := v.normalized, ip := v.address?, cidr := v.range? } := by
  obtain ⟨type, role, raw, normalized, source, severity, ip, cidr, attributes⟩ := ind
  subst hip hcidr
  cases v with
  | ip address =>
    cases htype
    simp only [completeIndicator, content, parseIpv4_ipv4ToString]
    rfl
  | cidr range short =>
    cases htype
    simp only [completeIndicator, content, parseCidr_toString range short, toString_masked]
    rfl
  | domain name valid whole =>
    cases htype
    simp only [completeIndicator, content, valid]
    rfl
  | url address plain =>
    cases htype
    rfl
  | hash digest plain known =>
    cases htype
    simp only [completeIndicator, content, (hashLengthIsKnown_normalizeHash digest).mpr known]
    rfl

end FeedValue

/-! ## Attributes -/

/-- A key with a value in double quotes. -/
structure FeedAttribute where
  key : Str
  value : Str
  key_lower : toLower key = key
  key_plain : ∀ c ∈ key, Quiet c ∧ isSpace c = false ∧ c ≠ ',' ∧ c ≠ '='
  value_plain : ∀ c ∈ value, QuotedChar c

namespace FeedAttribute

def text (a : FeedAttribute) : Str := a.key ++ '=' :: quoted a.value

theorem fieldText_text (a : FeedAttribute) : FieldText a.text := by
  have hname : ∀ c ∈ a.key ++ ['='], Quiet c ∧ isSpace c = false ∧ c ≠ ',' := by
    intro c hc
    rcases List.mem_append.mp hc with hc | hc
    · exact ⟨(a.key_plain c hc).1, (a.key_plain c hc).2.1, (a.key_plain c hc).2.2.1⟩
    · rw [List.mem_singleton.mp hc]
      simp [Quiet, isSpace]
  have hfield := fieldText_quoted hname a.value_plain
  rwa [List.append_assoc] at hfield

/-- The attributes as `parse_attributes` files them: a later value of a key takes
the place of an earlier one. -/
def table (attributes : List FeedAttribute) : StrMap Str :=
  attributes.foldl (fun attrs a => attrs.insert a.key a.value) ∅

/-- Fields without an equals sign add nothing. -/
theorem parseAttributes_table {first : Str} (hfirst : '=' ∉ first)
    (attributes : List FeedAttribute) :
    parseAttributes (first :: attributes.map text) = table attributes := by
  have hskip : find '=' (trim first) = none := find_eq_none fun hc => hfirst (mem_of_mem_trim hc)
  have hcut : ∀ a : FeedAttribute, find '=' (trim a.text) = some a.key.length := by
    intro a
    rw [trim_eq_self a.fieldText_text.trimmed, text, find_append_cons fun hc =>
      (a.key_plain _ hc).2.2.2 rfl]
  have hkey : ∀ a : FeedAttribute, toLower (trim ((trim a.text).take a.key.length)) = a.key := by
    intro a
    rw [trim_eq_self a.fieldText_text.trimmed, text, List.take_left,
      trim_eq_self (NoSpace.trimmed fun c hc => (a.key_plain c hc).2.1), a.key_lower]
  have hvalue : ∀ a : FeedAttribute, stripQuotes (trim (substr (a.key.length + 1) (trim a.text))) =
      a.value := by
    intro a
    have hdrop : substr (a.key.length + 1) (a.key ++ '=' :: quoted a.value) = quoted a.value := by
      simp [substr, ← List.drop_drop]
    rw [trim_eq_self a.fieldText_text.trimmed, text, hdrop, quoted, Rules.trim_quoted,
      Rules.stripQuotes_quoted]
  unfold parseAttributes table
  rw [List.foldl_cons, List.foldl_map]
  simp only [hskip, hcut, hkey, hvalue]

end FeedAttribute

/-! ## Lines -/

/-- An indicator as it is written. -/
structure FeedEntry where
  value : FeedValue
  role : ListRole
  attributes : List FeedAttribute

namespace FeedEntry

def fields (e : FeedEntry) : List Str :=
  typeName e.value.type :: e.value.text :: roleName e.role :: e.attributes.map FeedAttribute.text

def text (e : FeedEntry) : Str := [','].intercalate e.fields

/-- The indicator as it is read. -/
def parsed (e : FeedEntry) (source : Str) : Indicator where
  type := e.value.type
  role := e.role
  raw := e.text
  normalized := e.value.normalized
  source := source
  severity := ((FeedAttribute.table e.attributes)["severity".toList]?.map toLower).getD
    "medium".toList
  ip := e.value.address?
  cidr := e.value.range?
  attributes := FeedAttribute.table e.attributes

theorem fieldText_fields (e : FeedEntry) : ∀ f ∈ e.fields, FieldText f := by
  intro f hf
  simp only [fields, List.mem_cons, List.mem_map] at hf
  rcases hf with rfl | rfl | rfl | ⟨a, -, rfl⟩
  · cases e.value.type <;> exact fieldText_of_letters (by decide) rfl
  · exact e.value.fieldText_text
  · cases e.role <;> exact fieldText_of_letters (by decide) rfl
  · exact a.fieldText_text

theorem clean_text (e : FeedEntry) : trim (removeComment e.text) = e.text := by
  have huncommented : Uncommented e.text := Rules.Uncommented.joined fun f hf =>
    (e.fieldText_fields f hf).uncommented
  rw [huncommented.removeComment_eq]
  exact trim_eq_self (trimmed_joined rfl fun f hf => (e.fieldText_fields f hf).trimmed)

theorem newline_notMem_text (e : FeedEntry) : '\n' ∉ e.text := by
  intro hmem
  rcases Rules.ListText.mem_joined hmem with hc | ⟨f, hf, hc⟩
  · cases hc
  · exact (e.fieldText_fields f hf).oneLine hc

theorem comma_mem_text (e : FeedEntry) : ',' ∈ e.text := by
  rw [text, fields, List.intercalate_cons_cons]
  simp

theorem indicatorFields_text (e : FeedEntry) : indicatorFields e.text = e.fields := by
  rw [indicatorFields, if_pos e.comma_mem_text]
  exact split_intercalate (List.cons_ne_nil _ _) (fun f hf => (e.fieldText_fields f hf).noComma)
    fun f hf => (e.fieldText_fields f hf).nonempty

/-- The first field is the name of a type and no indicator of its own. -/
theorem type_named {type : IocType} (h : type ≠ .unknown) :
    inferIocType (typeName type) = none ∧ typeOfToken (toLower (trim (typeName type))) =
      some type := by
  cases type with
  | unknown => exact absurd rfl h
  | ip | cidr | domain | url | hash => exact ⟨rfl, rfl⟩

/-- **A line is read back.** -/
theorem parseIndicatorLine_text (e : FeedEntry) (lineNumber : Nat) :
    parseIndicatorLine e.text lineNumber = .ok (e.parsed []) := by
  obtain ⟨hinfer, htoken⟩ := type_named e.value.type_ne_unknown
  have hne : e.text.isEmpty = false :=
    List.isEmpty_eq_false_iff.mpr (List.ne_nil_of_mem e.comma_mem_text)
  have hrole : '=' ∉ roleName e.role := by cases e.role <;> decide
  have hparse : parseRole (roleName e.role) = some e.role := by cases e.role <;> rfl
  unfold parseIndicatorLine
  simp only [e.clean_text, hne, e.indicatorFields_text, fields, hinfer, htoken,
    Option.isNone_none, ne_eq,
    reduceCtorEq, not_false_eq_true, and_self, if_true, Bool.false_eq_true, if_false]
  simp only [e.value.stripQuotes_text, FeedAttribute.parseAttributes_table hrole, List.head?_cons,
    Option.bind_some, hparse, Option.getD_some]
  exact e.value.completeIndicator_content rfl rfl rfl

end FeedEntry

example : (FeedEntry.mk (.ip ⟨0x01020304⟩) .block []).text = "ip,1.2.3.4,block".toList := by decide

/-! ## Notes on duplicates -/

/-- What is said about a duplicate. -/
def duplicateNote (entry : Nat × Indicator) : Diagnostic :=
  ⟨.info, "ioc.duplicate".toList, "duplicate indicator ".toList ++ entry.2.normalized, entry.1⟩

/-- The diagnostics that are not about lines that cannot be read. -/
def notes (set : IndicatorSet) : List Diagnostic := set.diagnostics.filter fun d =>
  !isParseDiagnostic d

/-- **Step lemma**, for a line that is read. -/
theorem notes_keep {source : Str} {lines : List Str} {s : IndicatorScan}
    (h : Scanned source lines s)
    (hnotes : notes s.set = (repeats entryKey [] (entries source lines)).map duplicateNote)
    (ind : Indicator) :
    notes (s.keep ind (s.lineNo + 1)).set =
      (repeats entryKey [] (entries source lines ++ [(lines.length + 1, ind)])).map
      duplicateNote := by
  have hkeys : HasKeys entryKey s.seen (entries source lines) := h.seen
  unfold IndicatorScan.keep
  by_cases hseen : indicatorKey ind ∈ s.seen
  · have hkey : entryKey (lines.length + 1, ind) ∈ s.seen := hseen
    rw [if_pos hseen, hkeys.repeats_concat_seen hkey, List.map_append, ← hnotes, h.lineNo, notes,
      List.filter_append]
    rfl
  · have hkey : entryKey (lines.length + 1, ind) ∉ s.seen := hseen
    rw [if_neg hseen, hkeys.repeats_concat_new hkey]
    exact hnotes

/-- **Run lemma.** -/
theorem notes_run (source : Str) (lines : List Str) :
    notes ((indicatorScanMachine source).run lines).set =
      (repeats entryKey [] (entries source lines)).map duplicateNote := by
  induction lines using List.reverseRecOn with
  | nil => rfl
  | append_singleton lines line ih =>
    have h := scanned_run source lines
    rw [Machine.run_concat, entries_concat]
    generalize (indicatorScanMachine source).run lines = s at h ih
    show notes (s.step source line).set = _
    unfold IndicatorScan.step
    by_cases hempty : (trim (removeComment line)).isEmpty
    · have hskipped : isFilled line = false := by
        rw [isFilled, hempty]
        rfl
      rw [if_pos hempty, indicatorOfLine_of_blank source hskipped]
      simpa using ih
    · rw [if_neg hempty]
      cases hline : parseIndicatorLine line (s.lineNo + 1) with
      | error status =>
        rw [indicatorOfLine_of_error source hline]
        simp only [notes, List.filter_append, Option.map_none, Option.toList_none, List.append_nil]
        rw [← ih, notes]
        exact List.append_nil _
      | ok ind =>
        rw [indicatorOfLine_of_ok source hline]
        exact notes_keep h ih _

/-! ## Feeds -/

/-- A line of a feed: an indicator, or a line with nothing but a comment. -/
inductive FeedLine
  | entry (e : FeedEntry)
  | note (line : Str) (oneLine : '\n' ∉ line) (blank : isFilled line = false)

namespace FeedLine

def text : FeedLine → Str
  | entry e => e.text
  | note line _ _ => line

def parsed (source : Str) : FeedLine → Option Indicator
  | entry e => some (e.parsed source)
  | note _ _ _ => none

theorem newline_notMem_text (l : FeedLine) : '\n' ∉ l.text := by
  cases l with
  | entry e => exact e.newline_notMem_text
  | note line oneLine blank => exact oneLine

theorem indicatorOfLine_text (source : Str) (l : FeedLine) :
    indicatorOfLine source l.text = l.parsed source := by
  cases l with
  | entry e => exact indicatorOfLine_of_ok source (e.parseIndicatorLine_text 0)
  | note line oneLine blank => exact indicatorOfLine_of_blank source blank

theorem lineFailure_text (l : FeedLine) (n : Nat) : lineFailure (l.text, n) = none := by
  cases l with
  | entry e => exact lineFailure_of_ok (e.parseIndicatorLine_text n)
  | note line oneLine blank => exact lineFailure_of_blank blank n

end FeedLine

/-- The indicators of a feed, with the numbers of their lines. -/
def feedEntries (source : Str) (lines : List FeedLine) : List (Nat × Indicator) :=
  (lines.zipIdx 1).filterMap fun l => (l.1.parsed source).map fun ind => (l.2, ind)

theorem entries_feed (source : Str) (lines : List FeedLine) :
    entries source (lines.map FeedLine.text) = feedEntries source lines := by
  rw [entries, numbered, List.zipIdx_map, List.filterMap_map, feedEntries]
  refine List.filterMap_congr fun l _ => ?_
  show (indicatorOfLine source l.1.text).map (fun ind => (l.2, ind)) = _
  rw [FeedLine.indicatorOfLine_text]

theorem getlines_feed (lines : List FeedLine) :
    getlines '\n' (textOf (lines.map FeedLine.text)) = lines.map FeedLine.text := by
  refine getlines_textOf fun line hline => ?_
  obtain ⟨l, -, rfl⟩ := List.mem_map.mp hline
  exact l.newline_notMem_text

theorem failures_feed (lines : List FeedLine) : failures (lines.map FeedLine.text) = [] := by
  rw [failures, numbered, List.zipIdx_map, List.filterMap_map, List.filterMap_eq_nil_iff]
  exact fun l _ => l.1.lineFailure_text l.2

/-- What is kept of a feed: the first indicator of every key, and the others as duplicates. -/
theorem kept_feed (lines : List FeedLine) (source : Str) :
    (parseIndicatorText (textOf (lines.map FeedLine.text)) source).indicators =
        (firsts entryKey [] (feedEntries source lines)).map Prod.snd ∧
      (parseIndicatorText (textOf (lines.map FeedLine.text)) source).duplicates =
        (repeats entryKey [] (feedEntries source lines)).map Prod.snd := by
  have hscanned := scanned_run source (lines.map FeedLine.text)
  rw [parseIndicatorText, getlines_feed, ← entries_feed]
  exact ⟨hscanned.indicators, hscanned.duplicates⟩

/-- What is said about a feed: no line fails, so there are the notes on the duplicates alone. -/
theorem diagnostics_feed (lines : List FeedLine) (source : Str) :
    (parseIndicatorText (textOf (lines.map FeedLine.text)) source).diagnostics =
      (repeats entryKey [] (feedEntries source lines)).map duplicateNote := by
  have hfailures := (scanned_run source (lines.map FeedLine.text)).diagnostics
  rw [failures_feed, List.filter_eq_nil_iff] at hfailures
  rw [parseIndicatorText, getlines_feed, ← entries_feed, ← notes_run, notes]
  exact (List.filter_eq_self.mpr fun d hd => by simpa using hfailures d hd).symm

/-- **A feed is read back**: the first indicator of every key in the order of the
lines, the others as duplicates with a note each, and nothing else is said. -/
theorem parseIndicatorText_feed (lines : List FeedLine) (source : Str) :
    parseIndicatorText (textOf (lines.map FeedLine.text)) source =
      { indicators := (firsts entryKey [] (feedEntries source lines)).map Prod.snd
        duplicates := (repeats entryKey [] (feedEntries source lines)).map Prod.snd
        diagnostics := (repeats entryKey [] (feedEntries source lines)).map duplicateNote } := by
  obtain ⟨hindicators, hduplicates⟩ := kept_feed lines source
  rw [← hindicators, ← hduplicates, ← diagnostics_feed lines source]

end PacketGuard.Ioc
