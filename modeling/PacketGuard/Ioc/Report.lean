import PacketGuard.Core.Report
import PacketGuard.Ioc.Feed
import PacketGuard.Ioc.Texts
import PacketGuard.Ioc.UrlForm
import PacketGuard.Rules.Saved

/-! # The report of an indicator set

`summarize_indicators` counts the indicators of a set by type and role.  The note
about a duplicate shows a normal form that comes from a file; it stays on its line,
however many files were read and merged.
-/
namespace PacketGuard.Ioc
open PacketGuard.Core PacketGuard.Lib

def summarizeIndicators (set : IndicatorSet) : Str :=
  let byType := countAll (set.indicators.map fun ind => typeName ind.type)
  let byRole := countAll (set.indicators.map fun ind => roleName ind.role)
  textOf ["indicators=".toList ++ natToString set.indicators.length ++ " duplicates=".toList ++
      natToString set.duplicates.length] ++
    textOf (byType.toList.map (countLine "type.")) ++
      textOf (byRole.toList.map (countLine "role.")) ++
    if set.diagnostics.isEmpty then [] else set.diagnostics.summary

/-! ## Normal forms -/

section
variable {value : Str}

theorem oneLine_trim (h : OneLine value) :
    OneLine (trim value) := fun hmem => h (mem_of_mem_trim hmem)

theorem oneLine_drop (h : OneLine value) (n : Nat) : OneLine (value.drop n) :=
  fun hmem => h (List.mem_of_mem_drop hmem)

theorem oneLine_take (h : OneLine value) (n : Nat) : OneLine (value.take n) :=
  fun hmem => h (List.mem_of_mem_take hmem)

theorem oneLine_toLower (h : OneLine value) : OneLine (toLower value) :=
  not_mem_toLower (by decide) h

theorem oneLine_ite {p : Prop} [Decidable p] {a b : Str} (ha : OneLine a) (hb : OneLine b) :
    OneLine (if p then a else b) := by
  split
  · exact ha
  · exact hb

theorem oneLine_normalizeDomain (h : OneLine value) : OneLine (normalizeDomain value) := by
  have hdot : OneLine (stripTrailingDot (trim value)) := fun hmem =>
    oneLine_trim h ((List.rdropWhile_prefix _ _).subset hmem)
  have hwild : ∀ {v : Str}, OneLine v → OneLine (stripWildcard v) := by
    intro v hv
    have hstar : OneLine (if startsWith v "*.".toList then substr 2 v else v) :=
      oneLine_ite (oneLine_drop hv 2) hv
    exact oneLine_ite (oneLine_drop hstar 1) hstar
  exact hwild (oneLine_toLower hdot)

theorem oneLine_replaceSlashes (h : OneLine value) (after : Bool) :
    OneLine (replaceSlashes after value) := by
  induction value generalizing after with
  | nil => exact h
  | cons c rest ih =>
    have hrest : OneLine rest := fun hmem => h (List.mem_cons_of_mem _ hmem)
    have hc : '\n' ≠ c := fun heq => h (heq ▸ List.mem_cons_self)
    rw [replaceSlashes]
    split
    · exact oneLine_ite (ih hrest true) ((ih hrest true).cons (by decide))
    · exact (ih hrest false).cons hc

theorem oneLine_collapseSlashes (h : OneLine value) : OneLine (collapseSlashes value) := by
  fun_induction collapseSlashes value with
  | case1 path hdouble ih => exact ih (oneLine_replaceSlashes h false)
  | case2 path hsingle => exact h

theorem oneLine_cutScheme (h : OneLine value) :
    OneLine (cutScheme value).1 ∧ OneLine (cutScheme value).2 := by
  unfold cutScheme
  split
  · exact ⟨oneLine_toLower (oneLine_take h _), oneLine_drop h _⟩
  · exact ⟨show OneLine "http".toList by decide, h⟩

theorem oneLine_cutPath (h : OneLine value) :
    OneLine (cutPath value).1 ∧ OneLine (cutPath value).2 := by
  unfold cutPath
  split
  · exact ⟨oneLine_take h _, oneLine_drop h _⟩
  · exact ⟨h, show OneLine "/".toList by decide⟩

theorem oneLine_cutUser (h : OneLine value) : OneLine (cutUser value) := by
  unfold cutUser
  split
  · exact oneLine_drop h _
  · exact h

theorem oneLine_cutPort (h : OneLine value) :
    OneLine (cutPort value).1 ∧ OneLine (cutPort value).2 := by
  unfold cutPort
  split
  · split
    · exact ⟨oneLine_take h _, oneLine_drop h _⟩
    · exact ⟨h, .nil⟩
  · exact ⟨h, .nil⟩

theorem oneLine_joinUrl {scheme host port path : Str} (hscheme : OneLine scheme)
    (hhost : OneLine host)
    (hport : OneLine port) (hpath : OneLine path) : OneLine (joinUrl scheme host port path) := by
  have hkept : OneLine (portOrEmpty scheme port) := oneLine_ite .nil hport
  have hauthority : OneLine (scheme ++ "://".toList ++ normalizeDomain host) :=
    (hscheme.append (by decide)).append (oneLine_normalizeDomain hhost)
  exact (hauthority.append (oneLine_ite .nil (hkept.cons (by decide)))).append
    (oneLine_collapseSlashes hpath)

theorem oneLine_normalizeUrl (h : OneLine value) : OneLine (normalizeUrl value) := by
  obtain ⟨hscheme, hrest⟩ := oneLine_cutScheme (oneLine_trim h)
  obtain ⟨hauthority, hpath⟩ := oneLine_cutPath hrest
  obtain ⟨hhost, hport⟩ := oneLine_cutPort (oneLine_cutUser hauthority)
  rw [normalizeUrl_eq]
  exact oneLine_joinUrl hscheme hhost hport hpath

/-- Only digits are kept of a hash. -/
theorem oneLine_normalizeHash (value : Str) : OneLine (normalizeHash value) :=
  oneLine_toLower fun hmem => absurd (List.mem_filter.mp hmem).2 (by decide)

theorem oneLine_ipv4ToString (ip : IPv4Address) : OneLine (ipv4ToString ip) := by
  intro hmem
  rcases mem_ipv4ToString hmem with hdigit | hdot
  · exact absurd hdigit (by decide)
  · exact absurd hdot (by decide)

end

/-! ## Lines -/

/-- Neither the normal form of what a reader accepts nor its error breaks a line. -/
abbrev QuietIndicator (r : Result Indicator) : Prop :=
  Outcome (fun ind => OneLine ind.normalized) (fun e => OneLine e.message) r

theorem quiet_completeIndicator (ind : Indicator) {value : Str} (h : OneLine value) :
    QuietIndicator (completeIndicator ind value) := by
  have hfailure : ∀ {msg : String}, OneLine msg.toList → QuietIndicator (failure msg) :=
    fun hmsg => hmsg
  unfold completeIndicator
  cases ind.type with
  | ip =>
    dsimp only
    split
    · exact hfailure (by decide)
    · exact oneLine_ipv4ToString _
  | cidr =>
    dsimp only
    split
    · exact hfailure (by decide)
    · exact ((oneLine_ipv4ToString _).append (by decide)).append (.natToString _)
  | domain => exact .ite (fun _ => hfailure (by decide)) fun _ => oneLine_normalizeDomain h
  | url => exact oneLine_normalizeUrl h
  | hash => exact .ite (fun _ => hfailure (by decide)) fun _ => oneLine_normalizeHash value
  | unknown => exact hfailure (by decide)

theorem oneLine_of_mem_indicatorFields {clean field : Str} (h : OneLine clean)
    (hfield : field ∈ indicatorFields clean) :
    OneLine field := by
  have hsplit : ∀ {delim : Char}, field ∈ split clean delim → OneLine field :=
    fun hmem hc => h (of_mem_splitOn (mem_split_false.mp hmem).1 hc).1
  unfold indicatorFields at hfield
  split at hfield
  · exact hsplit hfield
  · split at hfield
    · exact hsplit hfield
    · exact .of_noSpace (noSpace_of_mem_splitWs hfield)

theorem quiet_parseIndicatorLine {line : Str} (h : OneLine line) (n : Nat) :
    QuietIndicator (parseIndicatorLine line n) := by
  have hclean : OneLine (trim (removeComment line)) := fun hmem => h (Rules.mem_clean hmem)
  have hvalue : ∀ {field : Str}, field ∈ indicatorFields (trim (removeComment line)) →
      OneLine (stripQuotes (trim field)) := fun hfield hmem =>
    oneLine_of_mem_indicatorFields hclean hfield
      (mem_of_mem_trim (Rules.mem_of_mem_stripQuotes hmem))
  have hfailure : ∀ {msg : String}, OneLine msg.toList → QuietIndicator (failure msg) :=
    fun hmsg => hmsg
  unfold parseIndicatorLine
  simp only
  refine .ite (fun _ => hfailure (by decide)) fun _ => ?_
  split
  · exact hfailure (by decide)
  rename_i first rest hfields
  rw [hfields] at hvalue
  split
  · exact OneLine.append (by decide) (.natToString _)
  · refine quiet_completeIndicator _ ?_
    -- the value is the first field or the second one
    split
    · exact hvalue (by simp)
    · exact hvalue List.mem_cons_self

/-! ## Sets -/

theorem quiet_keep {s : IndicatorScan} (h : QuietNotes s.set.diagnostics) {ind : Indicator}
    (hind : OneLine ind.normalized)
    (lineNo : Nat) : QuietNotes (s.keep ind lineNo).set.diagnostics := by
  unfold IndicatorScan.keep
  split
  · exact h.append (quietNotes_said (by decide) (OneLine.append (by decide) hind))
  · exact h

/-- **Step lemma** of the loop over the lines of a text. -/
theorem quiet_indicatorStep {s : IndicatorScan} (h : QuietNotes s.set.diagnostics) (source : Str)
    {line : Str}
    (hline : OneLine line) : QuietNotes (s.step source line).set.diagnostics := by
  have hquiet := quiet_parseIndicatorLine hline (s.lineNo + 1)
  unfold IndicatorScan.step
  dsimp only
  split
  · exact h
  split
  · rename_i status herror
    exact h.append (quietNotes_said (by decide) (hquiet.of_eq_error herror))
  · rename_i parsed hparsed
    have hnormal : OneLine parsed.normalized := hquiet.of_eq_ok hparsed
    exact quiet_keep h (show OneLine { parsed with source }.normalized from hnormal) _

theorem quiet_parseIndicatorText (text source : Str) :
    QuietNotes (parseIndicatorText text source).diagnostics := by
  exact @Machine.run_invariant _ _ (indicatorScanMachine source)
    (fun s => QuietNotes s.set.diagnostics) OneLine
    quietNotes_nil (fun _ _ hline h => quiet_indicatorStep h source hline) _ fun _ =>
      oneLine_of_mem_getlines

/-- Merging copies the diagnostics and adds none. -/
theorem quiet_mergeIndicatorSets {sets : List IndicatorSet}
    (h : ∀ set ∈ sets, QuietNotes set.diagnostics) :
    QuietNotes (mergeIndicatorSets sets).diagnostics := by
  have hkeep : ∀ (inds : List Indicator) (s : MergeScan),
      (inds.foldl MergeScan.keep s).merged.diagnostics = s.merged.diagnostics := by
    intro inds
    induction inds with
    | nil => exact fun _ => rfl
    | cons ind inds ih =>
      intro s
      rw [List.foldl_cons, ih]
      unfold MergeScan.keep
      split <;> rfl
  have hsets : ∀ s : MergeScan, QuietNotes s.merged.diagnostics →
      QuietNotes (sets.foldl MergeScan.addSet s).merged.diagnostics := by
    induction sets with
    | nil => exact fun _ hs => hs
    | cons set sets ih =>
      intro s hs
      refine ih (fun other hother => h other (List.mem_cons_of_mem _ hother)) _ ?_
      rw [MergeScan.addSet, hkeep]
      exact hs.append (h set List.mem_cons_self)
  exact hsets {} quietNotes_nil

/-- The sets that are read from texts and merged, in any order and any number of times. -/
inductive FromTexts : IndicatorSet → Prop
  | text (text source : Str) : FromTexts (parseIndicatorText text source)
  | merge {sets : List IndicatorSet} : (∀ set ∈ sets, FromTexts set) →
    FromTexts (mergeIndicatorSets sets)

theorem FromTexts.quiet {set : IndicatorSet} (h : FromTexts set) : QuietNotes set.diagnostics := by
  induction h with
  | text text source => exact quiet_parseIndicatorText text source
  | merge _ ih => exact quiet_mergeIndicatorSets ih

theorem oneLine_typeName (type : IocType) : OneLine (typeName type) := by
  cases type <;> decide

theorem oneLine_roleName (role : ListRole) : OneLine (roleName role) := by
  cases role <;> decide

/-- **The report of an indicator set**: whatever texts a set was read and merged
from, its report has one line for the numbers of its indicators and duplicates, one
for each type and role that occurs, with the number of its indicators, and one for
each diagnostic. -/
theorem summarizeIndicators_lines {set : IndicatorSet} (h : FromTexts set) :
    ∃ types roles : StrMap Nat,
      getlines '\n' (summarizeIndicators set) =
        ["indicators=".toList ++ natToString set.indicators.length ++ " duplicates=".toList ++
            natToString set.duplicates.length] ++
          types.toList.map (countLine "type.") ++ roles.toList.map (countLine "role.") ++
          set.diagnostics.map Diagnostic.line ∧
      Counts types set.indicators (fun ind => typeName ind.type) ∧
      Counts roles set.indicators (fun ind => roleName ind.role) := by
  refine ⟨_, _, ?_, counts_countAll _ _, counts_countAll _ _⟩
  rw [summarizeIndicators]
  simp only [← textOf_append]
  refine getlines_report (fun line hline => ?_) h.quiet
  simp only [List.mem_append, or_assoc] at hline
  rcases hline with hline | hline | hline
  · rw [List.mem_singleton.mp hline]
    exact ((OneLine.append (by decide) (.natToString _)).append (by decide)).append (.natToString _)
  · exact oneLine_of_mem_countLines (by decide) (fun ind _ => oneLine_typeName ind.type) hline
  · exact oneLine_of_mem_countLines (by decide) (fun ind _ => oneLine_roleName ind.role) hline

/-- A URL in two spellings and an address. -/
def mirrorFeed : List FeedLine :=
  [.entry ⟨.url "http://a.example/x".toList (by simp [QuotedChar]), .block, []⟩,
    .entry ⟨.url "HTTP://A.example:80/x".toList (by simp [QuotedChar]), .block, []⟩,
    .entry ⟨.ip ⟨0x01020304⟩, .allow, []⟩]

/-- The feed, read twice and merged. -/
def twiceRead : IndicatorSet :=
  let feed := parseIndicatorText (textOf (mirrorFeed.map FeedLine.text)) []
  mergeIndicatorSets [feed, feed]

theorem fromTexts_twiceRead : FromTexts twiceRead := by
  refine .merge fun set hset => ?_
  simp only [List.mem_cons, List.not_mem_nil, or_false, or_self] at hset
  rw [hset]
  exact .text _ _

/-- Both spellings have one normal form. -/
theorem normalizeUrl_mirror :
    normalizeUrl "http://a.example/x".toList = "http://a.example/x".toList ∧
      normalizeUrl "HTTP://A.example:80/x".toList = "http://a.example/x".toList := by
  have hpath : collapseSlashes "/x".toList = "/x".toList := by
    rw [collapseSlashes, dif_neg (by decide)]
  have hform : "http://a.example".toList ++ collapseSlashes "/x".toList =
      "http://a.example/x".toList := by
    rw [hpath]
    rfl
  exact ⟨hform, hform⟩

/-- An indicator of the feed, as it is read. -/
def mirrorUrl (raw : String) : Indicator where
  type := .url
  role := .block
  raw := raw.toList
  normalized := "http://a.example/x".toList

def mirrorAddress : Indicator where
  type := .ip
  role := .allow
  raw := "ip,1.2.3.4,allow".toList
  normalized := "1.2.3.4".toList
  ip := some ⟨0x01020304⟩

theorem feedEntries_mirror :
    feedEntries [] mirrorFeed =
      [(1, mirrorUrl "url,\"http://a.example/x\",block"),
        (2, mirrorUrl "url,\"HTTP://A.example:80/x\",block"), (3, mirrorAddress)] := by
  obtain ⟨hfirst, hsecond⟩ := normalizeUrl_mirror
  have hread : feedEntries [] mirrorFeed =
      [(1, { mirrorUrl "url,\"http://a.example/x\",block" with
          normalized := normalizeUrl "http://a.example/x".toList }),
        (2, { mirrorUrl "url,\"HTTP://A.example:80/x\",block" with
          normalized := normalizeUrl "HTTP://A.example:80/x".toList }), (3, mirrorAddress)] := rfl
  rw [hread, hfirst, hsecond]
  rfl

/-- What is read of the feed: the second spelling is a duplicate. -/
theorem twiceRead_eq :
    twiceRead =
      { indicators := [mirrorUrl "url,\"http://a.example/x\",block", mirrorAddress]
        duplicates := [mirrorUrl "url,\"http://a.example/x\",block", mirrorAddress]
        diagnostics := [duplicateNote (2, mirrorUrl "url,\"HTTP://A.example:80/x\",block"),
          duplicateNote (2, mirrorUrl "url,\"HTTP://A.example:80/x\",block")] } := by
  have hfeed : parseIndicatorText (textOf (mirrorFeed.map FeedLine.text)) [] =
      { indicators := [mirrorUrl "url,\"http://a.example/x\",block", mirrorAddress]
        duplicates := [mirrorUrl "url,\"HTTP://A.example:80/x\",block"]
        diagnostics := [duplicateNote (2, mirrorUrl "url,\"HTTP://A.example:80/x\",block")] } := by
    obtain ⟨hindicators, hduplicates⟩ := kept_feed mirrorFeed []
    have hdiagnostics := diagnostics_feed mirrorFeed []
    rw [feedEntries_mirror] at hindicators hduplicates hdiagnostics
    generalize parseIndicatorText _ _ = set at hindicators hduplicates hdiagnostics ⊢
    obtain ⟨indicators, duplicates, diagnostics⟩ := set
    exact congr (congr (congrArg IndicatorSet.mk hindicators) hduplicates) hdiagnostics
  rw [twiceRead, hfeed]
  rfl

/-- The report of a set that was read and merged, with every kind of line. -/
theorem summarizeIndicators_lines_twiceRead :
    (twiceRead.indicators.map fun ind => (ind.type, ind.role, ind.normalized)) =
        [(.url, .block, "http://a.example/x".toList), (.ip, .allow, "1.2.3.4".toList)] ∧
      twiceRead.duplicates.length = 2 ∧
      twiceRead.diagnostics.map Diagnostic.line =
        ["info:ioc.duplicate@2: duplicate indicator http://a.example/x".toList,
          "info:ioc.duplicate@2: duplicate indicator http://a.example/x".toList] ∧
      ∃ types roles : StrMap Nat,
        getlines '\n' (summarizeIndicators twiceRead) =
          ["indicators=".toList ++ natToString twiceRead.indicators.length ++
              " duplicates=".toList ++ natToString twiceRead.duplicates.length] ++
            types.toList.map (countLine "type.") ++ roles.toList.map (countLine "role.") ++
            twiceRead.diagnostics.map Diagnostic.line ∧
        Counts types twiceRead.indicators (fun ind => typeName ind.type) ∧
        Counts roles twiceRead.indicators (fun ind => roleName ind.role) := by
  refine ⟨?_, ?_, ?_, summarizeIndicators_lines fromTexts_twiceRead⟩
  all_goals
    rw [twiceRead_eq]
    decide +kernel

end PacketGuard.Ioc
