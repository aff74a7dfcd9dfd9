import PacketGuard.Ioc.Texts

/-! # Loading indicators

Every line of an indicator text that is not blank goes into the set once: as an
indicator, as a duplicate or as a diagnostic.  The indicators are the first
occurrences of their keys, so that merging the sets of some texts gives the
indicators of the texts written one after the other.
-/
namespace PacketGuard.Ioc
open PacketGuard.Core PacketGuard.Lib

/-! ## Keys -/

/-- What two indicators with the same key agree on. -/
def keyFields (ind : Indicator) : IocType × ListRole × Str := (ind.type, ind.role, ind.normalized)

theorem typeName_inj {t t' : IocType} (h : typeName t = typeName t') : t = t' := by
  cases t <;> cases t' <;> first | rfl | exact absurd h (by decide)

theorem roleName_inj {r r' : ListRole} (h : roleName r = roleName r') : r = r' := by
  cases r <;> cases r' <;> first | rfl | exact absurd h (by decide)

theorem colon_notMem_typeName (t : IocType) : ':' ∉ typeName t := by cases t <;> decide

theorem colon_notMem_roleName (r : ListRole) : ':' ∉ roleName r := by cases r <;> decide

/-- The text of a key tells its three fields apart. -/
theorem indicatorKey_eq_iff {ind ind' : Indicator} :
    indicatorKey ind = indicatorKey ind' ↔ keyFields ind = keyFields ind' := by
  unfold indicatorKey keyFields
  simp only [List.append_assoc, List.cons_append, List.nil_append, Prod.mk.injEq]
  rw [append_cons_inj (colon_notMem_typeName _) (colon_notMem_typeName _),
    append_cons_inj (colon_notMem_roleName _) (colon_notMem_roleName _)]
  constructor
  · rintro ⟨htype, hrole, hnorm⟩
    exact ⟨typeName_inj htype, roleName_inj hrole, hnorm⟩
  · rintro ⟨htype, hrole, hnorm⟩
    simp only [htype, hrole, hnorm, and_self]

/-! ## Lines -/

/-- The lines of a text with their numbers. -/
def numbered (lines : List Str) : List (Str × Nat) := lines.zipIdx 1

theorem numbered_concat (lines : List Str) (line : Str) :
    numbered (lines ++ [line]) = numbered lines ++ [(line, lines.length + 1)] := by
  unfold numbered
  rw [List.zipIdx_append, List.zipIdx_singleton, Nat.add_comm]

/-- The numbers of the lines that count. -/
def countedLines (counts : Str → Bool) (lines : List Str) : List Nat :=
  ((numbered lines).filter fun nl => counts nl.1).map Prod.snd

/-- The indicator of a line, whatever its number. -/
def indicatorOfLine (source line : Str) : Option Indicator :=
  (parseIndicatorLine line).toOption.map fun ind => { ind with source }

/-- The line number only shows in the text of an error. -/
theorem toOption_parseIndicatorLine (line : Str) (lineNumber : Nat) :
    (parseIndicatorLine line lineNumber).toOption = (parseIndicatorLine line).toOption := by
  unfold parseIndicatorLine
  simp only
  split
  · rfl
  · split
    · rfl
    · split <;> rfl

/-- The line is not skipped. -/
def isFilled (line : Str) : Bool := !(trim (removeComment line)).isEmpty

theorem isFilled_of_indicatorOfLine {source line : Str} {ind : Indicator}
    (h : indicatorOfLine source line = some ind) : isFilled line = true := by
  unfold isFilled
  cases hempty : (trim (removeComment line)).isEmpty with
  | false => rfl
  | true =>
    -- a blank line is an error
    unfold indicatorOfLine parseIndicatorLine at h
    rw [if_pos hempty] at h
    cases h

/-- The indicators of the lines, with the numbers of the lines. -/
def entries (source : Str) (lines : List Str) : List (Nat × Indicator) :=
  (numbered lines).filterMap fun nl => (indicatorOfLine source nl.1).map fun ind => (nl.2, ind)

/-- The diagnostic of a line that is neither skipped nor read. -/
def lineFailure (nl : Str × Nat) : Option Diagnostic :=
  if isFilled nl.1 then
    match parseIndicatorLine nl.1 nl.2 with
    | .error status => some ⟨.warning, "ioc.parse".toList, status.message, nl.2⟩
    | .ok _ => none
  else none

/-- The diagnostics of the lines that cannot be read. -/
def failures (lines : List Str) : List Diagnostic := (numbered lines).filterMap lineFailure

/-! A line is skipped, or it is read, or it fails; its number does not matter for which. -/

theorem indicatorOfLine_of_blank {line : Str} (source : Str) (h : isFilled line = false) :
    indicatorOfLine source line = none := by
  by_contra hsome
  obtain ⟨ind, hind⟩ := Option.ne_none_iff_exists'.mp hsome
  rw [isFilled_of_indicatorOfLine hind] at h
  cases h

theorem lineFailure_of_blank {line : Str} (h : isFilled line = false) (k : Nat) :
    lineFailure (line, k) = none := by
  rw [lineFailure, h]
  rfl

theorem indicatorOfLine_of_ok {line : Str} {k : Nat} {ind : Indicator} (source : Str)
    (h : parseIndicatorLine line k = .ok ind) :
    indicatorOfLine source line = some { ind with source } := by
  rw [indicatorOfLine, ← toOption_parseIndicatorLine line k, h]
  rfl

theorem lineFailure_of_ok {line : Str} {k : Nat} {ind : Indicator}
    (h : parseIndicatorLine line k = .ok ind) : lineFailure (line, k) = none := by
  rw [lineFailure, h]
  exact ite_self none

theorem indicatorOfLine_of_error {line : Str} {k : Nat} {status : Status} (source : Str)
    (h : parseIndicatorLine line k = .error status) : indicatorOfLine source line = none := by
  rw [indicatorOfLine, ← toOption_parseIndicatorLine line k, h]
  rfl

theorem lineFailure_of_error {line : Str} {k : Nat} {status : Status}
    (hfilled : isFilled line = true)
    (h : parseIndicatorLine line k = .error status) :
    lineFailure (line, k) = some ⟨.warning, "ioc.parse".toList, status.message, k⟩ := by
  rw [lineFailure, if_pos hfilled, h]

/-! ## The loop -/

def isParseDiagnostic (d : Diagnostic) : Bool := d.code == "ioc.parse".toList

def entryKey (entry : Nat × Indicator) : Str := indicatorKey entry.2

/-- The state of the loop after some lines. -/
structure Scanned (source : Str) (lines : List Str) (s : IndicatorScan) : Prop where
  lineNo : s.lineNo = lines.length
  seen : ∀ k, k ∈ s.seen ↔ k ∈ (entries source lines).map entryKey
  indicators : s.set.indicators = (firsts entryKey [] (entries source lines)).map Prod.snd
  duplicates : s.set.duplicates = (repeats entryKey [] (entries source lines)).map Prod.snd
  diagnostics : s.set.diagnostics.filter isParseDiagnostic = failures lines

section
variable {source : Str} {lines : List Str} {s : IndicatorScan}

theorem entries_concat (source : Str) (lines : List Str) (line : Str) :
    entries source (lines ++ [line]) =
      entries source lines ++
        ((indicatorOfLine source line).map fun ind => (lines.length + 1, ind)).toList := by
  unfold entries
  rw [numbered_concat, List.filterMap_append]
  cases hline : indicatorOfLine source line <;> simp [hline]

theorem failures_concat (lines : List Str) (line : Str) :
    failures (lines ++ [line]) = failures lines ++
      (lineFailure (line, lines.length + 1)).toList := by
  unfold failures
  rw [numbered_concat, List.filterMap_append]
  cases hline : lineFailure (line, lines.length + 1) <;> simp [hline]

/-- A line without indicator. -/
theorem Scanned.concat_none (h : Scanned source lines s) {line : Str}
    (hnone : indicatorOfLine source line = none) {diagnostics : Diagnostics}
    (hdiag : diagnostics.filter isParseDiagnostic = (lineFailure (line, lines.length + 1)).toList) :
    Scanned source (lines ++ [line])
      { s with
        lineNo := s.lineNo + 1
        set := { s.set with diagnostics := s.set.diagnostics ++ diagnostics } } := by
  have hentries : entries source (lines ++ [line]) = entries source lines := by
    rw [entries_concat, hnone]
    exact List.append_nil _
  refine ⟨?_, ?_, ?_, ?_, ?_⟩
  · rw [List.length_append, h.lineNo, List.length_singleton]
  · rw [hentries]
    exact h.seen
  · rw [hentries]
    exact h.indicators
  · rw [hentries]
    exact h.duplicates
  · rw [failures_concat, ← h.diagnostics, ← hdiag, List.filter_append]

/-- A line with an indicator. -/
theorem Scanned.concat_some (h : Scanned source lines s) {line : Str} {ind : Indicator}
    (hind : indicatorOfLine source line = some ind)
    (hread : lineFailure (line, lines.length + 1) = none) :
    Scanned source (lines ++ [line]) (s.keep ind (s.lineNo + 1)) := by
  have hentries : entries source (lines ++ [line]) = entries source lines ++
      [(lines.length + 1, ind)] := by
    rw [entries_concat, hind]
    rfl
  have hfailures : failures (lines ++ [line]) = failures lines := by
    rw [failures_concat, hread]
    exact List.append_nil _
  have hlength : (lines ++ [line]).length = s.lineNo + 1 := by
    rw [List.length_append, h.lineNo, List.length_singleton]
  have hkeys : HasKeys entryKey s.seen (entries source lines) := h.seen
  unfold IndicatorScan.keep
  by_cases hseen : indicatorKey ind ∈ s.seen
  · have hkey : entryKey (lines.length + 1, ind) ∈ s.seen := hseen
    rw [if_pos hseen]
    refine ⟨hlength.symm, ?_, ?_, ?_, ?_⟩
    · rw [hentries]
      exact hkeys.concat_seen hkey
    · rw [hentries, hkeys.firsts_concat_seen hkey]
      exact h.indicators
    · rw [hentries, hkeys.repeats_concat_seen hkey, List.map_append, ← h.duplicates]
      rfl
    · rw [hfailures, ← h.diagnostics, List.filter_append]
      exact List.append_nil _
  · have hkey : entryKey (lines.length + 1, ind) ∉ s.seen := hseen
    rw [if_neg hseen]
    refine ⟨hlength.symm, ?_, ?_, ?_, ?_⟩
    · rw [hentries]
      exact hkeys.concat_insert (lines.length + 1, ind)
    · rw [hentries, hkeys.firsts_concat_new hkey, List.map_append, ← h.indicators]
      rfl
    · rw [hentries, hkeys.repeats_concat_new hkey]
      exact h.duplicates
    · rw [hfailures, ← h.diagnostics]

/-- **Step lemma.** -/
theorem Scanned.step (h : Scanned source lines s) (line : Str) :
    Scanned source (lines ++ [line]) (s.step source line) := by
  unfold IndicatorScan.step
  simp only
  by_cases hempty : (trim (removeComment line)).isEmpty
  · rw [if_pos hempty]
    have hskipped : isFilled line = false := by
      rw [isFilled, hempty]
      rfl
    have hdiag : ([] : Diagnostics).filter isParseDiagnostic =
        (lineFailure (line, lines.length + 1)).toList := by
      rw [lineFailure_of_blank hskipped]
      rfl
    have hstep := h.concat_none (indicatorOfLine_of_blank source hskipped) hdiag
    rwa [List.append_nil] at hstep
  · rw [if_neg hempty]
    have hfilled : isFilled line = true := by simpa [isFilled] using hempty
    cases hline : parseIndicatorLine line (s.lineNo + 1) with
    | error status =>
      refine h.concat_none (indicatorOfLine_of_error source hline) ?_
      rw [← h.lineNo, lineFailure_of_error hfilled hline]
      rfl
    | ok ind =>
      refine h.concat_some (indicatorOfLine_of_ok source hline) ?_
      rw [← h.lineNo, lineFailure_of_ok hline]

/-- **Run lemma.** -/
theorem scanned_run (source : Str) (lines : List Str) :
    Scanned source lines ((indicatorScanMachine source).run lines) := by
  refine (indicatorScanMachine source).run_induction ?_ (fun lines line h => h.step line) lines
  exact ⟨rfl, by simp [indicatorScanMachine, entries, numbered], rfl, rfl, rfl⟩

end

/-! ## Accounting -/

/-- How the lines of a text went into a set: the numbers of the lines read as indicators,
read as duplicates and not read.  Every line that counts has one of the numbers. -/
structure Accounts (counts : Str → Bool) (source : Str) (lines : List Str) (set : IndicatorSet)
    (first repeated failed : List Nat) : Prop where
  ascending : first.Pairwise (· < ·) ∧ repeated.Pairwise (· < ·) ∧ failed.Pairwise (· < ·)
  once : (first ++ repeated ++ failed).Perm (countedLines counts lines)
  indicators : List.Forall₂
    (fun k ind => ∃ line, (line, k) ∈ numbered lines ∧ indicatorOfLine source line = some ind)
    first set.indicators
  duplicates : List.Forall₂
    (fun k ind => ∃ line, (line, k) ∈ numbered lines ∧ indicatorOfLine source line = some ind)
    repeated set.duplicates
  diagnostics : List.Forall₂
    (fun k d => ∃ line status, (line, k) ∈ numbered lines ∧
      parseIndicatorLine line k = .error status ∧
      d = ⟨.warning, "ioc.parse".toList, status.message, k⟩)
    failed (set.diagnostics.filter isParseDiagnostic)

/-- The keys of a set: those of the indicators differ, and every duplicate has one of them. -/
structure FirstsOfKeys (set : IndicatorSet) : Prop where
  distinct : (set.indicators.map keyFields).Nodup
  known : ∀ ind ∈ set.duplicates, keyFields ind ∈ set.indicators.map keyFields

section
variable {source : Str} {lines : List Str}

theorem numbered_ascending (lines : List Str) :
    ((numbered lines).map Prod.snd).Pairwise (· < ·) := by
  unfold numbered
  rw [List.zipIdx_map_snd]
  exact List.pairwise_lt_range'

/-- What is read off some of the lines keeps their numbers. -/
theorem map_filterMap_sublist {α : Type} {f : Str × Nat → Option α} {number : α → Nat}
    (h : ∀ nl x, f nl = some x → number x = nl.2) (nls : List (Str × Nat)) :
    ((nls.filterMap f).map number).Sublist (nls.map Prod.snd) := by
  induction nls with
  | nil => exact List.Sublist.refl _
  | cons nl nls ih =>
    rw [List.filterMap_cons]
    cases hnl : f nl with
    | none => exact ih.cons _
    | some x =>
      rw [List.map_cons, h nl x hnl]
      exact ih.cons_cons _

theorem mem_entries {k : Nat} {ind : Indicator} (h : (k, ind) ∈ entries source lines) :
    ∃ line, (line, k) ∈ numbered lines ∧ indicatorOfLine source line = some ind := by
  obtain ⟨⟨line, n⟩, hline, heq⟩ := List.mem_filterMap.mp h
  obtain ⟨ind', hind, heq⟩ := Option.map_eq_some_iff.mp heq
  cases heq
  exact ⟨line, hline, hind⟩

theorem mem_failures {d : Diagnostic} (h : d ∈ failures lines) :
    ∃ line status, (line, d.offset) ∈ numbered lines ∧
      parseIndicatorLine line d.offset = .error status ∧
      d = ⟨.warning, "ioc.parse".toList, status.message, d.offset⟩ := by
  obtain ⟨⟨line, n⟩, hline, heq⟩ := List.mem_filterMap.mp h
  unfold lineFailure at heq
  split at heq
  · split at heq
    · rename_i status hstatus
      cases heq
      exact ⟨line, status, hline, hstatus, rfl⟩
    · cases heq
  · cases heq

/-- A filled line has an indicator or a diagnostic, a blank one has neither. -/
theorem entries_failures_perm (source : Str) (lines : List Str) :
    ((entries source lines).map Prod.fst ++ (failures lines).map Diagnostic.offset).Perm
      (countedLines isFilled lines) := by
  unfold entries failures countedLines
  induction numbered lines with
  | nil => exact List.Perm.refl _
  | cons nl rest ih =>
    obtain ⟨line, k⟩ := nl
    cases hfilled : isFilled line with
    | false =>
      have hnone := indicatorOfLine_of_blank source hfilled
      simpa [hnone, lineFailure_of_blank hfilled, hfilled] using ih
    | true =>
      cases hline : parseIndicatorLine line k with
      | error status =>
        have hnone := indicatorOfLine_of_error source hline
        simpa [hnone, lineFailure_of_error hfilled hline, hfilled] using
          List.perm_middle.trans (ih.cons k)
      | ok ind =>
        simpa [indicatorOfLine_of_ok source hline, lineFailure_of_ok hline, hfilled] using ih

/-- **Accounting.** -/
theorem accounts_run (source : Str) (lines : List Str) :
    Accounts isFilled source lines ((indicatorScanMachine source).run lines).set
      ((firsts entryKey [] (entries source lines)).map Prod.fst)
      ((repeats entryKey [] (entries source lines)).map Prod.fst)
      ((failures lines).map Diagnostic.offset) := by
  have h := scanned_run source lines
  -- the numbers of the entries and of the failures are numbers of lines, in order
  have hentries : ((entries source lines).map Prod.fst).Sublist
      ((numbered lines).map Prod.snd) := by
    refine map_filterMap_sublist (fun nl entry hentry => ?_) _
    obtain ⟨ind, -, rfl⟩ := Option.map_eq_some_iff.mp hentry
    rfl
  have hfailures : ((failures lines).map Diagnostic.offset).Sublist
      ((numbered lines).map Prod.snd) := by
    refine map_filterMap_sublist (fun nl d hd => ?_) _
    unfold lineFailure at hd
    split at hd
    · split at hd
      · cases hd
        rfl
      · cases hd
    · cases hd
  refine ⟨⟨?_, ?_, ?_⟩, ?_, ?_, ?_, ?_⟩
  · exact (numbered_ascending lines).sublist (((occurrences_sublist _ _ _).map _).trans hentries)
  · exact (numbered_ascending lines).sublist (((occurrences_sublist _ _ _).map _).trans hentries)
  · exact (numbered_ascending lines).sublist hfailures
  · rw [← List.map_append]
    exact (((firsts_append_repeats_perm _ _).map _).append_right _).trans
      (entries_failures_perm source lines)
  · rw [h.indicators, List.forall₂_map_left_iff, List.forall₂_map_right_iff, List.forall₂_same]
    exact fun entry hentry => mem_entries ((occurrences_sublist _ _ _).subset hentry)
  · rw [h.duplicates, List.forall₂_map_left_iff, List.forall₂_map_right_iff, List.forall₂_same]
    exact fun entry hentry => mem_entries ((occurrences_sublist _ _ _).subset hentry)
  · rw [h.diagnostics, List.forall₂_map_left_iff, List.forall₂_same]
    exact fun d hd => mem_failures hd

/-- The indicators are the first ones with their keys, whatever their lines. -/
theorem indicators_run (source : Str) (lines : List Str) :
    ((indicatorScanMachine source).run lines).set.indicators =
      firsts indicatorKey [] (lines.filterMap (indicatorOfLine source)) := by
  have hentries : (entries source lines).map Prod.snd =
      lines.filterMap (indicatorOfLine source) := by
    unfold entries numbered
    rw [List.map_filterMap]
    simp only [Option.map_map, Function.comp_def, Option.map_id']
    have hlines : ((lines.zipIdx 1).map Prod.fst).filterMap (indicatorOfLine source) =
        lines.filterMap (indicatorOfLine source) := by
      rw [List.zipIdx_map_fst]
    rw [← hlines, List.filterMap_map]
    rfl
  rw [(scanned_run source lines).indicators, ← hentries]
  exact (occurrences_map false [] (entries source lines)).symm

theorem firstsOfKeys_run (source : Str) (lines : List Str) :
    FirstsOfKeys ((indicatorScanMachine source).run lines).set := by
  have h := scanned_run source lines
  have hindicators := indicators_run source lines
  constructor
  · -- different keys are keys with different fields
    have hnodup := nodup_map_firsts indicatorKey [] (lines.filterMap (indicatorOfLine source))
    rw [← hindicators, List.nodup_iff_pairwise_ne, List.pairwise_map] at hnodup
    rw [List.nodup_iff_pairwise_ne, List.pairwise_map]
    exact hnodup.imp fun hne heq => hne (indicatorKey_eq_iff.mpr heq)
  · intro ind hind
    rw [h.duplicates, List.mem_map] at hind
    obtain ⟨entry, hentry, rfl⟩ := hind
    obtain ⟨first, hfirst, hkey⟩ := List.mem_map.mp (key_mem_map_firsts hentry)
    rw [h.indicators, List.map_map]
    exact List.mem_map.mpr ⟨first, hfirst, indicatorKey_eq_iff.mp hkey⟩

/-! ## Merging -/

/-- The state of the loops of `merge_indicator_sets` after some indicators. -/
structure Merged (inds : List Indicator) (s : MergeScan) : Prop where
  seen : ∀ k, k ∈ s.seen ↔ k ∈ inds.map indicatorKey
  indicators : s.merged.indicators = firsts indicatorKey [] inds

/-- **Step lemma.** -/
theorem Merged.keep {inds : List Indicator} {s : MergeScan} (h : Merged inds s) (ind : Indicator) :
    Merged (inds ++ [ind]) (s.keep ind) := by
  have hkeys : HasKeys indicatorKey s.seen inds := h.seen
  unfold MergeScan.keep
  by_cases hseen : indicatorKey ind ∈ s.seen
  · rw [if_pos hseen]
    refine ⟨hkeys.concat_seen hseen, ?_⟩
    rw [hkeys.firsts_concat_seen hseen]
    exact h.indicators
  · rw [if_neg hseen]
    refine ⟨hkeys.concat_insert ind, ?_⟩
    rw [hkeys.firsts_concat_new hseen, ← h.indicators]

/-- **Run lemma** of the inner loop. -/
theorem Merged.foldl_keep {inds : List Indicator} {s : MergeScan} (h : Merged inds s)
    (rest : List Indicator) : Merged (inds ++ rest) (rest.foldl MergeScan.keep s) := by
  induction rest generalizing inds s with
  | nil => rwa [List.append_nil]
  | cons ind rest ih =>
    have hrest := ih (h.keep ind)
    rwa [List.append_assoc, List.singleton_append] at hrest

/-- **Run lemma** of the outer loop. -/
theorem Merged.foldl_addSet {inds : List Indicator} {s : MergeScan} (h : Merged inds s)
    (sets : List IndicatorSet) :
    Merged (inds ++ sets.flatMap IndicatorSet.indicators) (sets.foldl MergeScan.addSet s) := by
  induction sets generalizing inds s with
  | nil => rwa [List.flatMap_nil, List.append_nil]
  | cons set sets ih =>
    have hstart : Merged inds { s with merged :=
        { s.merged with diagnostics := s.merged.diagnostics ++ set.diagnostics } } :=
      ⟨h.seen, h.indicators⟩
    rw [List.flatMap_cons, ← List.append_assoc]
    exact ih (hstart.foldl_keep set.indicators)

theorem indicators_mergeIndicatorSets (sets : List IndicatorSet) :
    (mergeIndicatorSets sets).indicators =
      firsts indicatorKey [] (sets.flatMap IndicatorSet.indicators) := by
  have hinit : Merged [] {} := ⟨by simp, rfl⟩
  have hmerged := hinit.foldl_addSet sets
  rw [List.nil_append] at hmerged
  exact hmerged.indicators

/-! ## Texts -/

/-- The indicators of a text, with the lines they are from. -/
theorem exists_line_of_mem {text source : Str} {ind : Indicator}
    (h : ind ∈ (parseIndicatorText text source).indicators) :
    ∃ line ∈ getlines '\n' text, ∃ parsed, parseIndicatorLine line = .ok parsed ∧
      ind = { parsed with source } := by
  rw [parseIndicatorText, indicators_run] at h
  obtain ⟨line, hline, hind⟩ := List.mem_filterMap.mp ((occurrences_sublist _ _ _).subset h)
  obtain ⟨parsed, hparsed, rfl⟩ := Option.map_eq_some_iff.mp hind
  cases hparse : parseIndicatorLine line with
  | error status =>
    rw [hparse] at hparsed
    cases hparsed
  | ok parsed' =>
    rw [hparse] at hparsed
    cases hparsed
    exact ⟨line, hline, _, hparse, rfl⟩

/-- The indicators of a text, from the pieces between its newlines. -/
theorem indicators_parseIndicatorText (text source : Str) :
    (parseIndicatorText text source).indicators =
      firsts indicatorKey [] ((text.splitOn '\n').filterMap (indicatorOfLine source)) := by
  rw [parseIndicatorText, indicators_run]
  obtain hpieces | hpieces := splitOn_eq_getlines '\n' text
  · rw [hpieces]
  · rw [hpieces, List.filterMap_append]
    exact congrArg _ (List.append_nil _).symm

/-- The pieces of texts joined by newlines, as far as indicators go. -/
theorem filterMap_splitOn_intercalate (source : Str) (texts : List Str) :
    ((['\n'].intercalate texts).splitOn '\n').filterMap (indicatorOfLine source) =
      (texts.map fun text => (text.splitOn '\n').filterMap (indicatorOfLine source)).flatten := by
  induction texts with
  | nil => rfl
  | cons text texts ih =>
    cases texts with
    | nil => simp
    | cons next texts =>
      have hjoin : ['\n'].intercalate (text :: next :: texts) =
          text ++ '\n' :: ['\n'].intercalate (next :: texts) := by
        rw [List.intercalate_cons_cons]
        simp
      rw [hjoin, List.splitOn_append_cons_self, List.filterMap_append, ih]
      rfl

/-- **Loading is lossless and composes.**  Every line of a text that is not blank once its
comment is removed is accounted for; the indicators have different keys, which are those
of the duplicates; and merging the sets of some texts gives the indicators of the texts
joined by newlines. -/
theorem parseIndicatorText_lossless (source : Str) :
    (∀ text, (∃ first repeated failed,
        Accounts isFilled source (getlines '\n' text) (parseIndicatorText text source)
          first repeated failed) ∧
      FirstsOfKeys (parseIndicatorText text source)) ∧
    ∀ texts : List Str,
      (mergeIndicatorSets (texts.map fun text => parseIndicatorText text source)).indicators =
        (parseIndicatorText (['\n'].intercalate texts) source).indicators := by
  refine ⟨fun text => ⟨⟨_, _, _, accounts_run source _⟩, firstsOfKeys_run source _⟩,
    fun texts => ?_⟩
  rw [indicators_mergeIndicatorSets, indicators_parseIndicatorText, filterMap_splitOn_intercalate,
    ← firsts_flatMap_firsts, List.flatMap_map, List.flatMap_map]
  simp only [indicators_parseIndicatorText]

/-- A line of white space is not empty once its comment is removed, and it is skipped. -/
theorem parseIndicatorText_blank :
    ¬ ∃ first repeated failed,
      Accounts (fun line => !(removeComment line).isEmpty) [] (getlines '\n' [' '])
        (parseIndicatorText [' '] []) first repeated failed := by
  rintro ⟨first, repeated, failed, h⟩
  have hset : parseIndicatorText [' '] [] = {} := rfl
  have hindicators := h.indicators
  have hduplicates := h.duplicates
  have hdiagnostics := h.diagnostics
  rw [hset] at hindicators hduplicates hdiagnostics
  cases hindicators
  cases hduplicates
  cases hdiagnostics
  exact absurd h.once.length_eq (by decide)

end

end PacketGuard.Ioc
