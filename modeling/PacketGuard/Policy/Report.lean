import PacketGuard.Policy.WrittenSettings
import PacketGuard.Rules.Report

/-! # The report of a policy

`summarize_policy` counts the firewall rules of a policy and lists its settings.
The settings are shown as they were read, and a string in a JSON text may hold a
newline.  The report is therefore proved in two steps.  For every text, the lines
with the dialect and the counts come first and those of the diagnostics last, and
what stands between them is the text of the settings, cut at its newlines.  And
that text has one line for each setting exactly when no setting holds a newline.
Where one does, it can write nearly any line into the report (`Forgeable`).
-/
namespace PacketGuard.Policy
open PacketGuard.Core PacketGuard.Lib
open PacketGuard.Rules
  (protocolName quiet_parseAddressExpr quiet_parsePortExpr quietNotes_flatMap_warn quiet_flatMap_ite
  oneLine_protocolName)

/-- The line of a setting. -/
def settingLine (setting : PolicyKV) : Str :=
  "setting.".toList ++ setting.section_ ++ ['.'] ++ setting.key ++ ['='] ++ setting.value

/-- The first line of the report. -/
def policyLine (file : PolicyFile) : Str :=
  "dialect=".toList ++ dialectName file.dominantDialect ++ " firewall_rules=".toList ++
    natToString file.firewallRules.length ++ " settings=".toList ++ natToString file.settings.length

def summarizePolicy (file : PolicyFile) : Str :=
  let actions := countAll (file.firewallRules.map fun r => actionName r.action)
  let chains := countAll (file.firewallRules.map fun r => directionName r.chain)
  let protocols := countAll (file.firewallRules.map fun r => protocolName r.protocol)
  textOf [policyLine file] ++ textOf (chains.toList.map (countLine "chain.")) ++
    textOf (actions.toList.map (countLine "action.")) ++
      textOf (protocols.toList.map (countLine "protocol.")) ++
    textOf (file.settings.map settingLine) ++
    if file.diagnostics.isEmpty then [] else file.diagnostics.summary

/-! ## Firewall lines -/

theorem oneLine_getD {tokens : List Str} (h : ∀ t ∈ tokens, OneLine t) (i : Nat) :
    OneLine (tokens.getD i []) := by
  rw [List.getD_eq_getElem?_getD]
  cases hi : tokens[i]? with
  | none => exact .nil
  | some t => exact h t (List.mem_of_getElem? hi)

theorem quiet_iptablesToken (rule : FirewallRule) {tok : Str} {rest : List Str}
    (h : ∀ t ∈ tok :: rest, OneLine t) :
    QuietFailure (iptablesToken rule tok rest) := by
  have hvalue : OneLine (nextValue rest) := by
    cases rest with
    | nil => exact .nil
    | cons value rest => exact h value (by simp)
  unfold iptablesToken
  refine .ite (fun _ => trivial) fun _ => ?_
  refine .ite (fun _ => trivial) fun _ => ?_
  refine .ite (fun _ => trivial) fun _ => ?_
  refine .ite (fun _ => (quiet_parseAddressExpr hvalue).map fun _ _ => trivial) fun _ => ?_
  refine .ite (fun _ => (quiet_parseAddressExpr hvalue).map fun _ _ => trivial) fun _ => ?_
  refine .ite (fun _ => (quiet_parsePortExpr _).map fun _ _ => trivial) fun _ => ?_
  refine .ite (fun _ => (quiet_parsePortExpr _).map fun _ _ => trivial) fun _ => ?_
  refine .ite (fun _ => trivial) fun _ => ?_
  refine .ite (fun _ => trivial) fun _ => ?_
  refine .ite (fun _ => trivial) fun _ => ?_
  refine .ite (fun _ => trivial) fun _ => ?_
  refine .ite (fun _ => trivial) fun _ => ?_
  exact .ite (fun _ => trivial) fun _ => trivial

theorem quiet_nftablesToken (rule : FirewallRule) {token : Str} {rest : List Str}
    (h : ∀ t ∈ token :: rest, OneLine t) :
    QuietFailure (nftablesToken rule token rest) := by
  have hsecond : OneLine (rest.getD 1 []) :=
    oneLine_getD (fun t ht => h t (List.mem_cons_of_mem _ ht)) 1
  unfold nftablesToken
  refine .ite (fun _ => trivial) fun _ => ?_
  refine .ite (fun _ => trivial) fun _ => ?_
  refine .ite (fun _ => ?_) fun _ => ?_
  · refine .ite (fun _ => (quiet_parseAddressExpr hsecond).map fun _ _ => trivial) fun _ => ?_
    exact .ite (fun _ => (quiet_parseAddressExpr hsecond).map fun _ _ => trivial) fun _ => trivial
  refine .ite (fun _ => ?_) fun _ => ?_
  · refine .ite (fun _ => (quiet_parsePortExpr _).map fun _ _ => trivial) fun _ => ?_
    exact .ite (fun _ => (quiet_parsePortExpr _).map fun _ _ => trivial) fun _ => trivial
  refine .ite (fun _ => trivial) fun _ => ?_
  refine .ite (fun _ => trivial) fun _ => ?_
  refine .ite (fun _ => trivial) fun _ => ?_
  refine .ite (fun _ => trivial) fun _ => ?_
  exact .ite (fun _ => trivial) fun _ => trivial

/-- The tokens of a line have no newlines, so a token loop says nothing that breaks a line. -/
theorem quiet_scanTokens {body : FirewallRule → Str → List Str → Result (FirewallRule × Nat)}
    (h : ∀ rule tok rest, (∀ t ∈ tok :: rest, OneLine t) → QuietFailure (body rule tok rest))
    (rule : FirewallRule)
    (text : Str) : QuietFailure (scanTokens body rule 0 (splitWs text)) :=
  scanTokens_outcome_of_tokens (fun rule tok rest _ => (h rule tok rest ·)) trivial 0
    fun _ ht => OneLine.of_noSpace (noSpace_of_mem_splitWs ht)

theorem quiet_parseIptablesRule (line : Str) (n : Nat) :
    QuietFailure (parseIptablesRule line n) := by
  refine .ite (fun _ => quietFailure (by decide)) fun _ => ?_
  refine (quiet_scanTokens (fun rule _ _ => quiet_iptablesToken rule) _ _).bind fun rule _ => ?_
  exact .ite (fun _ => quietFailure (by decide)) fun _ =>
    .ite (fun _ => quietFailure (by decide)) fun _ => trivial

theorem quiet_parseNftablesRule (line : Str) (n : Nat) :
    QuietFailure (parseNftablesRule line n) := by
  refine .ite (fun _ => quietFailure (by decide)) fun _ => ?_
  refine (quiet_scanTokens (fun rule _ _ => quiet_nftablesToken rule) _ _).bind fun rule _ => ?_
  exact .ite (fun _ => quietFailure (by decide)) fun _ => trivial

theorem quiet_validateFirewallRule (rule : FirewallRule) :
    ∀ w ∈ validateFirewallRule rule, OneLine w := by
  intro w hw
  simp only [validateFirewallRule, List.mem_append] at hw
  rcases hw with (((hw | hw) | hw) | hw) | hw
  all_goals exact oneLine_of_mem_ite (by decide) hw

theorem quiet_lineDiagnostics (n : Nat) (clean : Str) : QuietNotes (lineDiagnostics n clean) := by
  have hline : QuietFailure (parsePolicyLine clean n) := by
    refine .ite (fun _ => quiet_parseIptablesRule clean n) fun _ => ?_
    exact .ite (fun _ => quiet_parseNftablesRule clean n) fun _ => quietFailure (by decide)
  unfold lineDiagnostics
  split
  · exact quietNotes_flatMap_warn (by decide) (quiet_validateFirewallRule _)
  · rename_i status herror
    exact quietNotes_ite (quietNotes_said (by decide) (hline.of_eq_error herror)) quietNotes_nil

/-! ## Settings -/

theorem quiet_parseIniLines (section_ : Str) (n : Nat) (lines : List Str) :
    QuietNotes (parseIniLines section_ n lines).2 := by
  induction lines generalizing section_ n with
  | nil => exact quietNotes_nil
  | cons line lines ih =>
    rw [parseIniLines]
    dsimp only
    split
    · exact ih _ _
    split
    · exact ih _ _
    split
    · exact QuietNotes.append (quietNotes_said (by decide) (by decide)) (ih _ _)
    · exact ih _ _

theorem quiet_parseCsvLines (headers : List Str) (n : Nat) (lines : List Str) :
    QuietNotes (parseCsvLines headers n lines).2 := by
  induction lines generalizing headers n with
  | nil => exact quietNotes_nil
  | cons line lines ih =>
    rw [parseCsvLines]
    dsimp only
    split
    · exact ih _ _
    split
    · exact ih _ _
    · exact (quietNotes_ite (quietNotes_said (by decide) (by decide)) quietNotes_nil).append
        (ih _ _)

theorem quiet_parseSettings (text : Str) : QuietNotes (parseSettings text).2 := by
  unfold parseSettings
  split
  · exact quiet_parseIniLines _ _ _
  split
  · exact quiet_parseCsvLines _ _ _
  split
  · exact quietNotes_ite (quietNotes_said (by decide) (by decide)) quietNotes_nil
  · exact quietNotes_nil

/-! ## Reviews -/

theorem quiet_shadowedFrom (rules : List FirewallRule) : ∀ w ∈ shadowedFrom rules, OneLine w := by
  induction rules with
  | nil => exact fun w hw => absurd hw List.not_mem_nil
  | cons earlier rest ih =>
    intro w hw
    rcases List.mem_append.mp hw with hw | hw
    · split at hw
      · obtain ⟨later, -, rfl⟩ := List.mem_map.mp hw
        exact ((OneLine.append (by decide) (.natToString _)).append (by decide)).append
          (.natToString _)
      · cases hw
    · exact ih w hw

theorem quiet_orderingFrom (seen : Direction → Bool) (rules : List FirewallRule) :
    ∀ w ∈ orderingFrom seen rules, OneLine w := by
  induction rules generalizing seen with
  | nil => exact fun w hw => absurd hw List.not_mem_nil
  | cons r rest ih =>
    intro w hw
    rcases List.mem_append.mp hw with hw | hw
    · split at hw
      · rw [List.mem_singleton.mp hw]
        exact (OneLine.append (by decide) (.natToString _)).append (by decide)
      · cases hw
    · exact ih _ w hw

/-- Nothing that is noted about a policy breaks a line. -/
theorem quiet_parsePolicyText (text : Str) : QuietNotes (parsePolicyText text).diagnostics := by
  have hscan : QuietNotes (policyMachine.run (getlines '\n' text)).diagnostics := by
    refine @Machine.run_invariant _ _ policyMachine (fun s => QuietNotes s.diagnostics)
      (fun _ => True) quietNotes_nil
      (fun s line _ h => ?_) _ fun _ _ => trivial
    change QuietNotes (s.step line).diagnostics
    unfold PolicyScan.step
    dsimp only
    split
    · exact h
    · exact h.append (quiet_lineDiagnostics _ _)
  have hfile : QuietNotes (scannedFile text).diagnostics := by
    unfold scannedFile
    dsimp only
    split
    · exact hscan.append (quiet_parseSettings text)
    · exact hscan
  have hduplicates : ∀ w ∈ duplicateRules (scannedFile text), OneLine w :=
    quiet_flatMap_ite (fun _ => OneLine.append (by decide) (.natToString _)) _ _
  exact ((hfile.append (quietNotes_flatMap_warn (by decide) hduplicates)).append
    (quietNotes_flatMap_warn (by decide) (quiet_shadowedFrom _))).append
      (quietNotes_flatMap_warn (by decide) (quiet_orderingFrom _ _))

/-! ## The report -/

theorem oneLine_dialectName (dialect : FirewallDialect) : OneLine (dialectName dialect) := by
  cases dialect <;> decide

theorem oneLine_directionName (direction : Direction) : OneLine (directionName direction) := by
  cases direction <;> decide

theorem oneLine_actionName (action : FirewallAction) : OneLine (actionName action) := by
  cases action <;> decide

theorem oneLine_policyLine (file : PolicyFile) : OneLine (policyLine file) :=
  (((((show OneLine "dialect=".toList by decide).append (oneLine_dialectName _)).append
    (by decide)).append
    (.natToString _)).append (by decide)).append (.natToString _)

/-- The line of a setting is one line when none of its texts has a newline. -/
theorem oneLine_settingLine {setting : PolicyKV} :
    OneLine (settingLine setting) ↔ OneLine setting.section_ ∧ OneLine setting.key ∧
      OneLine setting.value := by
  unfold settingLine
  constructor
  · intro h
    simp only [OneLine, List.mem_append, not_or] at h
    obtain ⟨⟨⟨⟨⟨-, hsection⟩, -⟩, hkey⟩, -⟩, hvalue⟩ := h
    exact ⟨hsection, hkey, hvalue⟩
  · rintro ⟨hsection, hkey, hvalue⟩
    have hname : OneLine ("setting.".toList ++ setting.section_) :=
      OneLine.append (by decide) hsection
    exact (((hname.append (by decide)).append hkey).append (by decide)).append hvalue

/-- Whatever the settings hold, the lines before and behind them are what they should be. -/
theorem getlines_summarizePolicy (text : Str) :
    getlines '\n' (summarizePolicy (parsePolicyText text)) =
      [policyLine (parsePolicyText text)] ++
        (countAll ((parsePolicyText text).firewallRules.map fun r =>
          directionName r.chain)).toList.map (countLine "chain.") ++
        (countAll ((parsePolicyText text).firewallRules.map fun r =>
          actionName r.action)).toList.map (countLine "action.") ++
        (countAll ((parsePolicyText text).firewallRules.map fun r =>
          protocolName r.protocol)).toList.map (countLine "protocol.") ++
        getlines '\n' (textOf ((parsePolicyText text).settings.map settingLine)) ++
        (parsePolicyText text).diagnostics.map Diagnostic.line := by
  rw [summarizePolicy]
  conv_lhs => rw [← textOf_getlines ((parsePolicyText text).settings.map settingLine)]
  simp only [← textOf_append]
  refine getlines_report (fun line hline => ?_) (quiet_parsePolicyText text)
  simp only [List.mem_append, or_assoc] at hline
  rcases hline with hline | hline | hline | hline | hline
  · rw [List.mem_singleton.mp hline]
    exact oneLine_policyLine _
  · exact oneLine_of_mem_countLines (by decide) (fun r _ => oneLine_directionName r.chain) hline
  · exact oneLine_of_mem_countLines (by decide) (fun r _ => oneLine_actionName r.action) hline
  · exact oneLine_of_mem_countLines (by decide) (fun r _ => oneLine_protocolName r.protocol) hline
  · exact oneLine_of_mem_getlines hline

/-! ## Lines from strings -/

/-- A line that a string of an object can put into the report: it does not end the string, makes
neither a table nor a section of the text, and stands on no firewall line. -/
structure Forgeable (line : Str) : Prop where
  plain : ∀ c ∈ line, c ≠ '"' ∧ c ≠ '\n' ∧ c ≠ ',' ∧ c ≠ '['
  unknown : ¬ Recognised (trim (removeComment (line ++ ['"', '\x7d'])))

/-- An object with the line in its only string. -/
def forgingText (line : Str) : Str :=
  ['\x7b', '"', 'a', '"', ':', ' ', '"', '\n'] ++ (line ++ ['"', '\x7d'])

theorem brace_ne_nil : ['\x7b'] ≠ [] := List.cons_ne_nil _ _

theorem letter_ne_nil : ['a'] ≠ [] := List.cons_ne_nil _ _

theorem quote_notMem_brace : '"' ∉ ['\x7b'] := by decide

theorem quote_notMem_letter : '"' ∉ ['a'] := by decide

theorem isDigit_brace : ∀ c ∈ ['\x7b'].head?, isDigit c = false := by
  intro c hc
  cases hc
  rfl

theorem Forgeable.quote_notMem {line : Str} (h : Forgeable line) : '"' ∉ '\n' :: line := by
  rintro (_ | ⟨_, hc⟩)
  exact (h.plain _ hc).1 rfl

/-- The property of that object. -/
def forgingField (line : Str) (h : Forgeable line) : JsonField where
  gap := ['\x7b']
  key := ['a']
  before := []
  after := [' ']
  value := .string ('\n' :: line) h.quote_notMem
  gap_plain := quote_notMem_brace
  gap_head := isDigit_brace
  gap_ne := brace_ne_nil
  key_ne := letter_ne_nil
  key_plain := quote_notMem_letter
  before_blank := blank_nil
  after_blank := blank_space

theorem forgingText_eq {line : Str} (h : Forgeable line) :
    forgingText line = objectText [forgingField line h] ['\x7d'] := by
  simp [forgingText, objectText, JsonField.text, JsonScalar.text, forgingField]

theorem getlines_forgingText {line : Str} (h : Forgeable line) :
    getlines '\n' (forgingText line) =
      [['\x7b', '"', 'a', '"', ':', ' ', '"'], line ++ ['"', '\x7d']] := by
  have hjoined : forgingText line =
      ['\n'].intercalate [['\x7b', '"', 'a', '"', ':', ' ', '"'], line ++ ['"', '\x7d']] := by
    simp [forgingText, List.intercalate_cons_cons]
  rw [hjoined]
  refine getlines_intercalate (List.cons_ne_nil _ _) (fun p hp => ?_) (by simp)
  simp only [List.mem_cons, List.not_mem_nil, or_false] at hp
  rcases hp with rfl | rfl
  · decide
  · intro hmem
    rcases List.mem_append.mp hmem with hmem | hmem
    · exact (h.plain _ hmem).2.1 rfl
    · simp at hmem

/-- The text is neither a section file nor a table. -/
theorem notMem_forgingText {line : Str} (h : Forgeable line) :
    ',' ∉ forgingText line ∧ '[' ∉ forgingText line := by
  constructor <;>
    · intro hmem
      simp only [forgingText, List.mem_append] at hmem
      rcases hmem with hmem | hmem | hmem
      · simp at hmem
      · first
          | exact (h.plain _ hmem).2.2.1 rfl
          | exact (h.plain _ hmem).2.2.2 rfl
      · simp at hmem

theorem settings_forgingText {line : Str} (h : Forgeable line) :
    (parsePolicyText (forgingText line)).settings =
      [⟨"json".toList, "a".toList, '\n' :: line, 1⟩] := by
  obtain ⟨hcomma, hbracket⟩ := notMem_forgingText h
  have hother : ∀ l ∈ getlines '\n' (forgingText line), ¬ Recognised (trim (removeComment l)) := by
    rw [getlines_forgingText h]
    refine List.forall_mem_cons.mpr
      ⟨?_, List.forall_mem_cons.mpr ⟨h.unknown, fun l hl => absurd hl List.not_mem_nil⟩⟩
    unfold Recognised
    decide
  have hdigit : ∀ c ∈ ['\x7d'].head?, isDigit c = false := by
    intro c hc
    cases hc
    rfl
  have hpairs := jsonPairsFrom_objectText [forgingField line h]
    (show '"' ∉ ['\x7d'] by decide) hdigit
  have hparse : parseSettings (forgingText line) =
      ([⟨"json".toList, "a".toList, '\n' :: line, 1⟩], []) := by
    rw [parseSettings, if_neg fun hini => hbracket hini.2, if_neg fun hcsv => hcomma hcsv.1,
      if_pos (Or.inr (by simp [forgingText])), parseJsonLikePolicy, forgingText_eq h, hpairs]
    rfl
  rw [parsePolicyText_settings hother, hparse]

/-! ## All lines -/

/-- **The report of a policy.**  Whatever is in the text, the report begins with one line for the
dialect and the numbers of rules and settings and one for each chain, action and protocol that
occurs, with the number of its rules, and ends with one line for each diagnostic.  Between them
there is one line for each setting exactly when no setting holds a newline.  A string of a JSON
text can put a line of its own there. -/
theorem summarizePolicy_lines_iff (text : Str) :
    ∃ chains actions protocols : StrMap Nat,
      getlines '\n' (summarizePolicy (parsePolicyText text)) =
          [policyLine (parsePolicyText text)] ++ chains.toList.map (countLine "chain.") ++
            actions.toList.map (countLine "action.") ++
              protocols.toList.map (countLine "protocol.") ++
            getlines '\n' (textOf ((parsePolicyText text).settings.map settingLine)) ++
            (parsePolicyText text).diagnostics.map Diagnostic.line ∧
      (getlines '\n' (summarizePolicy (parsePolicyText text)) =
          [policyLine (parsePolicyText text)] ++ chains.toList.map (countLine "chain.") ++
            actions.toList.map (countLine "action.") ++
              protocols.toList.map (countLine "protocol.") ++
            (parsePolicyText text).settings.map settingLine ++
            (parsePolicyText text).diagnostics.map Diagnostic.line ↔
        ∀ setting ∈ (parsePolicyText text).settings,
          OneLine setting.section_ ∧ OneLine setting.key ∧ OneLine setting.value) ∧
      Counts chains (parsePolicyText text).firewallRules (fun r => directionName r.chain) ∧
      Counts actions (parsePolicyText text).firewallRules (fun r => actionName r.action) ∧
      Counts protocols (parsePolicyText text).firewallRules (fun r => protocolName r.protocol) ∧
      ∀ line, Forgeable line →
        line ∈ getlines '\n' (summarizePolicy (parsePolicyText (forgingText line))) := by
  have hlines := getlines_summarizePolicy text
  refine ⟨_, _, _, hlines, ⟨fun hsettings setting hsetting => ?_, fun hsettings => ?_⟩,
    counts_countAll _ _,
    counts_countAll _ _, counts_countAll _ _, fun line hline => ?_⟩
  · -- what is read back line by line has no newlines
    have hmem : settingLine setting ∈ getlines '\n' (summarizePolicy (parsePolicyText text)) := by
      rw [hsettings]
      exact List.mem_append_left _ (List.mem_append_right _ (List.mem_map_of_mem hsetting))
    exact oneLine_settingLine.mp (oneLine_of_mem_getlines hmem)
  · rw [hlines, getlines_textOf fun l hl => ?_]
    obtain ⟨setting, hsetting, rfl⟩ := List.mem_map.mp hl
    exact oneLine_settingLine.mpr (hsettings setting hsetting)
  · rw [getlines_summarizePolicy, settings_forgingText hline]
    refine List.mem_append_left _ (List.mem_append_right _ ?_)
    have hcut : textOf ([⟨"json".toList, "a".toList, '\n' :: line, 1⟩].map settingLine) =
        textOf ["setting.json.a=".toList, line] := by
      rw [List.map_singleton, textOf, List.flatMap_singleton, textOf, List.flatMap_cons,
        List.flatMap_singleton]
      rfl
    rw [hcut, getlines_textOf]
    · exact List.mem_cons_of_mem _ (List.mem_singleton_self _)
    · intro l hl
      simp only [List.mem_cons, List.not_mem_nil, or_false] at hl
      rcases hl with rfl | rfl
      · decide
      · exact fun hmem => (hline.plain _ hmem).2.1 rfl

-- a count that no rule stands for
example : Forgeable "chain.INPUT=9".toList :=
  ⟨by simp, by
    unfold Recognised
    decide⟩

end PacketGuard.Policy
