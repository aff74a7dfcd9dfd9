import PacketGuard.Core.Report
import PacketGuard.Rules.Saved

/-! # The reports of rule files and rule sets

`summarize_rules` counts the rules of a file by action, protocol and class, and
`RuleSetManager::summary` lists the signatures of a rule set.  Whatever was read
and whatever was done to the set, a report has exactly the lines that its rules
and its diagnostics give it.
-/
namespace PacketGuard.Rules
open PacketGuard.Core PacketGuard.Packet PacketGuard.Lib

/-- `matching_rules`, with the rules themselves for the pointers to them. -/
def matchingRules (file : RuleFile) (md : PacketMetadata) : List SignatureRule :=
  file.rules.filter fun rule => ruleMatchesPacket rule md

def summarizeRules (file : RuleFile) : Str :=
  let actions := countAll (file.rules.map fun rule => actionName rule.action)
  let protocols := countAll (file.rules.map fun rule => protocolName rule.protocol)
  let classes := countAll
    ((file.rules.filter fun rule => !rule.classtype.isEmpty).map SignatureRule.classtype)
  textOf ["rules=".toList ++ natToString file.rules.length] ++
    textOf (actions.toList.map (countLine "action.")) ++
    textOf (protocols.toList.map (countLine "protocol.")) ++
      textOf (classes.toList.map (countLine "classtype.")) ++
    if file.diagnostics.isEmpty then [] else file.diagnostics.summary

namespace RuleSetManager

/-- The line of `summary` for a signature and the positions filed under it. -/
def sidLine (m : RuleSetManager) (kv : Nat × List Nat) : Str :=
  "sid.".toList ++ natToString kv.1 ++ ".count=".toList ++ natToString kv.2.length ++
    match m.findLatestSid kv.1 with
    | some latest => " latest_rev=".toList ++ natToString latest.rev
    | none => []

def summary (m : RuleSetManager) : Str :=
  textOf
      ["ruleset_rules=".toList ++ natToString m.rules.length,
        "ruleset_generation=".toList ++ natToString m.generation.toNat,
        "ruleset_sids=".toList ++ natToString m.sidIndex.size,
        "ruleset_classtypes=".toList ++ natToString m.classtypeIndex.size] ++
    textOf (m.sidIndex.toList.map m.sidLine) ++
    if m.diagnostics.isEmpty then [] else m.diagnostics.summary

end RuleSetManager

/-! ## Quiet texts -/

/-- The parts of an expression are made of its characters. -/
theorem mem_of_mem_listPart {token part : Str} {c : Char}
    (hpart : part ∈ split (stripBrackets (readNegation (trim token)).2) ',') (hc : c ∈ part) :
    c ∈ token := by
  have hlist := (of_mem_splitOn (mem_split_false.mp hpart).1 hc).1
  have hrest : c ∈ (readNegation (trim token)).2 := by
    unfold stripBrackets at hlist
    split at hlist
    · exact List.mem_of_mem_drop (List.mem_of_mem_take hlist)
    · exact hlist
  unfold readNegation at hrest
  split at hrest
  · exact mem_of_mem_trim (List.mem_of_mem_drop (mem_of_mem_trim hrest))
  · exact mem_of_mem_trim hrest

/-- What cannot be read of an address is quoted. -/
theorem quiet_parseAddressParts {parts : List Str} (h : ∀ p ∈ parts, OneLine p)
    (expr : AddressExpr) :
    QuietFailure (parseAddressParts expr parts) := by
  induction parts generalizing expr with
  | nil => trivial
  | cons part parts ih =>
    have hrest := ih fun p hp => h p (List.mem_cons_of_mem _ hp)
    rw [parseAddressParts]
    refine .ite (fun _ => hrest _) fun _ => .ite (fun _ => hrest _) fun _ => ?_
    split
    · exact OneLine.append (by decide) fun hmem => h part List.mem_cons_self (mem_of_mem_trim hmem)
    · exact hrest _

theorem quiet_parseAddressExpr {token : Str} (h : OneLine token) :
    QuietFailure (parseAddressExpr token) := by
  refine .ite (fun _ => quietFailure (by decide)) fun _ => .ite (fun _ => trivial) fun _ => ?_
  exact quiet_parseAddressParts (fun p hp hmem => h (mem_of_mem_listPart hp hmem)) _

theorem quiet_parsePortNumber (value : Str) : QuietFailure (parsePortNumber value) := by
  refine .ite (fun _ => quietFailure (by decide)) fun _ => ?_
  split
  · exact quietFailure (by decide)
  · trivial

theorem quiet_parsePortRange (token : Str) : QuietFailure (parsePortRange token) := by
  have hbound : ∀ (text : Str) (bound : Nat),
      QuietFailure (if text.isEmpty then .ok bound else parsePortNumber text) :=
    fun text bound => .ite (fun _ => trivial) fun _ => quiet_parsePortNumber text
  unfold parsePortRange
  dsimp only
  split
  · exact (quiet_parsePortNumber _).map fun _ _ => trivial
  · split
    · rename_i e hlo
      exact (hbound _ _).of_eq_error hlo
    · rename_i hhi _
      exact (hbound _ _).of_eq_error hhi
    · exact .ite (fun _ => quietFailure (by decide)) fun _ => trivial

theorem quiet_parsePortExpr (token : Str) : QuietFailure (parsePortExpr token) := by
  refine .ite (fun _ => quietFailure (by decide)) fun _ => .ite (fun _ => trivial) fun _ => ?_
  exact (Outcome.mapM quiet_parsePortRange _).bind fun _ _ => trivial

theorem quiet_required {α : Type} {msg : String} (h : OneLine msg.toList) (x : Option α) :
    QuietFailure (required msg x) := by
  cases x with
  | none => exact h
  | some x => trivial

theorem quiet_readHeader (raw : Str) (line : Nat) {tokens : List Str}
    (h : ∀ t ∈ tokens, OneLine t) :
    QuietFailure (readHeader raw line tokens) := by
  unfold readHeader
  split
  · rename_i action protocol source sourcePorts direction destination destinationPorts
    refine (quiet_required (by decide) _).bind fun _ _ => ?_
    refine (quiet_required (by decide) _).bind fun _ _ => ?_
    refine (quiet_parseAddressExpr (h source (by simp))).bind fun _ _ => ?_
    refine (quiet_parsePortExpr sourcePorts).bind fun _ _ => ?_
    refine (Outcome.ite (fun _ => quietFailure (by decide)) fun _ => trivial :
      QuietFailure (parseDirection direction)).bind fun _ _ => ?_
    refine (quiet_parseAddressExpr (h destination (by simp))).bind fun _ _ => ?_
    exact (quiet_parsePortExpr destinationPorts).bind fun _ _ => trivial
  · exact quietFailure (by decide)

theorem quiet_parseRuleLine (line : Str) (n : Nat) : QuietFailure (parseRuleLine line n) := by
  refine .ite (fun _ => quietFailure (by decide)) fun _ => ?_
  split
  · refine .ite (fun _ => quietFailure (by decide)) fun _ => ?_
    dsimp only
    split
    · rename_i e herror
      exact (quiet_readHeader _ _ fun t ht =>
        OneLine.of_noSpace (noSpace_of_mem_splitWs ht)).of_eq_error herror
    · trivial
  · exact quietFailure (by decide)

theorem quiet_validateRule (rule : SignatureRule) : ∀ w ∈ validateRule rule, OneLine w := by
  intro w hw
  simp only [validateRule, List.mem_append] at hw
  rcases hw with ((((((hw | hw) | hw) | hw) | hw) | hw) | hw) | hw
  iterate 7 exact oneLine_of_mem_ite (by decide) hw
  obtain ⟨kv, -, hw⟩ := List.mem_flatMap.mp hw
  split at hw
  · rename_i hkey
    rw [List.mem_singleton.mp hw]
    have hkeys : ∀ key ∈ singletonKeys, OneLine key := by decide
    rw [Bool.and_eq_true, List.contains_iff_mem] at hkey
    exact OneLine.append (by decide) (hkeys _ hkey.1)
  · cases hw

/-- What is said of a list of texts, each on its own. -/
theorem quietNotes_flatMap_warn {code : Str} (hcode : OneLine code) {texts : List Str}
    {offset : Nat}
    (h : ∀ w ∈ texts, OneLine w) :
    QuietNotes (texts.flatMap fun w => Diagnostics.warn code w offset) := by
  intro d hd
  obtain ⟨w, hw, hd⟩ := List.mem_flatMap.mp hd
  rw [List.mem_singleton.mp hd]
  exact ⟨hcode, h w hw⟩

/-- What is said of some of the items. -/
theorem quiet_flatMap_ite {α : Type} {said : α → Str} (h : ∀ x, OneLine (said x)) (p : α → Prop)
    [DecidablePred p]
    (items : List α) : ∀ w ∈ items.flatMap fun x => if p x then [said x] else [], OneLine w := by
  intro w hw
  obtain ⟨x, -, hw⟩ := List.mem_flatMap.mp hw
  split at hw
  · rw [List.mem_singleton.mp hw]
    exact h x
  · cases hw

theorem quiet_duplicateRuleKeys (rules : List SignatureRule) :
    ∀ w ∈ duplicateRuleKeys rules, OneLine w :=
  quiet_flatMap_ite (fun _ => (OneLine.append (by decide) (.natToString _)).append (by decide)) _ _

theorem quiet_sidRevisionConflicts (rules : List SignatureRule) :
    ∀ w ∈ sidRevisionConflicts rules, OneLine w :=
  quiet_flatMap_ite (fun _ => (OneLine.append (by decide) (.natToString _)).append (by decide)) _ _

/-- **Step lemma** of the loop over the lines of a file. -/
theorem quiet_step {s : RuleScan} (h : QuietNotes s.diagnostics) (line : Str) :
    QuietNotes (s.step line).diagnostics := by
  unfold RuleScan.step
  dsimp only
  split
  · exact h
  split
  · rename_i status herror
    exact h.append (quietNotes_said (by decide) ((quiet_parseRuleLine line _).of_eq_error herror))
  · exact h.append (quietNotes_flatMap_warn (by decide) (quiet_validateRule _))

theorem quiet_parseRuleText (text : Str) : QuietNotes (parseRuleText text).diagnostics := by
  have hscan : QuietNotes (ruleScanMachine.run (getlines '\n' text)).diagnostics :=
    @Machine.run_invariant _ _ ruleScanMachine (fun s => QuietNotes s.diagnostics) (fun _ => True)
      quietNotes_nil
      (fun _ line _ h => quiet_step h line) _ fun _ _ => trivial
  exact (hscan.append (quietNotes_flatMap_warn (by decide) (quiet_duplicateRuleKeys _))).append
    (quietNotes_flatMap_warn (by decide) (quiet_sidRevisionConflicts _))

/-! ## Rule files -/

theorem oneLine_actionName (action : RuleAction) : OneLine (actionName action) := by
  cases action <;> decide

theorem oneLine_protocolName (protocol : RuleProtocol) : OneLine (protocolName protocol) := by
  cases protocol <;> decide

/-- The class of a rule comes from its line. -/
theorem oneLine_classtype {text : Str} {rule : SignatureRule}
    (h : rule ∈ (parseRuleText text).rules) :
    OneLine rule.classtype := by
  obtain ⟨line, n, hline, hparse⟩ := exists_line_of_mem h
  have hclasstype : rule.classtype = (optionValue rule.options "classtype".toList).getD [] :=
    congrArg SignatureRule.classtype (accepted_of_parseRuleLine hparse).derived
  rw [hclasstype]
  cases hvalue : optionValue rule.options "classtype".toList with
  | none => exact .nil
  | some value =>
    obtain ⟨opt, hopt, rfl⟩ := Option.map_eq_some_iff.mp hvalue
    exact newline_notMem_value hparse hline opt (List.mem_of_find?_eq_some hopt)

/-- **The report of a rule file**: whatever is in the text, the report has one line
for the number of its rules, one for each action, protocol and class that occurs,
with the number of its rules, and one for each diagnostic. -/
theorem summarizeRules_lines (text : Str) :
    ∃ actions protocols classes : StrMap Nat,
      getlines '\n' (summarizeRules (parseRuleText text)) =
        ["rules=".toList ++ natToString (parseRuleText text).rules.length] ++
          actions.toList.map (countLine "action.") ++
            protocols.toList.map (countLine "protocol.") ++
          classes.toList.map (countLine "classtype.") ++ (parseRuleText text).diagnostics.map
            Diagnostic.line ∧
      Counts actions (parseRuleText text).rules (fun rule => actionName rule.action) ∧
      Counts protocols (parseRuleText text).rules (fun rule => protocolName rule.protocol) ∧
      Counts classes ((parseRuleText text).rules.filter fun rule => !rule.classtype.isEmpty)
        SignatureRule.classtype := by
  refine ⟨_, _, _, ?_, counts_countAll _ _, counts_countAll _ _, counts_countAll _ _⟩
  rw [summarizeRules]
  simp only [← textOf_append]
  refine getlines_report (fun line hline => ?_) (quiet_parseRuleText text)
  simp only [List.mem_append, or_assoc] at hline
  rcases hline with hline | hline | hline | hline
  · rw [List.mem_singleton.mp hline]
    exact OneLine.append (by decide) (.natToString _)
  · exact oneLine_of_mem_countLines (by decide) (fun rule _ => oneLine_actionName rule.action) hline
  · exact oneLine_of_mem_countLines (by decide) (fun rule _ => oneLine_protocolName rule.protocol)
      hline
  · exact oneLine_of_mem_countLines (by decide)
      (fun rule hrule => oneLine_classtype (List.mem_filter.mp hrule).1) hline

/-! ## Rule sets -/

namespace RuleSetManager

theorem quiet_warn {m : RuleSetManager} (h : QuietNotes m.diagnostics) {code : String}
    {message : Str} {offset : Nat}
    (hcode : OneLine code.toList) (hmessage : OneLine message) :
    QuietNotes (m.warn code message offset).diagnostics :=
  h.append (quietNotes_said hcode hmessage)

theorem quiet_noteValidation {m : RuleSetManager} (h : QuietNotes m.diagnostics)
    (rule : SignatureRule) :
    QuietNotes (noteValidation m rule).diagnostics :=
  h.append (quietNotes_flatMap_warn (by decide) (quiet_validateRule rule))

theorem quiet_touch {m : RuleSetManager} (h : QuietNotes m.diagnostics) :
    QuietNotes m.touch.diagnostics := by
  rw [touch, rebuildIndexes_eq]
  exact h

theorem quiet_addRuleText {m : RuleSetManager} (h : QuietNotes m.diagnostics) (line : Str) :
    QuietNotes (m.addRuleText line).1.diagnostics := by
  unfold addRuleText
  split
  · rename_i status herror
    exact quiet_warn h (by decide) ((quiet_parseRuleLine line _).of_eq_error herror)
  · exact quiet_touch (quiet_noteValidation h _)

theorem quiet_addRuleFileText {m : RuleSetManager} (h : QuietNotes m.diagnostics) (text : Str) :
    QuietNotes (m.addRuleFileText text).1.diagnostics := by
  have hpushed : ∀ (rules : List SignatureRule) {m : RuleSetManager}, QuietNotes m.diagnostics →
      QuietNotes (rules.foldl pushRule m).diagnostics := by
    intro rules
    induction rules with
    | nil => exact fun h => h
    | cons rule rules ih => exact fun h => ih (quiet_noteValidation h rule)
  have hloaded := hpushed (parseRuleText text).rules
    (m := { m with diagnostics := m.diagnostics ++ (parseRuleText text).diagnostics })
      (h.append (quiet_parseRuleText text))
  unfold addRuleFileText
  dsimp only
  split
  · exact quiet_touch hloaded
  · exact hloaded

theorem quiet_replaceRule {m : RuleSetManager} (h : QuietNotes m.diagnostics) (index : Nat)
    (rule : SignatureRule) :
    QuietNotes (m.replaceRule index rule).1.diagnostics := by
  unfold replaceRule
  split
  · exact quiet_warn h (by decide) (by decide)
  · exact quiet_touch (quiet_noteValidation h rule)

theorem quiet_replaceRuleText {m : RuleSetManager} (h : QuietNotes m.diagnostics) (index : Nat)
    (line : Str) :
    QuietNotes (m.replaceRuleText index line).1.diagnostics := by
  unfold replaceRuleText
  split
  · rename_i status herror
    exact quiet_warn h (by decide) ((quiet_parseRuleLine line _).of_eq_error herror)
  · exact quiet_replaceRule h index _

theorem quiet_eraseIndex {m : RuleSetManager} (h : QuietNotes m.diagnostics) (index : Nat) :
    QuietNotes (m.eraseIndex index).1.diagnostics := by
  unfold eraseIndex
  split
  · exact quiet_warn h (by decide) (by decide)
  · exact quiet_touch h

theorem quiet_eraseSid {m : RuleSetManager} (h : QuietNotes m.diagnostics) (sid : Nat) :
    QuietNotes (m.eraseSid sid).1.diagnostics := by
  unfold eraseSid
  dsimp only
  split
  · exact quiet_touch h
  · exact h

theorem quiet_clear {m : RuleSetManager} (h : QuietNotes m.diagnostics) :
    QuietNotes m.clear.diagnostics := by
  unfold clear
  split
  · exact h
  · exact quiet_touch h

/-- **Step lemma**: nothing an operation notes breaks a line. -/
theorem quiet_perform {m : RuleSetManager} (h : QuietNotes m.diagnostics) (op : RuleSetOp) :
    QuietNotes (op.perform m).1.diagnostics := by
  cases op with
  | addRule rule => exact quiet_touch (quiet_noteValidation h rule)
  | addRuleText line => exact quiet_addRuleText h line
  | addRuleFileText text => exact quiet_addRuleFileText h text
  | replaceRule index rule => exact quiet_replaceRule h index rule
  | replaceRuleText index line => exact quiet_replaceRuleText h index line
  | eraseIndex index => exact quiet_eraseIndex h index
  | eraseSid sid => exact quiet_eraseSid h sid
  | clear => exact quiet_clear h
  | rebuildIndexes =>
    change QuietNotes m.rebuildIndexes.diagnostics
    rw [rebuildIndexes_eq]
    exact h

/-- **Run lemma.** -/
theorem quiet_run (ops : List RuleSetOp) : QuietNotes (ruleSetMachine.run ops).diagnostics :=
  @Machine.run_invariant _ _ ruleSetMachine (fun m => QuietNotes m.diagnostics) (fun _ => True)
    quietNotes_nil
    (fun _ op _ h => quiet_perform h op) _ fun _ _ => trivial

end RuleSetManager

/-- The identifiers of the signatures among some rules; 0 is none. -/
def sids (rules : List SignatureRule) : Finset Nat := (rules.filterMap sidKey).toFinset

/-- The classes of some rules, in lower case. -/
def classtypes (rules : List SignatureRule) : Finset Str := (rules.filterMap classtypeKey).toFinset

/-- What a report should say of a signature: how many rules it has and its greatest revision. -/
def sidReport (rules : List SignatureRule) (sid : Nat) : Str :=
  "sid.".toList ++ natToString sid ++ ".count=".toList ++
    natToString (rules.countP fun rule => rule.sid = sid) ++
    (" latest_rev=".toList ++
      natToString (((rules.filter fun rule => rule.sid = sid).map SignatureRule.rev).max?.getD 0))

namespace RuleSetManager

theorem oneLine_sidReport (rules : List SignatureRule) (sid : Nat) :
    OneLine (sidReport rules sid) :=
  (((OneLine.append (by decide) (.natToString _)).append (by decide)).append
    (.natToString _)).append
    (OneLine.append (by decide) (.natToString _))

/-- A rule set that has loaded a text matches what the rules of the text match. -/
theorem matchPacket_addRuleFileText (text : Str) (md : PacketMetadata) :
    ((addRuleFileText {} text).1.matchPacket md).map (fun hit => (hit.sid, hit.rev, hit.message)) =
      (matchingRules (parseRuleText text) md).map fun rule => (rule.sid, rule.rev, rule.msg) := by
  have hfrom : ∀ (rules : List SignatureRule) (start : Nat),
      ((rules.zipIdx start).filterMap fun p =>
          if ruleMatchesPacket p.1 md then some (⟨p.2, p.1.sid, p.1.rev, p.1.msg⟩ : RuleMatch)
            else none).map
        (fun hit => (hit.sid, hit.rev, hit.message)) =
      (rules.filter fun rule => ruleMatchesPacket rule md).map fun rule =>
        (rule.sid, rule.rev, rule.msg) := by
    intro rules
    induction rules with
    | nil => exact fun _ => rfl
    | cons rule rules ih =>
      intro start
      by_cases hmatch : ruleMatchesPacket rule md <;> simp [hmatch, ← ih (start + 1)]
  rw [matchPacket, (addRuleFileText_rules {} text).1]
  exact hfrom _ 0

/-- Where the indexes are those of the rules, the line of a signature is read off the rules. -/
theorem Indexed.sidLine_eq {m : RuleSetManager} (h : Indexed m) {sid : Nat}
    (hmem : sid ∈ sids m.rules) :
    m.sidLine (sid, m.sidIndex[sid]?.getD []) = sidReport m.rules sid := by
  obtain ⟨rule, hrule, hkey⟩ := List.mem_filterMap.mp (List.mem_toFinset.mp hmem)
  obtain ⟨hne, hsid⟩ := sidKey_eq_some.mp hkey
  have hcount : (m.sidIndex[sid]?.getD []).length = m.rules.countP fun rule => rule.sid = sid := by
    rw [h.sid, getD_getElem?_fileAll, length_valuesOf_positionsBy]
    exact List.countP_congr fun rule _ => by simp [sidKey_eq_some, hne]
  have hlatest : (m.findLatestSid sid).map SignatureRule.rev =
      ((m.rules.filter fun rule => rule.sid = sid).map SignatureRule.rev).max? := by
    rw [h.findLatestSid_eq hne, map_latestBy]
  unfold sidLine sidReport
  rw [hcount, ← hlatest]
  cases hfound : m.findLatestSid sid with
  | none =>
    -- the rule that has the key would have been found
    rw [h.findLatestSid_eq hne, latestBy_eq_none, List.filter_eq_nil_iff] at hfound
    exact absurd (decide_eq_true hsid) (hfound rule hrule)
  | some latest => rfl

theorem Indexed.sidLines_eq {m : RuleSetManager} (h : Indexed m) :
    m.sidIndex.toList.map m.sidLine = ((sids m.rules).sort (· ≤ ·)).map (sidReport m.rules) := by
  have hkeys : m.sidIndex.keys = (sids m.rules).sort (· ≤ ·) := by
    rw [h.sid, keys_fileAll, map_fst_positionsBy, sids]
  rw [toList_eq_map_keys, List.map_map, hkeys]
  exact List.map_congr_left fun sid hsid => h.sidLine_eq ((Finset.mem_sort _).mp hsid)

/-- **The report of a rule set is that of its rules**: whatever was done to the set,
its report has one line for each signature, in increasing order, with the number of
its rules and its greatest revision, and one for each diagnostic. -/
theorem summary_lines (ops : List RuleSetOp) :
    getlines '\n' (ruleSetMachine.run ops).summary =
      ["ruleset_rules=".toList ++ natToString (ruleSetMachine.run ops).rules.length,
        "ruleset_generation=".toList ++ natToString (ruleSetMachine.run ops).generation.toNat,
        "ruleset_sids=".toList ++ natToString (sids (ruleSetMachine.run ops).rules).card,
        "ruleset_classtypes=".toList ++
          natToString (classtypes (ruleSetMachine.run ops).rules).card] ++
      ((sids (ruleSetMachine.run ops).rules).sort (· ≤ ·)).map
      (sidReport (ruleSetMachine.run ops).rules) ++
      (ruleSetMachine.run ops).diagnostics.map Diagnostic.line := by
  have hindexed := indexed_run ops
  have hquiet := quiet_run ops
  generalize ruleSetMachine.run ops = m at hindexed hquiet ⊢
  have hsids : m.sidIndex.size = (sids m.rules).card := by
    rw [hindexed.sid, size_fileAll, map_fst_positionsBy, sids]
  have hclasstypes : m.classtypeIndex.size = (classtypes m.rules).card := by
    rw [hindexed.classtype, size_fileAll, map_fst_positionsBy, classtypes]
  rw [summary, hindexed.sidLines_eq, hsids, hclasstypes, ← textOf_append]
  refine getlines_report (fun line hline => ?_) hquiet
  rcases List.mem_append.mp hline with hline | hline
  · simp only [List.mem_cons, List.not_mem_nil, or_false] at hline
    rcases hline with rfl | rfl | rfl | rfl
    all_goals exact OneLine.append (by decide) (.natToString _)
  · obtain ⟨sid, -, rfl⟩ := List.mem_map.mp hline
    exact oneLine_sidReport _ _

end RuleSetManager
end PacketGuard.Rules
