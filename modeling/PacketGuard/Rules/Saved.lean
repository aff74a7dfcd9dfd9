import PacketGuard.Core.CommentSpans
import PacketGuard.Core.TextFile
import PacketGuard.Rules.BulkLoad
import PacketGuard.Rules.RoundTrip

/-! # Rules saved in their normal form

A rule file can be written out again, each rule in its normal form on a line of
its own.  What is read back differs from the rules that were saved in the order
of the options and in the numbers and the texts of the lines only.  So a rule set
that loads the saved file answers as one that loads the file itself.

Two things have to be seen beside the round trip of one line.  A normal form is
one line: every part of an option is made of characters of the line that was read
(`mem_of_mem_splitOptionBodyFrom`), which has no newline.  And the checks and
reviews that a file reports do not change with what changes: they count options by
key, and group rules by key or signature (`validateRule_normalForm`,
`reviews_normalForms`).
-/
namespace PacketGuard.Rules
open PacketGuard.Core PacketGuard.Packet PacketGuard.Lib

/-! ## Lines -/

/-- What is left of a line is its beginning. -/
theorem removeCommentFrom_isPrefix (quote prev : Option Char) (line : Str) :
    removeCommentFrom quote prev line <+: line := by
  induction line generalizing quote prev with
  | nil => exact List.prefix_rfl
  | cons c rest ih =>
    rw [removeCommentFrom_cons]
    split
    · exact List.nil_prefix
    · exact (List.prefix_cons_inj c).mpr (ih _ _)

theorem mem_clean {line : Str} {c : Char} (h : c ∈ trim (removeComment line)) : c ∈ line :=
  (removeCommentFrom_isPrefix none none line).subset (mem_of_mem_trim h)

theorem mem_of_mem_stripQuotes {value : Str} {c : Char} (h : c ∈ stripQuotes value) :
    c ∈ value := by
  unfold stripQuotes at h
  simp only at h
  split at h
  · exact mem_of_mem_trim (List.mem_of_mem_drop (List.mem_of_mem_take h))
  · exact mem_of_mem_trim h

theorem mem_of_mem_trimmedPart {cur p : Str} {c : Char} (hp : p ∈ trimmedPart cur) (hc : c ∈ p) :
    c ∈ cur := by
  unfold trimmedPart at hp
  split at hp
  · cases hp
  · rw [List.mem_singleton.mp hp] at hc
    exact mem_of_mem_trim hc

/-- The parts of a body are made of its characters. -/
theorem mem_of_mem_splitOptionBodyFrom {cur body p : Str} {inQuote escaped : Bool} {c : Char}
    (hp : p ∈ splitOptionBodyFrom cur inQuote escaped body) (hc : c ∈ p) : c ∈ cur ++ body := by
  induction body generalizing cur inQuote escaped with
  | nil => exact List.mem_append_left _ (mem_of_mem_trimmedPart hp hc)
  | cons d rest ih =>
    have hkeep : ∀ {inQuote escaped : Bool}, p ∈ splitOptionBodyFrom (cur ++ [d]) inQuote
        escaped rest →
        c ∈ cur ++ d :: rest := by
      intro inQuote escaped hp
      simpa using ih hp
    rw [splitOptionBodyFrom_cons cur (inQuote, escaped) d] at hp
    split at hp
    · rcases List.mem_append.mp hp with hp | hp
      · exact List.mem_append_left _ (mem_of_mem_trimmedPart hp hc)
      · exact List.mem_append_right _ (List.mem_cons_of_mem _ (by simpa using ih hp))
    · exact hkeep hp

/-- The value of an option is made of the characters of its part, when it has one. -/
theorem mem_of_mem_parseOption {part : Str} {c : Char} (h : c ∈ (parseOption part).value) :
    c ∈ "true".toList ∨ c ∈ part := by
  unfold parseOption at h
  split at h
  · exact Or.inl h
  · exact Or.inr (List.mem_of_mem_drop (mem_of_mem_trim (mem_of_mem_stripQuotes h)))

/-- The options of a rule stay on its line. -/
theorem newline_notMem_value {line : Str} {n : Nat} {rule : SignatureRule}
    (h : parseRuleLine line n = .ok rule)
    (hline : '\n' ∉ line) : ∀ opt ∈ rule.options, '\n' ∉ opt.value := by
  unfold parseRuleLine at h
  simp only at h
  split at h
  · cases h
  split at h
  · split at h
    · cases h
    · split at h
      · cases h
      · cases h
        intro opt hopt hmem
        obtain ⟨part, hpart, rfl⟩ := List.mem_map.mp (List.mem_filter.mp hopt).1
        rcases mem_of_mem_parseOption hmem with hmem | hmem
        · exact absurd hmem (by decide)
        · have hbody := mem_of_mem_splitOptionBodyFrom hpart hmem
          exact hline (mem_clean (List.mem_of_mem_drop (List.mem_of_mem_take hbody)))
  · cases h

/-! ## Normal forms -/

/-- A rule as it is read back from its normal form, on line `n`. -/
def normalForm (rule : SignatureRule) (n : Nat) : SignatureRule :=
  { rule with options := sortOptions rule.options, raw := normalizeRule rule, line := n }

/-- The rules of a saved file, each on its line. -/
def normalForms (rules : List SignatureRule) : List SignatureRule :=
  (rules.zipIdx 1).map fun r => normalForm r.1 r.2

/-- The file that holds some rules. -/
def savedText (rules : List SignatureRule) : Str := textOf (rules.map normalizeRule)

/-- A rule that can be saved. -/
structure Saveable (rule : SignatureRule) : Prop where
  accepted : Accepted rule
  printable : rule.Printable
  oneLine : ∀ opt ∈ rule.options, '\n' ∉ opt.value

theorem normalizeRule_normalForm (rule : SignatureRule) (n : Nat) :
    normalizeRule (normalForm rule n) = normalizeRule rule := by
  simp only [normalForm, normalizeRule, sortOptions_sortOptions]

namespace Saveable
variable {rule : SignatureRule}

theorem newline_notMem_optionText {opt : RuleOption} (h : opt.Printable)
    (hvalue : '\n' ∉ opt.value) :
    '\n' ∉ optionText opt := by
  have hkey : '\n' ∉ opt.key := fun hc => absurd (h.noSpace_key _ hc) (by decide)
  unfold optionText optionPart
  split <;> simp [hkey, hvalue]

/-- The normal form is one line. -/
theorem newline_notMem_normalizeRule (h : Saveable rule) : '\n' ∉ normalizeRule rule := by
  have htokens := headerTokens_valid h.accepted h.printable
  have hheader : '\n' ∉ (headerTokens rule).flatMap (· ++ [' ']) :=
    notMem_header (by decide) fun t ht hc => absurd ((htokens t ht).noSpace _ hc) (by decide)
  have hoptions : '\n' ∉ (sortOptions rule.options).flatMap optionText := by
    intro hmem
    obtain ⟨opt, hopt, hc⟩ := List.mem_flatMap.mp hmem
    have hopt' := option_mem_sortOptions.mp hopt
    exact newline_notMem_optionText (h.printable.option opt hopt') (h.oneLine opt hopt') hc
  rw [normalizeRule_eq]
  simp [hheader, hoptions]

/-- **The normal form is read back.** -/
theorem parse_normalizeRule (h : Saveable rule) (n : Nat) :
    parseRuleLine (normalizeRule rule) n = .ok (normalForm rule n) :=
  parseRuleLine_of_printable h.accepted h.printable n

/-- A rule of a text without newlines that is `Reprintable` can be saved. -/
theorem of_parseRuleLine {line : Str} {n : Nat} (h : parseRuleLine line n = .ok rule)
    (hline : '\n' ∉ line)
    (hrule : rule.Reprintable) : Saveable rule where
  accepted := accepted_of_parseRuleLine h
  printable := printable_of_accepted (accepted_of_parseRuleLine h) hrule
  oneLine := newline_notMem_value h hline

end Saveable

/-! ## Checks -/

/-- The check counts the options of each key. -/
theorem validateRule_normalForm (rule : SignatureRule) (n : Nat) :
    validateRule (normalForm rule n) = validateRule rule := by
  have hcounts : (fileAll ((sortOptions rule.options).map fun opt => (opt.key, ())) : Multimap
      Str Unit) =
      fileAll (rule.options.map fun opt => (opt.key, ())) := by
    refine fileAll_congr fun k => ?_
    have hfilter : ∀ options : List RuleOption, valuesOf k (options.map fun opt => (opt.key, ())) =
        (options.filter (·.key == k)).map fun _ => () := by
      intro options
      rw [valuesOf, List.filter_map, List.map_map]
      simp [Function.comp_def, beq_eq_decide]
    rw [hfilter, hfilter, filter_sortOptions]
  unfold validateRule
  simp only [normalForm, hcounts]
  rfl

/-- The rules, each on its line. -/
theorem zipIdx_map_normalForm {β : Type} {f : SignatureRule → β}
    (h : ∀ rule n, f (normalForm rule n) = f rule)
    (rules : List SignatureRule) : (normalForms rules).map f = rules.map f := by
  have hrules : rules.map f = ((rules.zipIdx 1).map Prod.fst).map f := by rw [List.zipIdx_map_fst]
  rw [hrules, normalForms, List.map_map, List.map_map]
  exact List.map_congr_left fun r _ => h r.1 r.2

/-- What the reviews of a file have to say. -/
def reviews (rules : List SignatureRule) : Diagnostics :=
  (duplicateRuleKeys rules).flatMap (Diagnostics.warn "rule.duplicate".toList ·) ++
    (sidRevisionConflicts rules).flatMap (Diagnostics.warn "rule.sid".toList ·)

/-- The reviews look at keys, signatures and revisions. -/
theorem reviews_normalForms (rules : List SignatureRule) :
    reviews (normalForms rules) = reviews rules := by
  have hkeys : (normalForms rules).map (fun rule => (ruleKey rule, rule.sid)) =
      rules.map fun rule => (ruleKey rule, rule.sid) := zipIdx_map_normalForm (fun _ _ => rfl) rules
  have hrevs : ((normalForms rules).filter fun rule => rule.sid != 0).map
      (fun rule => (rule.sid, rule.rev)) =
      (rules.filter fun rule => rule.sid != 0).map fun rule => (rule.sid, rule.rev) := by
    have hfilter : ∀ rules : List SignatureRule, (rules.filter fun rule => rule.sid != 0).map
        (fun rule => (rule.sid, rule.rev)) =
        (rules.map fun rule => (rule.sid, rule.rev)).filter fun r => r.1 != 0 := by
      intro rules
      rw [List.filter_map]
      rfl
    rw [hfilter, hfilter, zipIdx_map_normalForm fun _ _ => rfl]
  rw [reviews, reviews, duplicateRuleKeys, duplicateRuleKeys, hkeys, sidRevisionConflicts,
    sidRevisionConflicts, hrevs]

/-- What the check of a rule has to say on line `n`. -/
def validationNotes (rule : SignatureRule) (n : Nat) : Diagnostics :=
  (validateRule rule).flatMap fun w => Diagnostics.warn "rule.validate".toList w n

/-! ## Files -/

/-- **Step lemma.** -/
theorem RuleScan.step_saved (s : RuleScan) {rule : SignatureRule} (h : Saveable rule) :
    s.step (normalizeRule rule) =
      { lineNo := s.lineNo + 1
        rules := s.rules ++ [normalForm rule (s.lineNo + 1)]
        diagnostics := s.diagnostics ++ validationNotes rule (s.lineNo + 1) } := by
  have hclean := removeComment_normalizeRule h.accepted h.printable
  have hne : (normalizeRule rule).isEmpty = false := by
    rw [List.isEmpty_eq_false_iff, normalizeRule_eq]
    simp
  unfold RuleScan.step
  simp only [hclean, hne, h.parse_normalizeRule, validateRule_normalForm]
  rfl

theorem ruleScanMachine_step (s : RuleScan) (line : Str) :
    ruleScanMachine.step s line = s.step line :=
  rfl

/-- **Run lemma.** -/
theorem ruleScanMachine_saved {rules : List SignatureRule} (h : ∀ rule ∈ rules, Saveable rule) :
    ruleScanMachine.run (rules.map normalizeRule) =
      { lineNo := rules.length
        rules := normalForms rules
        diagnostics := (rules.zipIdx 1).flatMap fun r => validationNotes r.1 r.2 } := by
  induction rules using List.reverseRecOn with
  | nil => rfl
  | append_singleton rules rule ih =>
    have hrules := ih fun r hr => h r (List.mem_append_left _ hr)
    rw [List.map_append, List.map_singleton, Machine.run_concat, hrules]
    rw [ruleScanMachine_step, RuleScan.step_saved _ (h rule (by simp))]
    simp [normalForms, List.zipIdx_append, Nat.add_comm 1]

/-- **A saved file is read back.** -/
theorem parseRuleText_savedText {rules : List SignatureRule} (h : ∀ rule ∈ rules, Saveable rule) :
    parseRuleText (savedText rules) =
      { rules := normalForms rules
        diagnostics := ((rules.zipIdx 1).flatMap fun r => validationNotes r.1 r.2) ++
          reviews rules } := by
  have hlines : getlines '\n' (savedText rules) = rules.map normalizeRule := by
    refine getlines_textOf fun line hline => ?_
    obtain ⟨rule, hrule, rfl⟩ := List.mem_map.mp hline
    exact (h rule hrule).newline_notMem_normalizeRule
  unfold parseRuleText
  simp only [hlines, ruleScanMachine_saved h]
  rw [List.append_assoc, ← reviews_normalForms]
  rfl

/-- The rules of a text are those of lines without newlines. -/
theorem exists_line_of_mem {text : Str} {rule : SignatureRule}
    (h : rule ∈ (parseRuleText text).rules) :
    ∃ line n, '\n' ∉ line ∧ parseRuleLine line n = .ok rule := by
  have hrun : ∀ lines : List Str, (∀ line ∈ lines, '\n' ∉ line) →
      ∀ rule ∈ (ruleScanMachine.run lines).rules,
      ∃ line n, '\n' ∉ line ∧ parseRuleLine line n = .ok rule := by
    intro lines
    induction lines using List.reverseRecOn with
    | nil => exact fun _ rule hrule => absurd hrule List.not_mem_nil
    | append_singleton lines line ih =>
      intro hlines rule hrule
      have hold := ih fun l hl => hlines l (List.mem_append_left _ hl)
      rw [Machine.run_concat] at hrule
      change rule ∈ (RuleScan.step _ line).rules at hrule
      unfold RuleScan.step at hrule
      simp only at hrule
      split at hrule
      · exact hold rule hrule
      · split at hrule
        · exact hold rule hrule
        · rename_i parsed hparsed
          rcases List.mem_append.mp hrule with hrule | hrule
          · exact hold rule hrule
          · rw [List.mem_singleton.mp hrule]
            exact ⟨line, _, hlines line (by simp), hparsed⟩
  refine hrun _ (fun line hline hmem => ?_) rule h
  have hpiece : line ∈ text.splitOn '\n' := by
    obtain hpieces | hpieces := splitOn_eq_getlines '\n' text
    · rw [hpieces]
      exact hline
    · rw [hpieces]
      exact List.mem_append_left _ hline
  exact (of_mem_splitOn hpiece hmem).2 rfl

/-! ## Rule sets -/

/-- Two rule sets with the same indexes that report the same matches. -/
structure AnswerAlike (m m' : RuleSetManager) : Prop where
  sidIndex : m.sidIndex = m'.sidIndex
  classtypeIndex : m.classtypeIndex = m'.classtypeIndex
  matchPacket : ∀ md, m.matchPacket md = m'.matchPacket md

/-- What a rule set looks at in a rule. -/
def forgetText (rule : SignatureRule) : SignatureRule :=
  { rule with options := [], raw := [], line := 0 }

theorem matchPacket_forgetText (m : RuleSetManager) (md : PacketMetadata) :
    RuleSetManager.matchPacket { m with rules := m.rules.map forgetText } md =
      m.matchPacket md := by
  unfold RuleSetManager.matchPacket
  rw [List.zipIdx_map, List.filterMap_map]
  rfl

theorem answerAlike_of_rules {m m' : RuleSetManager} (h : m.Indexed) (h' : m'.Indexed)
    (hrules : m.rules.map forgetText = m'.rules.map forgetText) : AnswerAlike m m' where
  sidIndex := by
    have hkeys : ∀ rule, sidKey (forgetText rule) = sidKey rule := fun _ => rfl
    rw [h.sid, h'.sid, ← positionsBy_map hkeys m.rules, hrules, positionsBy_map hkeys]
  classtypeIndex := by
    have hkeys : ∀ rule, classtypeKey (forgetText rule) = classtypeKey rule := fun _ => rfl
    rw [h.classtype, h'.classtype, ← positionsBy_map hkeys m.rules, hrules, positionsBy_map hkeys]
  matchPacket md := by
    rw [← matchPacket_forgetText m, ← matchPacket_forgetText m', hrules]
    rfl

/-- **A rule file survives being saved in normal form.** The saved file is read back
rule by rule, with the same reviews and nothing that cannot be read, it is saved as
itself, and any rule set answers alike when it loads the one or the other. -/
theorem parseRuleText_saved (text : Str)
    (h : ∀ rule ∈ (parseRuleText text).rules, rule.Reprintable) :
    let rules := (parseRuleText text).rules
    parseRuleText (savedText rules) =
        { rules := normalForms rules
          diagnostics := ((rules.zipIdx 1).flatMap fun r => validationNotes r.1 r.2) ++
            reviews rules } ∧
      savedText (parseRuleText (savedText rules)).rules = savedText rules ∧
      ∀ ops, AnswerAlike ((ruleSetMachine.run ops).addRuleFileText (savedText rules)).1
        ((ruleSetMachine.run ops).addRuleFileText text).1 := by
  have hsaveable : ∀ rule ∈ (parseRuleText text).rules, Saveable rule := by
    intro rule hrule
    obtain ⟨line, n, hline, hparse⟩ := exists_line_of_mem hrule
    exact Saveable.of_parseRuleLine hparse hline (h rule hrule)
  have hread := parseRuleText_savedText hsaveable
  refine ⟨hread, ?_, fun ops => ?_⟩
  · rw [hread, savedText, savedText, zipIdx_map_normalForm normalizeRule_normalForm]
  · refine answerAlike_of_rules
      (RuleSetManager.indexed_perform (RuleSetManager.indexed_run ops) (.addRuleFileText _))
      (RuleSetManager.indexed_perform (RuleSetManager.indexed_run ops) (.addRuleFileText _)) ?_
    show ((ruleSetMachine.run ops).addRuleFileText _).1.rules.map forgetText =
      ((ruleSetMachine.run ops).addRuleFileText _).1.rules.map forgetText
    rw [(RuleSetManager.addRuleFileText_rules _ _).1, (RuleSetManager.addRuleFileText_rules _ _).1,
      hread, List.map_append, List.map_append, zipIdx_map_normalForm fun _ _ => rfl]

/-- A file of one rule with its options out of order, and a line that is no rule. -/
def webFile : Str := "alert tcp any any -> any 80 (sid:7; msg:\"w; x\";)\nno rule\n".toList

def webRule : SignatureRule where
  action := .alert
  protocol := .tcp
  destinationPorts := { any := false, ranges := [(80, 80)] }
  options := [⟨"sid".toList, "7".toList⟩, ⟨"msg".toList, "w; x".toList⟩]
  msg := "w; x".toList
  sid := 7
  raw := "alert tcp any any -> any 80 (sid:7; msg:\"w; x\";)".toList
  line := 1

theorem reprintable_webRule : webRule.Reprintable where
  source := ⟨fun _ => rfl, fun h => absurd h (by decide)⟩
  sourcePorts := ⟨fun _ => rfl, fun h => absurd h (by decide)⟩
  destination := ⟨fun _ => rfl, fun h => absurd h (by decide)⟩
  destinationPorts := ⟨fun h => absurd h (by decide), fun _ => List.cons_ne_nil _ _⟩
  var := by simp [webRule]
  key := by
    simp [webRule]
    decide
  value := by simp [webRule]

theorem parseRuleText_saved_webFile :
    savedText (parseRuleText webFile).rules =
      "alert tcp any any -> any 80 (msg:\"w; x\"; sid:\"7\"; )\n".toList ∧
      AnswerAlike (({} : RuleSetManager).addRuleFileText
        (savedText (parseRuleText webFile).rules)).1
        (({} : RuleSetManager).addRuleFileText webFile).1 := by
  have hrules : (parseRuleText webFile).rules = [webRule] := rfl
  have hsaved : savedText [webRule] =
      "alert tcp any any -> any 80 (msg:\"w; x\"; sid:\"7\"; )\n".toList := rfl
  have hread := parseRuleText_saved webFile (by rw [hrules]; simpa using reprintable_webRule)
  refine ⟨?_, hread.2.2 []⟩
  rw [hrules, hsaved]

end PacketGuard.Rules
