import PacketGuard.Rules.RuleSetIndex

/-! # Loading a text at once and line by line

Both paths keep the rules of the lines that parse, in order; they differ in the
line numbers they give them, in the diagnostics and in the generation.  Neither
the indexes nor the matcher look at a line number.
-/
namespace PacketGuard.Rules
open PacketGuard.Core PacketGuard.Packet PacketGuard.Lib

/-! ## Line numbers -/

/-- The rule with a line number. -/
def withLine (line : Nat) (rule : SignatureRule) : SignatureRule := { rule with line := line }

/-- The rule with everything but its line number. -/
def forgetLine (rule : SignatureRule) : SignatureRule := withLine 0 rule

theorem readHeader_line (raw : Str) (line : Nat) (tokens : List Str) :
    readHeader raw line tokens = (readHeader raw 0 tokens).map (withLine line) := by
  unfold readHeader
  split
  · rename_i action protocol source sourcePorts direction destination destinationPorts
    cases required "unknown rule action" (parseAction action) with
    | error e => rfl
    | ok _ =>
    cases required "unknown rule protocol" (parseProtocol protocol) with
    | error e => rfl
    | ok _ =>
    cases parseAddressExpr source with
    | error e => rfl
    | ok _ =>
    cases parsePortExpr sourcePorts with
    | error e => rfl
    | ok _ =>
    cases parseDirection direction with
    | error e => rfl
    | ok _ =>
    cases parseAddressExpr destination with
    | error e => rfl
    | ok _ =>
    cases parsePortExpr destinationPorts with
    | error e => rfl
    | ok _ => rfl
  · rfl

/-- The line number is only put into the rule. -/
theorem parseRuleLine_line (text : Str) (line : Nat) :
    parseRuleLine text line = (parseRuleLine text).map (withLine line) := by
  unfold parseRuleLine
  simp only
  split
  · rfl
  · split
    · split
      · rfl
      · rw [readHeader_line]
        cases readHeader _ 0 _ with
        | error e => rfl
        | ok rule => rfl
    · rfl

/-- The rule of a line, whatever its number. -/
def ruleOfLine (line : Str) : Option SignatureRule := (parseRuleLine line).toOption.map forgetLine

theorem ruleOfLine_of_error {text : Str} {line : Nat} {status : Status}
    (h : parseRuleLine text line = .error status) : ruleOfLine text = none := by
  rw [parseRuleLine_line] at h
  unfold ruleOfLine
  cases hzero : parseRuleLine text with
  | error e => rfl
  | ok rule =>
    rw [hzero] at h
    cases h

theorem ruleOfLine_of_ok {text : Str} {line : Nat} {rule : SignatureRule}
    (h : parseRuleLine text line = .ok rule) : ruleOfLine text = some (forgetLine rule) := by
  rw [parseRuleLine_line] at h
  unfold ruleOfLine
  cases hzero : parseRuleLine text with
  | error e =>
    rw [hzero] at h
    cases h
  | ok parsed =>
    rw [hzero] at h
    cases h
    rfl

/-- A line that is skipped has no rule. -/
theorem ruleOfLine_of_isEmpty {text : Str} (h : (trim (removeComment text)).isEmpty = true) :
    ruleOfLine text = none := by
  have hparse : parseRuleLine text = failure "empty rule line" := by
    unfold parseRuleLine
    exact if_pos h
  exact ruleOfLine_of_error hparse

/-! ## The two paths -/

/-- **Step lemma.**  A turn of the scan keeps the rule of its line. -/
theorem step_rules (s : RuleScan) (line : Str) :
    (s.step line).rules.map forgetLine = s.rules.map forgetLine ++ (ruleOfLine line).toList := by
  unfold RuleScan.step
  simp only
  by_cases hskip : (trim (removeComment line)).isEmpty
  · rw [if_pos hskip, ruleOfLine_of_isEmpty hskip]
    exact (List.append_nil _).symm
  · rw [if_neg hskip]
    cases hline : parseRuleLine line (s.lineNo + 1) with
    | error status =>
      rw [ruleOfLine_of_error hline]
      exact (List.append_nil _).symm
    | ok rule =>
      rw [ruleOfLine_of_ok hline]
      exact List.map_append

/-- **Run lemma.** -/
theorem run_rules (lines : List Str) :
    (ruleScanMachine.run lines).rules.map forgetLine = lines.filterMap ruleOfLine := by
  induction lines using List.reverseRecOn with
  | nil => rfl
  | append_singleton lines line ih =>
    rw [Machine.run_concat, List.filterMap_append, ← ih]
    refine (step_rules _ line).trans ?_
    cases hline : ruleOfLine line <;> simp [hline]

/-- The rules of a text are those of its pieces. -/
theorem parseRuleText_rules (text : Str) :
    (parseRuleText text).rules.map forgetLine = (text.splitOn '\n').filterMap ruleOfLine := by
  refine (run_rules _).trans ?_
  obtain hpieces | hpieces := splitOn_eq_getlines '\n' text
  · rw [hpieces]
  · rw [hpieces, List.filterMap_append]
    exact (List.append_nil _).symm

namespace RuleSetManager

/-- Add lines one after the other, with what the calls return. -/
def addRuleTexts (m : RuleSetManager) : List Str → RuleSetManager × List Bool
  | [] => (m, [])
  | line :: lines =>
    let (m, added) := m.addRuleText line
    let (m, answers) := addRuleTexts m lines
    (m, added :: answers)

theorem addRuleTexts_cons (m : RuleSetManager) (line : Str) (lines : List Str) :
    m.addRuleTexts (line :: lines) =
      (((m.addRuleText line).1.addRuleTexts lines).1,
        (m.addRuleText line).2 :: ((m.addRuleText line).1.addRuleTexts lines).2) :=
  rfl

theorem addRuleText_rules (m : RuleSetManager) (line : Str) :
    (m.addRuleText line).1.rules.map forgetLine =
        m.rules.map forgetLine ++ (ruleOfLine line).toList ∧
      (m.addRuleText line).2 = (ruleOfLine line).isSome := by
  unfold addRuleText
  cases hline : parseRuleLine line (m.rules.length + 1) with
  | error status =>
    rw [ruleOfLine_of_error hline]
    exact ⟨(List.append_nil _).symm, rfl⟩
  | ok rule =>
    rw [ruleOfLine_of_ok hline]
    simp only [addRule, touch, rebuildIndexes_eq]
    exact ⟨List.map_append, rfl⟩

theorem indexed_addRuleText {m : RuleSetManager} (h : Indexed m) (line : Str) :
    Indexed (m.addRuleText line).1 :=
  indexed_perform h (.addRuleText line)

/-- Line by line: the rules of the lines, and as many answers `true`. -/
theorem addRuleTexts_rules {m : RuleSetManager} (h : Indexed m) (lines : List Str) :
    Indexed (m.addRuleTexts lines).1 ∧
      (m.addRuleTexts lines).1.rules.map forgetLine =
        m.rules.map forgetLine ++ lines.filterMap ruleOfLine ∧
      (m.addRuleTexts lines).2.count true = (lines.filterMap ruleOfLine).length := by
  induction lines generalizing m with
  | nil => exact ⟨h, (List.append_nil _).symm, rfl⟩
  | cons line lines ih =>
    obtain ⟨hrules, hadded⟩ := addRuleText_rules m line
    obtain ⟨hindexed, hrest, hcount⟩ := ih (indexed_addRuleText h line)
    refine ⟨hindexed, ?_, ?_⟩
    · rw [addRuleTexts_cons, hrest, hrules, List.append_assoc]
      cases hline : ruleOfLine line <;> simp [hline]
    · rw [addRuleTexts_cons, hadded]
      cases hline : ruleOfLine line <;> simp [hline, hcount]

/-- At once: the rules of the lines, and their number. -/
theorem addRuleFileText_forgetLine {m : RuleSetManager} (h : Indexed m) (text : Str) :
    Indexed (m.addRuleFileText text).1 ∧
      (m.addRuleFileText text).1.rules.map forgetLine =
        m.rules.map forgetLine ++ (text.splitOn '\n').filterMap ruleOfLine ∧
      (m.addRuleFileText text).2 = ((text.splitOn '\n').filterMap ruleOfLine).length := by
  obtain ⟨hrules, hcount⟩ := addRuleFileText_rules m text
  refine ⟨indexed_perform h (.addRuleFileText text), ?_, ?_⟩
  · rw [hrules, List.map_append, parseRuleText_rules]
  · rw [hcount, ← parseRuleText_rules, List.length_map]

/-! ## What does not depend on line numbers -/

/-- Two rule sets that answer alike. -/
structure Alike (m m' : RuleSetManager) : Prop where
  rules : m.rules.map forgetLine = m'.rules.map forgetLine
  sidIndex : m.sidIndex = m'.sidIndex
  classtypeIndex : m.classtypeIndex = m'.classtypeIndex
  matchPacket : ∀ md, m.matchPacket md = m'.matchPacket md

theorem matchPacket_forgetLine (m : RuleSetManager) (md : PacketMetadata) :
    matchPacket { m with rules := m.rules.map forgetLine } md = m.matchPacket md := by
  unfold matchPacket
  rw [List.zipIdx_map, List.filterMap_map]
  rfl

theorem alike_of_rules {m m' : RuleSetManager} (h : Indexed m) (h' : Indexed m')
    (hrules : m.rules.map forgetLine = m'.rules.map forgetLine) : Alike m m' where
  rules := hrules
  sidIndex := by
    have hkeys : ∀ rule, sidKey (forgetLine rule) = sidKey rule := fun _ => rfl
    rw [h.sid, h'.sid, ← positionsBy_map hkeys m.rules, hrules, positionsBy_map hkeys]
  classtypeIndex := by
    have hkeys : ∀ rule, classtypeKey (forgetLine rule) = classtypeKey rule := fun _ => rfl
    rw [h.classtype, h'.classtype, ← positionsBy_map hkeys m.rules, hrules, positionsBy_map hkeys]
  matchPacket md := by
    rw [← matchPacket_forgetLine m, ← matchPacket_forgetLine m', hrules]
    rfl

/-- **Loading a text at once and line by line gives rule sets that answer alike.** -/
theorem addRuleFileText_alike_addRuleTexts (ops : List RuleSetOp) (text : Str) :
    Alike ((ruleSetMachine.run ops).addRuleFileText text).1
        ((ruleSetMachine.run ops).addRuleTexts (text.splitOn '\n')).1 ∧
      ((ruleSetMachine.run ops).addRuleFileText text).2 =
        ((ruleSetMachine.run ops).addRuleTexts (text.splitOn '\n')).2.count true := by
  have h := indexed_run ops
  obtain ⟨hbulk, hrules, hcount⟩ := addRuleFileText_forgetLine h text
  obtain ⟨heach, hrules', hcount'⟩ := addRuleTexts_rules h (text.splitOn '\n')
  exact ⟨alike_of_rules hbulk heach (hrules.trans hrules'.symm), hcount.trans hcount'.symm⟩

end RuleSetManager
end PacketGuard.Rules
