import PacketGuard.Lib.Machine
import PacketGuard.Lib.Multimap
import PacketGuard.Rules.Rule

/-! Rule texts: `parse_rule_text`, the check of a rule and the reviews of a file
(`rules/rules.cpp`). -/
namespace PacketGuard.Rules
open PacketGuard.Core PacketGuard.Lib

structure RuleFile where
  rules : List SignatureRule := []
  diagnostics : Diagnostics := []

/-! ## Checks -/

/-- The options that `validate_rule` expects at most once. -/
def singletonKeys : List Str :=
  ["sid".toList, "rev".toList, "msg".toList, "classtype".toList, "reference".toList,
    "metadata".toList]

/-- The expression has one of the ports. -/
def PortExpr.hitsAny (e : PortExpr) (ports : List Nat) : Bool := ports.any e.hits

def validateRule (rule : SignatureRule) : List Str :=
  let counts : Multimap Str Unit := fileAll (rule.options.map fun opt => (opt.key, ()))
  (if rule.action = .unknown then ["unknown action".toList] else []) ++
  (if rule.protocol = .unknown then ["unknown protocol".toList] else []) ++
  (if rule.sid = 0 then ["missing sid".toList] else []) ++
  (if rule.rev = 0 then ["missing rev".toList] else []) ++
  (if rule.msg.isEmpty then ["missing msg".toList] else []) ++
  (if rule.protocol = .dns ∧ !rule.destinationPorts.hitsAny [53] ∧
    !rule.sourcePorts.hitsAny [53] then
    ["dns rule does not reference port 53".toList]
  else []) ++
  (if rule.protocol = .http ∧ !rule.destinationPorts.hitsAny [80, 443] ∧
      !rule.sourcePorts.hitsAny [80, 443] then
    ["http rule does not reference common web ports".toList]
  else []) ++
  counts.toList.flatMap fun kv =>
    if singletonKeys.contains kv.1 && 1 < kv.2.length then
      ["option appears more than once: ".toList ++ kv.1]
    else []

def ruleKey (rule : SignatureRule) : Str :=
  actionName rule.action ++ ['|'] ++ protocolName rule.protocol ++ ['|'] ++ rule.source.toString ++
    ['|'] ++ rule.sourcePorts.toString ++ ['|'] ++ rule.direction ++ ['|'] ++
    rule.destination.toString ++ ['|'] ++ rule.destinationPorts.toString ++ ['|'] ++ rule.content

def duplicateRuleKeys (rules : List SignatureRule) : List Str :=
  let byKey : Multimap Str Nat := fileAll (rules.map fun rule => (ruleKey rule, rule.sid))
  byKey.toList.flatMap fun kv =>
    if 1 < kv.2.length then
      ["duplicate rule logic affects ".toList ++ natToString kv.2.length ++ " signatures".toList]
    else []

def sidRevisionConflicts (rules : List SignatureRule) : List Str :=
  let sidRevs : Multimap Nat Nat :=
    fileAll ((rules.filter fun rule => rule.sid != 0).map fun rule => (rule.sid, rule.rev))
  sidRevs.toList.flatMap fun kv =>
    if 1 < kv.2.dedup.length then
      ["sid ".toList ++ natToString kv.1 ++ " appears with multiple revisions".toList]
    else []

/-! ## Lines -/

/-- The variables of the loop over the lines. -/
structure RuleScan where
  lineNo : Nat := 0
  rules : List SignatureRule := []
  diagnostics : Diagnostics := []

/-- One turn of the loop of `parse_rule_text`. -/
def RuleScan.step (s : RuleScan) (line : Str) : RuleScan :=
  let lineNo := s.lineNo + 1
  if (trim (removeComment line)).isEmpty then { s with lineNo }
  else
    match parseRuleLine line lineNo with
    | .error status =>
      { s with
        lineNo
        diagnostics := s.diagnostics ++ Diagnostics.warn "rule.parse".toList status.message lineNo }
    | .ok rule =>
      { lineNo
        rules := s.rules ++ [rule]
        diagnostics := s.diagnostics ++
          (validateRule rule).flatMap fun w => Diagnostics.warn "rule.validate".toList w lineNo }

/-- The loop as a machine that reads lines. -/
def ruleScanMachine : Machine RuleScan Str where
  init := {}
  step := RuleScan.step

def parseRuleText (text : Str) : RuleFile :=
  let scan := ruleScanMachine.run (getlines '\n' text)
  { rules := scan.rules
    diagnostics := scan.diagnostics ++
      (duplicateRuleKeys scan.rules).flatMap (Diagnostics.warn "rule.duplicate".toList ·) ++
      (sidRevisionConflicts scan.rules).flatMap (Diagnostics.warn "rule.sid".toList ·) }

end PacketGuard.Rules
