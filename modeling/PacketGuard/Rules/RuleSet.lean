import PacketGuard.Lib.Latest
import PacketGuard.Lib.Positions
import PacketGuard.Rules.Text

/-! The rule set `RuleSetManager` of `rules/rule_set_manager.cpp`.  An operation
returns the new state with what the source function returns. -/
namespace PacketGuard.Rules
open PacketGuard.Core PacketGuard.Packet PacketGuard.Lib

structure RuleMatch where
  index : Nat := 0
  sid : Nat := 0
  rev : Nat := 0
  message : Str := []
  deriving DecidableEq, Repr

structure RuleSetSnapshot where
  rules : List SignatureRule := []
  sidIndex : Multimap Nat Nat := ∅
  classtypeIndex : Multimap Str Nat := ∅
  warnings : List Str := []
  generation : UInt64 := 0

structure RuleSetManager where
  rules : List SignatureRule := []
  sidIndex : Multimap Nat Nat := ∅
  classtypeIndex : Multimap Str Nat := ∅
  diagnostics : Diagnostics := []
  generation : UInt64 := 0

namespace RuleSetManager

/-! ## The indexes -/

/-- One turn of the loop of `rebuild_indexes`. -/
def indexRule (m : RuleSetManager) : SignatureRule × Nat → RuleSetManager
  | (rule, i) =>
    { m with
      sidIndex := if rule.sid ≠ 0 then Multimap.push m.sidIndex rule.sid i else m.sidIndex
      classtypeIndex :=
        if !rule.classtype.isEmpty then Multimap.push m.classtypeIndex (toLower rule.classtype) i
        else m.classtypeIndex }

def rebuildIndexes (m : RuleSetManager) : RuleSetManager :=
  m.rules.zipIdx.foldl indexRule { m with sidIndex := ∅, classtypeIndex := ∅ }

def touch (m : RuleSetManager) : RuleSetManager :=
  rebuildIndexes { m with generation := m.generation + 1 }

/-! ## Operations -/

/-- `diagnostics_.warn`. -/
def warn (m : RuleSetManager) (code : String) (message : Str) (offset : Nat) : RuleSetManager :=
  { m with diagnostics := m.diagnostics ++ Diagnostics.warn code.toList message offset }

def noteValidation (m : RuleSetManager) (rule : SignatureRule) : RuleSetManager :=
  { m with
    diagnostics := m.diagnostics ++
      (validateRule rule).flatMap fun w => Diagnostics.warn "ruleset.validate".toList w rule.line }

/-- Put a rule behind the others and note what is wrong with it. -/
def pushRule (m : RuleSetManager) (rule : SignatureRule) : RuleSetManager :=
  noteValidation { m with rules := m.rules ++ [rule] } rule

def addRule (m : RuleSetManager) (rule : SignatureRule) : RuleSetManager × Bool :=
  (touch (pushRule m rule), true)

def addRuleText (m : RuleSetManager) (line : Str) : RuleSetManager × Bool :=
  match parseRuleLine line (m.rules.length + 1) with
  | .error status => (warn m "ruleset.parse" status.message (m.rules.length + 1), false)
  | .ok rule => addRule m rule

def addRuleFileText (m : RuleSetManager) (text : Str) : RuleSetManager × Nat :=
  let parsed := parseRuleText text
  let before := m.rules.length
  let m := parsed.rules.foldl pushRule { m with diagnostics := m.diagnostics ++ parsed.diagnostics }
  (if m.rules.length ≠ before then touch m else m, m.rules.length - before)

def replaceRule (m : RuleSetManager) (index : Nat) (rule : SignatureRule) : RuleSetManager × Bool :=
  if m.rules.length ≤ index then
    (warn m "ruleset.replace" "replace index outside rule set".toList index, false)
  else (touch (noteValidation { m with rules := m.rules.set index rule } rule), true)

def replaceRuleText (m : RuleSetManager) (index : Nat) (line : Str) : RuleSetManager × Bool :=
  match parseRuleLine line (index + 1) with
  | .error status => (warn m "ruleset.replace_parse" status.message index, false)
  | .ok rule => replaceRule m index rule

def eraseIndex (m : RuleSetManager) (index : Nat) : RuleSetManager × Bool :=
  if m.rules.length ≤ index then
    (warn m "ruleset.erase" "erase index outside rule set".toList index, false)
  else (touch { m with rules := m.rules.eraseIdx index }, true)

def eraseSid (m : RuleSetManager) (sid : Nat) : RuleSetManager × Nat :=
  let oldSize := m.rules.length
  let m := { m with rules := m.rules.filter fun rule => rule.sid != sid }
  let removed := oldSize - m.rules.length
  (if removed ≠ 0 then touch m else m, removed)

def clear (m : RuleSetManager) : RuleSetManager :=
  if m.rules.isEmpty then m else touch { m with rules := [] }

/-! ## Queries -/

/-- The rules at some positions of the set. -/
def rulesAt (m : RuleSetManager) (positions : List Nat) : List SignatureRule :=
  positions.filterMap fun i => m.rules[i]?

def findLatestSid (m : RuleSetManager) (sid : Nat) : Option SignatureRule :=
  match m.sidIndex[sid]? with
  | none => none
  | some positions => latestBy SignatureRule.rev (rulesAt m positions)

def findByClasstype (m : RuleSetManager) (classtype : Str) : List SignatureRule :=
  match m.classtypeIndex[toLower classtype]? with
  | none => []
  | some positions => rulesAt m positions

def matchPacket (m : RuleSetManager) (md : PacketMetadata) : List RuleMatch :=
  m.rules.zipIdx.filterMap fun (rule, i) =>
    if ruleMatchesPacket rule md then some ⟨i, rule.sid, rule.rev, rule.msg⟩ else none

def snapshot (m : RuleSetManager) : RuleSetSnapshot where
  rules := m.rules
  sidIndex := m.sidIndex
  classtypeIndex := m.classtypeIndex
  warnings := m.diagnostics.map fun d => d.code ++ [':'] ++ d.message
  generation := m.generation

end RuleSetManager

/-! ## Runs -/

/-- The public operations that can change a rule set. -/
inductive RuleSetOp
  | addRule (rule : SignatureRule)
  | addRuleText (line : Str)
  | addRuleFileText (text : Str)
  | replaceRule (index : Nat) (rule : SignatureRule)
  | replaceRuleText (index : Nat) (line : Str)
  | eraseIndex (index : Nat)
  | eraseSid (sid : Nat)
  | clear
  | rebuildIndexes

/-- The new state with what the operation reports.  A `bool` is reported as 0 or 1;
`clear` returns nothing and reports how many rules it found, `rebuild_indexes`
reports nothing. -/
def RuleSetOp.perform (m : RuleSetManager) : RuleSetOp → RuleSetManager × Nat
  | .addRule rule => (m.addRule rule).map id Bool.toNat
  | .addRuleText line => (m.addRuleText line).map id Bool.toNat
  | .addRuleFileText text => m.addRuleFileText text
  | .replaceRule index rule => (m.replaceRule index rule).map id Bool.toNat
  | .replaceRuleText index line => (m.replaceRuleText index line).map id Bool.toNat
  | .eraseIndex index => (m.eraseIndex index).map id Bool.toNat
  | .eraseSid sid => m.eraseSid sid
  | .clear => (m.clear, m.rules.length)
  | .rebuildIndexes => (m.rebuildIndexes, 0)

/-- A rule set under its operations, starting empty. -/
def ruleSetMachine : Machine RuleSetManager RuleSetOp where
  init := {}
  step m op := (op.perform m).1

end PacketGuard.Rules
