import PacketGuard.Rules.RuleSet

/-! # The indexes of a rule set describe its rules

Every operation either reports nothing and leaves the rules alone, or it ends in
`touch`, which counts the change and files the positions of all rules anew
(`Reports`).  In a run the indexes are therefore those of the rules, and the
queries can be read off the list of rules.
-/
namespace PacketGuard.Rules
open PacketGuard.Core PacketGuard.Lib

/-! ## Rebuilding -/

def sidKey (rule : SignatureRule) : Option Nat := if rule.sid = 0 then none else some rule.sid

def classtypeKey (rule : SignatureRule) : Option Str :=
  if rule.classtype.isEmpty then none else some (toLower rule.classtype)

theorem sidKey_eq_some {rule : SignatureRule} {sid : Nat} :
    sidKey rule = some sid ↔ sid ≠ 0 ∧ rule.sid = sid := by
  unfold sidKey
  by_cases h : rule.sid = 0
  · rw [if_pos h, h]
    constructor
    · intro hnone
      cases hnone
    · rintro ⟨hne, rfl⟩
      exact absurd rfl hne
  · rw [if_neg h, Option.some.injEq]
    constructor
    · rintro rfl
      exact ⟨h, rfl⟩
    · exact fun h => h.2

theorem classtypeKey_eq_some {rule : SignatureRule} {classtype : Str} :
    classtypeKey rule = some classtype ↔ classtype ≠ [] ∧ toLower rule.classtype = classtype := by
  unfold classtypeKey
  by_cases h : rule.classtype.isEmpty
  · rw [if_pos h, List.isEmpty_iff.mp h]
    constructor
    · intro hnone
      cases hnone
    · rintro ⟨hne, rfl⟩
      exact absurd rfl hne
  · rw [if_neg h, Option.some.injEq]
    constructor
    · rintro rfl
      rw [List.isEmpty_iff] at h
      exact ⟨by simpa [toLower] using h, rfl⟩
    · exact fun h => h.2

namespace RuleSetManager

/-- The indexes are those of the rules. -/
structure Indexed (m : RuleSetManager) : Prop where
  sid : m.sidIndex = fileAll (positionsBy sidKey m.rules)
  classtype : m.classtypeIndex = fileAll (positionsBy classtypeKey m.rules)

theorem fileAll_positionsBy_concat {κ : Type} [Ord κ] [Std.TransOrd κ]
    (key : SignatureRule → Option κ) (rules : List SignatureRule) (rule : SignatureRule) :
    fileAll (positionsBy key (rules ++ [rule])) =
      (key rule).elim (fileAll (positionsBy key rules))
        fun k => Multimap.push (fileAll (positionsBy key rules)) k rules.length := by
  rw [positionsBy_concat]
  cases key rule with
  | none => simp
  | some k => exact fileAll_concat _ _

/-- **Rebuilding reads the indexes off the rules.** -/
theorem rebuildIndexes_eq (m : RuleSetManager) :
    m.rebuildIndexes =
      { m with
        sidIndex := fileAll (positionsBy sidKey m.rules)
        classtypeIndex := fileAll (positionsBy classtypeKey m.rules) } := by
  -- after the turns for some rules the indexes are those of these rules
  have hloop : ∀ rules : List SignatureRule,
      rules.zipIdx.foldl indexRule { m with sidIndex := ∅, classtypeIndex := ∅ } =
        { m with
          sidIndex := fileAll (positionsBy sidKey rules)
          classtypeIndex := fileAll (positionsBy classtypeKey rules) } := by
    intro rules
    induction rules using List.reverseRecOn with
    | nil => rfl
    | append_singleton rules rule ih =>
      rw [List.zipIdx_append, List.foldl_append, ih,
        fileAll_positionsBy_concat sidKey, fileAll_positionsBy_concat classtypeKey]
      simp only [List.zipIdx_singleton, List.foldl_cons, List.foldl_nil, indexRule, sidKey,
        classtypeKey, Nat.zero_add]
      by_cases hsid : rule.sid = 0 <;> by_cases hclass : rule.classtype.isEmpty <;>
        simp [hsid, hclass]
  exact hloop m.rules

theorem indexed_rebuildIndexes (m : RuleSetManager) : Indexed m.rebuildIndexes := by
  rw [rebuildIndexes_eq]
  exact ⟨rfl, rfl⟩

/-- Where the indexes are those of the rules, rebuilding does nothing. -/
theorem Indexed.rebuildIndexes_eq_self {m : RuleSetManager} (h : Indexed m) :
    m.rebuildIndexes = m := by
  rw [rebuildIndexes_eq, ← h.sid, ← h.classtype]

/-! ## What an operation does -/

/-- Only diagnostics may have been added. -/
structure Unchanged (m m' : RuleSetManager) : Prop where
  rules : m'.rules = m.rules
  sidIndex : m'.sidIndex = m.sidIndex
  classtypeIndex : m'.classtypeIndex = m.classtypeIndex
  generation : m'.generation = m.generation
  diagnostics : m.diagnostics <+: m'.diagnostics

/-- A change was counted and the indexes were rebuilt. -/
structure Touched (m m' : RuleSetManager) : Prop where
  indexed : Indexed m'
  generation : m'.generation = m.generation + 1
  diagnostics : m.diagnostics <+: m'.diagnostics

/-- The two outcomes of an operation: it reports nothing and changed nothing, or it
reports an effect and touched the set. -/
inductive Reports (m : RuleSetManager) : RuleSetManager × Nat → Prop
  | nothing {m' : RuleSetManager} : Unchanged m m' → Reports m (m', 0)
  | effect {m' : RuleSetManager} {n : Nat} : n ≠ 0 → Touched m m' → Reports m (m', n)

section
variable {m m' : RuleSetManager}

theorem unchanged_warn (m : RuleSetManager) (code : String) (message : Str) (offset : Nat) :
    Unchanged m (m.warn code message offset) :=
  ⟨rfl, rfl, rfl, rfl, List.prefix_append _ _⟩

/-- `touch` after rules were replaced and diagnostics added. -/
theorem touched_touch (hgeneration : m'.generation = m.generation)
    (hdiag : m.diagnostics <+: m'.diagnostics) : Touched m m'.touch := by
  refine ⟨indexed_rebuildIndexes _, ?_, ?_⟩
  · rw [touch, rebuildIndexes_eq, ← hgeneration]
  · rw [touch, rebuildIndexes_eq]
    exact hdiag

theorem reports_addRule (m : RuleSetManager) (rule : SignatureRule) :
    Reports m ((m.addRule rule).map id Bool.toNat) :=
  .effect Nat.one_ne_zero (touched_touch rfl (List.prefix_append _ _))

theorem reports_addRuleText (m : RuleSetManager) (line : Str) :
    Reports m ((m.addRuleText line).map id Bool.toNat) := by
  unfold addRuleText
  cases parseRuleLine line (m.rules.length + 1) with
  | error status => exact .nothing (unchanged_warn m _ _ _)
  | ok rule => exact reports_addRule m rule

/-- The loop of `add_rule_file_text` puts the rules behind those that are there. -/
theorem foldl_pushRule (m : RuleSetManager) (rules : List SignatureRule) :
    (rules.foldl pushRule m).rules = m.rules ++ rules ∧
      (rules.foldl pushRule m).sidIndex = m.sidIndex ∧
      (rules.foldl pushRule m).classtypeIndex = m.classtypeIndex ∧
      (rules.foldl pushRule m).generation = m.generation ∧
      m.diagnostics <+: (rules.foldl pushRule m).diagnostics := by
  induction rules generalizing m with
  | nil => exact ⟨(List.append_nil _).symm, rfl, rfl, rfl, List.prefix_rfl⟩
  | cons rule rules ih =>
    obtain ⟨hrules, hsid, hclass, hgeneration, hdiag⟩ := ih (pushRule m rule)
    refine ⟨?_, hsid, hclass, hgeneration, (List.prefix_append _ _).trans hdiag⟩
    rw [List.foldl_cons, hrules]
    exact List.append_assoc m.rules [rule] rules

/-- The rules and the report of `add_rule_file_text`. -/
theorem addRuleFileText_rules (m : RuleSetManager) (text : Str) :
    (m.addRuleFileText text).1.rules = m.rules ++ (parseRuleText text).rules ∧
      (m.addRuleFileText text).2 = (parseRuleText text).rules.length := by
  obtain ⟨hrules, -⟩ := foldl_pushRule
    { m with diagnostics := m.diagnostics ++ (parseRuleText text).diagnostics }
      (parseRuleText text).rules
  unfold addRuleFileText
  simp only [hrules, List.length_append, Nat.add_sub_cancel_left, and_true]
  by_cases hnone : (parseRuleText text).rules.length = 0
  · rw [if_neg (by omega)]
    exact hrules
  · rw [if_pos (by omega), touch, rebuildIndexes_eq]
    exact hrules

theorem reports_addRuleFileText (m : RuleSetManager) (text : Str) :
    Reports m (m.addRuleFileText text) := by
  obtain ⟨hrules, hsid, hclass, hgeneration, hdiag⟩ := foldl_pushRule
    { m with diagnostics := m.diagnostics ++ (parseRuleText text).diagnostics }
      (parseRuleText text).rules
  have hgrown := (List.prefix_append m.diagnostics _).trans hdiag
  unfold addRuleFileText
  simp only [hrules, List.length_append, Nat.add_sub_cancel_left]
  by_cases hnone : (parseRuleText text).rules = []
  · rw [hnone] at hrules hsid hclass hgeneration hgrown ⊢
    rw [if_neg (by simp)]
    exact .nothing ⟨hrules.trans (List.append_nil _), hsid, hclass, hgeneration, hgrown⟩
  · have hlength : (parseRuleText text).rules.length ≠ 0 := by simpa using hnone
    rw [if_pos (by omega)]
    exact .effect hlength (touched_touch hgeneration hgrown)

theorem reports_replaceRule (m : RuleSetManager) (index : Nat) (rule : SignatureRule) :
    Reports m ((m.replaceRule index rule).map id Bool.toNat) := by
  unfold replaceRule
  by_cases houtside : m.rules.length ≤ index
  · rw [if_pos houtside]
    exact .nothing (unchanged_warn m _ _ _)
  · rw [if_neg houtside]
    exact .effect Nat.one_ne_zero (touched_touch rfl (List.prefix_append _ _))

theorem reports_replaceRuleText (m : RuleSetManager) (index : Nat) (line : Str) :
    Reports m ((m.replaceRuleText index line).map id Bool.toNat) := by
  unfold replaceRuleText
  cases parseRuleLine line (index + 1) with
  | error status => exact .nothing (unchanged_warn m _ _ _)
  | ok rule => exact reports_replaceRule m index rule

theorem reports_eraseIndex (m : RuleSetManager) (index : Nat) :
    Reports m ((m.eraseIndex index).map id Bool.toNat) := by
  unfold eraseIndex
  by_cases houtside : m.rules.length ≤ index
  · rw [if_pos houtside]
    exact .nothing (unchanged_warn m _ _ _)
  · rw [if_neg houtside]
    exact .effect Nat.one_ne_zero (touched_touch rfl List.prefix_rfl)

/-- The rules that `erase_sid` leaves. -/
theorem eraseSid_rules (m : RuleSetManager) (sid : Nat) :
    (m.eraseSid sid).1.rules = m.rules.filter fun rule => rule.sid != sid := by
  unfold eraseSid
  simp only
  split
  · rw [touch, rebuildIndexes_eq]
  · rfl

theorem reports_eraseSid (m : RuleSetManager) (sid : Nat) : Reports m (m.eraseSid sid) := by
  have hle := List.length_filter_le (fun rule : SignatureRule => rule.sid != sid) m.rules
  unfold eraseSid
  simp only
  by_cases hremoved : m.rules.length - (m.rules.filter fun rule => rule.sid != sid).length = 0
  · -- a sublist of the same length is the list
    have hall : (m.rules.filter fun rule => rule.sid != sid) = m.rules :=
      List.filter_sublist.eq_of_length (by omega)
    rw [if_neg (not_not.mpr hremoved), hremoved, hall]
    exact .nothing ⟨rfl, rfl, rfl, rfl, List.prefix_rfl⟩
  · rw [if_pos hremoved]
    exact .effect hremoved (touched_touch rfl List.prefix_rfl)

theorem reports_clear (m : RuleSetManager) : Reports m (m.clear, m.rules.length) := by
  unfold clear
  by_cases hempty : m.rules.isEmpty
  · rw [if_pos hempty, List.isEmpty_iff.mp hempty]
    exact .nothing ⟨rfl, rfl, rfl, rfl, List.prefix_rfl⟩
  · rw [if_neg hempty]
    refine .effect ?_ (touched_touch rfl List.prefix_rfl)
    rwa [ne_eq, List.length_eq_zero_iff, ← List.isEmpty_iff]

end

/-- **Every operation but `rebuild_indexes` has one of the two outcomes.** -/
theorem reports_perform (m : RuleSetManager) {op : RuleSetOp} (hop : op ≠ .rebuildIndexes) :
    Reports m (op.perform m) := by
  cases op with
  | addRule rule => exact reports_addRule m rule
  | addRuleText line => exact reports_addRuleText m line
  | addRuleFileText text => exact reports_addRuleFileText m text
  | replaceRule index rule => exact reports_replaceRule m index rule
  | replaceRuleText index line => exact reports_replaceRuleText m index line
  | eraseIndex index => exact reports_eraseIndex m index
  | eraseSid sid => exact reports_eraseSid m sid
  | clear => exact reports_clear m
  | rebuildIndexes => exact absurd rfl hop

theorem Unchanged.indexed {m m' : RuleSetManager} (h : Unchanged m m') (hi : Indexed m) :
    Indexed m' :=
  ⟨by rw [h.sidIndex, h.rules, hi.sid], by rw [h.classtypeIndex, h.rules, hi.classtype]⟩

/-- **Step lemma.** -/
theorem indexed_perform {m : RuleSetManager} (h : Indexed m) (op : RuleSetOp) :
    Indexed (op.perform m).1 := by
  by_cases hop : op = .rebuildIndexes
  · subst hop
    exact indexed_rebuildIndexes m
  · cases hr : op.perform m with
    | mk m' n =>
      have hreports := reports_perform m hop
      rw [hr] at hreports
      cases hreports with
      | nothing hsame => exact hsame.indexed h
      | effect _ htouched => exact htouched.indexed

theorem indexed_init : Indexed {} := ⟨rfl, rfl⟩

/-- **Run lemma.** -/
theorem indexed_run (ops : List RuleSetOp) : Indexed (ruleSetMachine.run ops) :=
  ruleSetMachine.run_invariant (P := fun _ => True) indexed_init
    (fun _ op _ h => indexed_perform h op) fun _ _ => trivial

/-! ## Queries -/

/-- `find_by_classtype` in terms of the rules. -/
theorem Indexed.findByClasstype_eq {m : RuleSetManager} (h : Indexed m) {classtype : Str}
    (hne : classtype ≠ []) :
    m.findByClasstype classtype =
      m.rules.filter fun rule => toLower rule.classtype = toLower classtype := by
  have hkey : ∀ rule : SignatureRule, classtypeKey rule = some (toLower classtype) ↔
      toLower rule.classtype = toLower classtype := fun rule =>
    classtypeKey_eq_some.trans (and_iff_right (by simpa [toLower] using hne))
  have hrules : (valuesOf (toLower classtype) (positionsBy classtypeKey m.rules)).filterMap
      (fun i => m.rules[i]?) = m.rules.filter fun rule => classtypeKey rule =
        some (toLower classtype) :=
    filterMap_positionsBy _ _
  simp only [hkey] at hrules
  rw [findByClasstype, h.classtype, getElem?_fileAll, ← hrules]
  by_cases hnone : valuesOf (toLower classtype) (positionsBy classtypeKey m.rules) = []
  · rw [if_pos hnone, hnone]
    rfl
  · rw [if_neg hnone]
    rfl

/-- `find_latest_sid` in terms of the rules. -/
theorem Indexed.findLatestSid_eq {m : RuleSetManager} (h : Indexed m) {sid : Nat} (hne : sid ≠ 0) :
    m.findLatestSid sid =
      latestBy SignatureRule.rev (m.rules.filter fun rule => rule.sid = sid) := by
  have hkey : ∀ rule : SignatureRule, sidKey rule = some sid ↔ rule.sid = sid := fun rule =>
    sidKey_eq_some.trans (and_iff_right hne)
  have hrules : (valuesOf sid (positionsBy sidKey m.rules)).filterMap (fun i => m.rules[i]?) =
      m.rules.filter fun rule => sidKey rule = some sid := filterMap_positionsBy _ _
  simp only [hkey] at hrules
  rw [findLatestSid, h.sid, getElem?_fileAll, ← hrules]
  by_cases hnone : valuesOf sid (positionsBy sidKey m.rules) = []
  · rw [if_pos hnone, hnone]
    rfl
  · rw [if_neg hnone]
    rfl

/-- What the indexes and the queries of a rule set say about its rules. -/
structure DescribesRules (m : RuleSetManager) : Prop where
  sidIndex : ∀ sid positions, m.sidIndex[sid]? = some positions ↔
    sid ≠ 0 ∧ positions ≠ [] ∧ positions.Pairwise (· < ·) ∧
      ∀ i, i ∈ positions ↔ ∃ rule, m.rules[i]? = some rule ∧ rule.sid = sid
  classtypeIndex : ∀ classtype positions, m.classtypeIndex[classtype]? = some positions ↔
    classtype ≠ [] ∧ positions ≠ [] ∧ positions.Pairwise (· < ·) ∧
      ∀ i, i ∈ positions ↔ ∃ rule, m.rules[i]? = some rule ∧ toLower rule.classtype = classtype
  latest : ∀ sid, sid ≠ 0 → ∀ rule, m.findLatestSid sid = some rule ↔
    ∃ front back, m.rules = front ++ rule :: back ∧ rule.sid = sid ∧
      (∀ other ∈ front, other.sid = sid → other.rev ≤ rule.rev) ∧
      ∀ other ∈ back, other.sid = sid → other.rev < rule.rev
  noLatest : ∀ sid, sid ≠ 0 → (m.findLatestSid sid = none ↔ ∀ rule ∈ m.rules, rule.sid ≠ sid)
  byClasstype : ∀ classtype, classtype ≠ [] →
    m.findByClasstype classtype = m.rules.filter fun rule => toLower rule.classtype =
      toLower classtype
  eraseSid : ∀ sid, (m.eraseSid sid).1.rules = m.rules.filter fun rule => rule.sid != sid
  snapshot : m.snapshot.rules = m.rules ∧ m.snapshot.sidIndex = m.sidIndex ∧
    m.snapshot.classtypeIndex = m.classtypeIndex

/-- An index of keys that are never some value `zero`, in terms of the rules. -/
theorem getElem?_positions {κ : Type} [Ord κ] [Std.TransOrd κ] [Std.LawfulEqOrd κ] [DecidableEq κ]
    {key : SignatureRule → Option κ} {field : SignatureRule → κ} {zero : κ}
    (hkey : ∀ rule k, key rule = some k ↔ k ≠ zero ∧ field rule = k) (rules : List SignatureRule)
    (k : κ) (positions : List Nat) :
    (fileAll (positionsBy key rules))[k]? = some positions ↔
      k ≠ zero ∧ positions ≠ [] ∧ positions.Pairwise (· < ·) ∧
        ∀ i, i ∈ positions ↔ ∃ rule, rules[i]? = some rule ∧ field rule = k := by
  rw [getElem?_fileAll_positionsBy]
  simp only [hkey]
  constructor
  · rintro ⟨hne, hsorted, hmem⟩
    -- a position shows that the key is in use
    obtain ⟨i, hi⟩ := List.exists_mem_of_ne_nil _ hne
    obtain ⟨-, -, hk, -⟩ := (hmem i).mp hi
    exact ⟨hk, hne, hsorted, fun i => by simpa [hk] using hmem i⟩
  · rintro ⟨hk, hne, hsorted, hmem⟩
    exact ⟨hne, hsorted, fun i => by simpa [hk] using hmem i⟩

/-- **The indexes always describe the rules.** -/
theorem ruleSetMachine_describesRules (ops : List RuleSetOp) :
    DescribesRules (ruleSetMachine.run ops) := by
  have h := indexed_run ops
  constructor
  · intro sid positions
    rw [h.sid]
    exact getElem?_positions (fun _ _ => sidKey_eq_some) _ sid positions
  · intro classtype positions
    rw [h.classtype]
    exact getElem?_positions (fun _ _ => classtypeKey_eq_some) _ classtype positions
  · intro sid hne rule
    rw [h.findLatestSid_eq hne, latestBy_eq_some, isLatest_filter]
    simp only [decide_eq_true_eq]
  · intro sid hne
    rw [h.findLatestSid_eq hne, latestBy_eq_none, List.filter_eq_nil_iff]
    simp only [decide_eq_true_eq, ne_eq]
  · exact fun classtype hne => h.findByClasstype_eq hne
  · exact eraseSid_rules _
  · exact ⟨rfl, rfl, rfl⟩

end RuleSetManager
end PacketGuard.Rules
