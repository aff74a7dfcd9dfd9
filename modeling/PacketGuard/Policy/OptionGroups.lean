import PacketGuard.Core.CommentSpans
import PacketGuard.Policy.ExprCalls

/-! # The order of iptables options

An option of an iptables line is a flag with the value behind it.  It is checked
whatever stands before it, and sets one field of the rule; so options for
different fields may stand in any order.
-/
namespace PacketGuard.Policy
open PacketGuard.Core PacketGuard.Lib
open PacketGuard.Rules
  (PortExpr AddressExpr RuleProtocol parsePortExpr parseAddressExpr parseProtocol)

/-- What an option sets. -/
inductive OptionField
  | chain
  | protocol
  | source
  | destination
  | sourcePorts
  | destinationPorts
  | interfaceIn
  | interfaceOut
  | state
  | jump
  | comment
  deriving DecidableEq

namespace OptionField

def flags : OptionField → List String
  | chain => ["-A", "--append", "-I", "--insert"]
  | protocol => ["-p", "--protocol"]
  | source => ["-s", "--source"]
  | destination => ["-d", "--destination"]
  | sourcePorts => ["--sport", "--source-port", "--sports"]
  | destinationPorts => ["--dport", "--destination-port", "--dports"]
  | interfaceIn => ["-i", "--in-interface"]
  | interfaceOut => ["-o", "--out-interface"]
  | state => ["--state", "--ctstate"]
  | jump => ["-j", "--jump"]
  | comment => ["--comment"]

/-- The value is an expression where one is asked for. -/
def check (field : OptionField) (value : Str) : Result Unit :=
  match field with
  | source | destination => (parseAddressExpr value).map fun _ => ()
  | sourcePorts | destinationPorts => (parsePortExpr value).map fun _ => ()
  | _ => .ok ()

def update (field : OptionField) (value : Str) (rule : FirewallRule) : FirewallRule :=
  match field with
  | chain => { rule with chain := (parseDirection value).getD rule.chain }
  | protocol => { rule with protocol := (parseProtocol value).getD rule.protocol }
  | source => { rule with source := (parseAddressExpr value).toOption.getD rule.source }
  | destination =>
    { rule with destination := (parseAddressExpr value).toOption.getD rule.destination }
  | sourcePorts => { rule with sourcePorts := (parsePortExpr value).toOption.getD rule.sourcePorts }
  | destinationPorts =>
    { rule with destinationPorts := (parsePortExpr value).toOption.getD rule.destinationPorts }
  | interfaceIn => { rule with interfaceIn := value }
  | interfaceOut => { rule with interfaceOut := value }
  | state => { rule with state := value }
  | jump =>
    { rule with jumpTarget := value, action := (parseFirewallAction value).getD rule.action }
  | comment => { rule with comment := stripQuotes value }

/-- Updates of different fields commute. -/
theorem update_comm {field field' : OptionField} (h : field ≠ field') (value value' : Str)
    (rule : FirewallRule) :
    field.update value (field'.update value' rule) =
      field'.update value' (field.update value rule) := by
  cases field <;> cases field' <;> first | rfl | exact absurd rfl h

/-- No option sets or reads the text of the rule. -/
theorem update_raw (field : OptionField) (value raw : Str) (rule : FirewallRule) :
    field.update value { rule with raw := raw } = { field.update value rule with raw := raw } := by
  cases field <;> rfl

end OptionField

/-- The check and the update apart. -/
theorem map_eq_check {α β : Type} (r : Result α) {f : α → β} {result : β}
    (h : ∀ a, r = .ok a → f a = result) :
    r.map f = (r.map fun _ => ()).map fun _ => result := by
  cases r with
  | error e => rfl
  | ok a => exact congrArg Except.ok (h a rfl)

/-- **One turn** of the loop of `parse_iptables_rule` at a flag. -/
theorem iptablesToken_flag {field : OptionField} {flag : Str} (h : isOneOf flag field.flags = true)
    (rule : FirewallRule) (rest : List Str) :
    iptablesToken rule flag rest =
      (field.check (nextValue rest)).map fun _ =>
      (field.update (nextValue rest) rule, nextTaken rest) := by
  cases field <;> simp only [OptionField.flags, isOneOf_cons, isOneOf_nil, or_false] at h
  case source | destination =>
    have haddress : ∀ a, parseAddressExpr (nextValue rest) = .ok a →
        ∀ old, a = (parseAddressExpr (nextValue rest)).toOption.getD old := by
      intro a ha old
      rw [ha]
      rfl
    rcases h with rfl | rfl <;>
      exact map_eq_check (parseAddressExpr (nextValue rest)) fun a ha => by
        rw [OptionField.update, ← haddress a ha]
  case sourcePorts | destinationPorts =>
    have hports : ∀ p, parsePortExpr (nextValue rest) = .ok p →
        ∀ old, p = (parsePortExpr (nextValue rest)).toOption.getD old := by
      intro p hp old
      rw [hp]
      rfl
    rcases h with rfl | rfl | rfl <;>
      exact map_eq_check (parsePortExpr (nextValue rest)) fun p hp => by
        rw [OptionField.update, ← hports p hp]
  case chain => rcases h with rfl | rfl | rfl | rfl <;> rfl
  case comment =>
    subst h
    rfl
  all_goals
    rcases h with rfl | rfl <;> rfl

theorem nextTaken_le (rest : List Str) : nextTaken rest ≤ 1 := by
  unfold nextTaken
  split
  · exact Nat.zero_le 1
  · exact Nat.le_refl 1

/-- **One turn** at a token that is no flag of an option: at most `-m` leaves a trace. -/
theorem iptablesToken_plain {tok : Str} (h : ∀ field : OptionField, isOneOf tok field.flags = false)
    (rule : FirewallRule) (rest : List Str) :
    ∃ state taken, taken ≤ 1 ∧
      iptablesToken rule tok rest = .ok ({ rule with state := state }, taken) := by
  have hchain := h .chain
  have hprotocol := h .protocol
  have hsource := h .source
  have hdestination := h .destination
  have hsports := h .sourcePorts
  have hdports := h .destinationPorts
  have hin := h .interfaceIn
  have hout := h .interfaceOut
  have hstate := h .state
  have hjump := h .jump
  have hcomment := h .comment
  simp only [OptionField.flags]
    at hchain hprotocol hsource hdestination hsports hdports hin hout hstate hjump hcomment
  simp only [iptablesToken, hchain, hprotocol, hsource, hdestination, hsports, hdports, hin, hout,
    hstate, hjump, hcomment, Bool.false_eq_true, if_false]
  split_ifs
  · exact ⟨rule.state, 0, Nat.zero_le 1, rfl⟩
  · exact ⟨nextValue rest, nextTaken rest, nextTaken_le rest, rfl⟩
  · exact ⟨rule.state, nextTaken rest, nextTaken_le rest, rfl⟩
  · exact ⟨rule.state, 0, Nat.zero_le 1, rfl⟩

/-! ## Groups -/

/-- An option as a line gives it. -/
structure OptionGroup where
  field : OptionField
  flag : Str
  value : Str
  isFlag : isOneOf flag field.flags = true
  nonempty : value ≠ []
  noSpace : NoSpace value
  noBang : value ≠ ['!']
  noHash : '#' ∉ value
  noSlashes : ¬ "//".toList <:+: value

/-- The tokens of the groups. -/
def groupTokens (groups : List OptionGroup) : List Str := groups.flatMap fun g => [g.flag, g.value]

def lineOf (groups : List OptionGroup) : Str := [' '].intercalate (groupTokens groups)

/-- A flag is a plain token. -/
theorem plain_flag {field : OptionField} {flag : Str} (h : isOneOf flag field.flags = true) :
    NoSpace flag ∧ flag ≠ [] ∧ '#' ∉ flag ∧ '/' ∉ flag := by
  have hall : ∀ name ∈ field.flags, (∀ c ∈ name.toList, isSpace c = false) ∧ name.toList ≠ [] ∧
      '#' ∉ name.toList ∧ '/' ∉ name.toList := by
    cases field <;> simp [OptionField.flags, isSpace]
  obtain ⟨name, hname, heq⟩ := List.any_eq_true.mp h
  rw [← beq_iff_eq.mp heq]
  exact hall name hname

theorem mem_groupTokens {groups : List OptionGroup} {t : Str} (h : t ∈ groupTokens groups) :
    NoSpace t ∧ t ≠ [] ∧ '#' ∉ t ∧ ¬ "//".toList <:+: t := by
  obtain ⟨g, -, ht⟩ := List.mem_flatMap.mp h
  rcases List.mem_cons.mp ht with rfl | ht
  · obtain ⟨hspace, hne, hhash, hslash⟩ := plain_flag g.isFlag
    exact ⟨hspace, hne, hhash, fun hin => hslash (hin.subset (by simp))⟩
  · rw [List.mem_singleton.mp ht]
    exact ⟨g.noSpace, g.nonempty, g.noHash, g.noSlashes⟩

/-- No comment starts in the line. -/
theorem removeComment_lineOf (groups : List OptionGroup) :
    removeComment (lineOf groups) = lineOf groups :=
  removeComment_joined fun _ ht => (mem_groupTokens ht).2.2

/-- **A line of options** is checked group by group, and its rule is the update of all groups. -/
theorem parseIptablesRule_lineOf {groups : List OptionGroup} (hne : groups ≠ []) (n : Nat) :
    parseIptablesRule (lineOf groups) n =
      (forM groups fun g => g.field.check g.value : Result Unit).bind fun _ =>
        checkIptablesRule (groups.foldl (fun rule g => g.field.update g.value rule)
          { raw := lineOf groups, line := n, dialect := .iptables }) := by
  have hplain : ∀ t ∈ groupTokens groups, NoSpace t ∧ t ≠ [] := fun t ht =>
    ⟨(mem_groupTokens ht).1, (mem_groupTokens ht).2.1⟩
  have htokens : groupTokens groups ≠ [] := by
    obtain ⟨g, groups, rfl⟩ := List.exists_cons_of_ne_nil hne
    exact List.cons_ne_nil _ _
  have hclean : trim (removeComment (lineOf groups)) = lineOf groups := by
    rw [removeComment_lineOf]
    exact trim_eq_self (trimmed_intercalate htokens hplain)
  have hfilled : (lineOf groups).isEmpty = false :=
    List.isEmpty_eq_false_iff.mpr (intercalate_ne_nil htokens fun t ht => (hplain t ht).2)
  have hsplit : splitWs (lineOf groups) = groupTokens groups := splitWs_intercalate htokens hplain
  have hscan := @scanTokens_groups FirewallRule Str Status iptablesToken OptionGroup
    OptionGroup.flag
    OptionGroup.value (fun g => g.field.check g.value) (fun rule g => g.field.update g.value rule)
    (fun rule g rest => iptablesToken_flag g.isFlag rule (g.value :: rest))
    { raw := lineOf groups, line := n, dialect := .iptables } groups
  rw [parseIptablesRule]
  simp only [hclean, hfilled, hsplit]
  rw [if_neg Bool.false_ne_true, groupTokens, hscan]
  cases (forM groups fun g => g.field.check g.value : Result Unit) <;> rfl

/-- The update of groups for different fields, in any order, whatever the text of the rule is. -/
theorem foldl_update_perm {groups groups' : List OptionGroup} (hperm : groups.Perm groups')
    (honce : (groups.map OptionGroup.field).Nodup) (rule : FirewallRule) (raw : Str) :
    groups'.foldl (fun rule g => g.field.update g.value rule) { rule with raw := raw } =
      { groups.foldl (fun rule g => g.field.update g.value rule) rule with raw := raw } := by
  have hraw : ∀ (gs : List OptionGroup) (rule : FirewallRule),
      gs.foldl (fun rule g => g.field.update g.value rule) { rule with raw := raw } =
        { gs.foldl (fun rule g => g.field.update g.value rule) rule with raw := raw } := by
    intro gs
    induction gs with
    | nil => exact fun _ => rfl
    | cons g gs ih =>
      intro rule
      rw [List.foldl_cons, List.foldl_cons, OptionField.update_raw, ih]
  rw [hraw, hperm.foldl_eq' _ rule]
  intro g hg g' hg' rule
  by_cases heq : g = g'
  · rw [heq]
  · exact (OptionField.update_comm
      (fun hfield => heq (List.inj_on_of_nodup_map honce hg hg' hfield)) _ _ rule).symm

/-- What the end of the loop asks for has nothing to do with the text of the rule. -/
theorem checkIptablesRule_raw (rule : FirewallRule) (raw : Str) :
    checkIptablesRule { rule with raw := raw } =
      (checkIptablesRule rule).map fun r => { r with raw := raw } := by
  unfold checkIptablesRule
  simp only
  split
  · rfl
  · split <;> rfl

theorem parseIptablesRule_of_perm {groups groups' : List OptionGroup} (hperm : groups.Perm groups')
    (honce : (groups.map OptionGroup.field).Nodup) {n : Nat} {r : FirewallRule}
    (h : parseIptablesRule (lineOf groups) n = .ok r) :
    parseIptablesRule (lineOf groups') n = .ok { r with raw := lineOf groups' } := by
  by_cases hne : groups = []
  · subst hne
    cases h
  have hne' : groups' ≠ [] := by
    rintro rfl
    exact hne (List.perm_nil.mp hperm)
  rw [parseIptablesRule_lineOf hne] at h
  cases hchecks : (forM groups fun g => g.field.check g.value : Result Unit) with
  | error e =>
    rw [hchecks] at h
    cases h
  | ok passed =>
    have hchecks' : (forM groups' fun g => g.field.check g.value : Result Unit) = .ok () :=
      forM_eq_ok_iff.mpr fun g hg => forM_eq_ok_iff.mp hchecks g (hperm.mem_iff.mpr hg)
    have hupdate := foldl_update_perm hperm honce
      { raw := lineOf groups, line := n, dialect := .iptables } (lineOf groups')
    rw [hchecks] at h
    have hcheck : checkIptablesRule (groups.foldl (fun rule g => g.field.update g.value rule)
        { raw := lineOf groups, line := n, dialect := .iptables }) = .ok r := h
    rw [parseIptablesRule_lineOf hne', hchecks']
    calc checkIptablesRule (groups'.foldl (fun rule g => g.field.update g.value rule)
          { raw := lineOf groups', line := n, dialect := .iptables })
        = checkIptablesRule
            { groups.foldl (fun rule g => g.field.update g.value rule)
                { raw := lineOf groups, line := n, dialect := .iptables } with
              raw := lineOf groups' } :=
          congrArg checkIptablesRule hupdate
      _ = .ok { r with raw := lineOf groups' } := by
          rw [checkIptablesRule_raw, hcheck]
          rfl

/-- **Groups for different fields** may stand in any order: every order of them is
accepted or none, with rules that are equal but for their texts. -/
theorem parseIptablesRule_perm {groups groups' : List OptionGroup} (hperm : groups.Perm groups')
    (honce : (groups.map OptionGroup.field).Nodup) (n : Nat) :
    ((∃ r, parseIptablesRule (lineOf groups) n = .ok r) ↔
      ∃ r', parseIptablesRule (lineOf groups') n = .ok r') ∧
      ∀ r r', parseIptablesRule (lineOf groups) n = .ok r →
        parseIptablesRule (lineOf groups') n = .ok r' →
        r' = { r with raw := r'.raw } := by
  have honce' : (groups'.map OptionGroup.field).Nodup :=
    (hperm.map OptionGroup.field).nodup_iff.mp honce
  refine ⟨⟨?_, ?_⟩, ?_⟩
  · rintro ⟨r, h⟩
    exact ⟨_, parseIptablesRule_of_perm hperm honce h⟩
  · rintro ⟨r', h⟩
    exact ⟨_, parseIptablesRule_of_perm hperm.symm honce' h⟩
  · intro r r' h h'
    rw [parseIptablesRule_of_perm hperm honce h] at h'
    cases h'
    rfl

def appendInput : OptionGroup :=
  ⟨.chain, "-A".toList, "INPUT".toList, rfl, by decide, by simp [NoSpace, isSpace], by decide,
    by decide, by decide⟩

/-- The target of the jump looks like a flag. -/
def jumpFlag : OptionGroup :=
  ⟨.jump, "--jump".toList, "-s".toList, rfl, by decide, by simp [NoSpace, isSpace], by decide,
    by decide, by decide⟩

theorem parseIptablesRule_perm_swap :
    ∃ r, parseIptablesRule (lineOf [jumpFlag, appendInput]) 1 = .ok r :=
  (parseIptablesRule_perm (.swap jumpFlag appendInput []) (by decide) 1).1.mp ⟨_, rfl⟩

end PacketGuard.Policy
