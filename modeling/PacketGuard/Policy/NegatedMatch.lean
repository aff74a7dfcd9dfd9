import PacketGuard.Policy.Duplicates
import PacketGuard.Policy.OptionGroups

/-! # A `!` in front of an option

`iptables` negates an option by a `!` in front of its flag.  The loop of
`parse_iptables_rule` passes over that token, so the option is read as if it
were not negated, and the rule matches what it was meant to leave out.
-/
namespace PacketGuard.Policy
open PacketGuard.Core PacketGuard.Lib
open PacketGuard.Rules (AddressExpr PortExpr RuleProtocol parsePortExpr parseAddressExpr)

/-- The arguments of `firewall_rule_matches_tuple` for a packet. -/
structure FlowTuple where
  src : IPv4Address := {}
  dst : IPv4Address := {}
  sport : UInt16 := 0
  dport : UInt16 := 0
  protocol : RuleProtocol := .any
  chain : Direction := .unknown

def FirewallRule.matchesTuple (r : FirewallRule) (t : FlowTuple) : Bool :=
  firewallRuleMatchesTuple r t.src t.dst t.sport.toNat t.dport.toNat t.protocol t.chain

/-- The options whose value is matched against an address or a port. -/
inductive MatchField
  | source
  | destination
  | sourcePorts
  | destinationPorts

theorem exists_of_map_eq_ok {α β : Type} {r : Result α} {f : α → β} {b : β} (h : r.map f = .ok b) :
    ∃ a, r = .ok a := by
  cases r with
  | error e => cases h
  | ok a => exact ⟨a, rfl⟩

namespace MatchField

def option : MatchField → OptionField
  | source => .source
  | destination => .destination
  | sourcePorts => .sourcePorts
  | destinationPorts => .destinationPorts

/-- The rule admits the address or port of the tuple. -/
def ruleHits (field : MatchField) (r : FirewallRule) (t : FlowTuple) : Bool :=
  match field with
  | source => r.source.hits t.src
  | destination => r.destination.hits t.dst
  | sourcePorts => r.sourcePorts.hits t.sport.toNat
  | destinationPorts => r.destinationPorts.hits t.dport.toNat

/-- The address or port of the tuple is matched by `value`. -/
def valueHits (field : MatchField) (value : Str) (t : FlowTuple) : Bool :=
  match field with
  | source => (parseAddressExpr value).toOption.any (·.hits t.src)
  | destination => (parseAddressExpr value).toOption.any (·.hits t.dst)
  | sourcePorts => (parsePortExpr value).toOption.any (·.hits t.sport.toNat)
  | destinationPorts => (parsePortExpr value).toOption.any (·.hits t.dport.toNat)

/-- No address or port is matched by `value`. -/
def MatchesNothing (field : MatchField) (value : Str) : Prop := ∀ t, field.valueHits value t = false

/-- The value that one turn of the loop reads for the field. -/
def given (field : MatchField) (tok : Str) (rest : List Str) : List Str :=
  if isOneOf tok field.option.flags then [nextValue rest] else []

/-- The values that a line gives for the field. -/
def givenValues (field : MatchField) (line : Str) (n : Nat) : List Str :=
  scanCalls iptablesToken field.given (iptablesStart line n) 0 (splitWs (trim (removeComment line)))

/-! ## The loop -/

/-- The update of a field hits what its value matches. -/
theorem ruleHits_update {field : MatchField} {value : Str} {passed : Unit}
    (hcheck : field.option.check value = .ok passed) (rule : FirewallRule) :
    field.ruleHits (field.option.update value rule) = field.valueHits value := by
  cases field
  case source | destination =>
    obtain ⟨a, ha⟩ := exists_of_map_eq_ok (r := parseAddressExpr value) hcheck
    funext t
    simp only [option, OptionField.update, ruleHits, valueHits, ha]
    rfl
  case sourcePorts | destinationPorts =>
    obtain ⟨p, hp⟩ := exists_of_map_eq_ok (r := parsePortExpr value) hcheck
    funext t
    simp only [option, OptionField.update, ruleHits, valueHits, hp]
    rfl

/-- The update of another field leaves it alone. -/
theorem ruleHits_update_of_ne {field : MatchField} {other : OptionField} (h : other ≠ field.option)
    (value : Str)
    (rule : FirewallRule) : field.ruleHits (other.update value rule) = field.ruleHits rule := by
  cases field <;> cases other <;> first | rfl | exact absurd rfl h

end MatchField

section
variable {rule s : FirewallRule} {tok : Str} {rest : List Str} {taken : Nat}
  (h : iptablesToken rule tok rest = .ok (s, taken))

include h in
/-- A turn at a flag that succeeds has checked the value and updated the field. -/
theorem iptablesToken_ok_flag {field : OptionField} (hflag : isOneOf tok field.flags = true) :
    field.check (nextValue rest) = .ok () ∧ s = field.update (nextValue rest) rule ∧
      taken = nextTaken rest := by
  rw [iptablesToken_flag hflag] at h
  cases hcheck : field.check (nextValue rest) with
  | error e =>
    rw [hcheck] at h
    cases h
  | ok passed =>
    rw [hcheck] at h
    cases h
    exact ⟨rfl, rfl, rfl⟩

include h in
/-- Every other turn changes no more than the state. -/
theorem iptablesToken_ok_plain (hplain : ∀ field : OptionField, isOneOf tok field.flags = false) :
    (∃ state, s = { rule with state := state }) ∧ taken ≤ 1 := by
  obtain ⟨state, taken', hle, hturn⟩ := iptablesToken_plain hplain rule rest
  rw [hturn] at h
  cases h
  exact ⟨⟨state, rfl⟩, hle⟩

include h in
/-- A turn takes at most one of the tokens behind it. -/
theorem iptablesToken_taken_le : taken ≤ 1 := by
  by_cases hflag : ∃ field : OptionField, isOneOf tok field.flags = true
  · obtain ⟨field, hflag⟩ := hflag
    rw [(iptablesToken_ok_flag h hflag).2.2]
    exact nextTaken_le rest
  · exact (iptablesToken_ok_plain h fun field => Bool.eq_false_iff.mpr fun htrue =>
      hflag ⟨field, htrue⟩).2

include h in
/-- **One turn** sets what a field hits by the value it reads for it. -/
theorem iptablesToken_ruleHits (field : MatchField) :
    field.ruleHits s = ((field.given tok rest).getLast?.map field.valueHits).getD
      (field.ruleHits rule) := by
  by_cases hflag : isOneOf tok field.option.flags = true
  · obtain ⟨hcheck, rfl, -⟩ := iptablesToken_ok_flag h hflag
    rw [MatchField.given, if_pos hflag]
    exact MatchField.ruleHits_update hcheck rule
  rw [MatchField.given, if_neg hflag]
  by_cases hother : ∃ other : OptionField, isOneOf tok other.flags = true
  · obtain ⟨other, hother⟩ := hother
    obtain ⟨-, rfl, -⟩ := iptablesToken_ok_flag h hother
    exact MatchField.ruleHits_update_of_ne (fun heq => hflag (heq ▸ hother)) _ rule
  · obtain ⟨⟨state, rfl⟩, -⟩ := iptablesToken_ok_plain h fun other =>
      Bool.eq_false_iff.mpr fun htrue => hother ⟨other, htrue⟩
    cases field <;> rfl

end

/-- The rule of a line is what the loop leaves. -/
theorem scan_of_parseIptablesRule {line : Str} {n : Nat} {rule : FirewallRule}
    (h : parseIptablesRule line n = .ok rule) :
    scanTokens iptablesToken (iptablesStart line n) 0 (splitWs (trim (removeComment line))) =
      .ok rule := by
  unfold parseIptablesRule at h
  simp only at h
  split at h
  · cases h
  obtain ⟨s, hscan, hcheck⟩ := bind_eq_ok h
  unfold checkIptablesRule at hcheck
  split at hcheck
  · cases hcheck
  split at hcheck
  · cases hcheck
  · cases hcheck
    exact hscan

/-- **The rule of a line** hits, for each field, what the last value given for it matches. -/
theorem ruleHits_of_parseIptablesRule (field : MatchField) {line : Str} {n : Nat}
    {rule : FirewallRule}
    (h : parseIptablesRule line n = .ok rule) :
    field.ruleHits rule =
      ((field.givenValues line n).getLast?.map field.valueHits).getD fun _ => true := by
  have hread := @scanTokens_read FirewallRule Str Status iptablesToken Str (FlowTuple → Bool)
    field.given
    field.ruleHits field.valueHits (fun _ _ _ _ _ hturn => iptablesToken_ruleHits hturn field)
    _ _ _ _ (scan_of_parseIptablesRule h)
  have hstart : field.ruleHits (iptablesStart line n) = fun _ => true := by
    cases field <;> rfl
  rw [hread, hstart]
  rfl

/-- The group behind a `!` gives its value as if the `!` were not there. -/
theorem mem_givenValues_of_bang {field : MatchField} {line : Str} {n : Nat} {rule : FirewallRule}
    (h : parseIptablesRule line n = .ok rule) {before after : List Str} {flag value : Str}
    (htokens : splitWs (trim (removeComment line)) = before ++ ['!'] :: flag :: value :: after)
    (hflag : isOneOf flag field.option.flags = true) : value ∈ field.givenValues line n := by
  have hscan := scan_of_parseIptablesRule h
  rw [htokens] at hscan
  obtain ⟨s, -, hsuffix⟩ := @exists_turn_behind FirewallRule Str Status iptablesToken Str
    field.given
    (fun _ _ _ _ _ hturn => iptablesToken_taken_le hturn) ['!'] (fun _ _ => rfl) _ _ 0
      (Nat.zero_le 1) before
    (flag :: value :: after) hscan
  rw [MatchField.givenValues, htokens]
  refine hsuffix.subset ?_
  rw [scanCalls, MatchField.given, if_pos hflag]
  exact List.mem_append_left _ List.mem_cons_self

/-! ## Tuples -/

/-- A rule is void when one of its fields admits nothing. -/
theorem void_iff_ruleHits {r : FirewallRule} : r.Void ↔ ∃ field :
    MatchField, ∀ t, field.ruleHits r t = false := by
  constructor
  · rintro (hvoid | hvoid | hvoid | hvoid)
    · exact ⟨.source, fun t => hvoid t.src⟩
    · exact ⟨.destination, fun t => hvoid t.dst⟩
    · exact ⟨.sourcePorts, fun t => hvoid _ t.sport.toNat_lt⟩
    · exact ⟨.destinationPorts, fun t => hvoid _ t.dport.toNat_lt⟩
  · rintro ⟨field, hvoid⟩
    cases field with
    | source => exact .inl fun src => hvoid { src := src }
    | destination => exact .inr (.inl fun dst => hvoid { dst := dst })
    | sourcePorts =>
      refine .inr (.inr (.inl fun port hport => ?_))
      have hnone : r.sourcePorts.hits (UInt16.ofNat port).toNat = false :=
        hvoid { sport := UInt16.ofNat port }
      rwa [UInt16.toNat_ofNat_of_lt' hport] at hnone
    | destinationPorts =>
      refine .inr (.inr (.inr fun port hport => ?_))
      have hnone : r.destinationPorts.hits (UInt16.ofNat port).toNat = false :=
        hvoid { dport := UInt16.ofNat port }
      rwa [UInt16.toNat_ofNat_of_lt' hport] at hnone

theorem unmatchable_iff_matchesTuple {r : FirewallRule} :
    r.Unmatchable ↔ ∀ t, r.matchesTuple t = false := by
  constructor
  · exact fun h t => h t.src t.dst _ _ t.protocol t.chain t.sport.toNat_lt t.dport.toNat_lt
  · intro h src dst sport dport protocol chain hsport hdport
    have hnone := h ⟨src, dst, UInt16.ofNat sport, UInt16.ofNat dport, protocol, chain⟩
    rw [FirewallRule.matchesTuple] at hnone
    simp only at hnone
    rwa [UInt16.toNat_ofNat_of_lt' hsport, UInt16.toNat_ofNat_of_lt' hdport] at hnone

/-- A tuple that the rule matches is one that each field admits. -/
theorem ruleHits_of_matchesTuple {r : FirewallRule} {t : FlowTuple} (h : r.matchesTuple t = true)
    (field : MatchField) : field.ruleHits r t = true := by
  obtain ⟨-, hs, hd, hsp, hdp⟩ := firewallRuleMatchesTuple_iff.mp h
  cases field with
  | source => exact hs
  | destination => exact hd
  | sourcePorts => exact hsp
  | destinationPorts => exact hdp

/-- **A negated option** keeps its rule from the tuples with a matching address or
port exactly when some expression of the line matches nothing, which keeps the rule
from all tuples. -/
theorem negatedMatch_iff {field : MatchField} {line : Str} {n : Nat} {rule : FirewallRule}
    (h : parseIptablesRule line n = .ok rule) {before after : List Str} {flag value : Str}
    (htokens : splitWs (trim (removeComment line)) = before ++ ['!'] :: flag :: value :: after)
    (hflag : isOneOf flag field.option.flags = true)
    (honce : (field.givenValues line n).length = 1) :
    (∀ t, field.valueHits value t = true → rule.matchesTuple t = false) ↔
      ∃ other : MatchField, ∃ last ∈ (other.givenValues line n).getLast?,
        other.MatchesNothing last := by
  have hgiven : field.givenValues line n = [value] := by
    obtain ⟨only, honly⟩ := List.length_eq_one_iff.mp honce
    have hmem := mem_givenValues_of_bang h htokens hflag
    rw [honly] at hmem
    rw [honly, List.mem_singleton.mp hmem]
  have hvalue : field.ruleHits rule = field.valueHits value := by
    rw [ruleHits_of_parseIptablesRule field h, hgiven]
    rfl
  calc (∀ t, field.valueHits value t = true → rule.matchesTuple t = false)
      ↔ ∀ t, rule.matchesTuple t = false := by
        constructor
        · intro hnone t
          refine Bool.eq_false_iff.mpr fun hmatch => ?_
          have hhits := ruleHits_of_matchesTuple hmatch field
          rw [hvalue] at hhits
          exact Bool.eq_false_iff.mp (hnone t hhits) hmatch
        · exact fun hnone t _ => hnone t
    _ ↔ ∃ other : MatchField, ∀ t, other.ruleHits rule t = false := by
        rw [← unmatchable_iff_matchesTuple, FirewallRule.unmatchable_iff_void, void_iff_ruleHits]
    _ ↔ ∃ other : MatchField, ∃ last ∈ (other.givenValues line n).getLast?,
      other.MatchesNothing last := by
        refine exists_congr fun other => ?_
        rw [ruleHits_of_parseIptablesRule other h]
        cases (other.givenValues line n).getLast? with
        | none => exact iff_of_false (fun hnone => Bool.false_ne_true (hnone {}).symm) (by simp)
        | some last => simp [MatchField.MatchesNothing]

/-- The line also asks for a destination that no address is. -/
theorem negatedMatch_iff_notAny :
    ∃ rule, parseIptablesRule "-A INPUT ! -s 10.0.0.1 -d !any -j DROP".toList 1 = .ok rule ∧
      ∀ t, MatchField.source.valueHits "10.0.0.1".toList t = true →
        rule.matchesTuple t = false := by
  refine ⟨_, rfl, (@negatedMatch_iff .source "-A INPUT ! -s 10.0.0.1 -d !any -j DROP".toList 1 _ rfl
    ["-A".toList, "INPUT".toList] _ "-s".toList "10.0.0.1".toList rfl rfl rfl).mpr ?_⟩
  exact ⟨.destination, "!any".toList, rfl, fun _ => rfl⟩

/-- A rule that is to drop everything but one source drops what comes from that source. -/
theorem not_negatedMatch_source :
    ¬ ∀ (field : MatchField) (line : Str) (n : Nat) (rule : FirewallRule) (before after : List Str)
      (flag value : Str),
      parseIptablesRule line n = .ok rule →
      splitWs (trim (removeComment line)) = before ++ ['!'] :: flag :: value :: after →
      isOneOf flag ["-s", "--source", "-d", "--destination", "--sport", "--dport"] = true →
      isOneOf flag field.option.flags = true → (field.givenValues line n).length = 1 →
        value.head? ≠ some '!' →
      ∀ t, field.valueHits value t = true → rule.matchesTuple t = false := by
  intro h
  have hnone := h .source "-A INPUT ! -s 10.0.0.1 -j DROP".toList 1 _
    ["-A".toList, "INPUT".toList] _
    "-s".toList "10.0.0.1".toList rfl rfl rfl rfl rfl (by decide) { src := ⟨0x0A000001⟩ } rfl
  cases hnone

end PacketGuard.Policy
