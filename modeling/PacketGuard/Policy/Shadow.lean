import PacketGuard.Policy.Parsed
import PacketGuard.Policy.Policy
import PacketGuard.Rules.Meaning

/-! # When a shadow report is sound

`shadowed_rules` compares chain, protocol and the texts of the four expressions.
The interfaces and the state are not compared, and `!any` has the text of the
negated empty list; everything else that a rule asks of a packet is in the texts.
-/
namespace PacketGuard.Policy
open PacketGuard.Core PacketGuard.Lib PacketGuard.Rules

/-! ## Parsed rules -/

/-- The rule comes from a line in one of the two dialects. -/
def FirewallRule.Parsed (r : FirewallRule) : Prop :=
  ∃ line n, parseIptablesRule line n = .ok r ∨ parseNftablesRule line n = .ok r

def FirewallRule.endpoints (r : FirewallRule) : Endpoints :=
  ⟨r.source, r.destination, r.sourcePorts, r.destinationPorts⟩

/-- The expressions of a parsed rule are parsed expressions. -/
def FirewallRule.Read (r : FirewallRule) : Prop := r.endpoints.Read

theorem FirewallRule.Updates.read {r s : FirewallRule} (h : r.Updates s) (hr : r.Read) :
    s.Read := by
  induction h with
  | trans _ _ ih ih' => exact ih' (ih hr)
  | source _ ha => exact ⟨(parseAddressExpr_ok ha).1, hr.destination, hr.sourcePorts,
    hr.destinationPorts⟩
  | destination _ ha =>
    exact ⟨hr.source, (parseAddressExpr_ok ha).1, hr.sourcePorts, hr.destinationPorts⟩
  | sourcePorts _ hp =>
    exact ⟨hr.source, hr.destination, (parsePortExpr_outcome _).of_eq_ok hp, hr.destinationPorts⟩
  | destinationPorts _ hp =>
    exact ⟨hr.source, hr.destination, hr.sourcePorts, (parsePortExpr_outcome _).of_eq_ok hp⟩
  | _ => exact ⟨hr.source, hr.destination, hr.sourcePorts, hr.destinationPorts⟩

/-- Both loops start with expressions that match everything. -/
theorem FirewallRule.Read.of_default {r : FirewallRule} (hsource : r.source = {})
    (hdestination : r.destination = {}) (hsports : r.sourcePorts = {})
    (hdports : r.destinationPorts = {}) :
    r.Read := by
  have haddress : AddressExpr.Read {} := ⟨fun _ => ⟨rfl, rfl⟩, .of_nil rfl rfl⟩
  have hports : PortExpr.Valid {} := ⟨fun _ => rfl, fun r hr => absurd hr List.not_mem_nil⟩
  rw [Read, endpoints, hsource, hdestination, hsports, hdports]
  exact ⟨haddress, haddress, hports, hports⟩

theorem FirewallRule.Parsed.read {r : FirewallRule} (h : r.Parsed) : r.Read := by
  obtain ⟨line, n, h | h⟩ := h
  · exact ((parseIptablesRule_outcome line n).of_eq_ok h).1.read (.of_default rfl rfl rfl rfl)
  · obtain ⟨s, hs, rfl, -⟩ := (parseNftablesRule_outcome line n).of_eq_ok h
    have hread : s.Read := hs.read (.of_default rfl rfl rfl rfl)
    split
    · exact ⟨hread.source, hread.destination, hread.sourcePorts, hread.destinationPorts⟩
    · exact hread

/-! ## Reports -/

/-- The pairs that the two loops of `shadowed_rules` report. -/
def shadowPairs : List FirewallRule → List (FirewallRule × FirewallRule)
  | [] => []
  | earlier :: rest =>
    (if earlier.action.decides then
      (rest.filter fun later => sameScope earlier later).map fun later => (earlier, later)
    else []) ++ shadowPairs rest

theorem shadowedFrom_eq (rules : List FirewallRule) :
    shadowedFrom rules = (shadowPairs rules).map fun p => shadowText p.1 p.2 := by
  induction rules with
  | nil => rfl
  | cons earlier rest ih =>
    rw [shadowedFrom, shadowPairs, List.map_append, ih]
    congr 1
    split
    · rw [List.map_map]
      rfl
    · rfl

/-- A pair is reported when the earlier rule decides and the later one has its scope. -/
theorem mem_shadowPairs {rules : List FirewallRule} {earlier later : FirewallRule} :
    (earlier, later) ∈ shadowPairs rules ↔
      earlier.action.decides = true ∧ sameScope earlier later = true ∧
        ∃ i j : Nat, i < j ∧ rules[i]? = some earlier ∧ rules[j]? = some later := by
  induction rules with
  | nil => simp [shadowPairs]
  | cons first rest ih =>
    rw [shadowPairs, List.mem_append, ih]
    constructor
    · rintro (hmem | ⟨hdecides, hscope, i, j, hlt, hi, hj⟩)
      · split at hmem
        · rename_i hdecides
          obtain ⟨later', hlater, heq⟩ := List.mem_map.mp hmem
          cases heq
          obtain ⟨hrest, hscope⟩ := List.mem_filter.mp hlater
          obtain ⟨j, hj⟩ := List.getElem?_of_mem hrest
          exact ⟨hdecides, hscope, 0, j + 1, Nat.succ_pos j, rfl, hj⟩
        · cases hmem
      · exact ⟨hdecides, hscope, i + 1, j + 1, Nat.succ_lt_succ hlt, hi, hj⟩
    · rintro ⟨hdecides, hscope, i, j, hlt, hi, hj⟩
      obtain ⟨j, rfl⟩ := Nat.exists_eq_add_one_of_ne_zero (Nat.ne_zero_of_lt hlt)
      cases i with
      | zero =>
        cases hi
        left
        rw [if_pos hdecides]
        exact List.mem_map.mpr ⟨later, List.mem_filter.mpr ⟨List.mem_of_getElem? hj, hscope⟩, rfl⟩
      | succ i => exact .inr ⟨hdecides, hscope, i, j, Nat.lt_of_succ_lt_succ hlt, hi, hj⟩

/-! ## Soundness -/

/-- No packet that reaches the later rule's scope can escape the earlier one. -/
structure Shadows (earlier later : FirewallRule) : Prop where
  tuples : ∀ src dst sport dport protocol chain, sport < 65536 → dport < 65536 →
    firewallRuleMatchesTuple later src dst sport dport protocol chain = true →
      firewallRuleMatchesTuple earlier src dst sport dport protocol chain = true
  interfaceIn : earlier.interfaceIn ≠ [] → later.interfaceIn = earlier.interfaceIn
  interfaceOut : earlier.interfaceOut ≠ [] → later.interfaceOut = earlier.interfaceOut
  state : earlier.state ≠ [] → later.state = earlier.state

/-- No tuple satisfies the rule. -/
def FirewallRule.Unmatchable (r : FirewallRule) : Prop :=
  ∀ src dst sport dport protocol chain, sport < 65536 → dport < 65536 →
    firewallRuleMatchesTuple r src dst sport dport protocol chain = false

/-- One of the four expressions has nothing to match. -/
def FirewallRule.Void (r : FirewallRule) : Prop := r.endpoints.Void

/-- At some place the earlier rule has `!any` and the later one the negated empty list,
which is printed like it. -/
def MixesUpNotAny (earlier later : FirewallRule) : Prop :=
  earlier.endpoints.MixesUpNotAny later.endpoints

/-- What the comparison of the texts leaves out does not tell the rules apart. -/
structure SameBesidesTexts (earlier later : FirewallRule) : Prop where
  interfaceIn : earlier.interfaceIn = [] ∨ earlier.interfaceIn = later.interfaceIn
  interfaceOut : earlier.interfaceOut = [] ∨ earlier.interfaceOut = later.interfaceOut
  state : earlier.state = [] ∨ earlier.state = later.state
  notAny : MixesUpNotAny earlier later → later.Void

section
variable {earlier later : FirewallRule}

/-- Chain and protocol of a rule allow those of a tuple. -/
def scopeAllows (ruleChain chain : Direction) (ruleProtocol protocol : RuleProtocol) : Prop :=
  ¬ (ruleChain ≠ .unknown ∧ chain ≠ .unknown ∧ ruleChain ≠ chain) ∧
    ¬ (ruleProtocol ≠ .any ∧ protocol ≠ .any ∧ ruleProtocol ≠ protocol)

theorem firewallRuleMatchesTuple_iff {r : FirewallRule} {src dst : IPv4Address} {sport dport : Nat}
    {protocol : RuleProtocol} {chain : Direction} :
    firewallRuleMatchesTuple r src dst sport dport protocol chain = true ↔
      scopeAllows r.chain chain r.protocol protocol ∧ r.endpoints.Hits src dst sport dport := by
  unfold firewallRuleMatchesTuple scopeAllows
  by_cases hchain : r.chain ≠ .unknown ∧ chain ≠ .unknown ∧ r.chain ≠ chain
  · rw [if_pos hchain]
    exact iff_of_false nofun fun h => h.1.1 hchain
  by_cases hprotocol : r.protocol ≠ .any ∧ protocol ≠ .any ∧ r.protocol ≠ protocol
  · rw [if_neg hchain, if_pos hprotocol]
    exact iff_of_false nofun fun h => h.1.2 hprotocol
  · rw [if_neg hchain, if_neg hprotocol, Bool.and_eq_true, Bool.and_eq_true, Bool.and_eq_true]
    constructor
    · exact fun ⟨⟨⟨hs, hd⟩, hsp⟩, hdp⟩ => ⟨⟨hchain, hprotocol⟩, ⟨hs, hd, hsp, hdp⟩⟩
    · exact fun ⟨_, ⟨hs, hd, hsp, hdp⟩⟩ => ⟨⟨⟨hs, hd⟩, hsp⟩, hdp⟩

/-- A rule that no tuple satisfies has a void expression: chain and protocol allow their own. -/
theorem FirewallRule.unmatchable_iff_void {r : FirewallRule} : r.Unmatchable ↔ r.Void := by
  rw [Void, Endpoints.void_iff]
  constructor
  · intro h src dst sport dport hsport hdport hhits
    have hallows : scopeAllows r.chain r.chain r.protocol r.protocol :=
      ⟨fun hne => hne.2.2 rfl, fun hne => hne.2.2 rfl⟩
    have hmatch := firewallRuleMatchesTuple_iff.mpr ⟨hallows, hhits⟩
    rw [h src dst sport dport r.protocol r.chain hsport hdport] at hmatch
    cases hmatch
  · intro hnone src dst sport dport protocol chain hsport hdport
    rw [← Bool.not_eq_true, firewallRuleMatchesTuple_iff]
    exact fun hmatch => hnone src dst sport dport hsport hdport hmatch.2

/-- Where the texts are not mixed up, a tuple that satisfies the later rule satisfies the
earlier one. -/
theorem matches_of_sameScope (hearlier : earlier.Read) (hlater : later.Read)
    (hscope : sameScope earlier later = true) (hnot : ¬ MixesUpNotAny earlier later)
    {src dst : IPv4Address} {sport dport : Nat} {protocol : RuleProtocol} {chain : Direction}
    (h : firewallRuleMatchesTuple later src dst sport dport protocol chain = true) :
    firewallRuleMatchesTuple earlier src dst sport dport protocol chain = true := by
  simp only [sameScope, Bool.and_eq_true, decide_eq_true_eq, beq_iff_eq] at hscope
  obtain ⟨⟨⟨⟨⟨hchain, hprotocol⟩, hsource⟩, hdestination⟩, hsports⟩, hdports⟩ := hscope
  obtain ⟨hallows, hhits⟩ := firewallRuleMatchesTuple_iff.mp h
  refine firewallRuleMatchesTuple_iff.mpr ⟨?_, ?_⟩
  · rwa [hchain, hprotocol]
  · exact hhits.of_printAlike hearlier hlater ⟨hsource, hdestination, hsports, hdports⟩ hnot

/-- **A pair with equal texts is a sound report exactly when** nothing beside the texts tells the
rules apart. -/
theorem shadows_iff (hearlier : earlier.Read) (hlater : later.Read)
    (hscope : sameScope earlier later = true) :
    Shadows earlier later ↔ SameBesidesTexts earlier later := by
  have hfield : ∀ {a b : Str}, (a ≠ [] → b = a) ↔ a = [] ∨ a = b := by
    intro a b
    rw [← not_imp_not, not_not, eq_comm (a := b)]
    tauto
  constructor
  · rintro ⟨htuples, hin, hout, hstate⟩
    refine ⟨hfield.mp hin, hfield.mp hout, hfield.mp hstate, fun hmixed => ?_⟩
    -- the earlier rule matches nothing, so the later one, whose tuples it takes, does not either
    have hnone := FirewallRule.unmatchable_iff_void.mpr hmixed.void
    refine FirewallRule.unmatchable_iff_void.mp
      fun src dst sport dport protocol chain hsport hdport => ?_
    by_contra hmatch
    have htuple := htuples src dst sport dport protocol chain hsport hdport
      (Bool.not_eq_false _ ▸ hmatch)
    rw [hnone src dst sport dport protocol chain hsport hdport] at htuple
    cases htuple
  · rintro ⟨hin, hout, hstate, hmixed⟩
    refine ⟨fun src dst sport dport protocol chain hsport hdport hmatch => ?_,
      hfield.mpr hin, hfield.mpr hout, hfield.mpr hstate⟩
    refine matches_of_sameScope hearlier hlater hscope (fun hnot => ?_) hmatch
    have hnone := FirewallRule.unmatchable_iff_void.mpr (hmixed hnot)
    rw [hnone src dst sport dport protocol chain hsport hdport] at hmatch
    cases hmatch

end

/-- **Shadow reports**: a file's texts are those of the pairs of an earlier deciding
rule and a later one with its scope, and such a pair is soundly reported exactly
when nothing beside the compared texts tells the two rules apart. -/
theorem shadowedRules_sound_iff (file : PolicyFile) (hparsed : ∀ r ∈ file.firewallRules, r.Parsed) :
    shadowedRules file = (shadowPairs file.firewallRules).map (fun p => shadowText p.1 p.2) ∧
      ∀ earlier later, (earlier, later) ∈ shadowPairs file.firewallRules →
        (Shadows earlier later ↔ SameBesidesTexts earlier later) := by
  refine ⟨shadowedFrom_eq _, fun earlier later hpair => ?_⟩
  obtain ⟨-, hscope, i, j, -, hi, hj⟩ := mem_shadowPairs.mp hpair
  exact shadows_iff (hparsed _ (List.mem_of_getElem? hi)).read
    (hparsed _ (List.mem_of_getElem? hj)).read
    hscope

/-- Everything from `eth0` is dropped, -/
def dropFromEth0 : FirewallRule where
  dialect := .iptables
  chain := .input
  action := .drop
  jumpTarget := "DROP".toList
  interfaceIn := "eth0".toList
  raw := "-A INPUT -i eth0 -j DROP".toList
  line := 1

/-- and the rest is accepted. -/
def acceptRest : FirewallRule where
  dialect := .iptables
  chain := .input
  action := .accept
  jumpTarget := "ACCEPT".toList
  raw := "-A INPUT -j ACCEPT".toList
  line := 2

def eth0Policy : PolicyFile where
  dominantDialect := .iptables
  firewallRules := [dropFromEth0, acceptRest]

theorem parsed_eth0Policy : ∀ r ∈ eth0Policy.firewallRules, r.Parsed := by
  intro r hr
  rcases List.mem_cons.mp hr with rfl | hr
  · exact ⟨"-A INPUT -i eth0 -j DROP".toList, 1, .inl rfl⟩
  · cases List.mem_singleton.mp hr
    exact ⟨"-A INPUT -j ACCEPT".toList, 2, .inl rfl⟩

theorem shadowedRules_sound_iff_eth0Policy : ¬ Shadows dropFromEth0 acceptRest := by
  have hpair : (dropFromEth0, acceptRest) ∈ shadowPairs eth0Policy.firewallRules := by decide
  rw [(shadowedRules_sound_iff eth0Policy parsed_eth0Policy).2 _ _ hpair]
  intro hsame
  exact absurd hsame.interfaceIn (by decide)

/-- The second rule, which takes what the first one leaves, is reported. -/
theorem eth0Policy_not_sound :
    ¬ ∀ file : PolicyFile, (∀ r ∈ file.firewallRules, r.Parsed) →
      ∀ earlier later, (earlier, later) ∈ shadowPairs file.firewallRules →
        Shadows earlier later := by
  intro hsound
  have hshadows := hsound eth0Policy parsed_eth0Policy dropFromEth0 acceptRest (by decide)
  exact absurd (hshadows.interfaceIn (by decide)) (by decide)

end PacketGuard.Policy
