import PacketGuard.Lib.FirstMatch
import PacketGuard.Policy.Lines
import PacketGuard.Policy.NegatedMatch
import PacketGuard.Policy.Ordering

/-! # The reviews name rules that never decide

The first rule that accepts, drops or rejects a packet and is satisfied by it
decides about the packet.  Where no expression is `!any`, a rule that a shadow
report or an ordering warning names never comes first: all named rules can be
left out at once, and every packet is decided as before.
-/
namespace PacketGuard.Policy
open PacketGuard.Core PacketGuard.Lib PacketGuard.Rules

/-! ## Verdicts -/

/-- The rule decides about the flow, when none before it does. -/
def decidesFor (t : FlowTuple) (r : FirewallRule) : Bool :=
  r.action.decides && r.matchesTuple t

/-- The action of the first rule that decides about the flow. -/
def verdict (rules : List FirewallRule) (t : FlowTuple) : Option FirewallAction :=
  (rules.find? (decidesFor t)).map FirewallRule.action

/-! ## What the reviews name -/

/-- The texts of the reviews that name a rule behind some others. -/
def reportTexts (earlier : List FirewallRule) (r : FirewallRule) : List Str :=
  (earlier.filter fun e => e.action.decides && sameScope e r).map (fun e => shadowText e r) ++
    if Warned earlier r then [orderingText r] else []

/-- The rules that are not named. -/
def unnamedRules (rules : List FirewallRule) : List FirewallRule :=
  leaveOut (fun earlier r => !(reportTexts earlier r).isEmpty) rules

theorem mem_reportTexts {earlier : List FirewallRule} {r : FirewallRule} {text : Str} :
    text ∈ reportTexts earlier r ↔
      (∃ e ∈ earlier, e.action.decides = true ∧ sameScope e r = true ∧ shadowText e r = text) ∨
        (Warned earlier r ∧ text = orderingText r) := by
  rw [reportTexts, List.mem_append, List.mem_map]
  refine or_congr ?_ ?_
  · simp [and_assoc]
  · by_cases hwarned : Warned earlier r <;> simp [hwarned]

/-- The reviews have the texts of all rules and no others. -/
theorem mem_reviews_iff {file : PolicyFile} {text : Str} :
    text ∈ shadowedRules file ∨ text ∈ orderingWarnings file ↔
      ∃ earlier r later, file.firewallRules = earlier ++ r :: later ∧
        text ∈ reportTexts earlier r := by
  have hshadow : text ∈ shadowedRules file ↔ ∃ earlier r later,
      file.firewallRules = earlier ++ r :: later ∧
      ∃ e ∈ earlier, e.action.decides = true ∧ sameScope e r = true ∧ shadowText e r = text := by
    rw [shadowedRules, shadowedFrom_eq, List.mem_map]
    constructor
    · rintro ⟨⟨e, r⟩, hpair, htext⟩
      obtain ⟨hdecides, hscope, i, j, hlt, hi, hj⟩ := mem_shadowPairs.mp hpair
      obtain ⟨hlen, rfl⟩ := List.getElem?_eq_some_iff.mp hj
      refine ⟨file.firewallRules.take j, file.firewallRules[j], file.firewallRules.drop (j + 1),
        ?_, e, ?_, hdecides, hscope, htext⟩
      · rw [List.getElem_cons_drop, List.take_append_drop]
      · exact List.mem_of_getElem? ((List.getElem?_take_of_lt hlt).trans hi)
    · rintro ⟨earlier, r, later, hrules, e, he, hdecides, hscope, htext⟩
      obtain ⟨i, hi⟩ := List.getElem?_of_mem he
      have hlt : i < earlier.length := (List.getElem?_eq_some_iff.mp hi).1
      refine ⟨(e, r), mem_shadowPairs.mpr ⟨hdecides, hscope, i, earlier.length, hlt, ?_, ?_⟩, htext⟩
      · rw [hrules, List.getElem?_append_left hlt, hi]
      · rw [hrules, List.getElem?_append_right (Nat.le_refl _), Nat.sub_self]
        rfl
  have horder : text ∈ orderingWarnings file ↔ ∃ earlier r later,
      file.firewallRules = earlier ++ r :: later ∧
      Warned earlier r ∧ text = orderingText r := by
    rw [orderingWarnings_eq, List.mem_map]
    constructor
    · rintro ⟨⟨earlier, r⟩, hmem, htext⟩
      obtain ⟨hmem, hwarned⟩ := List.mem_filter.mp hmem
      obtain ⟨first, later, heq, hrules⟩ := mem_withEarlier.mp hmem
      cases heq
      exact ⟨first, r, later, hrules, of_decide_eq_true hwarned, htext.symm⟩
    · rintro ⟨earlier, r, later, hrules, hwarned, htext⟩
      refine ⟨(earlier, r), List.mem_filter.mpr ⟨?_, decide_eq_true hwarned⟩, htext.symm⟩
      exact mem_withEarlier.mpr ⟨earlier, later, rfl, hrules⟩
  rw [hshadow, horder]
  simp only [mem_reportTexts]
  constructor
  · rintro (⟨earlier, r, later, hrules, hreport⟩ | ⟨earlier, r, later, hrules, hreport⟩)
    · exact ⟨earlier, r, later, hrules, .inl hreport⟩
    · exact ⟨earlier, r, later, hrules, .inr hreport⟩
  · rintro ⟨earlier, r, later, hrules, hreport | hreport⟩
    · exact .inl ⟨earlier, r, later, hrules, hreport⟩
    · exact .inr ⟨earlier, r, later, hrules, hreport⟩

/-! ## Named rules are masked -/

/-- No expression of the rule is `!any`. -/
structure FirewallRule.WithoutNotAny (r : FirewallRule) : Prop where
  source : r.source ≠ .notAny
  destination : r.destination ≠ .notAny
  sourcePorts : r.sourcePorts ≠ .notAny
  destinationPorts : r.destinationPorts ≠ .notAny

theorem address_hits_of_any {e : AddressExpr} (h : e.Read) (hany : e.any = true) (hne : e ≠ .notAny)
    (address : IPv4Address) : e.hits address = true := by
  obtain ⟨any, negated, ranges, vars⟩ := e
  obtain ⟨hranges, hvars⟩ := h.ofAny hany
  subst hany hranges hvars
  cases negated with
  | false => rfl
  | true => exact absurd rfl hne

theorem port_hits_of_any {e : PortExpr} (h : e.Valid) (hany : e.any = true) (hne : e ≠ .notAny)
    (port : Nat) :
    e.hits port = true := by
  obtain ⟨any, negated, ranges⟩ := e
  have hranges := h.ofAny hany
  subst hany hranges
  cases negated with
  | false => rfl
  | true => exact absurd rfl hne

section
variable {e r : FirewallRule}

theorem FirewallRule.WithoutNotAny.not_mixesUp (h : e.WithoutNotAny) : ¬ MixesUpNotAny e r := by
  rintro (⟨heq, -⟩ | ⟨heq, -⟩ | ⟨heq, -⟩ | ⟨heq, -⟩)
  · exact h.source heq
  · exact h.destination heq
  · exact h.sourcePorts heq
  · exact h.destinationPorts heq

/-- A shadowing rule decides about every flow that the later rule decides about. -/
theorem decidesFor_of_sameScope (he : e.Read) (hr : r.Read) (hnot : e.WithoutNotAny)
    (hdecides : e.action.decides = true) (hscope : sameScope e r = true) {t : FlowTuple}
    (h : decidesFor t r = true) : decidesFor t e = true := by
  rw [decidesFor, Bool.and_eq_true] at h ⊢
  exact ⟨hdecides, matches_of_sameScope he hr hscope hnot.not_mixesUp h.2⟩

theorem decides_of_denies (h : e.denies = true) : e.action.decides = true := by
  unfold FirewallRule.denies at h
  rcases of_decide_eq_true h with h | h <;> rw [h] <;> rfl

/-- A broad deny decides about every flow of its chain. -/
theorem decidesFor_of_broad (he : e.Read) (hnot : e.WithoutNotAny) (hdenies : e.denies = true)
    (hbroad : e.broad = true) (hchain : e.chain = r.chain) {t : FlowTuple}
    (h : decidesFor t r = true) :
    decidesFor t e = true := by
  obtain ⟨⟨hs, hd, hsp, hdp⟩, hprotocol⟩ := FirewallRule.broad_iff.mp hbroad
  rw [decidesFor, Bool.and_eq_true] at h ⊢
  obtain ⟨⟨hallowed, -⟩, -⟩ := firewallRuleMatchesTuple_iff.mp h.2
  refine ⟨decides_of_denies hdenies,
    firewallRuleMatchesTuple_iff.mpr ⟨⟨?_, fun hp => hp.1 hprotocol⟩, ?_⟩⟩
  · rwa [hchain]
  · exact ⟨address_hits_of_any he.source hs hnot.source _,
      address_hits_of_any he.destination hd hnot.destination _,
      port_hits_of_any he.sourcePorts hsp hnot.sourcePorts _,
      port_hits_of_any he.destinationPorts hdp hnot.destinationPorts _⟩

end

/-- A named rule is masked. -/
theorem masked_of_reportTexts {earlier : List FirewallRule} {r : FirewallRule}
    (hread : ∀ e ∈ earlier, e.Read ∧ e.WithoutNotAny) (hr : r.Read)
    (h : reportTexts earlier r ≠ []) :
    Masked decidesFor earlier r := by
  obtain ⟨text, htext⟩ := List.exists_mem_of_ne_nil _ h
  intro t ht
  rcases mem_reportTexts.mp htext
    with ⟨e, he, hdecides, hscope, -⟩ | ⟨⟨-, e, he, hdenies, hchain, hbroad⟩, -⟩
  · exact ⟨e, he, decidesFor_of_sameScope (hread e he).1 hr (hread e he).2 hdecides hscope ht⟩
  · exact ⟨e, he, decidesFor_of_broad (hread e he).1 (hread e he).2 hdenies hbroad hchain ht⟩

/-! ## Policies -/

/-- The rules of a policy are parsed from its lines. -/
theorem parsed_of_mem_parsePolicyText {text : Str} {r : FirewallRule}
    (h : r ∈ (parsePolicyText text).firewallRules) :
    r.Parsed := by
  have hrun : ∀ r ∈ (policyMachine.run (getlines '\n' text)).firewallRules, r.Parsed := by
    refine policyMachine.run_induction (P := fun _ s => ∀ r ∈ s.firewallRules, r.Parsed) ?_ ?_ _
    · exact fun r hr => absurd hr List.not_mem_nil
    · intro lines line hold r hr
      change r ∈ (PolicyScan.step _ line).firewallRules at hr
      unfold PolicyScan.step at hr
      simp only at hr
      split at hr
      · exact hold r hr
      · rcases List.mem_append.mp hr with hr | hr
        · exact hold r hr
        · unfold lineRules at hr
          split at hr
          · rename_i rule hrule
            rw [List.mem_singleton.mp hr]
            unfold parsePolicyLine at hrule
            split at hrule
            · exact ⟨_, _, .inl hrule⟩
            split at hrule
            · exact ⟨_, _, .inr hrule⟩
            · cases hrule
          · cases hr
  rw [firewallRules_parsePolicyText] at h
  exact hrun r h

/-- **The rules that the reviews name never decide.** The shadow reports and the
ordering warnings of a policy without `!any` name rules that can be left out all at
once: every flow gets the verdict it got before. -/
theorem verdict_unnamedRules (text : Str)
    (h : ∀ r ∈ (parsePolicyText text).firewallRules, r.WithoutNotAny) :
    let file := parsePolicyText text
    (∀ report, report ∈ shadowedRules file ∨ report ∈ orderingWarnings file ↔
      ∃ earlier r later, file.firewallRules = earlier ++ r :: later ∧
        report ∈ reportTexts earlier r) ∧
    ∀ t, verdict (unnamedRules file.firewallRules) t = verdict file.firewallRules t := by
  refine ⟨fun report => mem_reviews_iff, fun t => ?_⟩
  rw [verdict, verdict, unnamedRules, find?_leaveOut]
  intro earlier r later hrules hnamed
  have hmem : ∀ e ∈ earlier ++ r :: later, e.Read ∧ e.WithoutNotAny := by
    intro e he
    rw [← hrules] at he
    exact ⟨(parsed_of_mem_parsePolicyText he).read, h e he⟩
  refine masked_of_reportTexts (fun e he => hmem e (List.mem_append_left _ he))
    (hmem r (by simp)).1 ?_
  simpa using hnamed

/-- A network is shut out, and let in on the next line. -/
def shutOut : Str := "-A INPUT -s 10.0.0.0/8 -j DROP\n-A INPUT -s 10.0.0.0/8 -j ACCEPT\n".toList

def shutOutFlow : FlowTuple := ⟨⟨0x0a000001⟩, ⟨0x0a000002⟩, 1024, 80, .tcp, .input⟩

theorem verdict_unnamedRules_shutOut :
    (unnamedRules (parsePolicyText shutOut).firewallRules).length = 1 ∧
      verdict (unnamedRules (parsePolicyText shutOut).firewallRules) shutOutFlow =
        verdict (parsePolicyText shutOut).firewallRules shutOutFlow := by
  have hrule : ∀ r ∈ (parsePolicyText shutOut).firewallRules, r.WithoutNotAny := by
    intro r hr
    have hplain : ∀ r ∈ (parsePolicyText shutOut).firewallRules,
        r.source ≠ .notAny ∧ r.destination ≠ .notAny ∧ r.sourcePorts ≠ .notAny ∧
          r.destinationPorts ≠ .notAny := by
      decide
    obtain ⟨hs, hd, hsp, hdp⟩ := hplain r hr
    exact ⟨hs, hd, hsp, hdp⟩
  exact ⟨by decide, (verdict_unnamedRules shutOut hrule).2 shutOutFlow⟩

end PacketGuard.Policy
