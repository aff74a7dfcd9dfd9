import PacketGuard.Policy.Shadow

/-! # When a duplicate report is sound

`duplicate_rules` groups rules by their normal form, one text made of the fields
of a rule with blanks between them.  No field of a parsed rule holds a blank, so
the text says what each field prints as.  Two things are not printed: where a
jump goes, and whether a `!` negates `any` or the empty list.
-/
namespace PacketGuard.Policy
open PacketGuard.Core PacketGuard.Lib PacketGuard.Rules

/-! ## Reports -/

/-- The lines of the rules with one normal form. -/
def linesOf (normal : Str) (rules : List FirewallRule) : List Nat :=
  valuesOf normal (rules.map fun r => (normalizeFirewallRule r, r.line))

/-- A report names the first of several rules with one normal form. -/
theorem mem_duplicateRules {file : PolicyFile} {text : Str} :
    text ∈ duplicateRules file ↔
      ∃ normal, 1 < (linesOf normal file.firewallRules).length ∧
        text = "duplicate firewall rule at line ".toList ++
          natToString ((linesOf normal file.firewallRules).headD 0) := by
  rw [duplicateRules, mem_severalReports_fileAll]
  rfl

/-! ## The fields of a normal form -/

/-- A limit of the rule, if it sets one. -/
def limitField (name : String) (value : Str) : List Str :=
  if value = [] then [] else [name.toList ++ value]

def limitFields (r : FirewallRule) : List Str :=
  limitField "iif=" r.interfaceIn ++
    (limitField "oif=" r.interfaceOut ++ limitField "state=" r.state)

def normalFields (r : FirewallRule) : List Str :=
  dialectName r.dialect :: directionName r.chain :: protocolName r.protocol :: r.source.toString ::
    r.sourcePorts.toString :: "->".toList :: r.destination.toString ::
      r.destinationPorts.toString ::
    actionName r.action :: limitFields r

theorem namedPart_eq (name : String) (value : Str) :
    (limitField name value).flatMap ([' '] ++ ·) = namedPart (" " ++ name) value := by
  unfold limitField namedPart
  cases value <;> simp

/-- The normal form is its fields, with a blank between any two. -/
theorem normalizeFirewallRule_eq (r : FirewallRule) :
    normalizeFirewallRule r = [' '].intercalate (normalFields r) := by
  unfold normalFields limitFields
  rw [intercalate_cons_eq]
  simp only [List.flatMap_cons, List.flatMap_append, namedPart_eq, normalizeFirewallRule,
    List.append_assoc]
  rfl

/-! ## Fields without blanks -/

/-- No field of the rule holds white space. -/
structure FirewallRule.Spaceless (r : FirewallRule) : Prop where
  source : NoSpace r.source.toString
  destination : NoSpace r.destination.toString
  interfaceIn : NoSpace r.interfaceIn
  interfaceOut : NoSpace r.interfaceOut
  state : NoSpace r.state

/-- One turn keeps the fields without blanks. -/
abbrev KeepsSpaceless : Result (FirewallRule × Nat) → Prop :=
  Outcome (fun r => r.1.Spaceless) fun _ => True

theorem noSpace_nil : NoSpace [] := fun _ hc => absurd hc List.not_mem_nil

theorem noSpace_nextValue {rest : List Str} (h : ∀ t ∈ rest, NoSpace t) :
    NoSpace (nextValue rest) := by
  cases rest with
  | nil => exact noSpace_nil
  | cons t rest => exact h t List.mem_cons_self

theorem noSpace_getD {rest : List Str} (h : ∀ t ∈ rest, NoSpace t) (i : Nat) :
    NoSpace (rest.getD i []) := by
  rw [List.getD_eq_getElem?_getD]
  cases ht : rest[i]? with
  | none => exact noSpace_nil
  | some t => exact h t (List.mem_of_getElem? ht)

section
variable {rule : FirewallRule} {taken : Nat}

theorem keeps_address {value : Str} (hvalue : NoSpace value) {f : AddressExpr → FirewallRule}
    (hf : ∀ a : AddressExpr, NoSpace a.toString → (f a).Spaceless) :
    KeepsSpaceless ((parseAddressExpr value).map fun a => (f a, taken)) :=
  (Outcome.self fun _ _ => trivial).map fun a ha => hf a (noSpace_of_parseAddressExpr ha hvalue)

theorem keeps_ports (value : Str) {f : PortExpr → FirewallRule} (hf : ∀ p, (f p).Spaceless) :
    KeepsSpaceless ((parsePortExpr value).map fun p => (f p, taken)) :=
  (Outcome.self fun _ _ => trivial).map fun p _ => hf p

theorem iptablesToken_spaceless (h : rule.Spaceless) (tok : Str) {rest : List Str}
    (hrest : ∀ t ∈ rest, NoSpace t) : KeepsSpaceless (iptablesToken rule tok rest) := by
  have hvalue := noSpace_nextValue hrest
  unfold iptablesToken
  refine .ite (fun _ => h) fun _ => ?_
  refine .ite (fun _ => { h with }) fun _ => ?_
  refine .ite (fun _ => { h with }) fun _ => ?_
  refine .ite (fun _ => keeps_address hvalue fun _ ha => { h with source := ha }) fun _ => ?_
  refine .ite (fun _ => keeps_address hvalue fun _ ha => { h with destination := ha }) fun _ => ?_
  refine .ite (fun _ => keeps_ports _ fun _ => { h with }) fun _ => ?_
  refine .ite (fun _ => keeps_ports _ fun _ => { h with }) fun _ => ?_
  refine .ite (fun _ => { h with interfaceIn := hvalue }) fun _ => ?_
  refine .ite (fun _ => { h with interfaceOut := hvalue }) fun _ => ?_
  refine .ite (fun _ => ?_) fun _ => ?_
  · show FirewallRule.Spaceless (ite _ _ _)
    split_ifs
    · exact { h with state := hvalue }
    · exact h
  refine .ite (fun _ => { h with state := hvalue }) fun _ => ?_
  refine .ite (fun _ => { h with }) fun _ => ?_
  exact .ite (fun _ => { h with }) fun _ => h

theorem nftablesToken_spaceless (h : rule.Spaceless) (token : Str) {rest : List Str}
    (hrest : ∀ t ∈ rest, NoSpace t) : KeepsSpaceless (nftablesToken rule token rest) := by
  have hsecond := noSpace_getD hrest 1
  have hquoted := noSpace_stripQuotes (noSpace_nextValue hrest)
  unfold nftablesToken
  refine .ite (fun _ => { h with }) fun _ => ?_
  refine .ite (fun _ => { h with }) fun _ => ?_
  refine .ite (fun _ => ?_) fun _ => ?_
  · refine .ite (fun _ => keeps_address hsecond fun _ ha => { h with source := ha }) fun _ => ?_
    exact .ite (fun _ => keeps_address hsecond fun _ ha => { h with destination := ha }) fun _ => h
  refine .ite (fun _ => ?_) fun _ => ?_
  · refine .ite (fun _ => keeps_ports _ fun _ => { h with }) fun _ => ?_
    exact .ite (fun _ => keeps_ports _ fun _ => { h with }) fun _ => { h with }
  refine .ite (fun _ => { h with interfaceIn := hquoted }) fun _ => ?_
  refine .ite (fun _ => { h with interfaceOut := hquoted }) fun _ => ?_
  refine .ite (fun _ => { h with state := hsecond }) fun _ => ?_
  refine .ite (fun _ => { h with }) fun _ => ?_
  exact .ite (fun _ => { h with }) fun _ => h

end

/-- Both loops start with a rule that limits nothing. -/
theorem spaceless_start (dialect : FirewallDialect) (raw : Str) (line : Nat) :
    FirewallRule.Spaceless { dialect, raw, line } where
  source := noSpace_listed true false fun _ hp => absurd hp List.not_mem_nil
  destination := noSpace_listed true false fun _ hp => absurd hp List.not_mem_nil
  interfaceIn := noSpace_nil
  interfaceOut := noSpace_nil
  state := noSpace_nil

theorem FirewallRule.Parsed.spaceless {r : FirewallRule} (h : r.Parsed) : r.Spaceless := by
  obtain ⟨line, n, h | h⟩ := h
  · have hloop : Outcome FirewallRule.Spaceless (fun _ => True) (parseIptablesRule line n) := by
      refine .ite (fun _ => trivial) fun _ => ?_
      refine (scanTokens_outcome_of_tokens (fun s tok rest hs hrest => ?_) (spaceless_start _ _ _) 0
        fun _ => noSpace_of_mem_splitWs).bind fun s hs => ?_
      · exact iptablesToken_spaceless hs tok (List.forall_mem_cons.mp hrest).2
      · refine .ite (fun _ => trivial) fun _ => ?_
        exact .ite (fun _ => trivial) fun _ => hs
    exact hloop.of_eq_ok h
  · have hloop : Outcome FirewallRule.Spaceless (fun _ => True) (parseNftablesRule line n) := by
      refine .ite (fun _ => trivial) fun _ => ?_
      refine (scanTokens_outcome_of_tokens (fun s tok rest hs hrest => ?_) (spaceless_start _ _ _) 0
        fun _ => noSpace_of_mem_splitWs).bind fun s hs => ?_
      · exact nftablesToken_spaceless hs tok (List.forall_mem_cons.mp hrest).2
      · refine .ite (fun _ => trivial) fun _ => ?_
        show FirewallRule.Spaceless (ite _ _ _)
        split_ifs
        · exact { hs with }
        · exact hs
    exact hloop.of_eq_ok h

/-! ## Names -/

theorem parseDirection_directionName (chain : Direction) :
    (parseDirection (directionName chain)).getD .unknown = chain := by
  cases chain <;> rfl

theorem parseProtocol_getD (protocol : RuleProtocol) :
    (parseProtocol (protocolName protocol)).getD .unknown = protocol := by
  cases protocol <;> rfl

theorem directionName_inj {chain chain' : Direction}
    (h : directionName chain = directionName chain') :
    chain = chain' := by
  rw [← parseDirection_directionName chain, h, parseDirection_directionName]

theorem protocolName_inj {protocol protocol' : RuleProtocol}
    (h : protocolName protocol = protocolName protocol') : protocol = protocol' := by
  rw [← parseProtocol_getD protocol, h, parseProtocol_getD]

theorem actionName_inj {action action' : FirewallAction}
    (h : actionName action = actionName action') :
    action = action' := by
  cases action <;> cases action' <;> first | rfl | exact absurd h (by decide)

theorem blank_not_mem_names (r : FirewallRule) :
    ' ' ∉ dialectName r.dialect ∧ ' ' ∉ directionName r.chain ∧ ' ' ∉ protocolName r.protocol ∧
      ' ' ∉ actionName r.action := by
  refine ⟨?_, ?_, ?_, ?_⟩
  · cases r.dialect <;> decide
  · cases r.chain <;> decide
  · cases r.protocol <;> decide
  · cases r.action <;> decide

/-! ## Equal normal forms -/

theorem mem_limitField {name : String} {value p : Str} (h : p ∈ limitField name value) :
    p = name.toList ++ value := by
  unfold limitField at h
  split at h
  · cases h
  · exact List.mem_singleton.mp h

theorem noSpace_limitField {name : String} {value : Str} (hname : NoSpace name.toList)
    (hvalue : NoSpace value) : ∀ p ∈ limitField name value, NoSpace p := by
  intro p hp
  rw [mem_limitField hp]
  exact hname.append hvalue

theorem FirewallRule.Spaceless.limitFields {r : FirewallRule} (h : r.Spaceless) :
    ∀ p ∈ limitFields r, NoSpace p := by
  intro p hp
  rcases List.mem_append.mp hp with hp | hp
  · exact noSpace_limitField (by simp [NoSpace, isSpace]) h.interfaceIn p hp
  rcases List.mem_append.mp hp with hp | hp
  · exact noSpace_limitField (by simp [NoSpace, isSpace]) h.interfaceOut p hp
  · exact noSpace_limitField (by simp [NoSpace, isSpace]) h.state p hp

theorem FirewallRule.Spaceless.normalFields {r : FirewallRule} (h : r.Spaceless) :
    ∀ p ∈ normalFields r, ' ' ∉ p := by
  obtain ⟨hdialect, hchain, hprotocol, haction⟩ := blank_not_mem_names r
  simp only [Policy.normalFields, List.forall_mem_cons]
  exact ⟨hdialect, hchain, hprotocol, h.source.not_mem, (PortExpr.noSpace_toString _).not_mem,
    by decide, h.destination.not_mem, (PortExpr.noSpace_toString _).not_mem, haction,
    fun p hp => (h.limitFields p hp).not_mem⟩

/-- A limit in front of fields that do not start with its name. -/
theorem limitField_append_inj {name : String} {value value' : Str} {rest rest' : List Str}
    (hrest : ∀ p ∈ rest, ¬ name.toList <+: p) (hrest' : ∀ p ∈ rest', ¬ name.toList <+: p)
    (h : limitField name value ++ rest = limitField name value' ++ rest') :
    value = value' ∧ rest = rest' := by
  unfold limitField at h
  by_cases hvalue : value = [] <;> by_cases hvalue' : value' = []
  · rw [if_pos hvalue, if_pos hvalue'] at h
    exact ⟨hvalue.trans hvalue'.symm, h⟩
  · rw [if_pos hvalue, if_neg hvalue', List.nil_append] at h
    have hmem : name.toList ++ value' ∈ rest := h ▸ List.mem_cons_self
    exact absurd (List.prefix_append _ _) (hrest _ hmem)
  · rw [if_neg hvalue, if_pos hvalue', List.nil_append] at h
    have hmem : name.toList ++ value ∈ rest' := h.symm ▸ List.mem_cons_self
    exact absurd (List.prefix_append _ _) (hrest' _ hmem)
  · rw [if_neg hvalue, if_neg hvalue'] at h
    obtain ⟨hfield, hrests⟩ := List.cons.inj h
    exact ⟨List.append_cancel_left hfield, hrests⟩

/-- What two rules with one normal form agree on. -/
structure SamePrint (r s : FirewallRule) : Prop where
  chain : r.chain = s.chain
  protocol : r.protocol = s.protocol
  source : r.source.toString = s.source.toString
  sourcePorts : r.sourcePorts.toString = s.sourcePorts.toString
  destination : r.destination.toString = s.destination.toString
  destinationPorts : r.destinationPorts.toString = s.destinationPorts.toString
  action : r.action = s.action
  interfaceIn : r.interfaceIn = s.interfaceIn
  interfaceOut : r.interfaceOut = s.interfaceOut
  state : r.state = s.state

theorem limitFields_inj {r s : FirewallRule} (h : limitFields r = limitFields s) :
    r.interfaceIn = s.interfaceIn ∧ r.interfaceOut = s.interfaceOut ∧ r.state = s.state := by
  have hiif : ∀ t : FirewallRule,
      ∀ p ∈ limitField "oif=" t.interfaceOut ++ limitField "state=" t.state,
      ¬ "iif=".toList <+: p := by
    intro t p hp
    rcases List.mem_append.mp hp with hp | hp <;> rw [mem_limitField hp] <;> simp
  have hoif : ∀ t : FirewallRule, ∀ p ∈ limitField "state=" t.state, ¬ "oif=".toList <+: p := by
    intro t p hp
    rw [mem_limitField hp]
    simp
  obtain ⟨hin, h⟩ := limitField_append_inj (hiif r) (hiif s) h
  obtain ⟨hout, h⟩ := limitField_append_inj (hoif r) (hoif s) h
  have hnil : ∀ p ∈ ([] : List Str), ¬ "state=".toList <+: p := fun p hp =>
    absurd hp List.not_mem_nil
  rw [← List.append_nil (limitField _ r.state), ← List.append_nil (limitField _ s.state)] at h
  exact ⟨hin, hout, (limitField_append_inj hnil hnil h).1⟩

/-- **The normal form says what its fields print as.** -/
theorem samePrint_of_normal {r s : FirewallRule} (hr : r.Spaceless) (hs : s.Spaceless)
    (h : normalizeFirewallRule r = normalizeFirewallRule s) : SamePrint r s := by
  rw [normalizeFirewallRule_eq, normalizeFirewallRule_eq] at h
  have hfields := intercalate_inj (List.cons_ne_nil _ _) (List.cons_ne_nil _ _) hr.normalFields
    hs.normalFields h
  simp only [List.cons.injEq] at hfields
  obtain ⟨-, hchain, hprotocol, hsource, hsports, -, hdestination, hdports, haction, hlimits⟩ :=
    hfields
  obtain ⟨hin, hout, hstate⟩ := limitFields_inj hlimits
  exact ⟨directionName_inj hchain, protocolName_inj hprotocol, hsource, hsports,
    hdestination, hdports,
    actionName_inj haction, hin, hout, hstate⟩

theorem SamePrint.sameScope {r s : FirewallRule} (h : SamePrint r s) :
    sameScope r s = true ∧ sameScope s r = true := by
  unfold Policy.sameScope
  rw [h.chain, h.protocol, h.source, h.sourcePorts, h.destination, h.destinationPorts]
  simp

/-! ## Soundness -/

/-- One of the rules can be dropped: they do the same with the same packets. -/
structure Interchangeable (r s : FirewallRule) : Prop where
  chain : r.chain = s.chain
  action : r.action = s.action
  protocol : r.protocol = s.protocol
  interfaceIn : r.interfaceIn = s.interfaceIn
  interfaceOut : r.interfaceOut = s.interfaceOut
  state : r.state = s.state
  jumpTarget : r.action = .jump → r.jumpTarget = s.jumpTarget
  tuples : ∀ src dst sport dport protocol chain, sport < 65536 → dport < 65536 →
    firewallRuleMatchesTuple r src dst sport dport protocol chain =
      firewallRuleMatchesTuple s src dst sport dport protocol chain

/-- What the normal form leaves out does not tell the rules apart. -/
structure SameBesidesPrint (r s : FirewallRule) : Prop where
  jumpTarget : r.action = .jump → r.jumpTarget = s.jumpTarget
  notAny : MixesUpNotAny r s → s.Void
  notAny' : MixesUpNotAny s r → r.Void

section
variable {r s : FirewallRule}

/-- A rule that mixes up `!any` with the other one matches nothing, so the other one
may not either. -/
theorem void_of_mixesUp (hmixed : MixesUpNotAny r s)
    (htuples : ∀ src dst sport dport protocol chain, sport < 65536 → dport < 65536 →
      firewallRuleMatchesTuple r src dst sport dport protocol chain =
        firewallRuleMatchesTuple s src dst sport dport protocol chain) : s.Void := by
  have hnone := FirewallRule.unmatchable_iff_void.mpr hmixed.void
  refine FirewallRule.unmatchable_iff_void.mp
    fun src dst sport dport protocol chain hsport hdport => ?_
  rw [← htuples src dst sport dport protocol chain hsport hdport]
  exact hnone src dst sport dport protocol chain hsport hdport

/-- Tuples of the second rule are tuples of the first one, unless the second one has none. -/
theorem matches_of_samePrint (hr : r.Read) (hs : s.Read) (hscope : sameScope r s = true)
    (hvoid : MixesUpNotAny r s → s.Void) {src dst : IPv4Address} {sport dport : Nat}
    {protocol : RuleProtocol} {chain : Direction} (hsport : sport < 65536) (hdport : dport < 65536)
    (h : firewallRuleMatchesTuple s src dst sport dport protocol chain = true) :
    firewallRuleMatchesTuple r src dst sport dport protocol chain = true := by
  refine matches_of_sameScope hr hs hscope (fun hmixed => ?_) h
  have hnone := FirewallRule.unmatchable_iff_void.mpr (hvoid hmixed)
  rw [hnone src dst sport dport protocol chain hsport hdport] at h
  cases h

/-- **Duplicate reports**: two parsed rules with one normal form are interchangeable exactly when
they jump to the same chain, if they jump, and a rule that has the negated empty list where the
other one has `!any` matches nothing either. -/
theorem interchangeable_iff (hr : r.Parsed) (hs : s.Parsed)
    (h : normalizeFirewallRule r = normalizeFirewallRule s) :
    Interchangeable r s ↔ SameBesidesPrint r s := by
  have hprint := samePrint_of_normal hr.spaceless hs.spaceless h
  obtain ⟨hscope, hscope'⟩ := hprint.sameScope
  constructor
  · intro hsame
    refine ⟨hsame.jumpTarget, fun hmixed => void_of_mixesUp hmixed hsame.tuples, fun hmixed => ?_⟩
    refine void_of_mixesUp hmixed fun src dst sport dport protocol chain hsport hdport => ?_
    exact (hsame.tuples src dst sport dport protocol chain hsport hdport).symm
  · rintro ⟨hjump, hvoid, hvoid'⟩
    refine ⟨hprint.chain, hprint.action, hprint.protocol, hprint.interfaceIn, hprint.interfaceOut,
      hprint.state, hjump, fun src dst sport dport protocol chain hsport hdport => ?_⟩
    rw [Bool.eq_iff_iff]
    constructor
    · exact matches_of_samePrint hs.read hr.read hscope' hvoid' hsport hdport
    · exact matches_of_samePrint hr.read hs.read hscope hvoid hsport hdport

end

/-- Packets that a chain of the user decides about, -/
def jumpToLogin : FirewallRule where
  dialect := .iptables
  chain := .input
  action := .jump
  jumpTarget := "LOGIN".toList
  raw := "-A INPUT -j LOGIN".toList
  line := 1

/-- and the same packets for another chain. -/
def jumpToGuests : FirewallRule where
  dialect := .iptables
  chain := .input
  action := .jump
  jumpTarget := "GUESTS".toList
  raw := "-A INPUT -j GUESTS".toList
  line := 2

theorem parsed_jumpToLogin : jumpToLogin.Parsed := ⟨"-A INPUT -j LOGIN".toList, 1, .inl rfl⟩

theorem parsed_jumpToGuests : jumpToGuests.Parsed := ⟨"-A INPUT -j GUESTS".toList, 2, .inl rfl⟩

theorem interchangeable_iff_jumps : ¬ Interchangeable jumpToLogin jumpToGuests := by
  rw [interchangeable_iff parsed_jumpToLogin parsed_jumpToGuests rfl]
  intro hsame
  exact absurd (hsame.jumpTarget rfl) (by decide)

/-- The two jumps are reported as duplicates. -/
theorem jumps_not_interchangeable :
    ¬ ∀ r s : FirewallRule, r.Parsed → s.Parsed →
      normalizeFirewallRule r = normalizeFirewallRule s →
      Interchangeable r s := by
  intro hsound
  have hsame := hsound jumpToLogin jumpToGuests parsed_jumpToLogin parsed_jumpToGuests rfl
  exact absurd (hsame.jumpTarget rfl) (by decide)

end PacketGuard.Policy
