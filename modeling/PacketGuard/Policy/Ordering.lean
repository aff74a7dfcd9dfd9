import PacketGuard.Lib.Earlier
import PacketGuard.Policy.Shadow

/-! # When an ordering warning is exact

`ordering_warnings` warns of an accept rule behind a broad deny of its chain,
one with `any` in all four places and for every protocol.  Such a deny need not
block everything: a `!any` has the same flag, and the interfaces and the state
are not looked at.  And a deny can block everything without being broad, with a
list that matches everything.
-/
namespace PacketGuard.Policy
open PacketGuard.Core PacketGuard.Lib PacketGuard.Rules

/-! ## The loop -/

/-- The rule denies what it matches. -/
def FirewallRule.denies (r : FirewallRule) : Bool := r.action = .drop ∨ r.action = .reject

def orderingText (r : FirewallRule) : Str :=
  "allow rule at line ".toList ++ natToString r.line ++
    " appears after a broad deny in the same chain".toList

/-- `broad_drop_seen` after a rule. -/
def broadDropSeen (seen : Direction → Bool) (r : FirewallRule) : Direction → Bool :=
  if r.broad ∧ (r.action = .drop ∨ r.action = .reject) then
    fun chain => if chain = r.chain then true else seen chain
  else seen

/-- What the loop writes at a rule. -/
def orderingReport (seen : Direction → Bool) (r : FirewallRule) : List Str :=
  if seen r.chain ∧ r.action = .accept then [orderingText r] else []

/-- Some of the rules denies what it matches, on the chain, and is as `P` says. -/
def SomeDeny (P : FirewallRule → Prop) (rules : List FirewallRule) (chain : Direction) : Prop :=
  ∃ e ∈ rules, e.denies = true ∧ e.chain = chain ∧ P e

instance (P : FirewallRule → Prop) [DecidablePred P] (rules : List FirewallRule)
    (chain : Direction) :
    Decidable (SomeDeny P rules chain) :=
  inferInstanceAs (Decidable (∃ e ∈ rules, _ ∧ _ ∧ _))

/-- The loop warns of a rule behind these. -/
def Warned (earlier : List FirewallRule) (r : FirewallRule) : Prop :=
  r.action = .accept ∧ SomeDeny (·.broad = true) earlier r.chain

instance (earlier : List FirewallRule) (r : FirewallRule) : Decidable (Warned earlier r) :=
  inferInstanceAs (Decidable (_ ∧ _))

theorem broadDropSeen_iff {seen : Direction → Bool} {r : FirewallRule} {chain : Direction} :
    broadDropSeen seen r chain = true ↔
      seen chain = true ∨ (r.denies = true ∧ r.chain = chain ∧ r.broad = true) := by
  unfold broadDropSeen FirewallRule.denies
  by_cases hdeny : r.broad = true ∧ (r.action = .drop ∨ r.action = .reject)
  · rw [if_pos hdeny]
    by_cases hchain : chain = r.chain
    · simp [hchain, hdeny]
    · simp [hchain, Ne.symm hchain]
  · rw [if_neg hdeny]
    refine ⟨.inl, fun h => h.resolve_right fun hbroad => hdeny ?_⟩
    exact ⟨hbroad.2.2, of_decide_eq_true hbroad.1⟩

/-- After some rules, the flag of a chain is set when one of them is broad. -/
theorem foldl_broadDropSeen_iff {earlier : List FirewallRule} {chain : Direction} :
    earlier.foldl broadDropSeen (fun _ => false) chain = true ↔
      SomeDeny (·.broad = true) earlier chain := by
  unfold SomeDeny
  induction earlier using List.reverseRecOn with
  | nil => simp
  | append_singleton earlier r ih =>
    rw [List.foldl_append, List.foldl_cons, List.foldl_nil, broadDropSeen_iff, ih]
    simp [or_and_right, exists_or]

/-- One warning for each rule behind a broad deny of its chain, in the order of the file. -/
theorem orderingWarnings_eq (file : PolicyFile) :
    orderingWarnings file =
      ((withEarlier [] file.firewallRules).filter fun p => Warned p.1 p.2).map fun p =>
      orderingText p.2 := by
  have hloop : orderingFrom (fun _ => false) file.firewallRules =
      (withEarlier [] file.firewallRules).flatMap fun p =>
        orderingReport (p.1.foldl broadDropSeen fun _ => false) p.2 :=
    run_eq_flatMap (fun _ => rfl) (fun _ _ _ => rfl) _ [] _
  rw [orderingWarnings, hloop]
  induction withEarlier [] file.firewallRules with
  | nil => rfl
  | cons p rest ih =>
    rw [List.flatMap_cons, ih, orderingReport, List.filter_cons]
    have hiff : (p.1.foldl broadDropSeen (fun _ => false) p.2.chain = true ∧ p.2.action = .accept) ↔
        Warned p.1 p.2 := by
      rw [foldl_broadDropSeen_iff, Warned, and_comm]
    by_cases hwarned : Warned p.1 p.2
    · rw [if_pos (hiff.mpr hwarned), if_pos (decide_eq_true hwarned)]
      rfl
    · rw [if_neg (mt hiff.mp hwarned), if_neg (by simpa using hwarned)]
      rfl

/-! ## Denies that block everything -/

/-- The rule is about every interface and every state. -/
def FirewallRule.Unlimited (e : FirewallRule) : Prop :=
  e.interfaceIn = [] ∧ e.interfaceOut = [] ∧ e.state = []

instance (e : FirewallRule) : Decidable e.Unlimited := inferInstanceAs (Decidable (_ ∧ _ ∧ _))

/-- Every packet on the chain of the rule satisfies it. -/
def FirewallRule.BlocksAll (e : FirewallRule) : Prop :=
  (∀ src dst sport dport protocol, sport < 65536 → dport < 65536 →
    firewallRuleMatchesTuple e src dst sport dport protocol e.chain = true) ∧ e.Unlimited

/-- The four expressions match everything. -/
structure FirewallRule.MatchesAll (e : FirewallRule) : Prop where
  source : ∀ src, e.source.hits src = true
  destination : ∀ dst, e.destination.hits dst = true
  sourcePorts : ∀ sport < 65536, e.sourcePorts.hits sport = true
  destinationPorts : ∀ dport < 65536, e.destinationPorts.hits dport = true

theorem FirewallRule.blocksAll_iff {e : FirewallRule} :
    e.BlocksAll ↔ e.protocol = .any ∧ e.MatchesAll ∧ e.Unlimited := by
  have hport : 0 < 65536 := by decide
  constructor
  · rintro ⟨hall, hlimits⟩
    have hiff := fun src dst sport dport protocol hsport hdport =>
      firewallRuleMatchesTuple_iff.mp (hall src dst sport dport protocol hsport hdport)
    refine ⟨?_, ⟨fun src => ?_, fun dst => ?_, fun sport hsport => ?_, fun dport hdport => ?_⟩,
      hlimits⟩
    · -- two protocols that differ from each other are both allowed
      by_contra hprotocol
      have htcp := (hiff ⟨0⟩ ⟨0⟩ 0 0 .tcp hport hport).1.2
      have hudp := (hiff ⟨0⟩ ⟨0⟩ 0 0 .udp hport hport).1.2
      have htcp' : e.protocol = .tcp := by
        by_contra hne
        exact htcp ⟨hprotocol, by decide, hne⟩
      have hudp' : e.protocol = .udp := by
        by_contra hne
        exact hudp ⟨hprotocol, by decide, hne⟩
      rw [htcp'] at hudp'
      cases hudp'
    · exact (hiff src ⟨0⟩ 0 0 .any hport hport).2.source
    · exact (hiff ⟨0⟩ dst 0 0 .any hport hport).2.destination
    · exact (hiff ⟨0⟩ ⟨0⟩ sport 0 .any hsport hport).2.sourcePorts
    · exact (hiff ⟨0⟩ ⟨0⟩ 0 dport .any hport hdport).2.destinationPorts
  · rintro ⟨hprotocol, hall, hlimits⟩
    refine ⟨fun src dst sport dport protocol hsport hdport => ?_, hlimits⟩
    refine firewallRuleMatchesTuple_iff.mpr ⟨⟨fun h => h.2.2 rfl, fun h => h.1 hprotocol⟩, ?_⟩
    exact ⟨hall.source src, hall.destination dst, hall.sourcePorts sport hsport,
      hall.destinationPorts dport hdport⟩

/-- Some expression of the rule is negated. -/
def FirewallRule.Negates (e : FirewallRule) : Prop :=
  e.source.negated = true ∨ e.destination.negated = true ∨ e.sourcePorts.negated = true ∨
    e.destinationPorts.negated = true

instance (e : FirewallRule) : Decidable e.Negates := inferInstanceAs (Decidable (_ ∨ _ ∨ _ ∨ _))

/-- `any` in all four places, for every protocol, interface and state. -/
def FirewallRule.Plain (e : FirewallRule) : Prop := e.broad = true ∧ ¬ e.Negates ∧ e.Unlimited

instance (e : FirewallRule) : Decidable e.Plain := inferInstanceAs (Decidable (_ ∧ _ ∧ _))

/-- The flags are those of a plain rule, but an `any` is negated, or the rule is about one
interface or state. -/
def FirewallRule.Overrated (e : FirewallRule) : Prop := e.broad = true ∧ (e.Negates ∨ ¬ e.Unlimited)

instance (e : FirewallRule) : Decidable e.Overrated := inferInstanceAs (Decidable (_ ∧ _))

/-- The rule matches everything, but not with `any` in all four places: with a list. -/
def FirewallRule.Underrated (e : FirewallRule) : Prop :=
  e.protocol = .any ∧ e.MatchesAll ∧ e.Unlimited ∧
    ¬ (e.source.any = true ∧ e.destination.any = true ∧ e.sourcePorts.any = true ∧
      e.destinationPorts.any = true)

theorem FirewallRule.broad_iff {e : FirewallRule} :
    e.broad = true ↔ (e.source.any = true ∧ e.destination.any = true ∧ e.sourcePorts.any = true ∧
      e.destinationPorts.any = true) ∧ e.protocol = .any := by
  simp [FirewallRule.broad, and_assoc]

/-- `any` matches everything, and `!any` does not. -/
theorem FirewallRule.matchesAll_iff_of_broad {e : FirewallRule} (h : e.broad = true) :
    e.MatchesAll ↔ ¬ e.Negates := by
  obtain ⟨⟨hs, hd, hsp, hdp⟩, -⟩ := FirewallRule.broad_iff.mp h
  simp only [FirewallRule.Negates, not_or, Bool.not_eq_true]
  constructor
  · rintro ⟨hsource, hdestination, hsports, hdports⟩
    refine ⟨?_, ?_, ?_, ?_⟩
    · simpa [AddressExpr.hits, hs] using hsource ⟨0⟩
    · simpa [AddressExpr.hits, hd] using hdestination ⟨0⟩
    · simpa [PortExpr.hits, hsp] using hsports 0 (by decide)
    · simpa [PortExpr.hits, hdp] using hdports 0 (by decide)
  · rintro ⟨hsource, hdestination, hsports, hdports⟩
    refine ⟨fun _ => ?_, fun _ => ?_, fun _ _ => ?_, fun _ _ => ?_⟩
    · simp [AddressExpr.hits, hs, hsource]
    · simp [AddressExpr.hits, hd, hdestination]
    · simp [PortExpr.hits, hsp, hsports]
    · simp [PortExpr.hits, hdp, hdports]

/-- What the loop takes for broad is plain or overrated. -/
theorem FirewallRule.broad_iff_plain_or {e : FirewallRule} :
    e.broad = true ↔ e.Plain ∨ e.Overrated := by
  unfold FirewallRule.Plain FirewallRule.Overrated
  tauto

/-- What blocks everything is plain or underrated. -/
theorem FirewallRule.blocksAll_iff_plain_or {e : FirewallRule} :
    e.BlocksAll ↔ e.Plain ∨ e.Underrated := by
  rw [FirewallRule.blocksAll_iff]
  constructor
  · rintro ⟨hprotocol, hall, hlimits⟩
    by_cases hflags : e.source.any = true ∧ e.destination.any = true ∧ e.sourcePorts.any = true ∧
        e.destinationPorts.any = true
    · have hbroad := FirewallRule.broad_iff.mpr ⟨hflags, hprotocol⟩
      exact .inl ⟨hbroad, (FirewallRule.matchesAll_iff_of_broad hbroad).mp hall, hlimits⟩
    · exact .inr ⟨hprotocol, hall, hlimits, hflags⟩
  · rintro (⟨hbroad, hnot, hlimits⟩ | ⟨hprotocol, hall, hlimits, -⟩)
    · exact ⟨(FirewallRule.broad_iff.mp hbroad).2,
        (FirewallRule.matchesAll_iff_of_broad hbroad).mpr hnot,
        hlimits⟩
    · exact ⟨hprotocol, hall, hlimits⟩

/-! ## Exactness -/

theorem someDeny_or {P Q R : FirewallRule → Prop} (h : ∀ e, P e ↔ Q e ∨ R e)
    {rules : List FirewallRule}
    {chain : Direction} :
    SomeDeny P rules chain ↔ SomeDeny Q rules chain ∨ SomeDeny R rules chain := by
  simp only [SomeDeny, h, and_or_left, exists_or]

/-- A plain deny stands in front, or the loop errs in both ways or in none. -/
def ErrorsCancel (earlier : List FirewallRule) (chain : Direction) : Prop :=
  SomeDeny FirewallRule.Plain earlier chain ∨
    (SomeDeny FirewallRule.Overrated earlier chain ↔ SomeDeny FirewallRule.Underrated earlier chain)

/-- **Ordering warnings**: one for each accept rule behind a deny that the loop
takes for broad, in the order of the file; and the warning of an accept rule is
right exactly when the denies of its chain before it hold a plain one, or both or
neither of an overrated and an underrated one. -/
theorem orderingWarnings_exact_iff (file : PolicyFile) :
    orderingWarnings file =
        ((withEarlier [] file.firewallRules).filter fun p => Warned p.1 p.2).map
          (fun p => orderingText p.2) ∧
      ∀ earlier r later, file.firewallRules = earlier ++ r :: later → r.action = .accept →
        ((Warned earlier r ↔ SomeDeny FirewallRule.BlocksAll earlier r.chain) ↔
          ErrorsCancel earlier r.chain) := by
  refine ⟨orderingWarnings_eq file, fun earlier r later _ haccept => ?_⟩
  rw [Warned, and_iff_right haccept, someDeny_or fun _ => FirewallRule.broad_iff_plain_or,
    someDeny_or fun _ => FirewallRule.blocksAll_iff_plain_or, ErrorsCancel]
  tauto

/-- A deny that matches nothing, -/
def dropNotAny : FirewallRule where
  dialect := .iptables
  chain := .input
  action := .drop
  jumpTarget := "DROP".toList
  source := .notAny
  raw := "-A INPUT -s !any -j DROP".toList
  line := 1

/-- in front of the accept rule. -/
def notAnyPolicy : PolicyFile where
  dominantDialect := .iptables
  firewallRules := [dropNotAny, acceptRest]

theorem parsed_notAnyPolicy : ∀ r ∈ notAnyPolicy.firewallRules, r.Parsed := by
  intro r hr
  rcases List.mem_cons.mp hr with rfl | hr
  · exact ⟨"-A INPUT -s !any -j DROP".toList, 1, .inl rfl⟩
  · cases List.mem_singleton.mp hr
    exact ⟨"-A INPUT -j ACCEPT".toList, 2, .inl rfl⟩

/-- The deny matches no tuple. -/
theorem not_blocksAll_dropNotAny {chain : Direction} :
    ¬ SomeDeny FirewallRule.BlocksAll [dropNotAny] chain := by
  rintro ⟨e, he, -, -, hblocks⟩
  rw [List.mem_singleton.mp he] at hblocks
  cases hblocks.1 ⟨0⟩ ⟨0⟩ 0 0 .any (by decide) (by decide)

theorem orderingWarnings_exact_iff_notAnyPolicy :
    ¬ ErrorsCancel [dropNotAny] acceptRest.chain := by
  rw [← (orderingWarnings_exact_iff notAnyPolicy).2 [dropNotAny] acceptRest [] rfl rfl]
  intro hexact
  exact not_blocksAll_dropNotAny (hexact.mp (by decide))

/-- The accept rule is warned of, though nothing is denied before it. -/
theorem notAnyPolicy_not_exact :
    ¬ ∀ file : PolicyFile, (∀ r ∈ file.firewallRules, r.Parsed) →
      ∀ earlier r later, file.firewallRules = earlier ++ r :: later → r.action = .accept →
        (Warned earlier r ↔ SomeDeny FirewallRule.BlocksAll earlier r.chain) := by
  intro hexact
  have hwarned : Warned [dropNotAny] acceptRest := by decide
  have hiff := hexact notAnyPolicy parsed_notAnyPolicy [dropNotAny] acceptRest [] rfl rfl
  exact not_blocksAll_dropNotAny (hiff.mp hwarned)

end PacketGuard.Policy
