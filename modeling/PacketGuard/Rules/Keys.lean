import PacketGuard.Rules.Matching
import PacketGuard.Rules.Meaning
import PacketGuard.Rules.RoundTrip
import PacketGuard.Rules.Text

/-! # When rules with one key behave alike

`rule_key` joins the printed fields of a rule with `|`.  Two things can be lost:
`!any` and the negated empty list are printed alike, and a variable may hold a
`|` itself, so that one key can be cut into fields in two ways.

Whether two rules behave alike is asked of packets, and answered by their tests.
A rule is *dead* when its expressions keep every packet out; two rules match the
same packets exactly when both are dead or their tests agree (`matchAlike_iff`).
The direction from packets to tests needs a packet for every address, port and
content that a rule lets through: the `probe`, which carries every protocol at
once and shows the content of the rule as an answer and nothing more, so that a
rule with another content that matches it has that content as a part of its own.

With that, a key says what a rule tests but for the two losses.  Where the keys
are cut alike, equal texts are texts of equal expressions or of the mixed up
pair (`Endpoints.Hits.of_printAlike`), and a rule with `!any` is dead.
-/
namespace PacketGuard.Rules
open PacketGuard.Core PacketGuard.Lib PacketGuard.Packet

/-! ## Reports -/

/-- The signatures of the rules with one key. -/
def sidsOf (key : Str) (rules : List SignatureRule) : List Nat :=
  valuesOf key (rules.map fun rule => (ruleKey rule, rule.sid))

/-- A report counts the rules that share a key. -/
theorem mem_duplicateRuleKeys {rules : List SignatureRule} {text : Str} :
    text ∈ duplicateRuleKeys rules ↔
      ∃ key, 1 < (sidsOf key rules).length ∧
        text = "duplicate rule logic affects ".toList ++ natToString (sidsOf key rules).length ++
          " signatures".toList := by
  rw [duplicateRuleKeys, mem_severalReports_fileAll]
  rfl

/-! ## What a rule tells packets apart by -/

/-- The ports that `proto_matches` looks for in a web packet. -/
def webPort (port : Nat) : Prop := port = 80 ∨ port = 443

instance (port : Nat) : Decidable (webPort port) := inferInstanceAs (Decidable (_ ∨ _))

/-- The protocol goes with the ports. -/
def portsSuit (protocol : RuleProtocol) (sport dport : Nat) : Prop :=
  protocol = .http → webPort sport ∨ webPort dport

/-- The ports of the packet have 16 bits. -/
def PortsFit (md : PacketMetadata) : Prop :=
  (∀ tcp, md.tcp = some tcp → tcp.sourcePort < 65536 ∧ tcp.destinationPort < 65536) ∧
    ∀ udp, md.udp = some udp → udp.sourcePort < 65536 ∧ udp.destinationPort < 65536

theorem PortsFit.packetPorts_lt {md : PacketMetadata} (h : PortsFit md) :
    (packetPorts md).1 < 65536 ∧ (packetPorts md).2 < 65536 := by
  unfold packetPorts
  cases htcp : md.tcp with
  | some tcp => exact h.1 tcp htcp
  | none =>
    cases hudp : md.udp with
    | some udp => exact h.2 udp hudp
    | none => exact ⟨by decide, by decide⟩

/-- A packet of every protocol, with these addresses, ports and answer. -/
def probe (src dst : IPv4Address) (sport dport : Nat) (text : Str) : PacketMetadata where
  ipv4 := some { protocol := 1, source := src, destination := dst }
  tcp := some { sourcePort := sport, destinationPort := dport }
  udp := some { sourcePort := sport, destinationPort := dport }
  dns := some { answers := [{ dataText := text }] }

section
variable {src dst : IPv4Address} {sport dport : Nat} {text : Str}

theorem portsFit_probe (hsport : sport < 65536) (hdport : dport < 65536) :
    PortsFit (probe src dst sport dport text) := by
  constructor
  · rintro tcp ⟨⟩
    exact ⟨hsport, hdport⟩
  · rintro udp ⟨⟩
    exact ⟨hsport, hdport⟩

theorem protoMatches_probe {protocol : RuleProtocol} (hknown : protocol ≠ .unknown)
    (hsuit : portsSuit protocol sport dport) :
    protoMatches protocol (probe src dst sport dport text) = true := by
  cases protocol with
  | unknown => exact absurd rfl hknown
  | http =>
    have hweb := hsuit rfl
    simp only [webPort] at hweb
    simp only [protoMatches, probe]
    simp
    tauto
  | _ => rfl

/-- The answer of the probe shows a content that is a part of it. -/
theorem contentSeen_probe {rule : SignatureRule} :
    rule.contentSeen (probe src dst sport dport text) = true ↔
      toLower rule.content <:+: toLower text := by
  rw [← findStr_isSome_iff]
  unfold SignatureRule.contentSeen holdsText probe PacketMetadata.domainNames
  cases hcontent : rule.content with
  | nil =>
    have hnil : (findStr (toLower []) (toLower text)).isSome = true :=
      findStr_isSome_iff.mpr (List.nil_infix)
    simp [hnil]
  | cons c content => simp

end

/-- A packet that satisfies the test of the protocol has suitable ports. -/
theorem portsSuit_of_protoMatches {protocol : RuleProtocol} {md : PacketMetadata}
    (h : protoMatches protocol md = true) :
    portsSuit protocol (packetPorts md).1 (packetPorts md).2 := by
  rintro rfl
  unfold protoMatches at h
  cases hip : md.ipv4 with
  | none => simp [hip] at h
  | some ip =>
    cases htcp : md.tcp with
    | none => simp [hip, htcp] at h
    | some tcp =>
      simp only [packetPorts, htcp, webPort]
      simp [hip, htcp] at h
      tauto

/-! ## Dead rules -/

def SignatureRule.endpoints (r : SignatureRule) : Endpoints :=
  ⟨r.source, r.destination, r.sourcePorts, r.destinationPorts⟩

/-- The rule matches no packet: some expression matches nothing, or a rule for web packets allows no
web port. -/
def SignatureRule.Dead (r : SignatureRule) : Prop :=
  r.endpoints.Void ∨
    (r.protocol = .http ∧
      ∀ port, webPort port → r.sourcePorts.hits port = false ∧ r.destinationPorts.hits port = false)

section
variable {r s : SignatureRule}

theorem SignatureRule.oneWay_iff_hits {src dst : IPv4Address} {sport dport : Nat} :
    r.oneWay src dst sport dport = true ↔ r.endpoints.Hits src dst sport dport := by
  rw [oneWay_iff]
  exact ⟨fun ⟨hs, hd, hsp, hdp⟩ => ⟨hs, hd, hsp, hdp⟩, fun ⟨hs, hd, hsp, hdp⟩ => ⟨hs, hd, hsp, hdp⟩⟩

/-- A dead rule allows no addresses and ports in one direction, -/
theorem SignatureRule.Dead.oneWay (h : r.Dead) (src dst : IPv4Address) {sport dport : Nat}
    (hsport : sport < 65536) (hdport : dport < 65536) (hsuit : portsSuit r.protocol sport dport) :
    r.oneWay src dst sport dport = false := by
  rw [← Bool.not_eq_true, oneWay_iff_hits]
  intro hhits
  rcases h with hvoid | ⟨hhttp, hvoid⟩
  · exact Endpoints.void_iff.mp hvoid src dst sport dport hsport hdport hhits
  · rcases hsuit hhttp with hweb | hweb
    · exact Bool.eq_false_iff.mp (hvoid sport hweb).1 hhits.sourcePorts
    · exact Bool.eq_false_iff.mp (hvoid dport hweb).2 hhits.destinationPorts

/-- and none in the other one. -/
theorem SignatureRule.Dead.headerHits (h : r.Dead) (src dst : IPv4Address) {sport dport : Nat}
    (hsport : sport < 65536) (hdport : dport < 65536) (hsuit : portsSuit r.protocol sport dport) :
    r.headerHits src dst sport dport = false := by
  unfold SignatureRule.headerHits
  rw [h.oneWay src dst hsport hdport hsuit,
    h.oneWay dst src hdport hsport fun hhttp => (hsuit hhttp).symm]
  simp

/-- A rule that is not dead allows some addresses and ports. -/
theorem SignatureRule.exists_headerHits (h : ¬ r.Dead) : ∃ src dst sport dport,
    sport < 65536 ∧ dport < 65536 ∧ portsSuit r.protocol sport dport ∧
      r.headerHits src dst sport dport = true := by
  rw [SignatureRule.Dead, Endpoints.void_iff, not_or] at h
  simp only [not_forall, not_not, not_and, Bool.not_eq_false] at h
  obtain ⟨⟨src, dst, sport, dport, hsport, hdport, hs, hd, hsp, hdp⟩, hweb⟩ := h
  have hlt : ∀ {port}, webPort port → port < 65536 := by
    rintro port (rfl | rfl) <;> decide
  have hhits : ∀ {sport dport}, r.sourcePorts.hits sport = true →
      r.destinationPorts.hits dport = true →
      r.headerHits src dst sport dport = true := fun hsp hdp =>
    headerHits_iff.mpr (.inl (oneWay_iff.mpr ⟨hs, hd, hsp, hdp⟩))
  by_cases hhttp : r.protocol = .http
  · obtain ⟨port, hport, hone⟩ := hweb hhttp
    by_cases hfirst : r.sourcePorts.hits port = true
    · exact ⟨src, dst, port, dport, hlt hport, hdport, fun _ => .inl hport, hhits hfirst hdp⟩
    · exact ⟨src, dst, sport, port, hsport, hlt hport, fun _ => .inr hport,
        hhits hsp (hone (by simpa using hfirst))⟩
  · exact ⟨src, dst, sport, dport, hsport, hdport, fun h => absurd h hhttp, hhits hsp hdp⟩

theorem SignatureRule.Dead.not_matches (h : r.Dead) {md : PacketMetadata} (hfit : PortsFit md) :
    ruleMatchesPacket r md = false := by
  rw [← Bool.not_eq_true, ruleMatchesPacket_iff]
  rintro ⟨hproto, ⟨ip, -, hheader⟩, -⟩
  obtain ⟨hsport, hdport⟩ := hfit.packetPorts_lt
  rw [h.headerHits _ _ hsport hdport (portsSuit_of_protoMatches hproto)] at hheader
  cases hheader

/-! ## Rules that behave alike -/

/-- The rules give the same answer on every packet. -/
def MatchAlike (r s : SignatureRule) : Prop :=
  ∀ md, PortsFit md → ruleMatchesPacket r md = ruleMatchesPacket s md

theorem MatchAlike.symm (h : MatchAlike r s) : MatchAlike s r := fun md hfit => (h md hfit).symm

/-- The rules search the same content, and allow the same addresses and ports. -/
def TestsAlike (r s : SignatureRule) : Prop :=
  toLower r.content = toLower s.content ∧
    ∀ src dst sport dport, sport < 65536 → dport < 65536 → portsSuit r.protocol sport dport →
      r.headerHits src dst sport dport = s.headerHits src dst sport dport

theorem contentSeen_congr (h : toLower r.content = toLower s.content) (md : PacketMetadata) :
    r.contentSeen md = s.contentSeen md := by
  have hempty : r.content.isEmpty = s.content.isEmpty := by
    have hnil : ∀ content : Str, content.isEmpty = (toLower content).isEmpty := by
      intro content
      cases content <;> rfl
    rw [hnil, hnil s.content, h]
  unfold SignatureRule.contentSeen
  rw [h, hempty]

theorem ruleMatchesPacket_congr (hprotocol : r.protocol = s.protocol) (h : TestsAlike r s)
    {md : PacketMetadata} (hfit : PortsFit md) (hmatch : ruleMatchesPacket r md = true) :
    ruleMatchesPacket s md = true := by
  obtain ⟨hproto, ⟨ip, hip, hheader⟩, hcontent⟩ := ruleMatchesPacket_iff.mp hmatch
  obtain ⟨hsport, hdport⟩ := hfit.packetPorts_lt
  refine ruleMatchesPacket_iff.mpr ⟨hprotocol ▸ hproto, ⟨ip, hip, ?_⟩, ?_⟩
  · rwa [← h.2 _ _ _ _ hsport hdport (portsSuit_of_protoMatches hproto)]
  · rwa [← contentSeen_congr h.1]

theorem TestsAlike.symm (hprotocol : r.protocol = s.protocol) (h : TestsAlike r s) :
    TestsAlike s r :=
  ⟨h.1.symm, fun src dst sport dport hsport hdport hsuit =>
    (h.2 src dst sport dport hsport hdport (hprotocol ▸ hsuit)).symm⟩

/-- The probe answers with the content of the first rule. -/
theorem ruleMatchesPacket_probe (hknown : r.protocol ≠ .unknown) {src dst : IPv4Address}
    {sport dport : Nat}
    (hsuit : portsSuit r.protocol sport dport) {text : Str} :
    ruleMatchesPacket r (probe src dst sport dport text) = true ↔
      r.headerHits src dst sport dport = true ∧ toLower r.content <:+: toLower text := by
  rw [ruleMatchesPacket_iff, contentSeen_probe]
  constructor
  · rintro ⟨-, ⟨ip, hip, hheader⟩, hcontent⟩
    cases hip
    exact ⟨hheader, hcontent⟩
  · rintro ⟨hheader, hcontent⟩
    exact ⟨protoMatches_probe hknown hsuit, ⟨_, rfl, hheader⟩, hcontent⟩

/-- A rule that is not dead matches a packet that shows no more than its content. -/
theorem exists_probe (hknown : r.protocol ≠ .unknown) (hdead : ¬ r.Dead) :
    ∃ src dst sport dport, sport < 65536 ∧ dport < 65536 ∧ portsSuit r.protocol sport dport ∧
      ruleMatchesPacket r (probe src dst sport dport r.content) = true := by
  obtain ⟨src, dst, sport, dport, hsport, hdport, hsuit, hheader⟩ :=
    SignatureRule.exists_headerHits hdead
  exact ⟨src, dst, sport, dport, hsport, hdport, hsuit,
    (ruleMatchesPacket_probe hknown hsuit).mpr ⟨hheader, List.infix_rfl⟩⟩

theorem MatchAlike.dead (h : MatchAlike r s) (hknown : r.protocol ≠ .unknown) (hs : s.Dead) :
    r.Dead := by
  by_contra hr
  obtain ⟨src, dst, sport, dport, hsport, hdport, -, hmatch⟩ := exists_probe hknown hr
  have hfit : PortsFit (probe src dst sport dport r.content) := portsFit_probe hsport hdport
  rw [h _ hfit, hs.not_matches hfit] at hmatch
  cases hmatch

theorem MatchAlike.isInfix_content (h : MatchAlike r s) (hprotocol : r.protocol = s.protocol)
    (hknown : r.protocol ≠ .unknown) (hr : ¬ r.Dead) :
    toLower s.content <:+: toLower r.content := by
  obtain ⟨src, dst, sport, dport, hsport, hdport, hsuit, hmatch⟩ := exists_probe hknown hr
  rw [h _ (portsFit_probe hsport hdport)] at hmatch
  exact ((ruleMatchesPacket_probe (hprotocol ▸ hknown) (hprotocol ▸ hsuit)).mp hmatch).2

theorem MatchAlike.testsAlike (h : MatchAlike r s) (hprotocol : r.protocol = s.protocol)
    (hknown : r.protocol ≠ .unknown) (hr : ¬ r.Dead) (hs : ¬ s.Dead) : TestsAlike r s := by
  have hknown' : s.protocol ≠ .unknown := hprotocol ▸ hknown
  have hcontent : toLower r.content = toLower s.content :=
    (h.symm.isInfix_content hprotocol.symm hknown' hs).eq_of_length_le
      (h.isInfix_content hprotocol hknown hr).length_le
  refine ⟨hcontent, fun src dst sport dport hsport hdport hsuit => ?_⟩
  have hprobe : ruleMatchesPacket r (probe src dst sport dport r.content) =
      ruleMatchesPacket s (probe src dst sport dport r.content) :=
    h _ (portsFit_probe hsport hdport)
  rw [Bool.eq_iff_iff, ruleMatchesPacket_probe hknown hsuit,
    ruleMatchesPacket_probe hknown' (hprotocol ▸ hsuit), ← hcontent,
    and_iff_left List.infix_rfl, and_iff_left List.infix_rfl] at hprobe
  exact Bool.eq_iff_iff.mpr hprobe

/-- Two rules match the same packets exactly when both are dead or their tests are alike. -/
theorem matchAlike_iff (hprotocol : r.protocol = s.protocol) (hknown : r.protocol ≠ .unknown) :
    MatchAlike r s ↔ (r.Dead ∧ s.Dead) ∨ TestsAlike r s := by
  constructor
  · intro h
    have hknown' : s.protocol ≠ .unknown := hprotocol ▸ hknown
    by_cases hr : r.Dead
    · exact .inl ⟨hr, h.symm.dead hknown' hr⟩
    · exact .inr (h.testsAlike hprotocol hknown hr fun hs => hr (h.dead hknown hs))
  · rintro (⟨hr, hs⟩ | htests) md hfit
    · rw [hr.not_matches hfit, hs.not_matches hfit]
    · rw [Bool.eq_iff_iff]
      exact ⟨ruleMatchesPacket_congr hprotocol htests hfit,
        ruleMatchesPacket_congr hprotocol.symm (htests.symm hprotocol) hfit⟩

/-! ## Keys -/

theorem ruleKey_eq (r : SignatureRule) :
    ruleKey r = actionName r.action ++ '|' :: (protocolName r.protocol ++ '|' ::
      (r.source.toString ++ '|' :: (r.sourcePorts.toString ++ '|' :: (r.direction ++ '|' ::
        (r.destination.toString ++
        '|' :: (r.destinationPorts.toString ++ '|' :: r.content)))))) := by
  simp [ruleKey]

theorem bar_not_mem_names (r : SignatureRule) :
    '|' ∉ actionName r.action ∧ '|' ∉ protocolName r.protocol := by
  constructor
  · cases r.action <;> decide
  · cases r.protocol <;> decide

/-- A key starts with the action and the protocol. -/
theorem names_of_ruleKey (hr : Accepted r) (hs : Accepted s) (h : ruleKey r = ruleKey s) :
    r.action = s.action ∧ r.protocol = s.protocol := by
  rw [ruleKey_eq, ruleKey_eq] at h
  obtain ⟨haction, h⟩ := (append_cons_inj (bar_not_mem_names r).1 (bar_not_mem_names s).1).mp h
  obtain ⟨hprotocol, -⟩ := (append_cons_inj (bar_not_mem_names r).2 (bar_not_mem_names s).2).mp h
  have haction' := hr.action
  have hprotocol' := hr.protocol
  rw [haction, hs.action, Option.some.injEq] at haction'
  rw [hprotocol, hs.protocol, Option.some.injEq] at hprotocol'
  exact ⟨haction'.symm, hprotocol'.symm⟩

theorem Accepted.known (h : Accepted r) : r.protocol ≠ .unknown := by
  intro hunknown
  have hprotocol := h.protocol
  rw [hunknown] at hprotocol
  cases hprotocol

/-- The expressions of an accepted rule are parsed expressions. -/
theorem Accepted.read (h : Accepted r) : r.endpoints.Read := by
  obtain ⟨_, hsource⟩ := h.source
  obtain ⟨_, hdestination⟩ := h.destination
  obtain ⟨_, hsports⟩ := h.sourcePorts
  obtain ⟨_, hdports⟩ := h.destinationPorts
  exact ⟨(parseAddressExpr_ok hsource).1, (parseAddressExpr_ok hdestination).1,
    (parsePortExpr_outcome _).of_eq_ok hsports, (parsePortExpr_outcome _).of_eq_ok hdports⟩

/-! ## Fields that print alike -/

/-- The two keys are made of the same fields. -/
structure PrintAlike (r s : SignatureRule) : Prop where
  endpoints : r.endpoints.PrintAlike s.endpoints
  direction : r.direction = s.direction
  content : r.content = s.content

theorem PrintAlike.symm (h : PrintAlike r s) : PrintAlike s r :=
  ⟨h.endpoints.symm, h.direction.symm, h.content.symm⟩

/-- At some place one rule has `!any` and the other one the negated empty list, which is printed
like it. -/
def MixesUpNotAny (r s : SignatureRule) : Prop := r.endpoints.MixesUpNotAny s.endpoints

/-- `!any` matches nothing. -/
theorem MixesUpNotAny.dead (h : MixesUpNotAny r s) : r.Dead := .inl (Endpoints.MixesUpNotAny.void h)

theorem oneWay_of_printAlike (hr : Accepted r) (hs : Accepted s) (h : PrintAlike r s)
    (hnot : ¬ MixesUpNotAny r s) {src dst : IPv4Address} {sport dport : Nat}
    (hhits : s.oneWay src dst sport dport = true) : r.oneWay src dst sport dport = true := by
  rw [SignatureRule.oneWay_iff_hits] at hhits ⊢
  exact hhits.of_printAlike hr.read hs.read h.endpoints hnot

theorem headerHits_of_printAlike (hr : Accepted r) (hs : Accepted s) (h : PrintAlike r s)
    (hnot : ¬ MixesUpNotAny r s) {src dst : IPv4Address} {sport dport : Nat}
    (hhits : s.headerHits src dst sport dport = true) :
    r.headerHits src dst sport dport = true := by
  have hboth : r.bidirectional = s.bidirectional := by
    unfold SignatureRule.bidirectional
    rw [h.direction]
  rw [SignatureRule.headerHits_iff] at hhits ⊢
  rw [hboth]
  exact hhits.imp (oneWay_of_printAlike hr hs h hnot)
    (And.imp_right (oneWay_of_printAlike hr hs h hnot))

theorem testsAlike_of_printAlike (hr : Accepted r) (hs : Accepted s) (h : PrintAlike r s)
    (hnot : ¬ MixesUpNotAny r s) (hnot' : ¬ MixesUpNotAny s r) : TestsAlike r s := by
  refine ⟨by rw [h.content], fun src dst sport dport _ _ _ => ?_⟩
  rw [Bool.eq_iff_iff]
  exact ⟨headerHits_of_printAlike hs hr h.symm hnot', headerHits_of_printAlike hr hs h hnot⟩

/-- No variable of the rule holds a `|`. -/
def NoBar (r : SignatureRule) : Prop := ∀ v ∈ r.source.vars ++ r.destination.vars, '|' ∉ v

theorem bar_not_mem_address {e : AddressExpr} (h : ∀ v ∈ e.vars, '|' ∉ v) : '|' ∉ e.toString := by
  have hchar : ∀ c ∈ e.toString, c ≠ '|' := by
    refine forall_mem_listed e.any e.negated (by simp) (by decide) (by decide) fun p hp c hc => ?_
    rcases List.mem_append.mp hp with hp | hp
    · obtain ⟨range, -, rfl⟩ := List.mem_map.mp hp
      rintro rfl
      rcases mem_cidrToString hc with hc | hc | hc <;> cases hc
    · rintro rfl
      exact h p hp hc
  exact fun hbar => hchar _ hbar rfl

theorem bar_not_mem_ports (e : PortExpr) : '|' ∉ e.toString := by
  have hchar : ∀ c ∈ e.toString, c ≠ '|' := by
    refine forall_mem_listed e.any e.negated (by simp) (by decide) (by decide) fun p hp c hc => ?_
    obtain ⟨range, -, rfl⟩ := List.mem_map.mp hp
    rintro rfl
    rcases mem_portRangeText hc with hc | hc <;> cases hc
  exact fun hbar => hchar _ hbar rfl

theorem Accepted.bar_not_mem_direction (h : Accepted r) : '|' ∉ r.direction := by
  rcases h.direction with heq | heq <;> rw [heq] <;> decide

/-- **A key can be cut in one way only**, unless a variable holds a `|`. -/
theorem printAlike_of_noBar (hr : Accepted r) (hs : Accepted s) (hbar : NoBar r) (hbar' : NoBar s)
    (h : ruleKey r = ruleKey s) : PrintAlike r s := by
  have haddresses : ∀ {t : SignatureRule}, NoBar t →
      '|' ∉ t.source.toString ∧ '|' ∉ t.destination.toString := fun ht =>
    ⟨bar_not_mem_address fun v hv => ht v (List.mem_append_left _ hv),
      bar_not_mem_address fun v hv => ht v (List.mem_append_right _ hv)⟩
  obtain ⟨hsource, hdestination⟩ := haddresses hbar
  obtain ⟨hsource', hdestination'⟩ := haddresses hbar'
  rw [ruleKey_eq, ruleKey_eq] at h
  obtain ⟨-, h⟩ := (append_cons_inj (bar_not_mem_names r).1 (bar_not_mem_names s).1).mp h
  obtain ⟨-, h⟩ := (append_cons_inj (bar_not_mem_names r).2 (bar_not_mem_names s).2).mp h
  obtain ⟨hsrc, h⟩ := (append_cons_inj hsource hsource').mp h
  obtain ⟨hsports, h⟩ := (append_cons_inj (bar_not_mem_ports _) (bar_not_mem_ports _)).mp h
  obtain ⟨hdirection, h⟩ := (append_cons_inj hr.bar_not_mem_direction hs.bar_not_mem_direction).mp h
  obtain ⟨hdst, h⟩ := (append_cons_inj hdestination hdestination').mp h
  obtain ⟨hdports, hcontent⟩ := (append_cons_inj (bar_not_mem_ports _) (bar_not_mem_ports _)).mp h
  exact ⟨⟨hsrc, hdst, hsports, hdports⟩, hdirection, hcontent⟩

/-! ## Soundness -/

/-- What the key does not show does not tell the rules apart: a negated empty list in the place of a
`!any` belongs to a dead rule, and a key that is cut in two ways to two dead rules or to rules with
the same tests. -/
structure KeyFaithful (r s : SignatureRule) : Prop where
  notAny : MixesUpNotAny r s → s.Dead
  notAny' : MixesUpNotAny s r → r.Dead
  cut : ¬ PrintAlike r s → (r.Dead ∧ s.Dead) ∨ TestsAlike r s

/-- A rule that matches what a dead one matches is dead, so a key that mixes up
`!any` is sound for dead rules only. -/
theorem MatchAlike.notAny (halike : MatchAlike r s) (hs : Accepted s) (hmixed : MixesUpNotAny r s) :
    s.Dead :=
  halike.symm.dead hs.known hmixed.dead

/-- Rules that print alike match alike where nothing but dead rules is mixed up. -/
theorem matchAlike_of_printAlike (hr : Accepted r) (hs : Accepted s)
    (hprotocol : r.protocol = s.protocol)
    (hprint : PrintAlike r s) (hmixed : MixesUpNotAny r s → s.Dead)
    (hmixed' : MixesUpNotAny s r → r.Dead) :
    MatchAlike r s := by
  rw [matchAlike_iff hprotocol hr.known]
  by_cases hnot : MixesUpNotAny r s
  · exact .inl ⟨hnot.dead, hmixed hnot⟩
  by_cases hnot' : MixesUpNotAny s r
  · exact .inl ⟨hmixed' hnot', hnot'.dead⟩
  · exact .inr (testsAlike_of_printAlike hr hs hprint hnot hnot')

/-- **Duplicate keys**: two accepted rules with one key behave alike exactly when
the key is faithful. -/
theorem ruleKey_sound_iff {line line' : Str} {n n' : Nat} (hr : parseRuleLine line n = .ok r)
    (hs : parseRuleLine line' n' = .ok s) (h : ruleKey r = ruleKey s) :
    r.action = s.action ∧ MatchAlike r s ↔ KeyFaithful r s := by
  have hr := accepted_of_parseRuleLine hr
  have hs := accepted_of_parseRuleLine hs
  obtain ⟨haction, hprotocol⟩ := names_of_ruleKey hr hs h
  rw [and_iff_right haction]
  constructor
  · intro halike
    exact ⟨halike.notAny hs, halike.symm.notAny hr, fun _ =>
      (matchAlike_iff hprotocol hr.known).mp halike⟩
  · rintro ⟨hmixed, hmixed', hcut⟩
    by_cases hprint : PrintAlike r s
    · exact matchAlike_of_printAlike hr hs hprotocol hprint hmixed hmixed'
    · exact (matchAlike_iff hprotocol hr.known).mpr (hcut hprint)

/-- **Keys without a `|` in a variable** are cut in one way only, and nothing but
`!any` can make two duplicates differ. -/
theorem matchAlike_iff_of_noBar {line line' : Str} {n n' : Nat} (hr : parseRuleLine line n = .ok r)
    (hs : parseRuleLine line' n' = .ok s) (hbar : NoBar r) (hbar' : NoBar s)
    (h : ruleKey r = ruleKey s) :
    r.action = s.action ∧
      (MatchAlike r s ↔ (MixesUpNotAny r s → s.Dead) ∧ (MixesUpNotAny s r → r.Dead)) := by
  have hr := accepted_of_parseRuleLine hr
  have hs := accepted_of_parseRuleLine hs
  obtain ⟨haction, hprotocol⟩ := names_of_ruleKey hr hs h
  have hprint := printAlike_of_noBar hr hs hbar hbar' h
  refine ⟨haction, fun halike => ⟨halike.notAny hs, halike.symm.notAny hr⟩, ?_⟩
  exact fun ⟨hmixed, hmixed'⟩ => matchAlike_of_printAlike hr hs hprotocol hprint hmixed hmixed'

end

/-- `!any` matches nothing, -/
def dropNotAny : SignatureRule where
  action := .drop
  protocol := .tcp
  source := .notAny
  options := [⟨"sid".toList, "1".toList⟩]
  sid := 1
  raw := "drop tcp !any any -> any any (sid:1;)".toList
  line := 1

/-- and `!,` everything. -/
def dropNotNothing : SignatureRule where
  action := .drop
  protocol := .tcp
  source := .notNothing
  options := [⟨"sid".toList, "2".toList⟩]
  sid := 2
  raw := "drop tcp !, any -> any any (sid:2;)".toList
  line := 2

theorem parse_dropNotAny :
    parseRuleLine "drop tcp !any any -> any any (sid:1;)".toList 1 = .ok dropNotAny := by rfl

theorem parse_dropNotNothing :
    parseRuleLine "drop tcp !, any -> any any (sid:2;)".toList 2 = .ok dropNotNothing := by rfl

theorem not_matchAlike_notAny : ¬ MatchAlike dropNotAny dropNotNothing := by
  intro halike
  have hprobe := halike (probe ⟨0⟩ ⟨0⟩ 0 0 []) (portsFit_probe (by decide) (by decide))
  cases hprobe

theorem ruleKey_sound_iff_notAny : ¬ KeyFaithful dropNotAny dropNotNothing := by
  rw [← ruleKey_sound_iff parse_dropNotAny parse_dropNotNothing rfl]
  exact fun hboth => not_matchAlike_notAny hboth.2

/-- The two rules are reported as duplicates. -/
theorem ruleKey_not_sound :
    ¬ ∀ line line' n n' r s, parseRuleLine line n = .ok r → parseRuleLine line' n' = .ok s →
      ruleKey r = ruleKey s → r.action = s.action ∧ MatchAlike r s := by
  intro hsound
  exact not_matchAlike_notAny (hsound _ _ _ _ _ _ parse_dropNotAny parse_dropNotNothing rfl).2

end PacketGuard.Rules
