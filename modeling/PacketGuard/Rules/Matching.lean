import PacketGuard.Rules.Rule

/-! # What a rule asks of a packet

`rule_matches_packet` makes three tests: one of the protocol, one of the addresses
and ports, in the direction of the rule or in both, and one of the names and the
answers in which the content is searched.
-/
namespace PacketGuard.Rules
open PacketGuard.Core PacketGuard.Packet

namespace SignatureRule
variable (rule : SignatureRule)

/-- Addresses and ports satisfy the header from left to right. -/
def oneWay (src dst : IPv4Address) (sport dport : Nat) : Bool :=
  (rule.source.hits src && rule.destination.hits dst) &&
    (rule.sourcePorts.hits sport && rule.destinationPorts.hits dport)

def bidirectional : Bool := rule.direction == "<>".toList

/-- Addresses and ports satisfy the header in a direction that the rule has. -/
def headerHits (src dst : IPv4Address) (sport dport : Nat) : Bool :=
  rule.oneWay src dst sport dport || (rule.bidirectional && rule.oneWay dst src dport sport)

/-- The packet shows the content of the rule, if it has one. -/
def contentSeen (md : PacketMetadata) : Bool :=
  rule.content.isEmpty || md.domainNames.any (holdsText (toLower rule.content)) ||
    md.dns.any fun dns => dns.answers.any fun r => holdsText (toLower rule.content) r.dataText

theorem oneWay_iff {rule : SignatureRule} {src dst : IPv4Address} {sport dport : Nat} :
    rule.oneWay src dst sport dport = true ↔
      rule.source.hits src = true ∧ rule.destination.hits dst = true ∧
        rule.sourcePorts.hits sport = true ∧ rule.destinationPorts.hits dport = true := by
  unfold oneWay
  rw [Bool.and_eq_true, Bool.and_eq_true, Bool.and_eq_true, and_assoc]

theorem headerHits_iff {rule : SignatureRule} {src dst : IPv4Address} {sport dport : Nat} :
    rule.headerHits src dst sport dport = true ↔
      rule.oneWay src dst sport dport = true ∨
        (rule.bidirectional = true ∧ rule.oneWay dst src dport sport = true) := by
  unfold headerHits
  rw [Bool.or_eq_true, Bool.and_eq_true]

end SignatureRule

/-- The two directions, each with its own addresses and ports. -/
theorem headerHits_eq (rule : SignatureRule) (src dst : IPv4Address) (sport dport : Nat) :
    rule.headerHits src dst sport dport =
      ((rule.source.hits src && rule.destination.hits dst) &&
          (rule.sourcePorts.hits sport && rule.destinationPorts.hits dport) ||
        (rule.direction == "<>".toList && rule.source.hits dst && rule.destination.hits src) &&
          (rule.direction == "<>".toList && rule.sourcePorts.hits dport &&
            rule.destinationPorts.hits sport)) := by
  unfold SignatureRule.headerHits SignatureRule.oneWay SignatureRule.bidirectional
  cases rule.direction == "<>".toList <;> simp

/-- **The three tests of a match.** -/
theorem ruleMatchesPacket_iff {rule : SignatureRule} {md : PacketMetadata} :
    ruleMatchesPacket rule md = true ↔
      protoMatches rule.protocol md = true ∧
        (∃ ip, md.ipv4 = some ip ∧
          rule.headerHits ip.source ip.destination (packetPorts md).1 (packetPorts md).2 = true) ∧
        rule.contentSeen md = true := by
  unfold ruleMatchesPacket
  cases hproto : protoMatches rule.protocol md with
  | false => simp
  | true =>
    cases hip : md.ipv4 with
    | none => simp
    | some ip =>
      simp only [Bool.not_true, Bool.false_eq_true, if_false, ← headerHits_eq, Option.some.injEq,
        exists_eq_left', true_and]
      cases hheader : rule.headerHits ip.source ip.destination (packetPorts md).1
        (packetPorts md).2 with
      | false => simp
      | true =>
        unfold SignatureRule.contentSeen
        cases rule.content.isEmpty <;> simp

end PacketGuard.Rules
