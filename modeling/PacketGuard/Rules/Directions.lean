import Mathlib.Logic.Function.Basic
import PacketGuard.Rules.Matching

/-! # Bidirectional rules

A packet read from its other end has its addresses and its ports exchanged
(`PacketMetadata.reversed`) and everything else unchanged, so the tests of the
protocol and of the content cannot tell the two readings apart; only the header
can.  A bidirectional rule accepts the header of either reading, each with its
own addresses and ports: it is its one-way rule (`SignatureRule.forward`) asked
of the packet and of the reversed packet.
-/
namespace PacketGuard.Packet

theorem involutive_map {α : Type*} {f : α → α} (h : Function.Involutive f) :
    Function.Involutive (Option.map f) := by
  intro o
  rw [Option.map_map, h.comp_self, Option.map_id_fun, id]

def IPv4Packet.reversed (ip : IPv4Packet) : IPv4Packet :=
  { ip with source := ip.destination, destination := ip.source }

theorem IPv4Packet.reversed_involutive : Function.Involutive IPv4Packet.reversed := fun _ => rfl

def TcpSegment.reversed (tcp : TcpSegment) : TcpSegment :=
  { tcp with sourcePort := tcp.destinationPort, destinationPort := tcp.sourcePort }

theorem TcpSegment.reversed_involutive : Function.Involutive TcpSegment.reversed := fun _ => rfl

def UdpDatagram.reversed (udp : UdpDatagram) : UdpDatagram :=
  { udp with sourcePort := udp.destinationPort, destinationPort := udp.sourcePort }

theorem UdpDatagram.reversed_involutive : Function.Involutive UdpDatagram.reversed := fun _ => rfl

namespace PacketMetadata

/-- The packet as its receiver would send it back: every pair of endpoints exchanged. -/
def reversed (md : PacketMetadata) : PacketMetadata :=
  { md with
    ipv4 := md.ipv4.map IPv4Packet.reversed
    tcp := md.tcp.map TcpSegment.reversed
    udp := md.udp.map UdpDatagram.reversed }

theorem reversed_involutive : Function.Involutive reversed := by
  intro md
  have hipv4 := involutive_map IPv4Packet.reversed_involutive md.ipv4
  have htcp := involutive_map TcpSegment.reversed_involutive md.tcp
  have hudp := involutive_map UdpDatagram.reversed_involutive md.udp
  unfold reversed
  rw [hipv4, htcp, hudp]

@[simp] theorem reversed_dns (md : PacketMetadata) : md.reversed.dns = md.dns := rfl

@[simp] theorem domainNames_reversed (md : PacketMetadata) :
    md.reversed.domainNames = md.domainNames := rfl

theorem reversed_ipv4_eq_some {md : PacketMetadata} {ip : IPv4Packet} :
    md.reversed.ipv4 = some ip ↔ md.ipv4 = some ip.reversed := by
  constructor
  · intro h
    obtain ⟨back, hback, rfl⟩ := Option.map_eq_some_iff.mp h
    exact hback
  · intro h
    exact Option.map_eq_some_iff.mpr ⟨ip.reversed, h, rfl⟩

end PacketMetadata
end PacketGuard.Packet

namespace PacketGuard.Rules
open PacketGuard.Core PacketGuard.Packet

theorem packetPorts_reversed (md : PacketMetadata) :
    packetPorts md.reversed = (packetPorts md).swap := by
  unfold packetPorts PacketMetadata.reversed
  cases md.tcp with
  | some tcp => rfl
  | none =>
    cases md.udp with
    | some udp => rfl
    | none => rfl

/-- No protocol test looks at one end of the packet only. -/
theorem protoMatches_reversed (protocol : RuleProtocol) (md : PacketMetadata) :
    protoMatches protocol md.reversed = protoMatches protocol md := by
  unfold protoMatches PacketMetadata.reversed
  cases md.ipv4 with
  | none => rfl
  | some ip =>
    cases protocol with
    | http =>
      -- a web port is looked for at both ends, the destination first
      cases md.tcp with
      | none => rfl
      | some tcp =>
        simp only [Option.map_some, Option.any_some, TcpSegment.reversed]
        ac_rfl
    | tcp => simp only [Option.map_some, Option.isSome_map]
    | udp => simp only [Option.map_some, Option.isSome_map]
    | _ => rfl

namespace SignatureRule

/-- The one-way rule with the same tests. -/
def forward (rule : SignatureRule) : SignatureRule :=
  { rule with direction := "->".toList }

variable {rule : SignatureRule}

theorem contentSeen_reversed (md : PacketMetadata) :
    rule.contentSeen md.reversed = rule.contentSeen md := by
  unfold contentSeen
  rw [PacketMetadata.domainNames_reversed, PacketMetadata.reversed_dns]

/-- A one-way rule reads the header from left to right. -/
theorem headerHits_forward (src dst : IPv4Address) (sport dport : Nat) :
    rule.forward.headerHits src dst sport dport = rule.oneWay src dst sport dport := by
  unfold headerHits
  have hforward : rule.forward.bidirectional = false := rfl
  rw [hforward, Bool.false_and, Bool.or_false]
  rfl

/-- **What the one-way rule asks.** -/
theorem forward_matches_iff {md : PacketMetadata} :
    ruleMatchesPacket rule.forward md = true ↔
      protoMatches rule.protocol md = true ∧
        (∃ ip, md.ipv4 = some ip ∧
          rule.oneWay ip.source ip.destination (packetPorts md).1 (packetPorts md).2 = true) ∧
        rule.contentSeen md = true := by
  rw [ruleMatchesPacket_iff]
  simp only [headerHits_forward]
  rfl

/-- **What the one-way rule asks of the packet read from its other end.** -/
theorem forward_matches_reversed_iff {md : PacketMetadata} :
    ruleMatchesPacket rule.forward md.reversed = true ↔
      protoMatches rule.protocol md = true ∧
        (∃ ip, md.ipv4 = some ip ∧
          rule.oneWay ip.destination ip.source (packetPorts md).2 (packetPorts md).1 = true) ∧
        rule.contentSeen md = true := by
  rw [forward_matches_iff, protoMatches_reversed, packetPorts_reversed, contentSeen_reversed]
  constructor
  · rintro ⟨hproto, ⟨ip, hip, hheader⟩, hcontent⟩
    exact ⟨hproto, ⟨ip.reversed, PacketMetadata.reversed_ipv4_eq_some.mp hip, hheader⟩, hcontent⟩
  · rintro ⟨hproto, ⟨ip, hip, hheader⟩, hcontent⟩
    exact ⟨hproto, ⟨ip.reversed, PacketMetadata.reversed_ipv4_eq_some.mpr hip, hheader⟩, hcontent⟩

/-- A bidirectional rule matches one of the two readings. -/
theorem matches_iff_forward (h : rule.bidirectional = true) {md : PacketMetadata} :
    ruleMatchesPacket rule md = true ↔
      ruleMatchesPacket rule.forward md = true ∨
        ruleMatchesPacket rule.forward md.reversed = true := by
  rw [ruleMatchesPacket_iff, forward_matches_iff, forward_matches_reversed_iff]
  constructor
  · rintro ⟨hproto, ⟨ip, hip, hheader⟩, hcontent⟩
    rcases headerHits_iff.mp hheader with hleft | ⟨_, hright⟩
    · exact Or.inl ⟨hproto, ⟨ip, hip, hleft⟩, hcontent⟩
    · exact Or.inr ⟨hproto, ⟨ip, hip, hright⟩, hcontent⟩
  · rintro (⟨hproto, ⟨ip, hip, hleft⟩, hcontent⟩ | ⟨hproto, ⟨ip, hip, hright⟩, hcontent⟩)
    · exact ⟨hproto, ⟨ip, hip, headerHits_iff.mpr (Or.inl hleft)⟩, hcontent⟩
    · exact ⟨hproto, ⟨ip, hip, headerHits_iff.mpr (Or.inr ⟨h, hright⟩)⟩, hcontent⟩

/-- A bidirectional rule does not see which end of a packet sent it. -/
theorem matches_reversed (h : rule.bidirectional = true) (md : PacketMetadata) :
    ruleMatchesPacket rule md.reversed = ruleMatchesPacket rule md := by
  rw [Bool.eq_iff_iff, matches_iff_forward h, matches_iff_forward h,
    PacketMetadata.reversed_involutive md, or_comm]

theorem bidirectional_iff : rule.bidirectional = true ↔ rule.direction = "<>".toList := beq_iff_eq

end SignatureRule

/-- **A bidirectional rule is exactly its two one-way readings.**  It matches the packets that
its one-way rule matches, read from either end, and a packet and its reverse alike; the addresses
and the ports of a match are those of one reading. -/
theorem bidirectional_matches {rule : SignatureRule} (hdir : rule.direction = "<>".toList)
    (md : PacketMetadata) :
    (ruleMatchesPacket rule md = true ↔
        ruleMatchesPacket rule.forward md = true ∨
          ruleMatchesPacket rule.forward md.reversed = true) ∧
      ruleMatchesPacket rule md.reversed = ruleMatchesPacket rule md ∧
      (ruleMatchesPacket rule md = true → ∃ ip, md.ipv4 = some ip ∧
        (rule.oneWay ip.source ip.destination (packetPorts md).1 (packetPorts md).2 = true ∨
          rule.oneWay ip.destination ip.source (packetPorts md).2 (packetPorts md).1 = true)) := by
  have hboth : rule.bidirectional = true := SignatureRule.bidirectional_iff.mpr hdir
  refine ⟨SignatureRule.matches_iff_forward hboth, SignatureRule.matches_reversed hboth md, ?_⟩
  intro hmatches
  obtain ⟨_, ⟨ip, hip, hheader⟩, _⟩ := ruleMatchesPacket_iff.mp hmatches
  rcases SignatureRule.headerHits_iff.mp hheader with hleft | ⟨_, hright⟩
  · exact ⟨ip, hip, Or.inl hleft⟩
  · exact ⟨ip, hip, Or.inr hright⟩

/-- A rule for web traffic of both directions, -/
def webBothWays : SignatureRule where
  action := .alert
  protocol := .http
  destinationPorts := ⟨false, false, [⟨80, 80⟩]⟩
  direction := "<>".toList

/-- and the answer of a web server. -/
def webAnswer : PacketMetadata where
  ipv4 := some {}
  tcp := some { sourcePort := 80, destinationPort := 5000 }

theorem bidirectional_matches_webAnswer :
    ruleMatchesPacket webBothWays.forward webAnswer = false ∧
      ruleMatchesPacket webBothWays webAnswer = true :=
  ⟨by decide, (bidirectional_matches rfl webAnswer).1.mpr (Or.inr (by decide))⟩

end PacketGuard.Rules
