import PacketGuard.Ioc.Indicator
import PacketGuard.Packet.Types

/-! The matcher that scans an indicator set (`match_packet` of `ioc/ioc.cpp`). -/
namespace PacketGuard.Ioc
open PacketGuard.Core PacketGuard.Packet

structure IndicatorSet where
  indicators : List Indicator := []
  duplicates : List Indicator := []
  diagnostics : Diagnostics := []

structure MatchResult where
  indicator : Indicator
  field : Str
  value : Str
  reason : Str

def sourceField : Str := "ipv4.source".toList

def destinationField : Str := "ipv4.destination".toList

def nameField : Str := "dns.name".toList

/-- `maybe_add_ip_matches`. -/
def ipMatches (set : IndicatorSet) (ip : IPv4Address) (field : Str) : List MatchResult :=
  set.indicators.flatMap fun ind =>
    (if ind.type = .ip ∧ ind.ip = some ip then
      [⟨ind, field, ipv4ToString ip, "exact IPv4 match".toList⟩]
    else []) ++
    (if ind.type = .cidr ∧ ind.cidr.any (·.contains ip) then
      [⟨ind, field, ipv4ToString ip, "CIDR containment match".toList⟩]
    else [])

/-- `maybe_add_domain_matches`. -/
def nameMatches (set : IndicatorSet) (domain : Str) : List MatchResult :=
  set.indicators.flatMap fun ind =>
    (if ind.type = .domain ∧ domainMatches ind.normalized domain then
      [⟨ind, nameField, normalizeDomain domain, "domain suffix match".toList⟩]
    else []) ++
    (if ind.type = .url ∧ domainMatches (urlHost ind.normalized) domain then
      [⟨ind, nameField, normalizeDomain domain, "URL host match".toList⟩]
    else [])

/-- Some match of `out` allows what `m` reports. -/
def allowed (out : List MatchResult) (m : MatchResult) : Bool :=
  out.any fun allow => allow.indicator.role = .allow && allow.field == m.field &&
    allow.value == m.value

/-- The last loop of both `match_packet` functions: a match by an allow
indicator suppresses the other matches on its field and value. -/
def suppressAllowed (out : List MatchResult) : List MatchResult :=
  out.filter fun m => !allowed out m || m.indicator.role = .allow

def matchPacket (set : IndicatorSet) (md : PacketMetadata) : List MatchResult :=
  suppressAllowed <|
    (match md.ipv4 with
      | some ip => ipMatches set ip.source sourceField ++ ipMatches set ip.destination
        destinationField
      | none => []) ++
    md.domainNames.flatMap (nameMatches set)

/-- `match_packets`: the matches of the packets, packet by packet. -/
def matchPackets (set : IndicatorSet) (packets : List PcapPacket) : List MatchResult :=
  packets.flatMap fun pkt => matchPacket set pkt.metadata

end PacketGuard.Ioc
