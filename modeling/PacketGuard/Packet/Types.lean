import PacketGuard.Core.Ip
import PacketGuard.Core.Time

/-! The decoded packet data of `packet/packet.hpp`. -/
namespace PacketGuard.Packet
open PacketGuard.Core

structure MacAddress where
  bytes : List UInt8 := List.replicate 6 0
  deriving DecidableEq

structure EthernetFrame where
  destination : MacAddress := {}
  source : MacAddress := {}
  etherType : Nat := 0
  headerLength : Nat := 14
  deriving DecidableEq

structure IPv4Packet where
  version : Nat := 4
  ihl : Nat := 0
  dscpEcn : Nat := 0
  totalLength : Nat := 0
  identification : Nat := 0
  flagsFragment : Nat := 0
  ttl : Nat := 0
  protocol : Nat := 0
  headerChecksum : Nat := 0
  source : IPv4Address := {}
  destination : IPv4Address := {}
  checksumValid : Bool := false
  fragmented : Bool := false
  headerLength : Nat := 0
  payloadLength : Nat := 0
  deriving DecidableEq

structure TcpSegment where
  sourcePort : Nat := 0
  destinationPort : Nat := 0
  sequence : Nat := 0
  acknowledgment : Nat := 0
  dataOffset : Nat := 0
  flags : Nat := 0
  window : Nat := 0
  checksum : Nat := 0
  urgent : Nat := 0
  payloadLength : Nat := 0
  options : List UInt8 := []
  deriving DecidableEq

structure UdpDatagram where
  sourcePort : Nat := 0
  destinationPort : Nat := 0
  length : Nat := 0
  checksum : Nat := 0
  payloadLength : Nat := 0
  deriving DecidableEq

structure DnsQuestion where
  name : Str := []
  type : Nat := 0
  klass : Nat := 0
  deriving DecidableEq

structure DnsRecord where
  name : Str := []
  type : Nat := 0
  klass : Nat := 0
  ttl : Nat := 0
  data : List UInt8 := []
  dataText : Str := []
  deriving DecidableEq

structure DnsMessage where
  id : Nat := 0
  response : Bool := false
  opcode : Nat := 0
  authoritative : Bool := false
  truncated : Bool := false
  recursionDesired : Bool := false
  recursionAvailable : Bool := false
  rcode : Nat := 0
  questions : List DnsQuestion := []
  answers : List DnsRecord := []
  authorities : List DnsRecord := []
  additionals : List DnsRecord := []
  deriving DecidableEq

structure PacketMetadata where
  timestamp : Timestamp := {}
  originalLength : Nat := 0
  capturedLength : Nat := 0
  ethernet : Option EthernetFrame := none
  ipv4 : Option IPv4Packet := none
  tcp : Option TcpSegment := none
  udp : Option UdpDatagram := none
  dns : Option DnsMessage := none
  notes : List Str := []
  deriving DecidableEq

/-- `PacketMetadata::domain_names`: sorted, without repetitions. -/
def PacketMetadata.domainNames (md : PacketMetadata) : List Str :=
  match md.dns with
  | none => []
  | some dns =>
    let names := dns.questions.map DnsQuestion.name ++
      (dns.answers.filter fun r => !r.name.isEmpty).map DnsRecord.name
    (names.insertionSort (· ≤ ·)).destutter (· ≠ ·)

structure PcapPacket where
  metadata : PacketMetadata := {}
  payload : List UInt8 := []
  deriving DecidableEq

structure PcapFile where
  nanosecondResolution : Bool := false
  littleEndian : Bool := true
  major : Nat := 2
  minor : Nat := 4
  thisZone : Int := 0
  snaplen : Nat := 0
  linkType : Nat := 0
  packets : List PcapPacket := []
  diagnostics : Diagnostics := []
  deriving DecidableEq

/-- The names a packet shows are names of its DNS message. -/
theorem PacketMetadata.mem_domainNames {md : PacketMetadata} {name : Str}
    (h : name ∈ md.domainNames) : ∃ dns, md.dns = some dns ∧
      ((∃ q ∈ dns.questions, q.name = name) ∨ ∃ r ∈ dns.answers, r.name = name) := by
  unfold domainNames at h
  split at h
  · cases h
  · rename_i dns hdns
    refine ⟨dns, hdns, ?_⟩
    have hmem := (List.destutter_sublist _ _).subset h
    rw [List.mem_insertionSort, List.mem_append] at hmem
    rcases hmem with hmem | hmem
    · obtain ⟨q, hq, rfl⟩ := List.mem_map.mp hmem
      exact Or.inl ⟨q, hq, rfl⟩
    · obtain ⟨r, hr, rfl⟩ := List.mem_map.mp hmem
      exact Or.inr ⟨r, List.mem_of_mem_filter hr, rfl⟩

end PacketGuard.Packet
