import PacketGuard.Packet.Checked

/-! # The layers of a decoded packet nest

Every layer trusts a length from the wire, and the lengths that reach past the
captured bytes are clipped.  In the decoded packet the lengths fit together
again: headers and payloads add up, each layer lies inside the one below, and
the outermost one inside the captured bytes.
-/
namespace PacketGuard.Packet
open PacketGuard.Core PacketGuard.Lib
open PacketGuard.Lib.Checked (ok_bind error_bind sub_eq_ok fit_eq_ok)

/-- The lengths of the layers fit together. -/
structure Nested (md : PacketMetadata) : Prop where
  ipv4 : ∀ ip, md.ipv4 = some ip → ∃ eth, md.ethernet = some eth ∧ 20 ≤ ip.headerLength ∧
    eth.headerLength + ip.headerLength + ip.payloadLength ≤ md.capturedLength ∧
    ip.totalLength = ip.headerLength + ip.payloadLength
  tcp : ∀ tcp, md.tcp = some tcp → ∃ ip, md.ipv4 = some ip ∧
    4 * tcp.dataOffset + tcp.payloadLength = ip.payloadLength ∧
    tcp.options.length + 20 = 4 * tcp.dataOffset
  udp : ∀ udp, md.udp = some udp → ∃ ip, md.ipv4 = some ip ∧
    udp.length = 8 + udp.payloadLength ∧ udp.length ≤ ip.payloadLength
  dns : md.dns.isSome → ∃ udp, md.udp = some udp ∧
    (udp.sourcePort = 53 ∨ udp.destinationPort = 53)

/-- Nothing above the link layer has been decoded. -/
structure LinkOnly (md : PacketMetadata) : Prop where
  ipv4 : md.ipv4 = none
  tcp : md.tcp = none
  udp : md.udp = none
  dns : md.dns = none

theorem LinkOnly.nested {md : PacketMetadata} (h : LinkOnly md) : Nested md :=
  ⟨by simp [h.ipv4], by simp [h.tcp], by simp [h.udp], by simp [h.dns]⟩

/-! ## One layer at a time -/

theorem parseIpv4Packet_lengths {v : ByteView} {ip : IPv4Packet}
    (h : (parseIpv4Packet v).1 = .ok ip) :
    20 ≤ ip.headerLength ∧ ip.totalLength = ip.headerLength + ip.payloadLength := by
  obtain ⟨hheader, rfl⟩ := parseIpv4Packet_ok h
  have hword := readBe16_lt (v.ptr 2)
  have hmod : v.size < wireTotalLength v → v.size % 2 ^ 16 = v.size := by
    intro hclip
    unfold wireTotalLength at hclip
    exact Nat.mod_eq_of_lt (by omega)
  obtain ⟨h20, hversion, hihl, hlen, htotal⟩ := hheader
  have hfive : 20 ≤ wireHeaderLength v := by
    unfold wireHeaderLength
    omega
  simp only [readIpv4Header]
  refine ⟨hfive, ?_⟩
  by_cases hclip : v.size < wireTotalLength v
  · rw [if_pos hclip, hmod hclip]
    omega
  · rw [if_neg hclip]
    omega

theorem parseTcpSegment_lengths {v : ByteView} {tcp : TcpSegment} {diag : Diagnostics}
    (h : parseTcpSegment v = (.ok tcp, diag)) :
    4 * tcp.dataOffset + tcp.payloadLength = v.size ∧
      tcp.options.length + 20 = 4 * tcp.dataOffset := by
  simp only [parseTcpSegment] at h
  split at h
  · simp at h
  split at h
  · simp at h
  cases h
  simp only
  refine ⟨by omega, ?_⟩
  by_cases hoptions : 20 < (v.data 12).toNat >>> 4 * 4
  · rw [if_pos hoptions]
    simp only [ByteView.copy, List.length_map, List.length_range]
    omega
  · rw [if_neg hoptions, List.length_nil]
    omega

/-- The transport layer lies in the payload of the packet it came with. -/
theorem decodeTransport_nested {md : PacketMetadata} {ip : IPv4Packet} {v : ByteView}
    (hmd : Nested md) (hip : md.ipv4 = some ip) (hsize : v.size = ip.payloadLength)
    (hdns : md.dns = none) :
    Nested (decodeTransport md ip.protocol v).1 := by
  unfold decodeTransport
  split
  · rcases hparse : parseTcpSegment v with ⟨e | tcp, diag⟩
    · exact ⟨hmd.ipv4, hmd.tcp, hmd.udp, hmd.dns⟩
    · obtain ⟨hlength, hoptions⟩ := parseTcpSegment_lengths hparse
      refine ⟨hmd.ipv4, ?_, hmd.udp, hmd.dns⟩
      rintro _ ⟨⟩
      exact ⟨ip, hip, by omega, hoptions⟩
  split
  · rcases hparse : parseUdpDatagram v with ⟨e | udp, diag⟩
    · exact ⟨hmd.ipv4, hmd.tcp, hmd.udp, hmd.dns⟩
    obtain ⟨hlength, hle⟩ := parseUdpDatagram_ok hparse
    have hlayer : ∀ udp', some udp = some udp' → ∃ ip, md.ipv4 = some ip ∧
        udp'.length = 8 + udp'.payloadLength ∧ udp'.length ≤ ip.payloadLength := by
      rintro _ ⟨⟩
      exact ⟨ip, hip, hlength, hsize ▸ hle⟩
    have hnone : md.dns.isSome → ∃ udp', some udp = some udp' ∧
        (udp'.sourcePort = 53 ∨ udp'.destinationPort = 53) := by simp [hdns]
    simp only
    split
    · rename_i hport
      rcases v.slice 8 udp.payloadLength with e | dnsPayload
      · exact ⟨hmd.ipv4, hmd.tcp, hlayer, hnone⟩
      · simp only
        rcases parseDnsMessage dnsPayload with ⟨e | dns, diag'⟩
        · exact ⟨hmd.ipv4, hmd.tcp, hlayer, hnone⟩
        · exact ⟨hmd.ipv4, hmd.tcp, hlayer, fun _ => ⟨udp, rfl, hport⟩⟩
    · exact ⟨hmd.ipv4, hmd.tcp, hlayer, hnone⟩
  · exact hmd

theorem decodeIp_nested {md : PacketMetadata} {eth : EthernetFrame} {v : ByteView}
    (hmd : LinkOnly md) (heth : md.ethernet = some eth)
    (hsize : eth.headerLength + v.size ≤ md.capturedLength) : Nested (decodeIp md v).1 := by
  unfold decodeIp
  rcases hparse : parseIpv4Packet v with ⟨e | ip, diag⟩
  · exact LinkOnly.nested ⟨hmd.ipv4, hmd.tcp, hmd.udp, hmd.dns⟩
  have hok : (parseIpv4Packet v).1 = .ok ip := by rw [hparse]
  have hin := parseIpv4Packet_within hok
  obtain ⟨h20, htotal⟩ := parseIpv4Packet_lengths hok
  have hip : Nested { md with ipv4 := some ip } := by
    refine ⟨?_, by simp [hmd.tcp], by simp [hmd.udp], by simp [hmd.dns]⟩
    rintro _ ⟨⟩
    exact ⟨eth, heth, h20, by simp only; omega, htotal⟩
  simp only [ByteView.slice_eq_ok hin]
  exact decodeTransport_nested hip rfl (ByteView.size_sub ..) hmd.dns

/-- **Decoding meets no fault, and the layers of what it returns nest**, for
every frame and every link type.  The upper half of `~sum` in the checksum is
meant to be cut off. -/
theorem decodePacketPayload_nested (ts : Timestamp) (v : ByteView) (originalLength linkType : Nat) :
    decodePacketPayloadChecked (Checked.truncate 16) ts v originalLength linkType =
        .ok (decodePacketPayload ts v originalLength linkType) ∧
      Nested (decodePacketPayload ts v originalLength linkType).1 := by
  refine ⟨decodePacketPayloadChecked_eq ts v originalLength linkType, ?_⟩
  unfold decodePacketPayload
  split
  · exact LinkOnly.nested ⟨rfl, rfl, rfl, rfl⟩
  rcases heth : parseEthernet v with ⟨e | eth, diag⟩
  · exact LinkOnly.nested ⟨rfl, rfl, rfl, rfl⟩
  have hle : eth.headerLength ≤ v.size := parseEthernet_within (by rw [heth])
  have hin : eth.headerLength + (v.size - eth.headerLength) ≤ v.size := by omega
  simp only [ByteView.slice_eq_ok hin]
  split
  · exact LinkOnly.nested ⟨rfl, rfl, rfl, rfl⟩
  · exact decodeIp_nested ⟨rfl, rfl, rfl, rfl⟩ rfl hin

/-! ## The conversion of the complement -/

/-- No header passes if the conversion has to keep all bits. -/
theorem readIpv4HeaderChecked_fit {v : ByteView} {headerLength totalLength : Nat}
    (hlen : headerLength ≤ v.size) (hshort : headerLength ≤ 60) :
    readIpv4HeaderChecked (Checked.fit 16) v headerLength totalLength = .error .overflow := by
  have hslice : 0 + headerLength ≤ v.size := by omega
  unfold readIpv4HeaderChecked
  simp only [readBe16Checked_eq, ok_bind, sliceChecked_eq hslice]
  rw [internetChecksumChecked_fit (by rw [ByteView.size_sub]; omega), error_bind]

theorem parseIpv4PacketChecked_fit {v : ByteView} {ip : IPv4Packet}
    (h : (parseIpv4Packet v).1 = .ok ip) :
    parseIpv4PacketChecked (Checked.fit 16) v = .error .overflow := by
  have hnibble : (v.data 0).toNat &&& 0x0f ≤ 15 := Nat.and_le_right
  have hword := readBe16_lt (v.ptr 2)
  unfold parseIpv4PacketChecked
  unfold parseIpv4Packet at h
  split at h
  · simp at h
  rename_i hsize
  rw [if_neg hsize]
  simp only at h ⊢
  split at h
  · simp at h
  rename_i hversion
  rw [if_neg hversion]
  split at h
  · simp at h
  rename_i hheader
  rw [if_neg hheader]
  simp only [readBe16Checked_eq, ok_bind]
  split at h
  · simp at h
  rename_i htotal
  rw [if_neg htotal]
  have hread : ∀ totalLength,
      readIpv4HeaderChecked (Checked.fit 16) v (((v.data 0).toNat &&& 0x0f) * 4) totalLength =
        .error .overflow :=
    fun _ => readIpv4HeaderChecked_fit (by omega) (by omega)
  simp only [hread, error_bind]
  split
  · rename_i hdiffers
    rw [fit_eq_ok, ok_bind]
    simp only [decide_eq_true_eq] at hdiffers
    omega
  · rfl

/-- **The conversion of `~sum` loses bits wherever there is a header**: if it had to keep them, no
frame with an IPv4 packet would be decoded. -/
theorem decodePacketPayloadChecked_fit {ts : Timestamp} {v : ByteView}
    {originalLength linkType : Nat}
    (h : (decodePacketPayload ts v originalLength linkType).1.ipv4.isSome) :
    decodePacketPayloadChecked (Checked.fit 16) ts v originalLength linkType =
      .error .overflow := by
  unfold decodePacketPayloadChecked
  unfold decodePacketPayload at h
  split at h
  · cases h
  rename_i hlink
  rw [if_neg hlink, parseEthernetChecked_eq, ok_bind]
  rcases heth : parseEthernet v with ⟨e | eth, diag⟩
  · rw [heth] at h
    cases h
  have hle : eth.headerLength ≤ v.size := parseEthernet_within (by rw [heth])
  have hin : eth.headerLength + (v.size - eth.headerLength) ≤ v.size := by omega
  simp only [heth, ByteView.slice_eq_ok hin] at h
  split at h
  · cases h
  rename_i htype
  simp only [if_neg htype, sub_eq_ok hle, sliceChecked_eq hin, ok_bind]
  rcases hip : parseIpv4Packet (v.sub eth.headerLength (v.size - eth.headerLength) hin)
    with ⟨e | ip, diag'⟩
  · simp only [decodeIp, hip] at h
    cases h
  · rw [decodeIpChecked, parseIpv4PacketChecked_fit (by rw [hip]), error_bind, error_bind]

/-- An Ethernet frame with nothing but an IPv4 header. -/
def headerFrame : List UInt8 :=
  [2, 0, 0, 0, 0, 1, 2, 0, 0, 0, 0, 2, 8, 0,
    0x45, 0, 0, 20, 0, 0, 0, 0, 64, 1, 0, 0, 10, 0, 0, 1, 10, 0, 0, 2]

theorem complement_headerFrame :
    decodePacketPayloadChecked (Checked.fit 16) {} (.ofVector headerFrame) 34 1 =
      .error .overflow :=
  decodePacketPayloadChecked_fit rfl

end PacketGuard.Packet
