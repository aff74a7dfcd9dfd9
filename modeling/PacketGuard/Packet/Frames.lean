import PacketGuard.Packet.Pcap

/-! # What the decoders look at

A decoder looks at the bytes its view shows, and at no others: views that show
the same bytes are decoded alike, wherever they lie.  Behind the IP header the
total length bounds what is looked at, so bytes appended to a frame whose packet
is complete are not looked at either.
-/
namespace PacketGuard.Packet
open PacketGuard.Core
open ByteView (SameBytes Extends)

/-! ## Views that show the same bytes -/

section SameBytes
variable {v w : ByteView} (h : v.SameBytes w)
include h

theorem hasBytes_congr (offset length : Nat) :
    hasBytes v offset length = hasBytes w offset length := by
  rw [hasBytes, hasBytes, h.size_eq]

theorem parseEthernet_congr : parseEthernet v = parseEthernet w := by
  have he := h.extends
  have hsize := h.size_eq
  unfold parseEthernet
  rw [hsize]
  by_cases h14 : w.size < 14
  · simp only [if_pos h14]
  · simp only [if_neg h14]
    simp (disch := omega) only [he.copy_eq, he.readBe16_eq]

theorem parseTcpSegment_congr : parseTcpSegment v = parseTcpSegment w := by
  have he := h.extends
  have hsize := h.size_eq
  unfold parseTcpSegment
  rw [hsize]
  by_cases h20 : w.size < 20
  · simp only [if_pos h20]
  · simp only [if_neg h20]
    simp (disch := omega) only [he.data_eq, he.readBe16_eq, he.readBe32_eq]
    by_cases hlen : (w.data 12).toNat >>> 4 < 5 ∨ w.size < (w.data 12).toNat >>> 4 * 4
    · simp only [if_pos hlen]
    · simp only [if_neg hlen]
      have hcopy : v.copy 20 ((w.data 12).toNat >>> 4 * 4 - 20) =
          w.copy 20 ((w.data 12).toNat >>> 4 * 4 - 20) := he.copy_eq (by omega)
      simp only [hcopy]

theorem parseUdpDatagram_congr : parseUdpDatagram v = parseUdpDatagram w := by
  have he := h.extends
  have hsize := h.size_eq
  unfold parseUdpDatagram
  rw [hsize]
  by_cases h8 : w.size < 8
  · simp only [if_pos h8]
  · simp only [if_neg h8]
    simp (disch := omega) only [he.readBe16_eq]

/-- The cases are those of the loop; in each, the other view takes the same one. -/
theorem readDnsNameFrom_congr (depth : Nat) (name : Str) (offset : Nat) :
    readDnsNameFrom v depth name offset = readDnsNameFrom w depth name offset := by
  have he := h.extends
  have hsize := h.size_eq
  fun_induction readDnsNameFrom v depth name offset with
  | case1 depth name offset hend =>
    rw [readDnsNameFrom, dif_pos (by omega)]
  | case2 depth name offset hin len h0 =>
    rw [readDnsNameFrom, dif_neg (by omega), ← he.data_eq (by omega)]
    exact (if_pos h0).symm
  | case3 depth name offset hin len h0 hptr hend =>
    rw [readDnsNameFrom, dif_neg (by omega), ← he.data_eq (by omega), ← hsize]
    simp only [len] at *
    rw [if_neg h0, if_pos hptr, if_pos hend]
  | case4 depth name offset hin len h0 hptr hin' hdepth =>
    rw [readDnsNameFrom, dif_neg (by omega), ← he.data_eq (by omega), ← hsize]
    simp only [len] at *
    rw [if_neg h0, if_pos hptr, if_neg hin', dif_pos hdepth]
  | case5 depth name offset hin len h0 hptr hin' ptr hdepth e herr ih =>
    rw [readDnsNameFrom, dif_neg (by omega), ← he.data_eq (by omega), ← hsize]
    simp only [len, ptr] at *
    rw [if_neg h0, if_pos hptr, if_neg hin', dif_neg hdepth, ← he.data_eq (by omega)]
    simp only [← ih, herr]
  | case6 depth name offset hin len h0 hptr hin' ptr hdepth suffix _ hok ih =>
    rw [readDnsNameFrom, dif_neg (by omega), ← he.data_eq (by omega), ← hsize]
    simp only [len, ptr] at *
    rw [if_neg h0, if_pos hptr, if_neg hin', dif_neg hdepth, ← he.data_eq (by omega)]
    simp only [← ih, hok]
  | case7 depth name offset hin len h0 hptr hmark =>
    rw [readDnsNameFrom, dif_neg (by omega), ← he.data_eq (by omega), ← hsize]
    simp only [len] at *
    rw [if_neg h0, if_neg hptr, if_pos hmark]
  | case8 depth name offset hin len h0 hptr hmark hhas =>
    rw [readDnsNameFrom, dif_neg (by omega), ← he.data_eq (by omega), ← hsize]
    simp only [len] at *
    rw [if_neg h0, if_neg hptr, if_neg hmark, ← hasBytes_congr h, if_pos hhas]
  | case9 depth name offset hin len h0 hptr hmark hhas name' hlong =>
    have hcopy : v.copy (offset + 1) len = w.copy (offset + 1) len := by
      simp [hasBytes] at hhas
      exact he.copy_eq (by omega)
    rw [readDnsNameFrom, dif_neg (by omega), ← he.data_eq (by omega), ← hsize]
    simp only [len, name'] at *
    rw [if_neg h0, if_neg hptr, if_neg hmark, ← hasBytes_congr h, if_neg hhas, ← hcopy]
    exact (if_pos hlong).symm
  | case10 depth name offset hin len h0 hptr hmark hhas name' hlong ih =>
    have hcopy : v.copy (offset + 1) len = w.copy (offset + 1) len := by
      simp [hasBytes] at hhas
      exact he.copy_eq (by omega)
    rw [ih, readDnsNameFrom.eq_def w depth name, dif_neg (by omega), ← he.data_eq (by omega),
      ← hsize]
    simp only [len, name'] at *
    rw [if_neg h0, if_neg hptr, if_neg hmark, ← hasBytes_congr h, if_neg hhas, ← hcopy]
    exact (if_neg hlong).symm

theorem readDnsName_congr (offset : Nat) : readDnsName v offset = readDnsName w offset := by
  rw [readDnsName, readDnsName, readDnsNameFrom_congr h]

theorem readQuestion_congr (offset : Nat) : readQuestion v offset = readQuestion w offset := by
  have he := h.extends
  have hsize := h.size_eq
  unfold readQuestion
  rw [readDnsName_congr h]
  cases readDnsName w offset with
  | error e => rfl
  | ok r =>
    simp only [hasBytes_congr h]
    by_cases hhas : hasBytes w r.2 4
    · have hle : r.2 + 4 ≤ w.size := by
        simp only [hasBytes, Bool.and_eq_true, decide_eq_true_eq] at hhas
        omega
      simp (disch := omega) only [he.readBe16_eq]
    · simp [hhas]

theorem renderTxt_congr (txt : Str) (off : Nat) : renderTxt v txt off = renderTxt w txt off := by
  have he := h.extends
  have hsize := h.size_eq
  fun_induction renderTxt v txt off with
  | case1 txt off hoff len hlong =>
    rw [renderTxt, if_pos (by omega), ← he.data_eq hoff, ← hsize]
    exact (if_pos hlong).symm
  | case2 txt off hoff len hfits ih =>
    have hcopy : v.copy (off + 1) len = w.copy (off + 1) len := he.copy_eq (by omega)
    refine ih.trans ?_
    rw [hcopy, renderTxt.eq_def w txt, if_pos (by omega), ← he.data_eq hoff, ← hsize]
    exact (if_neg hfits).symm
  | case3 txt off hoff => rw [renderTxt, if_neg (by omega)]

/-- The data of a record is rendered alike, since it lies at the same distance
from the start of its message. -/
theorem renderRdata_congr (type : Nat) {offset length : Nat} (hv : offset + length ≤ v.size) :
    renderRdata type v (v.sub offset length hv) =
      renderRdata type w (w.sub offset length (h.size_eq ▸ hv)) := by
  have hs := h.extends.sub hv
  have hbytes : (v.sub offset length hv).toVector =
    (w.sub offset length (h.size_eq ▸ hv)).toVector := hs
  have hstart : (v.sub offset length hv).start - v.start =
      (w.sub offset length (h.size_eq ▸ hv)).start - w.start := by
    simp only [ByteView.sub]
    split <;> omega
  -- a slice never starts before its view: the first test of the source never fires
  have hbehind : ∀ (u : ByteView) (hu : offset + length ≤ u.size),
      ¬ (u.sub offset length hu).start < u.start := by
    intro u hu
    simp only [ByteView.sub]
    split <;> omega
  unfold renderRdata
  simp only [ByteView.size_sub, h.size_eq, hstart, hbytes, hbehind, false_or,
    readDnsName_congr h, renderTxt_congr hs]
  by_cases h1 : type = 1 ∧ length = 4
  · rw [if_pos h1, if_pos h1, hs.extends.readBe32_eq (by rw [ByteView.size_sub]; omega)]
  · rw [if_neg h1, if_neg h1]
    congr

theorem readRecord_congr (offset : Nat) : readRecord v offset = readRecord w offset := by
  have he := h.extends
  have hsize := h.size_eq
  unfold readRecord
  rw [readDnsName_congr h]
  cases readDnsName w offset with
  | error e => rfl
  | ok r =>
    simp only [hasBytes_congr h]
    by_cases hhas : hasBytes w r.2 10
    · have hle : r.2 + 10 ≤ w.size := by
        simp only [hasBytes, Bool.and_eq_true, decide_eq_true_eq] at hhas
        omega
      simp (disch := omega) only [he.readBe16_eq, he.readBe32_eq]
      by_cases hbody : hasBytes w (r.2 + 10) (readBe16 (w.ptr (r.2 + 8)))
      · have hle' : r.2 + 10 + readBe16 (w.ptr (r.2 + 8)) ≤ v.size := by
          simp only [hasBytes, Bool.and_eq_true, decide_eq_true_eq] at hbody
          omega
        rw [ByteView.slice_eq_ok hle', ByteView.slice_eq_ok (hsize ▸ hle'), he.copy_eq hle']
        simp only [renderRdata_congr h _ hle']
      · simp [hbody]
    · simp [hhas]

theorem readSections_congr (hlen : 12 ≤ v.size) : readSections v = readSections w := by
  have he := h.extends
  have hquestion : readQuestion v = readQuestion w := funext (readQuestion_congr h)
  have hrecord : readRecord v = readRecord w := funext (readRecord_congr h)
  unfold readSections dnsHeader
  simp (disch := omega) only [hquestion, hrecord, he.readBe16_eq]

theorem parseDnsMessage_congr : parseDnsMessage v = parseDnsMessage w := by
  have hsize := h.size_eq
  unfold parseDnsMessage
  by_cases h12 : v.size < 12
  · rw [if_pos h12, if_pos (by omega)]
  · rw [if_neg h12, if_neg (by omega), readSections_congr h (by omega)]

/-- Slices at the same place either both fail or show the same bytes. -/
theorem slice_congr (offset length : Nat) :
    (∃ e, v.slice offset length = .error e ∧ w.slice offset length = .error e) ∨
      ∃ sv sw, v.slice offset length = .ok sv ∧ w.slice offset length = .ok sw ∧
        sv.SameBytes sw := by
  by_cases hle : offset + length ≤ v.size
  · exact Or.inr ⟨_, _, ByteView.slice_eq_ok hle, ByteView.slice_eq_ok (h.size_eq ▸ hle),
      h.extends.sub hle⟩
  · have hsize := h.size_eq
    exact Or.inl ⟨_, ByteView.slice_eq_error (by omega), ByteView.slice_eq_error (by omega)⟩

theorem decodeTransport_congr (md : PacketMetadata) (protocol : Nat) :
    decodeTransport md protocol v = decodeTransport md protocol w := by
  unfold decodeTransport
  rw [parseTcpSegment_congr h, parseUdpDatagram_congr h]
  rcases parseUdpDatagram w with ⟨_ | udp, diag⟩
  · rfl
  · rcases slice_congr h 8 udp.payloadLength with ⟨e, hv, hw⟩ | ⟨sv, sw, hv, hw, hs⟩
    · simp only [hv, hw]
    · simp only [hv, hw, parseDnsMessage_congr hs]

end SameBytes

/-! ## The IP header bounds what is looked at -/

/-- `header_length`, as the first byte has it. -/
def wireHeaderLength (v : ByteView) : Nat := ((v.data 0).toNat &&& 0x0f) * 4

/-- `total_length`, as the header has it. -/
def wireTotalLength (v : ByteView) : Nat := readBe16 (v.ptr 2)

/-- The view holds an IPv4 header with consistent lengths. -/
structure Ipv4Header (v : ByteView) : Prop where
  fixedPart : 20 ≤ v.size
  version : (v.data 0).toNat >>> 4 = 4
  ihl : 5 ≤ (v.data 0).toNat &&& 0x0f
  header : wireHeaderLength v ≤ v.size
  total : wireHeaderLength v ≤ wireTotalLength v

/-- A decoded packet has a consistent header; its total length is clipped to the
captured bytes. -/
theorem parseIpv4Packet_ok {v : ByteView} {ip : IPv4Packet}
    (h : (parseIpv4Packet v).1 = .ok ip) :
    Ipv4Header v ∧ ip = readIpv4Header v (wireHeaderLength v)
      (if v.size < wireTotalLength v then v.size % 2 ^ 16 else wireTotalLength v) := by
  simp only [parseIpv4Packet] at h
  split at h
  · simp at h
  · split at h
    · simp at h
    · split at h
      · simp at h
      · rename_i h20 hversion hlen
        split at h
        · simp at h
        · rename_i htotal
          have hip := Except.ok.inj h
          simp only [htotal, false_or, decide_eq_true_eq] at hip
          unfold wireHeaderLength wireTotalLength
          refine ⟨⟨by omega, by omega, by omega, ?_, ?_⟩, hip.symm⟩
          · unfold wireHeaderLength
            omega
          · unfold wireHeaderLength wireTotalLength
            omega

/-- A complete packet is decoded without a length warning. -/
theorem parseIpv4Packet_complete {v : ByteView} (h : Ipv4Header v)
    (hcap : wireTotalLength v ≤ v.size) :
    parseIpv4Packet v =
      (.ok (readIpv4Header v (wireHeaderLength v) (wireTotalLength v)),
        ipv4Notes (readIpv4Header v (wireHeaderLength v) (wireTotalLength v))) := by
  obtain ⟨h20, hversion, hihl, hlen, htotal⟩ := h
  have hdiffers : ¬ (wireTotalLength v < wireHeaderLength v ∨ v.size < wireTotalLength v) := by
    omega
  unfold wireHeaderLength at hlen htotal hdiffers
  unfold wireTotalLength at htotal hdiffers hcap
  rw [parseIpv4Packet, if_neg (by omega)]
  simp only [wireHeaderLength, wireTotalLength, hversion, hdiffers, decide_false]
  rw [if_neg (by simp), if_neg (by omega), if_neg (by omega)]
  simp

/-- The payload of a decoded packet lies inside the captured bytes. -/
theorem parseIpv4Packet_within {v : ByteView} {ip : IPv4Packet}
    (h : (parseIpv4Packet v).1 = .ok ip) : ip.headerLength + ip.payloadLength ≤ v.size := by
  obtain ⟨⟨-, -, -, hlen, htotal⟩, rfl⟩ := parseIpv4Packet_ok h
  have hmod := Nat.mod_le v.size (2 ^ 16)
  simp only [readIpv4Header]
  split <;> omega

section Extends
variable {v w : ByteView} (he : w.Extends v)
include he

theorem readIpv4Header_extends {headerLength : Nat} (h20 : 20 ≤ v.size)
    (hlen : headerLength ≤ v.size) (totalLength : Nat) :
    readIpv4Header v headerLength totalLength = readIpv4Header w headerLength totalLength := by
  have hv : 0 + headerLength ≤ v.size := by omega
  have hw : 0 + headerLength ≤ w.size := hv.trans he.size_le
  unfold readIpv4Header
  rw [ByteView.slice_eq_ok hv, ByteView.slice_eq_ok hw]
  simp only [internetChecksum_congr (he.sub hv)]
  simp (disch := omega) only [he.data_eq, he.readBe16_eq, he.readBe32_eq]

theorem wireHeaderLength_extends (h : 20 ≤ v.size) : wireHeaderLength v = wireHeaderLength w := by
  rw [wireHeaderLength, wireHeaderLength, he.data_eq (by omega)]

theorem wireTotalLength_extends (h : 20 ≤ v.size) : wireTotalLength v = wireTotalLength w :=
  he.readBe16_eq (by omega)

/-- Bytes behind a complete packet do not change what is decoded. -/
theorem parseIpv4Packet_extends {ip : IPv4Packet} (hok : (parseIpv4Packet v).1 = .ok ip)
    (hcap : wireTotalLength v ≤ v.size) : parseIpv4Packet v = parseIpv4Packet w := by
  obtain ⟨hv, -⟩ := parseIpv4Packet_ok hok
  have hle := he.size_le
  have hlength := wireHeaderLength_extends he hv.fixedPart
  have htotal := wireTotalLength_extends he hv.fixedPart
  -- the longer view passes the checks of the shorter one
  have hw : Ipv4Header w := by
    obtain ⟨h20, hversion, hihl, hlen, hconsistent⟩ := hv
    rw [he.data_eq (by omega)] at hversion hihl
    exact ⟨by omega, hversion, hihl, by omega, by omega⟩
  rw [parseIpv4Packet_complete hv hcap, parseIpv4Packet_complete hw (by omega), ← hlength, ← htotal,
    readIpv4Header_extends he hv.fixedPart hv.header]

/-- The bytes behind a complete packet are not looked at. -/
theorem decodeIp_extends (md : PacketMetadata) {ip : IPv4Packet}
    (hok : (parseIpv4Packet v).1 = .ok ip) (hcap : wireTotalLength v ≤ v.size) :
    decodeIp md v = decodeIp md w := by
  have hin := parseIpv4Packet_within hok
  unfold decodeIp
  rw [← parseIpv4Packet_extends he hok hcap]
  rcases hparse : parseIpv4Packet v with ⟨_ | ip', diag⟩
  · rfl
  · rw [hparse] at hok
    cases hok
    simp only [ByteView.slice_eq_ok hin, ByteView.slice_eq_ok (hin.trans he.size_le),
      decodeTransport_congr (he.sub hin)]

/-- The Ethernet header is read from the first bytes of a frame. -/
theorem parseEthernet_extends {eth : EthernetFrame} (hok : (parseEthernet v).1 = .ok eth) :
    parseEthernet v = parseEthernet w := by
  have hle := he.size_le
  simp only [parseEthernet] at hok ⊢
  by_cases h14 : v.size < 14
  · simp [h14] at hok
  · rw [if_neg h14] at hok ⊢
    rw [if_neg (show ¬ w.size < 14 by omega)]
    simp (disch := omega) only [he.copy_eq, he.readBe16_eq] at hok ⊢
    -- a frame of less than 18 bytes was accepted, so it has no tag
    by_cases h18 : v.size < 18
    · split at hok
      · simp at hok
      · rename_i htag
        rw [if_neg htag, if_neg htag]
    · simp (disch := omega) only [if_neg h18]
      rw [if_neg (show ¬ w.size < 18 by omega)]

/-- What lies behind a slice that reaches to the end lies behind the view. -/
theorem sub_rest {offset : Nat} (hv : offset ≤ v.size) :
    (w.sub offset (w.size - offset) (by have := he.size_le; omega)).Extends
      (v.sub offset (v.size - offset) (by omega)) := by
  obtain ⟨tail, ht⟩ := he
  refine ⟨tail, ?_⟩
  rw [ByteView.toVector_sub, ByteView.toVector_sub, List.take_of_length_le (by simp),
    List.take_of_length_le (by simp), ← ht, List.drop_append_of_le_length (by simpa using hv)]

end Extends

section SameBytes
variable {v w : ByteView} (h : v.SameBytes w)
include h

theorem parseIpv4Packet_congr : parseIpv4Packet v = parseIpv4Packet w := by
  have he := h.extends
  have hsize := h.size_eq
  unfold parseIpv4Packet
  rw [hsize]
  by_cases h20 : w.size < 20
  · simp only [if_pos h20]
  · simp only [if_neg h20]
    rw [he.data_eq (by omega), he.readBe16_eq (by omega)]
    by_cases hlen : (w.data 0).toNat &&& 0x0f < 5 ∨ w.size < ((w.data 0).toNat &&& 0x0f) * 4
    · simp only [if_pos hlen]
    · simp only [if_neg hlen, readIpv4Header_extends he (show 20 ≤ v.size by omega)
        (show ((w.data 0).toNat &&& 0x0f) * 4 ≤ v.size by omega)]

theorem decodeIp_congr (md : PacketMetadata) : decodeIp md v = decodeIp md w := by
  unfold decodeIp
  rw [parseIpv4Packet_congr h]
  rcases parseIpv4Packet w with ⟨_ | ip, diag⟩
  · rfl
  · rcases slice_congr h ip.headerLength ip.payloadLength with ⟨e, hv, hw⟩ | ⟨sv, sw, hv, hw, hs⟩
    · simp only [hv, hw]
    · simp only [hv, hw, decodeTransport_congr hs]

/-- **A payload is decoded from its bytes alone**, wherever they lie. -/
theorem decodePacketPayload_congr (ts : Timestamp) (originalLength linkType : Nat) :
    decodePacketPayload ts v originalLength linkType =
      decodePacketPayload ts w originalLength linkType := by
  unfold decodePacketPayload
  rw [parseEthernet_congr h, h.size_eq]
  rcases parseEthernet w with ⟨_ | eth, diag⟩
  · rfl
  · rcases slice_congr h eth.headerLength (w.size - eth.headerLength) with
      ⟨e, hv, hw⟩ | ⟨sv, sw, hv, hw, hs⟩
    · simp only [hv, hw]
    · simp only [hv, hw, decodeIp_congr hs]

end SameBytes

/-! ## Bytes behind the packet -/

/-- `md'` has the fields of `md` below the IP layer. -/
structure KeepsLink (md md' : PacketMetadata) : Prop where
  timestamp : md'.timestamp = md.timestamp
  originalLength : md'.originalLength = md.originalLength
  capturedLength : md'.capturedLength = md.capturedLength
  ethernet : md'.ethernet = md.ethernet

/-- The decoders of the transport layer keep the fields of the lower layers. -/
theorem decodeTransport_keeps (md : PacketMetadata) (protocol : Nat) (v : ByteView) :
    KeepsLink md (decodeTransport md protocol v).1 ∧
      (decodeTransport md protocol v).1.ipv4 = md.ipv4 := by
  unfold decodeTransport
  repeat' split
  all_goals exact ⟨⟨rfl, rfl, rfl, rfl⟩, rfl⟩

theorem decodeTransport_capturedLength (md : PacketMetadata) (protocol : Nat) (v : ByteView)
    (n : Nat) :
    decodeTransport { md with capturedLength := n } protocol v =
      ({ (decodeTransport md protocol v).1 with capturedLength := n },
        (decodeTransport md protocol v).2) := by
  unfold decodeTransport
  by_cases h6 : protocol = 6
  · rw [if_pos h6, if_pos h6]
    rcases parseTcpSegment v with ⟨_ | tcp, diag⟩ <;> rfl
  · rw [if_neg h6, if_neg h6]
    by_cases h17 : protocol = 17
    · rw [if_pos h17, if_pos h17]
      rcases parseUdpDatagram v with ⟨_ | udp, diag⟩
      · rfl
      · by_cases h53 : udp.sourcePort = 53 ∨ udp.destinationPort = 53
        · simp only [if_pos h53]
          rcases v.slice 8 udp.payloadLength with _ | dnsPayload
          · rfl
          · simp only
            rcases parseDnsMessage dnsPayload with ⟨_ | dns, diag'⟩ <;> rfl
        · simp only [if_neg h53]
    · rw [if_neg h17, if_neg h17]

theorem decodeIp_capturedLength (md : PacketMetadata) (v : ByteView) (n : Nat) :
    decodeIp { md with capturedLength := n } v =
      ({ (decodeIp md v).1 with capturedLength := n }, (decodeIp md v).2) := by
  unfold decodeIp
  rcases parseIpv4Packet v with ⟨_ | ip, diag⟩
  · rfl
  · simp only
    rcases v.slice ip.headerLength ip.payloadLength with _ | transport
    · rfl
    · have hframe :=
        decodeTransport_capturedLength { md with ipv4 := some ip } ip.protocol transport n
      simp only at hframe ⊢
      rw [hframe]

theorem decodeIp_ipv4 {md : PacketMetadata} {v : ByteView} {ip : IPv4Packet} (hmd : md.ipv4 = none)
    (h : (decodeIp md v).1.ipv4 = some ip) : (parseIpv4Packet v).1 = .ok ip := by
  unfold decodeIp at h
  rcases hparse : parseIpv4Packet v with ⟨e | ip', diag⟩
  · rw [hparse] at h
    simp [hmd] at h
  · rw [hparse] at h
    simp only at h
    rcases hs : v.slice ip'.headerLength ip'.payloadLength with e | transport
    · rw [hs] at h
      simpa using h
    · rw [hs] at h
      rw [(decodeTransport_keeps _ _ _).2] at h
      simpa using h

theorem decodeIp_keeps (md : PacketMetadata) (v : ByteView) : KeepsLink md (decodeIp md v).1 := by
  unfold decodeIp
  rcases parseIpv4Packet v with ⟨e | ip', diag⟩
  · exact ⟨rfl, rfl, rfl, rfl⟩
  · simp only
    rcases v.slice ip'.headerLength ip'.payloadLength with e | transport
    · exact ⟨rfl, rfl, rfl, rfl⟩
    · have hkeeps := (decodeTransport_keeps { md with ipv4 := some ip' } ip'.protocol transport).1
      exact ⟨hkeeps.timestamp, hkeeps.originalLength, hkeeps.capturedLength, hkeeps.ethernet⟩

/-- The frame `v` is decoded to an IPv4 packet, and all of the packet, as long as
its header says, has been captured. -/
structure CompleteFrame (md : PacketMetadata) (v : ByteView) : Prop where
  ipv4 : md.ipv4.isSome
  captured : ∀ eth, md.ethernet = some eth →
    readBe16 (v.ptr (eth.headerLength + 2)) ≤ v.size - eth.headerLength

theorem parseEthernet_within {v : ByteView} {eth : EthernetFrame}
    (h : (parseEthernet v).1 = .ok eth) : eth.headerLength ≤ v.size := by
  simp only [parseEthernet] at h
  split at h
  · simp at h
  · split at h
    · split at h
      · simp at h
      · cases h
        simp only
        omega
    · cases h
      simp only
      omega

/-- A frame that is decoded to an IPv4 packet: its headers, and what is left to decode. -/
theorem decodePacketPayload_ipv4 {v : ByteView} {ts : Timestamp} {originalLength linkType : Nat}
    (h : (decodePacketPayload ts v originalLength linkType).1.ipv4.isSome) :
    linkType = 1 ∧ ∃ eth diag, parseEthernet v = (.ok eth, diag) ∧ eth.etherType = 0x0800 := by
  unfold decodePacketPayload at h
  by_cases hlink : linkType = 1
  · refine ⟨hlink, ?_⟩
    rw [if_neg (not_not.mpr hlink)] at h
    rcases hparse : parseEthernet v with ⟨e | eth, diag⟩
    · simp [hparse] at h
    · refine ⟨eth, diag, rfl, ?_⟩
      by_contra htype
      simp [hparse, htype] at h
  · rw [if_pos hlink] at h
    simp at h

/-- What is left to decode behind an Ethernet header that announces IPv4. -/
theorem decodePacketPayload_eq {v : ByteView} {eth : EthernetFrame} {diag : Diagnostics}
    (ts : Timestamp) (originalLength : Nat) (hparse : parseEthernet v = (.ok eth, diag))
    (htype : eth.etherType = 0x0800)
    (hle : eth.headerLength + (v.size - eth.headerLength) ≤ v.size) :
    decodePacketPayload ts v originalLength 1 =
      ((decodeIp
          { timestamp := ts, originalLength, capturedLength := v.size, ethernet := some eth }
          (v.sub eth.headerLength (v.size - eth.headerLength) hle)).1,
        diag ++ (decodeIp
          { timestamp := ts, originalLength, capturedLength := v.size, ethernet := some eth }
          (v.sub eth.headerLength (v.size - eth.headerLength) hle)).2) := by
  unfold decodePacketPayload
  rw [if_neg (by simp), hparse]
  simp only [ByteView.slice_eq_ok hle]
  rw [if_neg (by simpa using htype)]

/-- **Bytes behind a complete packet are not decoded**: only the captured length
tells the longer frame from the shorter one. -/
theorem decodePacketPayload_extends {v w : ByteView} (he : w.Extends v) {ts : Timestamp}
    {originalLength linkType : Nat}
    (h : CompleteFrame (decodePacketPayload ts v originalLength linkType).1 v) :
    decodePacketPayload ts w originalLength linkType =
      ({ (decodePacketPayload ts v originalLength linkType).1 with capturedLength := w.size },
        (decodePacketPayload ts v originalLength linkType).2) := by
  obtain ⟨hsome, hcap⟩ := h
  obtain ⟨rfl, eth, diag, hparse, htype⟩ := decodePacketPayload_ipv4 hsome
  have hle := parseEthernet_within (by rw [hparse] : (parseEthernet v).1 = .ok eth)
  have hsize := he.size_le
  have hparse' := hparse
  rw [parseEthernet_extends he (by rw [hparse])] at hparse'
  have hv : eth.headerLength + (v.size - eth.headerLength) ≤ v.size := by omega
  have hw : eth.headerLength + (w.size - eth.headerLength) ≤ w.size := by omega
  have hrest := sub_rest he hle
  rw [decodePacketPayload_eq ts originalLength hparse htype hv] at hsome hcap ⊢
  rw [decodePacketPayload_eq ts originalLength hparse' htype hw]
  obtain ⟨ip, hip⟩ := Option.isSome_iff_exists.mp hsome
  have hok := decodeIp_ipv4 rfl hip
  have hcap := hcap eth (decodeIp_keeps _ _).ethernet
  have htotal : wireTotalLength (v.sub eth.headerLength (v.size - eth.headerLength) hv) ≤
      (v.sub eth.headerLength (v.size - eth.headerLength) hv).size := by
    have h20 := (parseIpv4Packet_ok hok).1.fixedPart
    rw [ByteView.size_sub] at h20 ⊢
    rw [wireTotalLength, ByteView.ptr_sub hv (by omega)]
    exact hcap
  have hframe := decodeIp_extends hrest
    { timestamp := ts, originalLength, capturedLength := w.size, ethernet := some eth } hok htotal
  have hcaptured := decodeIp_capturedLength
    { timestamp := ts, originalLength, capturedLength := v.size, ethernet := some eth }
    (v.sub eth.headerLength (v.size - eth.headerLength) hv) w.size
  simp only at hcaptured
  rw [← hframe, hcaptured]

end PacketGuard.Packet
