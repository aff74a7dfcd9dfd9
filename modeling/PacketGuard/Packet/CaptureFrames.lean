import PacketGuard.Packet.CaptureFile
import PacketGuard.Packet.DnsWire
import PacketGuard.Packet.FrameWire

/-! # Captures of frames

A capture file is parsed to its packets, each decoded from its own bytes.  Where
the packets are frames, what is decoded follows from the fields of the frames,
down to the names of the DNS messages they carry.
-/
namespace PacketGuard.Packet
open PacketGuard.Core PacketGuard.Lib

/-! ## Packets -/

/-- The time stamp `parse_pcap` gives the packet. -/
def WirePacket.stamp (p : WirePacket) (ns : Bool) : Timestamp :=
  normalizeTimestamp p.tsSec.toNat (if ns then p.tsFrac.toNat else p.tsFrac.toNat * 1000)

/-- What the packet is decoded to from its own bytes, and what is reported about it. -/
def WirePacket.outcome (p : WirePacket) (ns : Bool)
    (linkType : Nat) : PacketMetadata × Diagnostics :=
  decodePacketPayload (p.stamp ns) (.ofVector p.payload) p.originalLength.toNat linkType

def WirePacket.decoded (p : WirePacket) (ns : Bool) (linkType : Nat) : PcapPacket :=
  ⟨(p.outcome ns linkType).1, p.payload⟩

/-- One record, decoded where it lies, and decoded from its own bytes. -/
theorem decodeRecord_encode {v : ByteView} {le : Bool} {offset : Nat} {p : WirePacket}
    (h : v.Holds offset (p.encode le)) (ns : Bool) (linkType : Nat)
    (hfits : offset + 16 + rd32 v le (offset + 8) ≤ v.size) :
    decodeRecord v le ns linkType offset (v.sub (offset + 16) (rd32 v le (offset + 8)) hfits) =
      (p.decoded ns linkType, (p.outcome ns linkType).2) := by
  obtain ⟨hsec, hfrac, hincl, horig, hpayload⟩ := rd32_encode h
  have hsame : (v.sub (offset + 16) (rd32 v le (offset + 8)) hfits).SameBytes
      (.ofVector p.payload) := by
    rw [ByteView.SameBytes, ByteView.toVector_ofVector, ByteView.toVector_sub, hincl]
    exact hpayload.drop_take
  have hbytes : (v.sub (offset + 16) (rd32 v le (offset + 8)) hfits).toVector = p.payload := by
    rw [hsame, ByteView.toVector_ofVector]
  rw [decodeRecord, WirePacket.decoded, WirePacket.outcome, WirePacket.stamp, hsec, hfrac, horig,
    decodePacketPayload_congr hsame, hbytes]

/-- **The record loop decodes each packet from its own bytes.** -/
theorem parseRecords_decoded {v : ByteView} {le : Bool} (ns : Bool) (linkType : Nat)
    (packets : List WirePacket)
    {offset : Nat} (h : v.Holds offset (packets.flatMap (WirePacket.encode le)))
    (hend : offset + (packets.flatMap (WirePacket.encode le)).length = v.size) :
    parseRecords v le ns linkType offset =
      (packets.map (WirePacket.decoded · ns linkType),
        packets.flatMap fun p => (p.outcome ns linkType).2) := by
  induction packets generalizing offset with
  | nil =>
    rw [parseRecords_end (by simpa using hend.ge)]
    rfl
  | cons p packets ih =>
    rw [List.flatMap_cons] at h hend
    rw [List.length_append, p.length_encode] at hend
    obtain ⟨-, -, hincl, -, -⟩ := rd32_encode h.left
    have hrest := h.right
    rw [p.length_encode, ← Nat.add_assoc] at hrest
    have hall := ih hrest (by omega)
    have hfits : offset + 16 + rd32 v le (offset + 8) ≤ v.size := by
      rw [hincl]
      omega
    rw [← hincl] at hall
    rw [parseRecords_record hfits, List.map_cons, List.flatMap_cons, hall,
      decodeRecord_encode h.left ns linkType hfits]

/-- What `parse_pcap` says about a major version. -/
def versionNote (major : Nat) : Diagnostics :=
  if major ≠ 2 then Diagnostics.warn "pcap.version".toList "PCAP major version is unusual".toList 4
    else []

/-- **A capture is parsed to its packets**, each decoded from its own bytes, in order. -/
theorem parsePcap_packets (c : WireCapture) :
    ∃ file, parsePcap (.ofVector c.encode) = .ok file ∧
      file.packets = c.packets.map (WirePacket.decoded · c.nanosecondResolution c.linkType.toNat) ∧
      file.diagnostics = versionNote c.major.toNat ++
        c.packets.flatMap fun p => (p.outcome c.nanosecondResolution c.linkType.toNat).2 := by
  have h : (ByteView.ofVector c.encode).Holds 0 c.encode := by
    have h := ByteView.holds_ofVector c.encode []
    rwa [List.append_nil] at h
  -- only the magic number, the version and the link type matter here
  have hmajorOn := h.right
  have hlinkOn := h.right.right.right.right.right.right
  have hpackets := hlinkOn.right
  simp only [length_word, Nat.zero_add, Nat.reduceAdd] at hmajorOn hlinkOn hpackets
  have hlength : c.encode.length =
      24 + (c.packets.flatMap (WirePacket.encode c.littleEndian)).length := by
    simp only [WireCapture.encode, List.length_append, length_word]
    omega
  have hrecords := parseRecords_decoded c.nanosecondResolution c.linkType.toNat c.packets
    hpackets (by rw [ByteView.size_ofVector]; omega)
  rw [parsePcap, if_neg (by rw [ByteView.size_ofVector]; omega), pcapMagic_word h.left]
  simp only [rd32_word hlinkOn.left c.linkType.toNat_lt, rd16_word hmajorOn.left c.major.toNat_lt,
    hrecords]
  exact ⟨_, rfl, rfl, rfl⟩

theorem map_eq_zipWith {α β γ : Type} {R : α → β → Prop} {g : α → γ} {h : α → β → γ} {l : List α}
    {l' : List β}
    (hall : List.Forall₂ R l l') (heq : ∀ a b, R a b → g a = h a b) :
    l.map g = List.zipWith h l l' := by
  induction hall with
  | nil => rfl
  | cons hab _ ih => rw [List.map_cons, List.zipWith_cons_cons, heq _ _ hab, ih]

/-- **A capture of frames is recovered layer by layer**: every packet has the fields
its frame was written with, its bytes, and its time stamp, and nothing is reported
but what the frames call for. -/
theorem parsePcap_frames (c : WireCapture) (hlink : c.linkType = 1) (frames : List WireFrame)
    (hframes : c.packets.map WirePacket.payload = frames.map WireFrame.encode) :
    ∃ file, parsePcap (.ofVector c.encode) = .ok file ∧
      file.packets = List.zipWith (fun (p : WirePacket) (f : WireFrame) =>
        ⟨(f.decoded (p.stamp c.nanosecondResolution) p.originalLength.toNat).1, f.encode⟩)
          c.packets frames ∧
      file.diagnostics = versionNote c.major.toNat ++
        (List.zipWith (fun (p : WirePacket) (f : WireFrame) =>
          (f.decoded (p.stamp c.nanosecondResolution) p.originalLength.toNat).2) c.packets
          frames).flatten := by
  obtain ⟨file, hparse, hpackets, hdiagnostics⟩ := parsePcap_packets c
  have hpairs : List.Forall₂ (fun p f => WirePacket.payload p = WireFrame.encode f) c.packets
      frames := by
    rwa [← List.forall₂_eq_eq_eq, List.forall₂_map_left_iff, List.forall₂_map_right_iff] at hframes
  have houtcome : ∀ p f, WirePacket.payload p = WireFrame.encode f →
      p.outcome c.nanosecondResolution 1 = f.decoded (p.stamp c.nanosecondResolution)
        p.originalLength.toNat := by
    intro p f hpayload
    rw [WirePacket.outcome, hpayload, decodePacketPayload_encode]
  rw [hlink] at hpackets hdiagnostics
  refine ⟨file, hparse, ?_, ?_⟩
  · rw [hpackets]
    refine map_eq_zipWith hpairs fun p f hpayload => ?_
    rw [WirePacket.decoded, ← houtcome p f hpayload, ← hpayload]
    rfl
  · rw [hdiagnostics, List.flatMap_def]
    exact congrArg (fun notes => versionNote c.major.toNat ++ List.flatten notes)
      (map_eq_zipWith hpairs fun p f hpayload => congrArg Prod.snd (houtcome p f hpayload))

/-! A query for `evil.io`, captured. -/

/-- The message that asks for the address of `evil.io`. -/
def evilQuery : WireMessage where
  id := 7
  flags := 0x0100
  questions := [⟨⟨[[0x65, 0x76, 0x69, 0x6c], [0x69, 0x6f]], by decide, by decide⟩, 1, 1⟩]
  answers := []
  authorities := []
  additionals := []
  questions_length := by decide
  answers_length := by decide
  authorities_length := by decide
  additionals_length := by decide

def evilFrame : WireFrame where
  ethernet := ⟨[2, 0, 0, 0, 0, 1], [2, 0, 0, 0, 0, 2], none, rfl, rfl⟩
  ipv4 :=
    { dscpEcn := 0, identification := 1, flagsFragment := 0, ttl := 64, headerChecksum := 0
      source := ⟨0x0a000001⟩, destination := ⟨0x08080808⟩, options := ⟨[], rfl, by decide⟩ }
  transport := .udp ⟨5353, 53, 0, evilQuery.encode, []⟩
  padding := []
  fits := by decide

def evilCapture : WireCapture where
  littleEndian := true
  nanosecondResolution := false
  major := 2
  minor := 4
  thisZone := 0
  sigfigs := 0
  snaplen := 65535
  linkType := 1
  packets := [⟨1700000000, 5, 65, evilFrame.encode, by decide⟩]

/-- The query, recovered from the capture. -/
theorem parsePcap_frames_evilCapture :
    ∃ file, parsePcap (.ofVector evilCapture.encode) = .ok file ∧
      file.packets = List.zipWith (fun (p : WirePacket) (f : WireFrame) =>
        ⟨(f.decoded (p.stamp evilCapture.nanosecondResolution) p.originalLength.toNat).1, f.encode⟩)
        evilCapture.packets [evilFrame] ∧
      file.diagnostics = versionNote evilCapture.major.toNat ++
        (List.zipWith (fun (p : WirePacket) (f : WireFrame) =>
          (f.decoded (p.stamp evilCapture.nanosecondResolution) p.originalLength.toNat).2)
          evilCapture.packets [evilFrame]).flatten :=
  parsePcap_frames evilCapture rfl [evilFrame] rfl

/-! ## Names -/

/-- Removing repetitions keeps every element. -/
theorem mem_destutter_ne {α : Type} [DecidableEq α] {x : α} {l : List α} :
    x ∈ l.destutter (· ≠ ·) ↔ x ∈ l := by
  have hcons : ∀ (l : List α) (a : α), x ∈ l.destutter' (· ≠ ·) a ↔ x ∈ a :: l := by
    intro l
    induction l with
    | nil => exact fun a => Iff.rfl
    | cons b l ih =>
      intro a
      by_cases hab : a ≠ b
      · rw [List.destutter'_cons_pos _ hab, List.mem_cons, ih, List.mem_cons (a := x) (b := a)]
      · obtain rfl := not_not.mp hab
        rw [List.destutter'_cons_neg _ hab, ih]
        simp
  cases l with
  | nil => exact Iff.rfl
  | cons a l => exact hcons l a

/-- **The names a packet shows**: those of the questions, and of the answers where
they are not empty. -/
theorem PacketMetadata.mem_domainNames_iff {md : PacketMetadata} {name : Str} :
    name ∈ md.domainNames ↔ ∃ dns, md.dns = some dns ∧
      ((∃ q ∈ dns.questions, q.name = name) ∨ name ≠ [] ∧ ∃ r ∈ dns.answers, r.name = name) := by
  unfold domainNames
  cases md.dns with
  | none => simp
  | some dns =>
    simp only [mem_destutter_ne, List.mem_insertionSort, List.mem_append, List.mem_map,
      List.mem_filter, Option.some.injEq, exists_eq_left']
    refine or_congr Iff.rfl ⟨?_, ?_⟩
    · rintro ⟨r, ⟨hr, hname⟩, rfl⟩
      exact ⟨by simpa using hname, r, hr, rfl⟩
    · rintro ⟨hname, r, hr, rfl⟩
      exact ⟨r, ⟨hr, by simpa using hname⟩, rfl⟩

/-- The name stands in the message, as a question or as the owner of an answer. -/
def WireMessage.Names (m : WireMessage) (name : Str) : Prop :=
  (∃ q ∈ m.questions, dottedLabels q.name.labels = name) ∨
    name ≠ [] ∧ ∃ r ∈ m.answers, dottedLabels r.name.labels = name

theorem WireMessage.ReadAs.names_iff {m : WireMessage} {msg : DnsMessage} (h : m.ReadAs msg)
    (name : Str) :
    ((∃ q ∈ msg.questions, q.name = name) ∨ name ≠ [] ∧ ∃ r ∈ msg.answers, r.name = name) ↔
      m.Names name := by
  have hanswers : (∃ r ∈ msg.answers, r.name = name) ↔ ∃ r ∈ m.answers,
      dottedLabels r.name.labels = name := by
    have hnames := h.answers.imp fun r d hrd => hrd.name
    have hmap : msg.answers.map DnsRecord.name = m.answers.map fun r =>
      dottedLabels r.name.labels := by
      rw [← List.forall₂_eq_eq_eq, List.forall₂_map_left_iff, List.forall₂_map_right_iff]
      exact hnames.flip
    simpa using congrArg (fun names => name ∈ names) hmap
  rw [WireMessage.Names, hanswers, h.questions]
  simp [WireQuestion.question]

/-- The names the packet shows are plain. -/
def PacketMetadata.ShowsPlain (md : PacketMetadata) : Prop :=
  ∀ name ∈ md.domainNames, PlainName name

theorem PacketMetadata.showsPlain_of_none {md : PacketMetadata} (h : md.dns = none) :
    md.ShowsPlain := by
  intro name hname
  obtain ⟨dns, hdns, -⟩ := mem_domainNames hname
  rw [h] at hdns
  cases hdns

theorem showsPlain_decodeTransport {md : PacketMetadata} (h : md.dns = none) (protocol : Nat)
    (v : ByteView) :
    (decodeTransport md protocol v).1.ShowsPlain := by
  unfold decodeTransport
  by_cases h6 : protocol = 6
  · rw [if_pos h6]
    rcases parseTcpSegment v with ⟨_ | tcp, diag⟩ <;> exact PacketMetadata.showsPlain_of_none h
  · rw [if_neg h6]
    by_cases h17 : protocol = 17
    · rw [if_pos h17]
      rcases parseUdpDatagram v with ⟨_ | udp, diag⟩
      · exact PacketMetadata.showsPlain_of_none h
      · by_cases h53 : udp.sourcePort = 53 ∨ udp.destinationPort = 53
        · simp only [if_pos h53]
          rcases v.slice 8 udp.payloadLength with _ | dnsPayload
          · exact PacketMetadata.showsPlain_of_none h
          · rcases hparse : parseDnsMessage dnsPayload with ⟨_ | dns, diag'⟩
            · simp only [hparse]
              exact PacketMetadata.showsPlain_of_none h
            · -- the only place where names come from
              simp only [hparse]
              obtain ⟨hquestions, hanswers⟩ := parseDnsMessage_plain hparse
              intro name hname
              obtain ⟨dns', hdns, ⟨q, hq, rfl⟩ | ⟨r, hr, rfl⟩⟩ :=
                PacketMetadata.mem_domainNames hname
              · cases hdns
                exact hquestions q hq
              · cases hdns
                exact hanswers r hr
        · simp only [if_neg h53]
          exact PacketMetadata.showsPlain_of_none h
    · rw [if_neg h17]
      exact PacketMetadata.showsPlain_of_none h

theorem showsPlain_decodeIp {md : PacketMetadata} (h : md.dns = none) (v : ByteView) :
    (decodeIp md v).1.ShowsPlain := by
  unfold decodeIp
  rcases parseIpv4Packet v with ⟨_ | ip, diag⟩
  · exact PacketMetadata.showsPlain_of_none h
  · simp only
    rcases v.slice ip.headerLength ip.payloadLength with _ | transport
    · exact PacketMetadata.showsPlain_of_none h
    · have hip : ({ md with ipv4 := some ip } : PacketMetadata).dns = none := h
      exact showsPlain_decodeTransport hip ip.protocol transport

theorem showsPlain_decodePacketPayload (ts : Timestamp) (v : ByteView)
    (originalLength linkType : Nat) :
    (decodePacketPayload ts v originalLength linkType).1.ShowsPlain := by
  unfold decodePacketPayload
  by_cases hlink : linkType ≠ 1
  · simp only [if_pos hlink]
    exact PacketMetadata.showsPlain_of_none rfl
  · simp only [if_neg hlink]
    rcases parseEthernet v with ⟨_ | eth, diag⟩
    · exact PacketMetadata.showsPlain_of_none rfl
    · by_cases htype : eth.etherType ≠ 0x0800
      · simp only [if_pos htype]
        exact PacketMetadata.showsPlain_of_none rfl
      · simp only [if_neg htype]
        rcases v.slice eth.headerLength (v.size - eth.headerLength) with _ | ipBytes
        · exact PacketMetadata.showsPlain_of_none rfl
        · exact showsPlain_decodeIp rfl ipBytes

/-- **The names of captured packets are plain**, whatever the bytes of the capture. -/
theorem showsPlain_parsePcap {v : ByteView} {file : PcapFile} (h : parsePcap v = .ok file) :
    ∀ pkt ∈ file.packets, pkt.metadata.ShowsPlain := by
  have hrecords : ∀ le ns linkType, ∀ pkt ∈ (parseRecords v le ns linkType 24).1,
      pkt.metadata.ShowsPlain := by
    intro le ns linkType
    have hnone : ∀ pkt ∈ ([] : List PcapPacket), pkt.metadata.ShowsPlain := fun _ hpkt =>
      absurd hpkt List.not_mem_nil
    refine parseRecords_induction (P := fun _ out => ∀ pkt ∈ out.1, pkt.metadata.ShowsPlain)
      (fun _ _ => hnone) (fun _ _ _ => hnone) (fun _ _ _ => hnone)
        (fun offset pkt rest hfits hpkt hrest => ?_) 24
    refine List.forall_mem_cons.mpr ⟨?_, hrest⟩
    rw [hpkt]
    exact showsPlain_decodePacketPayload _ _ _ _
  unfold parsePcap at h
  split at h
  · cases h
  · split at h
    · cases h
    · rename_i le ns _
      cases h
      exact hrecords le ns _

end PacketGuard.Packet
