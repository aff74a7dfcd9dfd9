import PacketGuard.Ioc.Sights
import PacketGuard.Packet.CaptureFrames

/-! # From the bytes of a capture to the reports

What `match_packets` reports of a parsed capture, in terms of the frames that
were captured: their addresses, and the names of the DNS messages they carry.
-/
namespace PacketGuard
open PacketGuard.Core PacketGuard.Packet PacketGuard.Ioc

/-- The frame carries the DNS message `m`, over UDP. -/
def CarriesDns (f : WireFrame) (m : WireMessage) : Prop :=
  ∃ u rest, f.transport = .udp u ∧ (u.sourcePort = 53 ∨ u.destinationPort = 53) ∧
    u.payload = m.encode ++ rest

/-- What the frame carries to or from port 53 is a message without compressed names. -/
def PlainDns (f : WireFrame) : Prop :=
  ∀ u, f.transport = .udp u → (u.sourcePort = 53 ∨ u.destinationPort = 53) → ∃ m, CarriesDns f m

/-- The frame shows the sight. -/
inductive ShowsSight (f : WireFrame) : Sight → Prop
  | source : ShowsSight f (.source f.ipv4.source)
  | destination : ShowsSight f (.destination f.ipv4.destination)
  | dnsName {m : WireMessage} {name : Str} : CarriesDns f m → m.Names name →
    ShowsSight f (.dnsName name)

/-- The frame shows, under the field and value, something the indicator is about. -/
def FrameShows (f : WireFrame) (ind : Indicator) (field value : Str) : Prop :=
  ∃ s, ShowsSight f s ∧ s.field = field ∧ s.value = value ∧ s.Concerns ind

/-! ## Frames -/

/-- The image of a message is parsed, whatever follows it. -/
theorem parseDnsMessage_image (m : WireMessage) (rest : List UInt8) :
    ∃ msg diag, parseDnsMessage (.ofVector (m.encode ++ rest)) = (.ok msg, diag) ∧
      m.ReadAs msg := by
  have hlen := length_encode m
  obtain ⟨msg, hmsg, hread⟩ := readSections_encode m (ByteView.holds_ofVector m.encode rest)
  have hparse : (parseDnsMessage (.ofVector (m.encode ++ rest))).1 = .ok msg := by
    rw [parseDnsMessage, if_neg (by rw [ByteView.size_ofVector, List.length_append]; omega), hmsg]
  exact ⟨msg, _, Prod.ext hparse rfl, hread⟩

section Frame
variable (f : WireFrame) (ts : Timestamp) (originalLength : Nat)

theorem ipv4_decoded : (f.decoded ts originalLength).1.ipv4 =
    some (f.ipv4.packet f.transport.protocol f.transport.encode.length) := by
  simp only [WireFrame.decoded, WireFrame.headers]
  cases f.transport with
  | tcp t => rfl
  | other protocol bytes hother => rfl
  | udp u =>
    simp only [WireTransport.addTo, WireUdp.withDns]
    split
    · split <;> rfl
    · rfl

/-- The message the frame carries is the message of the packet. -/
theorem dns_decoded {f : WireFrame} {m : WireMessage} (h : CarriesDns f m) :
    ∃ msg, (f.decoded ts originalLength).1.dns = some msg ∧ m.ReadAs msg := by
  obtain ⟨u, rest, htransport, hport, hpayload⟩ := h
  obtain ⟨msg, diag, hparse, hread⟩ := parseDnsMessage_image m rest
  refine ⟨msg, ?_, hread⟩
  simp only [WireFrame.decoded, htransport, WireTransport.addTo, WireUdp.withDns, if_pos hport,
    hpayload, hparse]

/-- Without traffic of port 53 there is no message. -/
theorem dns_decoded_none {f : WireFrame}
    (h : ∀ u, f.transport = .udp u → ¬ (u.sourcePort = 53 ∨ u.destinationPort = 53)) :
    (f.decoded ts originalLength).1.dns = none := by
  simp only [WireFrame.decoded, WireFrame.headers]
  cases htransport : f.transport with
  | tcp t => rfl
  | other protocol bytes hother => rfl
  | udp u => simp only [WireTransport.addTo, WireUdp.withDns, if_neg (h u htransport)]

/-- **The names of a decoded frame** are those of the message it carries. -/
theorem mem_domainNames_decoded {f : WireFrame} (hplain : PlainDns f) (name : Str) :
    name ∈ (f.decoded ts originalLength).1.domainNames ↔ ∃ m, CarriesDns f m ∧ m.Names name := by
  rw [PacketMetadata.mem_domainNames_iff]
  constructor
  · rintro ⟨msg, hmsg, hnames⟩
    -- the packet has a message, so the frame has one
    obtain ⟨m, hm⟩ : ∃ m, CarriesDns f m := by
      by_contra hnone
      have hclosed : ∀ u, f.transport = .udp u → ¬ (u.sourcePort = 53 ∨ u.destinationPort = 53) :=
        fun u htransport hport => hnone (hplain u htransport hport)
      rw [dns_decoded_none ts originalLength hclosed] at hmsg
      cases hmsg
    obtain ⟨msg', hmsg', hread⟩ := dns_decoded ts originalLength hm
    rw [hmsg'] at hmsg
    cases hmsg
    exact ⟨m, hm, (hread.names_iff name).mp hnames⟩
  · rintro ⟨m, hm, hnames⟩
    obtain ⟨msg, hmsg, hread⟩ := dns_decoded ts originalLength hm
    exact ⟨msg, hmsg, (hread.names_iff name).mpr hnames⟩

/-- **A decoded frame shows what the frame shows.** -/
theorem shown_decoded_iff {f : WireFrame} (hplain : PlainDns f) (ind : Indicator)
    (field value : Str) :
    Shown (f.decoded ts originalLength).1 ind field value ↔ FrameShows f ind field value := by
  have hsight : ∀ s, s ∈ sights (f.decoded ts originalLength).1 ↔ ShowsSight f s := by
    intro s
    unfold sights
    rw [ipv4_decoded]
    simp only [List.mem_append, List.mem_cons, List.not_mem_nil, or_false, List.mem_map,
      mem_domainNames_decoded ts originalLength hplain, WireIpv4.packet]
    constructor
    · rintro ((rfl | rfl) | ⟨name, ⟨m, hm, hname⟩, rfl⟩)
      · exact .source
      · exact .destination
      · exact .dnsName hm hname
    · intro h
      cases h with
      | source => exact Or.inl (Or.inl rfl)
      | destination => exact Or.inl (Or.inr rfl)
      | dnsName hm hname => exact Or.inr ⟨_, ⟨_, hm, hname⟩, rfl⟩
  simp only [Shown, FrameShows, hsight]

end Frame

/-! ## Captures -/

theorem exists_mem_iff_of_forall₂ {α β : Type} {R : α → β → Prop} {P : α → Prop} {Q : β → Prop}
    {l : List α}
    {l' : List β} (h : List.Forall₂ R l l') (hiff : ∀ a, ∀ b ∈ l', R a b → (P a ↔ Q b)) :
    (∃ a ∈ l, P a) ↔ ∃ b ∈ l', Q b := by
  induction h with
  | nil => simp
  | cons hab _ ih =>
    have hrest := ih fun a b hb => hiff a b (List.mem_cons_of_mem _ hb)
    simp only [List.mem_cons, exists_eq_or_imp, hiff _ _ List.mem_cons_self hab, hrest]

/-- **What is reported of a capture of frames**: every indicator that is about an
address or a name some frame shows, except where an allow indicator of the set is
about what that frame shows there. -/
theorem reported_capture_iff (c : WireCapture) (hlink : c.linkType = 1) (frames : List WireFrame)
    (hframes : c.packets.map WirePacket.payload = frames.map WireFrame.encode)
    (hplain : ∀ f ∈ frames, PlainDns f) (set : IndicatorSet) :
    ∃ file, parsePcap (.ofVector c.encode) = .ok file ∧ file.packets.length = frames.length ∧
      ∀ ind field value, Reported (matchPackets set file.packets) ind field value ↔
        ind ∈ set.indicators ∧ ∃ f ∈ frames, FrameShows f ind field value ∧
          (ind.role = .allow ∨ ∀ a ∈ set.indicators, a.role = .allow →
            ¬ FrameShows f a field value) := by
  obtain ⟨file, hparse, hpackets, -⟩ := parsePcap_packets c
  have hlength : c.packets.length = frames.length := by simpa using congrArg List.length hframes
  have hpairs : List.Forall₂ (fun p f => WirePacket.payload p = WireFrame.encode f) c.packets
      frames := by
    rwa [← List.forall₂_eq_eq_eq, List.forall₂_map_left_iff, List.forall₂_map_right_iff] at hframes
  refine ⟨file, hparse, by rw [hpackets, List.length_map, hlength], fun ind field value => ?_⟩
  have hpacket : ∀ p, ∀ f ∈ frames, WirePacket.payload p = WireFrame.encode f →
      (Reported (matchPacket set (p.decoded c.nanosecondResolution 1).metadata) ind field value ↔
        ind ∈ set.indicators ∧ FrameShows f ind field value ∧
          (ind.role = .allow ∨ ∀ a ∈ set.indicators, a.role = .allow →
            ¬ FrameShows f a field value)) := by
    intro p f hf hpayload
    rw [WirePacket.decoded, WirePacket.outcome, hpayload, decodePacketPayload_encode f,
      reported_matchPacket_iff_shown]
    simp only [shown_decoded_iff _ _ (hplain f hf)]
  unfold matchPackets
  rw [reported_flatMap, hpackets, hlink, show (1 : UInt32).toNat = 1 by rfl]
  simp only [List.mem_map, exists_exists_and_eq_and]
  rw [exists_mem_iff_of_forall₂ hpairs hpacket]
  constructor
  · rintro ⟨f, hf, hind, hshown⟩
    exact ⟨hind, f, hf, hshown⟩
  · rintro ⟨hind, f, hf, hshown⟩
    exact ⟨f, hf, hind, hshown⟩

/-- What is reported of the capture, against a block list. -/
theorem reported_evilCapture_iff :
    ∃ file, parsePcap (.ofVector evilCapture.encode) = .ok file ∧
      file.packets.length = [evilFrame].length ∧
      ∀ ind field value, Reported (matchPackets
          { indicators := [{ type := .domain, role := .block, normalized := "evil.io".toList }] }
          file.packets)
          ind field value ↔
        ind ∈ [{ type := .domain, role := .block, normalized := "evil.io".toList }] ∧
          ∃ f ∈ [evilFrame], FrameShows f ind field value ∧
            (ind.role = .allow ∨
              ∀ a ∈ [{ type := .domain, role := .block, normalized := "evil.io".toList }],
                a.role = .allow → ¬ FrameShows f a field value) := by
  refine reported_capture_iff evilCapture rfl [evilFrame] rfl ?_ _
  intro f hf u htransport hport
  rw [List.mem_singleton.mp hf] at htransport ⊢
  obtain rfl := WireTransport.udp.inj htransport
  exact ⟨evilQuery, _, [], rfl, hport, (List.append_nil _).symm⟩

end PacketGuard
