import PacketGuard.Packet.NameFormat

/-! # DNS messages on the wire

The wire image of a message whose names are not compressed, and what the
readers of `Packet.Dns` recover from it.  Every reader is described by one
lemma: where the view holds the image of an item, the reader returns the item
and the offset behind the image.  What follows the image does not matter.
-/
namespace PacketGuard.Packet
open PacketGuard.Core PacketGuard.Lib

/-! ## Names -/

/-- A name that can be written: labels of 1 to 63 bytes, and at most 255
characters in all. -/
structure WireName where
  labels : List (List UInt8)
  label_length : ∀ l ∈ labels, 1 ≤ l.length ∧ l.length ≤ 63
  fits : (dottedLabels labels).length ≤ 255

/-- A label, behind its length byte. -/
def encodeLabel (l : List UInt8) : List UInt8 := UInt8.ofNat l.length :: l

def WireName.encode (n : WireName) : List UInt8 := n.labels.flatMap encodeLabel ++ [0]

/-- The image of labels is a segment. -/
theorem segment_of_holds {v : ByteView} {labels : List (List UInt8)}
    (hl : ∀ l ∈ labels, 1 ≤ l.length ∧ l.length ≤ 63) {offset : Nat}
    (h : v.Holds offset (labels.flatMap encodeLabel ++ [0])) :
    Segment v.toVector offset labels none
      (offset + (labels.flatMap encodeLabel ++ [0]).length) := by
  induction labels generalizing offset with
  | nil =>
    have hle := h.le
    rw [List.flatMap_nil, List.nil_append, List.length_singleton] at hle
    exact .zero (getElem?_toVector.mpr ⟨by omega, h.data⟩)
  | cons l labels ih =>
    obtain ⟨hpos, hle⟩ := hl l List.mem_cons_self
    rw [List.flatMap_cons, List.append_assoc] at h
    have hlabel : v.Holds offset ([UInt8.ofNat l.length] ++ l) := h.left
    have hbody : v.Holds (offset + 1) l := hlabel.right
    have hin := hbody.le
    have hbyte : (UInt8.ofNat l.length).toNat = l.length := by
      rw [UInt8.toNat_ofNat']
      omega
    have hrest : v.Holds (offset + 1 + (UInt8.ofNat l.length).toNat)
        (labels.flatMap encodeLabel ++ [0]) := by
      rw [hbyte]
      simpa [encodeLabel, Nat.add_comm, Nat.add_assoc, Nat.add_left_comm] using h.right
    have hsegment := Segment.label (getElem?_toVector.mpr ⟨by omega, hlabel.data⟩) (by omega)
      (by omega) (by rw [hbyte, ByteView.length_toVector]; exact hin)
      (ih (fun l' hl' => hl l' (List.mem_cons_of_mem _ hl')) hrest)
    rw [hbyte, hbody.drop_take] at hsegment
    simp only [List.flatMap_cons, List.length_append, encodeLabel, List.length_cons] at hsegment ⊢
    rwa [show offset + (l.length + 1 + (labels.flatMap encodeLabel).length + (List.length [] + 1)) =
      offset + 1 + l.length + ((labels.flatMap encodeLabel).length + (List.length [] + 1)) by omega]

/-- **Names.**  Where the image of a name stands, the name is read. -/
theorem readDnsName_encode {v : ByteView} {offset : Nat} (n : WireName)
    (h : v.Holds offset n.encode) :
    readDnsName v offset = .ok (dottedLabels n.labels, offset + n.encode.length) := by
  have hsegment := segment_of_holds n.label_length h
  have hfits : ∀ segment ∈ [n.labels], (dottedLabels segment).length ≤ 255 := by
    simpa using n.fits
  exact readDnsName_eq_ok.mpr ⟨n.labels, ⟨n.labels, none, [], hsegment, .stop, by decide, hfits,
    by simp⟩, rfl⟩

/-! ## Questions and records -/

structure WireQuestion where
  name : WireName
  type : UInt16
  klass : UInt16

def WireQuestion.encode (q : WireQuestion) : List UInt8 :=
  q.name.encode ++ (bigEndian 2 q.type.toNat ++ bigEndian 2 q.klass.toNat)

/-- The question a reader should recover. -/
def WireQuestion.question (q : WireQuestion) : DnsQuestion :=
  ⟨dottedLabels q.name.labels, q.type.toNat, q.klass.toNat⟩

/-- **Questions.** -/
theorem readQuestion_encode {v : ByteView} (q : WireQuestion) {offset : Nat}
    (h : v.Holds offset q.encode) :
    readQuestion v offset = .ok (q.question, offset + q.encode.length) := by
  have hname := readDnsName_encode q.name h.left
  have hfixed := h.right
  have htype := hfixed.left.readBe16 q.type.toNat_lt
  have hklass := hfixed.right.readBe16 q.klass.toNat_lt
  have hhas := hasBytes_iff.mpr hfixed.le
  rw [length_bigEndian] at hklass
  rw [List.length_append, length_bigEndian, length_bigEndian] at hhas
  simp only [readQuestion, hname, hhas, htype, hklass, Bool.not_true, Bool.false_eq_true, if_false]
  simp only [WireQuestion.encode, WireQuestion.question, List.length_append, length_bigEndian,
    Nat.add_assoc]

structure WireRecord where
  name : WireName
  type : UInt16
  klass : UInt16
  ttl : UInt32
  rdata : List UInt8
  rdata_length : rdata.length ≤ 65535

def WireRecord.encode (r : WireRecord) : List UInt8 :=
  r.name.encode ++ (bigEndian 2 r.type.toNat ++ (bigEndian 2 r.klass.toNat ++
    (bigEndian 4 r.ttl.toNat ++ (bigEndian 2 r.rdata.length ++ r.rdata))))

/-- `d` is the record `r`; the rendering of its data is not part of the image. -/
structure WireRecord.ReadAs (r : WireRecord) (d : DnsRecord) : Prop where
  name : d.name = dottedLabels r.name.labels
  type : d.type = r.type.toNat
  klass : d.klass = r.klass.toNat
  ttl : d.ttl = r.ttl.toNat
  data : d.data = r.rdata

/-- **Records.** -/
theorem readRecord_encode {v : ByteView} (r : WireRecord) {offset : Nat}
    (h : v.Holds offset r.encode) :
    ∃ d, readRecord v offset = .ok (d, offset + r.encode.length) ∧ r.ReadAs d := by
  have hlen := r.rdata_length
  have hname := readDnsName_encode r.name h.left
  -- the fixed fields stand behind the name, at `o`
  have htypeOn := h.right
  obtain ⟨o, ho⟩ : ∃ o, offset + r.name.encode.length = o := ⟨_, rfl⟩
  rw [ho] at hname htypeOn
  have hklassOn := htypeOn.right
  have httlOn := hklassOn.right
  have hlengthOn := httlOn.right
  have hrdata := hlengthOn.right
  simp only [length_bigEndian, Nat.add_assoc, Nat.reduceAdd] at hklassOn httlOn hlengthOn hrdata
  have htype := htypeOn.left.readBe16 r.type.toNat_lt
  have hklass := hklassOn.left.readBe16 r.klass.toNat_lt
  have httl := httlOn.left.readBe32 r.ttl.toNat_lt
  have hlength := hlengthOn.left.readBe16 (show r.rdata.length < 2 ^ 16 by omega)
  have hend := hrdata.le
  have hfixed : hasBytes v o 10 = true := hasBytes_iff.mpr (by omega)
  have hbody : hasBytes v (o + 10) r.rdata.length = true := hasBytes_iff.mpr hend
  simp only [readRecord, hname, hfixed, htype, hklass, httl, hlength, hbody, hrdata.copy,
    Bool.not_true, Bool.false_eq_true, if_false]
  refine ⟨_, congrArg Except.ok (Prod.ext rfl ?_), ?_⟩
  · simp only [WireRecord.encode, List.length_append, length_bigEndian]
    omega
  · exact ⟨rfl, rfl, rfl, rfl, rfl⟩

/-! ## Messages -/

/-- A run of `readMany` over the images of `xs`. -/
theorem readMany_encode {α β : Type} {v : ByteView} {read : Nat → Result (β × Nat)}
    {encode : α → List UInt8} {ReadAs : α → β → Prop}
    (hread : ∀ x {offset}, v.Holds offset (encode x) →
      ∃ y, read offset = .ok (y, offset + (encode x).length) ∧ ReadAs x y)
    (xs : List α) {offset : Nat} (h : v.Holds offset (xs.flatMap encode)) :
    ∃ ys, readMany read xs.length offset = .ok (ys, offset + (xs.flatMap encode).length) ∧
      List.Forall₂ ReadAs xs ys := by
  induction xs generalizing offset with
  | nil => exact ⟨[], rfl, .nil⟩
  | cons x xs ih =>
    rw [List.flatMap_cons] at h
    obtain ⟨y, hy, hxy⟩ := hread x h.left
    obtain ⟨ys, hys, hall⟩ := ih h.right
    refine ⟨y :: ys, ?_, .cons hxy hall⟩
    simp only [List.length_cons, readMany, hy, hys, List.flatMap_cons, List.length_append]
    rw [Nat.add_assoc]

/-- A message to be written; each list is counted in 16 bits. -/
structure WireMessage where
  id : UInt16
  flags : UInt16
  questions : List WireQuestion
  answers : List WireRecord
  authorities : List WireRecord
  additionals : List WireRecord
  questions_length : questions.length ≤ 65535
  answers_length : answers.length ≤ 65535
  authorities_length : authorities.length ≤ 65535
  additionals_length : additionals.length ≤ 65535

def WireMessage.encode (m : WireMessage) : List UInt8 :=
  bigEndian 2 m.id.toNat ++ (bigEndian 2 m.flags.toNat ++
    (bigEndian 2 m.questions.length ++ (bigEndian 2 m.answers.length ++
      (bigEndian 2 m.authorities.length ++ (bigEndian 2 m.additionals.length ++
        (m.questions.flatMap WireQuestion.encode ++ (m.answers.flatMap WireRecord.encode ++
          (m.authorities.flatMap WireRecord.encode ++
            m.additionals.flatMap WireRecord.encode))))))))

/-- `msg` has the header bits of `m` and its four lists, in order. -/
structure WireMessage.ReadAs (m : WireMessage) (msg : DnsMessage) : Prop where
  id : msg.id = m.id.toNat
  response : msg.response = m.flags.toNat.testBit 15
  opcode : msg.opcode = m.flags.toNat / 2 ^ 11 % 2 ^ 4
  authoritative : msg.authoritative = m.flags.toNat.testBit 10
  truncated : msg.truncated = m.flags.toNat.testBit 9
  recursionDesired : msg.recursionDesired = m.flags.toNat.testBit 8
  recursionAvailable : msg.recursionAvailable = m.flags.toNat.testBit 7
  rcode : msg.rcode = m.flags.toNat % 2 ^ 4
  questions : msg.questions = m.questions.map WireQuestion.question
  answers : List.Forall₂ WireRecord.ReadAs m.answers msg.answers
  authorities : List.Forall₂ WireRecord.ReadAs m.authorities msg.authorities
  additionals : List.Forall₂ WireRecord.ReadAs m.additionals msg.additionals

theorem and_two_pow_bne_zero (n i : Nat) : (n &&& 2 ^ i != 0) = n.testBit i := by
  rw [Nat.and_two_pow]
  cases n.testBit i <;> simp

/-- The header fields, once the identifier, the flag word and the sections have
been read. -/
theorem readAs_dnsHeader {v : ByteView} {m : WireMessage} {questions : List DnsQuestion}
    {answers authorities additionals : List DnsRecord}
    (hid : readBe16 (v.ptr 0) = m.id.toNat) (hflags : readBe16 (v.ptr 2) = m.flags.toNat)
    (hquestions : m.questions.map WireQuestion.question = questions)
    (hanswers : List.Forall₂ WireRecord.ReadAs m.answers answers)
    (hauthorities : List.Forall₂ WireRecord.ReadAs m.authorities authorities)
    (hadditionals : List.Forall₂ WireRecord.ReadAs m.additionals additionals) :
    m.ReadAs (dnsHeader v questions answers authorities additionals) := by
  have hbit := and_two_pow_bne_zero m.flags.toNat
  constructor
  · exact hid
  · simp only [dnsHeader, hflags, ← hbit]; rfl
  · simp only [dnsHeader, hflags, Nat.shiftRight_eq_div_pow]
    exact Nat.and_two_pow_sub_one_eq_mod _ 4
  · simp only [dnsHeader, hflags, ← hbit]; rfl
  · simp only [dnsHeader, hflags, ← hbit]; rfl
  · simp only [dnsHeader, hflags, ← hbit]; rfl
  · simp only [dnsHeader, hflags, ← hbit]; rfl
  · simp only [dnsHeader, hflags]
    exact Nat.and_two_pow_sub_one_eq_mod _ 4
  · exact hquestions.symm
  · exact hanswers
  · exact hauthorities
  · exact hadditionals

/-- The sections, where the view holds the whole image. -/
theorem readSections_encode {v : ByteView} (m : WireMessage) (h : v.Holds 0 m.encode) :
    ∃ msg, readSections v = .ok msg ∧ m.ReadAs msg := by
  -- the six header words stand at fixed offsets, each section where the last one ends
  have hflagsOn := h.right
  have hqdOn := hflagsOn.right
  have hanOn := hqdOn.right
  have hnsOn := hanOn.right
  have harOn := hnsOn.right
  have hquestionsOn := harOn.right
  have hanswersOn := hquestionsOn.right
  have hauthoritiesOn := hanswersOn.right
  have hadditionalsOn := hauthoritiesOn.right
  simp only [length_bigEndian, Nat.zero_add, Nat.reduceAdd] at hflagsOn hqdOn hanOn hnsOn harOn
  simp only [length_bigEndian, Nat.zero_add, Nat.reduceAdd] at hquestionsOn hanswersOn
  simp only [length_bigEndian, Nat.zero_add, Nat.reduceAdd] at hauthoritiesOn hadditionalsOn
  have hid := h.left.readBe16 m.id.toNat_lt
  have hflags := hflagsOn.left.readBe16 m.flags.toNat_lt
  have hqd := hqdOn.left.readBe16 (Nat.lt_succ_of_le m.questions_length)
  have han := hanOn.left.readBe16 (Nat.lt_succ_of_le m.answers_length)
  have hns := hnsOn.left.readBe16 (Nat.lt_succ_of_le m.authorities_length)
  have har := harOn.left.readBe16 (Nat.lt_succ_of_le m.additionals_length)
  obtain ⟨questions, hqs, hquestions⟩ :
      ∃ qs, readMany (readQuestion v) m.questions.length 12 =
          .ok (qs, 12 + (m.questions.flatMap WireQuestion.encode).length) ∧
        List.Forall₂ (fun q d => q.question = d) m.questions qs :=
    readMany_encode (fun q _ hq => ⟨q.question, readQuestion_encode q hq, rfl⟩) _ hquestionsOn.left
  obtain ⟨answers, hans, hanswers⟩ := readMany_encode readRecord_encode m.answers hanswersOn.left
  obtain ⟨authorities, haus, hauthorities⟩ :=
    readMany_encode readRecord_encode m.authorities hauthoritiesOn.left
  obtain ⟨additionals, hads, hadditionals⟩ :=
    readMany_encode readRecord_encode m.additionals hadditionalsOn
  have hmap : m.questions.map WireQuestion.question = questions := by
    rw [← List.forall₂_eq_eq_eq, List.forall₂_map_left_iff]
    exact hquestions
  refine ⟨dnsHeader v questions answers authorities additionals, ?_,
    readAs_dnsHeader hid hflags hmap hanswers hauthorities hadditionals⟩
  simp only [readSections, bind, Except.bind, hqd, han, hns, har, hqs, hans, haus, hads]
  rfl

theorem length_encode (m : WireMessage) : 12 ≤ m.encode.length := by
  simp only [WireMessage.encode, List.length_append, length_bigEndian]
  omega

/-- **`parse_dns_message` recovers every uncompressed message**, whatever bytes
follow its image. -/
theorem parseDnsMessage_encode (m : WireMessage) (trailing : List UInt8) :
    ∃ msg, (parseDnsMessage (.ofVector (m.encode ++ trailing))).1 = .ok msg ∧ m.ReadAs msg := by
  have hlen := length_encode m
  obtain ⟨msg, hmsg, hread⟩ := readSections_encode m (ByteView.holds_ofVector m.encode trailing)
  refine ⟨msg, ?_, hread⟩
  rw [parseDnsMessage, if_neg (by rw [ByteView.size_ofVector, List.length_append]; omega), hmsg]

end PacketGuard.Packet
