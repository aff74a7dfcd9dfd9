import PacketGuard.Packet.MessageLayout
import PacketGuard.Packet.DnsWire

/-! # The names of a message: how long they get, and where they lie

`read_dns_name` counts the characters of each segment by itself, so that a name
put together over pointers can pass the limit of 255.  It reads from the whole
message, so that the name in the rdata of a record can run past the record.
Both are settled here to the exact messages where that happens.

**Lengths.**  A name of labels `l₁ … lₙ` has `wireLength` minus one characters, a
length byte for each label standing for its dot.  A name without pointers is one
segment and within the limit; so the decoded names are all within it exactly when
the labels of those that do go on behind a pointer are (`decodedNames_fit_iff`).
The condition speaks of the wire: of every place where a name stands
(`NamePlace`), and of the labels that `NameAt` finds there.  That a place gives a
decoded name, and a decoded name comes from a place, is one lemma each way
(`decodedName_of_place`, `place_of_decodedName`).

**Places.**  What a record shows of its rdata is read from the offset of the rdata
in the message.  The first segment of that name ends inside the rdata exactly
when the rdata, taken out of the message, holds a segment by itself: a segment
does not look beyond its end, so it can be cut out (`Segment.restrict`), and one
that ends before the rdata does can be put back (`Segment.extend`).
-/
namespace PacketGuard.Packet
open PacketGuard.Core PacketGuard.Lib

/-! ## Lengths -/

/-- What labels take on the wire, each behind its length byte. -/
def wireLength (labels : List (List UInt8)) : Nat := (labels.map fun l => l.length + 1).sum

theorem length_dottedLabels {labels : List (List UInt8)} (hne : labels ≠ []) :
    (dottedLabels labels).length + 1 = wireLength labels := by
  cases labels with
  | nil => exact absurd rfl hne
  | cons l labels =>
    rw [dottedLabels_cons, wireLength, List.length_append, List.length_map, List.length_flatMap,
      List.map_cons, List.sum_cons]
    simp only [List.length_cons, List.length_map]
    omega

theorem length_dottedLabels_le_iff {labels : List (List UInt8)} :
    (dottedLabels labels).length ≤ 255 ↔ wireLength labels ≤ 256 := by
  by_cases hne : labels = []
  · subst hne
    exact ⟨fun _ => by decide, fun _ => by decide⟩
  · have hlen := length_dottedLabels hne
    omega

/-! ## Where the names stand -/

/-- The offsets of a message at which a name stands: where an entry starts, and
the rdata of an NS, CNAME or PTR record. -/
inductive NamePlace (msg : List UInt8) : Nat → Prop
  | question {k o : Nat} : EntryAt msg k o → k < questionCount msg → NamePlace msg o
  | record {k o : Nat} : EntryAt msg (questionCount msg + k) o → k < recordCount msg →
    NamePlace msg o
  | rdata {k fields : Nat} : RecordAt msg k fields →
    wordAt msg fields = 2 ∨ wordAt msg fields = 5 ∨ wordAt msg fields = 12 →
    0 < wordAt msg (fields + 8) → NamePlace msg (fields + 10)

/-- The names of a decoded message: those of its questions and records, and
every `data_text` that is a name read from the rdata. -/
inductive DecodedName (v : ByteView) (msg : DnsMessage) : Str → Prop
  | question {q : DnsQuestion} : q ∈ msg.questions → DecodedName v msg q.name
  | record {r : DnsRecord} : r ∈ msg.records → DecodedName v msg r.name
  | rendered {k fields after : Nat} {r : DnsRecord} : msg.records[k]? = some r →
    RecordAt v.toVector k fields → HasNameData r →
    readDnsName v (fields + 10) = .ok (r.dataText, after) → DecodedName v msg r.dataText

/-- The names that go on behind a pointer are short enough: all their labels,
over all their pointers, take at most 256 bytes with their length bytes. -/
def PointersFit (msg : List UInt8) : Prop :=
  ∀ o labels next first target, NamePlace msg o → SegmentAt msg o first (some target) →
    NameAt msg o labels next → wireLength labels ≤ 256

/-- A name without pointers fits in any case. -/
theorem PointersFit.length_le {msg : List UInt8} (h : PointersFit msg) {o next : Nat}
    {labels : List (List UInt8)} (hplace : NamePlace msg o) (hname : NameAt msg o labels next) :
    (dottedLabels labels).length ≤ 255 := by
  obtain ⟨first, target, rest, hsegment, htrail, hdepth, hfits, hlabels⟩ := id hname
  cases target with
  | none =>
    cases htrail
    rw [hlabels, List.flatten_singleton]
    exact hfits first List.mem_cons_self
  | some t => exact length_dottedLabels_le_iff.mpr (h o labels next first t hplace
    ⟨_, hsegment⟩ hname)

section
variable {v : ByteView} {msg : DnsMessage} {notes : Diagnostics}

theorem lt_questionCount_iff (h : parseDnsMessage v = (.ok msg, notes)) {k : Nat} :
    k < questionCount v.toVector ↔ ∃ q, msg.questions[k]? = some q := by
  obtain ⟨-, -, -, -, hlen, -⟩ := readFrom_of_parseDnsMessage h
  rw [← hlen]
  exact ⟨fun hk => ⟨_, List.getElem?_eq_getElem hk⟩, fun ⟨_, hq⟩ =>
    (List.getElem?_eq_some_iff.mp hq).1⟩

theorem lt_recordCount_iff (h : parseDnsMessage v = (.ok msg, notes)) {k : Nat} :
    k < recordCount v.toVector ↔ ∃ r, msg.records[k]? = some r := by
  obtain ⟨-, -, -, -, -, hlen⟩ := readFrom_of_parseDnsMessage h
  rw [← hlen]
  exact ⟨fun hk => ⟨_, List.getElem?_eq_getElem hk⟩, fun ⟨_, hr⟩ =>
    (List.getElem?_eq_some_iff.mp hr).1⟩

/-- A record of an accepted message, with the place of its fixed fields. -/
theorem recordAt_of_getElem? (h : parseDnsMessage v = (.ok msg, notes)) {k : Nat} {r : DnsRecord}
    (hr : msg.records[k]? = some r) :
    ∃ fields, RecordAt v.toVector k fields ∧ RecordRead v fields r := by
  obtain ⟨o, labels, fields, hentry, hname, -, hread⟩ := (entries_of_parseDnsMessage h).2 k r hr
  exact ⟨fields, ⟨(lt_recordCount_iff h).mpr ⟨r, hr⟩, o, labels, hentry, hname⟩, hread⟩

/-- What stands at a place of names is decoded to a name of the message. -/
theorem decodedName_of_place (h : parseDnsMessage v = (.ok msg, notes)) {o next : Nat}
    {labels : List (List UInt8)} (hplace : NamePlace v.toVector o)
    (hname : NameAt v.toVector o labels next) : DecodedName v msg (dottedLabels labels) := by
  obtain ⟨hquestions, hrecords⟩ := entries_of_parseDnsMessage h
  cases hplace with
  | question hentry hk =>
    obtain ⟨q, hq⟩ := (lt_questionCount_iff h).mp hk
    obtain ⟨o', labels', next', hentry', hname', htext⟩ := hquestions _ q hq
    obtain rfl := hentry.unique hentry'
    rw [(hname.unique hname').1, ← htext]
    exact .question (List.mem_of_getElem? hq)
  | record hentry hk =>
    obtain ⟨r, hr⟩ := (lt_recordCount_iff h).mp hk
    obtain ⟨o', labels', fields, hentry', hname', htext, -⟩ := hrecords _ r hr
    obtain rfl := hentry.unique hentry'
    rw [(hname.unique hname').1, ← htext]
    exact .record (List.mem_of_getElem? hr)
  | rdata hat htype hlen =>
    obtain ⟨r, hr⟩ := (lt_recordCount_iff h).mp hat.1
    obtain ⟨fields', hat', hread⟩ := recordAt_of_getElem? h hr
    obtain rfl := hat.unique hat'
    have hdata : HasNameData r := by
      refine ⟨by rwa [hread.type], List.ne_nil_of_length_pos ?_⟩
      rwa [hread.length_data]
    have htext := hread.dataText_eq hdata hname
    rw [← htext]
    exact .rendered hr hat hdata (readDnsName_eq_ok.mpr ⟨labels, hname, htext⟩)

/-- Every name of a decoded message stands at one of the places. -/
theorem place_of_decodedName (h : parseDnsMessage v = (.ok msg, notes)) {name : Str}
    (hname : DecodedName v msg name) :
    ∃ o labels next, NamePlace v.toVector o ∧ NameAt v.toVector o labels next ∧
      name = dottedLabels labels := by
  obtain ⟨hquestions, hrecords⟩ := entries_of_parseDnsMessage h
  cases hname with
  | question hq =>
    obtain ⟨k, hk⟩ := List.mem_iff_getElem?.mp hq
    obtain ⟨o, labels, next, hentry, hat, htext⟩ := hquestions k _ hk
    exact ⟨o, labels, next, .question hentry ((lt_questionCount_iff h).mpr ⟨_, hk⟩), hat, htext⟩
  | record hr =>
    obtain ⟨k, hk⟩ := List.mem_iff_getElem?.mp hr
    obtain ⟨o, labels, fields, hentry, hat, htext, -⟩ := hrecords k _ hk
    exact ⟨o, labels, fields, .record hentry ((lt_recordCount_iff h).mpr ⟨_, hk⟩), hat, htext⟩
  | @rendered k fields after r hk hat hdata htext =>
    obtain ⟨fields', hat', hread⟩ := recordAt_of_getElem? h hk
    obtain rfl := hat.unique hat'
    obtain ⟨labels, hname, hlabels⟩ := readDnsName_eq_ok.mp htext
    have htype := hdata.1
    rw [hread.type] at htype
    have hlen := List.length_pos_of_ne_nil hdata.2
    rw [hread.length_data] at hlen
    exact ⟨_, labels, after, .rdata hat htype hlen, hname, hlabels⟩

/-- **The names of an accepted message are within the limit exactly where the
names behind pointers are short enough.** -/
theorem decodedNames_fit_iff (h : parseDnsMessage v = (.ok msg, notes)) :
    (∀ name, DecodedName v msg name → name.length ≤ 255) ↔ PointersFit v.toVector := by
  constructor
  · intro hfit o labels next first target hplace _ hname
    exact length_dottedLabels_le_iff.mp (hfit _ (decodedName_of_place h hplace hname))
  · intro hfit name hname
    obtain ⟨o, labels, next, hplace, hat, rfl⟩ := place_of_decodedName h hname
    exact hfit.length_le hplace hat
end

/-- One question: `a`, and a pointer to offset 20. -/
def longNameStart : List UInt8 :=
  [0, 0, 0, 0, 0, 1, 0, 0, 0, 0, 0, 0, 1, 97, 192, 20, 0, 1, 0, 1]

/-- The question, and four labels of 63 bytes where its pointer leads. -/
def longNameMessage : List UInt8 :=
  longNameStart ++ ((List.replicate 4 (List.replicate 63 97)).flatMap encodeLabel ++ [0])

def longName : List (List UInt8) := [97] :: List.replicate 4 (List.replicate 63 97)

theorem nameAt_longNameMessage : NameAt longNameMessage 12 longName 16 := by
  have hlabels : ∀ l ∈ List.replicate 4 (List.replicate 63 (97 : UInt8)),
      1 ≤ l.length ∧ l.length ≤ 63 := by
    intro l hl
    have hlen : l.length = 63 := by rw [List.eq_of_mem_replicate hl, List.length_replicate]
    omega
  have hholds : (ByteView.ofVector longNameMessage).Holds 20
      ((List.replicate 4 (List.replicate 63 97)).flatMap encodeLabel ++ [0]) :=
    ⟨longNameStart, [], by rw [ByteView.toVector_ofVector, List.append_nil, longNameMessage], rfl⟩
  have hfour := segment_of_holds hlabels hholds
  rw [ByteView.toVector_ofVector] at hfour
  have hfirst : Segment longNameMessage 12 [[97]] (some 20) 16 :=
    .label (show _ = some 1 from rfl) (by decide) (by decide) (by decide +kernel)
      (.pointer (show _ = some 192 from rfl) (by decide) (show _ = some 20 from rfl))
  refine ⟨_, _, _, hfirst, .hop ⟨_, hfour⟩ .stop, by decide, ?_, rfl⟩
  intro segment hmem
  rw [length_dottedLabels_le_iff]
  revert segment
  decide +kernel

/-- A message of one question, all else zero. -/
theorem parse_question {v : ByteView} {name : Str} (hsize : 16 + 4 ≤ v.size)
    (hname : readDnsName v 12 = .ok (name, 16))
    (hone : ∀ o ∈ [4, 16, 18], readBe16 (v.ptr o) = 1)
    (hzero : ∀ o ∈ [0, 2, 6, 8, 10], readBe16 (v.ptr o) = 0) :
    parseDnsMessage v = (.ok { questions := [⟨name, 1, 1⟩] }, []) := by
  simp only [List.forall_mem_cons, List.not_mem_nil, false_implies, implies_true, and_true]
    at hone hzero
  have hquestion : readQuestion v 12 = .ok (⟨name, 1, 1⟩, 20) := by
    simp [readQuestion, hname, hasBytes_iff.mpr hsize, hone]
  have hsections : readSections v = .ok { questions := [⟨name, 1, 1⟩] } := by
    simp only [readSections, hone, hzero, readMany, hquestion, dnsHeader, bind, Except.bind]
    rfl
  rw [parseDnsMessage, if_neg (by omega), hsections]
  rfl

theorem parse_longNameMessage : parseDnsMessage (.ofVector longNameMessage) =
    (.ok { questions := [⟨dottedLabels longName, 1, 1⟩] }, []) := by
  have hlen : longNameMessage.length = 277 := by decide +kernel
  refine parse_question ?_ ?_ (by decide +kernel) (by decide +kernel)
  · rw [ByteView.size_ofVector]
    omega
  · rw [readDnsName_eq_ok, ByteView.toVector_ofVector]
    exact ⟨_, nameAt_longNameMessage, rfl⟩

/-- The limit of 255 does not hold of every name: a pointer gets past it. -/
theorem longNameMessage_not_within_limit :
    ∃ msg notes, parseDnsMessage (.ofVector longNameMessage) = (.ok msg, notes) ∧
      ∃ q ∈ msg.questions, q.name.length = 257 := by
  refine ⟨_, _, parse_longNameMessage, _, List.mem_singleton_self _, ?_⟩
  have hne : longName ≠ [] := List.cons_ne_nil _ _
  have hlen := length_dottedLabels hne
  have hwire : wireLength longName = 258 := by decide +kernel
  show (dottedLabels longName).length = 257
  omega

theorem decodedNames_fit_iff_longNameMessage :
    (∀ name, DecodedName (.ofVector longNameMessage)
        { questions := [⟨dottedLabels longName, 1, 1⟩] } name → name.length ≤ 255) ↔
      PointersFit (ByteView.ofVector longNameMessage).toVector :=
  decodedNames_fit_iff parse_longNameMessage

/-! ## Inside the rdata -/

theorem getElem?_slice {msg : List UInt8} {base len i : Nat} (h : i < len) :
    ((msg.drop base).take len)[i]? = msg[base + i]? := by
  rw [List.getElem?_take_of_lt h, List.getElem?_drop]

theorem lt_of_getElem?_slice {msg : List UInt8} {base len i : Nat} {b : UInt8}
    (h : ((msg.drop base).take len)[i]? = some b) : i < len := by
  have hlt := (List.getElem?_eq_some_iff.mp h).1
  rw [List.length_take] at hlt
  omega

theorem drop_take_slice {msg : List UInt8} {base len i n : Nat} (h : i + n ≤ len) :
    (((msg.drop base).take len).drop i).take n = (msg.drop (base + i)).take n := by
  rw [List.drop_take, List.drop_drop, List.take_take, Nat.min_eq_left (by omega)]

theorem Segment.lt_next {msg : List UInt8} {o next : Nat} {labels : List (List UInt8)}
    {target : Option Nat} (h : Segment msg o labels target next) : o < next := by
  induction h with
  | zero => omega
  | pointer => omega
  | label => omega

/-- A segment that ends inside a slice is a segment of the slice. -/
theorem Segment.restrict {msg : List UInt8} {base len o next : Nat} {labels : List (List UInt8)}
    {target : Option Nat} (h : Segment msg o labels target next) (hle : next ≤ base + len) {i : Nat}
    (hi : o = base + i) :
    Segment ((msg.drop base).take len) i labels target (next - base) := by
  induction h generalizing i with
  | zero hbyte =>
    subst hi
    rw [show base + i + 1 - base = i + 1 by omega]
    exact .zero ((getElem?_slice (by omega)).trans hbyte)
  | pointer hbyte hhi hlo =>
    subst hi
    rw [show base + i + 2 - base = i + 2 by omega]
    exact .pointer ((getElem?_slice (by omega)).trans hbyte) hhi
      ((getElem?_slice (by omega)).trans hlo)
  | @label o n labels target next hbyte hpos hlen hin hrest ih =>
    subst hi
    have hlt := hrest.lt_next
    have hlabel := Segment.label ((getElem?_slice (by omega)).trans hbyte) hpos hlen
      (by rw [List.length_take, List.length_drop]; omega)
      (ih hle (i := i + 1 + n.toNat) (by omega))
    rwa [drop_take_slice (by omega)] at hlabel

/-- A segment of a slice is a segment of the whole, and ends inside the slice. -/
theorem Segment.extend {msg : List UInt8} {base len i stop : Nat} {labels : List (List UInt8)}
    {target : Option Nat} (h : Segment ((msg.drop base).take len) i labels target stop) :
    Segment msg (base + i) labels target (base + stop) ∧ stop ≤ len := by
  induction h with
  | zero hbyte =>
    have hlt := lt_of_getElem?_slice hbyte
    exact ⟨.zero ((getElem?_slice hlt).symm.trans hbyte), hlt⟩
  | pointer hbyte hhi hlo =>
    have hlt := lt_of_getElem?_slice hlo
    exact ⟨.pointer ((getElem?_slice (by omega)).symm.trans hbyte) hhi
      ((getElem?_slice hlt).symm.trans hlo), hlt⟩
  | @label i n labels target stop hbyte hpos hlen hin _ ih =>
    obtain ⟨hrest, hstop⟩ := ih
    have hlt := lt_of_getElem?_slice hbyte
    rw [List.length_take, List.length_drop] at hin
    refine ⟨?_, hstop⟩
    rw [drop_take_slice (by omega)]
    refine .label ((getElem?_slice hlt).symm.trans hbyte) hpos hlen (by omega) ?_
    rwa [show base + i + 1 + n.toNat = base + (i + 1 + n.toNat) by omega]

/-- The first segment of the name in the rdata ends inside the rdata exactly
where the rdata by itself holds a segment. -/
theorem rdata_confined_iff {msg : List UInt8} {fields next : Nat} {labels : List (List UInt8)}
    (hname : NameAt msg (fields + 10) labels next) :
    next ≤ fields + 10 + wordAt msg (fields + 8) ↔
      ∃ first target, SegmentAt (rdataAt msg fields) 0 first target := by
  obtain ⟨first, target, rest, hsegment, -⟩ := hname
  constructor
  · intro hle
    exact ⟨first, target, _, hsegment.restrict hle rfl⟩
  · rintro ⟨first', target', stop, hsegment'⟩
    obtain ⟨hwhole, hstop⟩ := hsegment'.extend
    obtain ⟨-, -, rfl⟩ := hsegment.unique hwhole
    omega

/-- **The name rendered from a record's rdata lies in the rdata, before any
pointer, exactly where the rdata by itself holds labels up to a zero byte or a
pointer.** -/
theorem renderedName_confined_iff {v : ByteView} {msg : DnsMessage} {notes : Diagnostics}
    (h : parseDnsMessage v = (.ok msg, notes)) {k : Nat} {r : DnsRecord}
    (hr : msg.records[k]? = some r) :
    ∃ fields, RecordAt v.toVector k fields ∧ r.data = rdataAt v.toVector fields ∧
      (HasNameData r → ∀ labels next, NameAt v.toVector (fields + 10) labels next →
        r.dataText = dottedLabels labels ∧
          (next ≤ fields + 10 + r.data.length ↔
            ∃ first target, SegmentAt r.data 0 first target)) := by
  obtain ⟨fields, hat, hread⟩ := recordAt_of_getElem? h hr
  refine ⟨fields, hat, hread.data, fun hdata labels next hname =>
    ⟨hread.dataText_eq hdata hname, ?_⟩⟩
  rw [hread.length_data, hread.data]
  exact rdata_confined_iff hname

/-- An NS record whose rdata is the length byte 3, and `abc` behind the record. -/
def straddlingMessage : List UInt8 :=
  [0, 0, 0, 0, 0, 0, 0, 1, 0, 0, 0, 0, 0, 0, 2, 0, 1, 0, 0, 0, 0, 0, 1, 3, 97, 98, 99, 0]

theorem nameAt_straddlingMessage :
    NameAt straddlingMessage 12 [] 13 ∧ NameAt straddlingMessage 23 [[97, 98, 99]] 28 := by
  have hroot : Segment straddlingMessage 12 [] none 13 := .zero rfl
  have habc : Segment straddlingMessage 23 [[97, 98, 99]] none 28 :=
    .label (show _ = some 3 from rfl) (by decide) (by decide) (by decide) (.zero rfl)
  exact ⟨⟨_, _, _, hroot, .stop, by decide, by decide, rfl⟩,
    ⟨_, _, _, habc, .stop, by decide, by decide, rfl⟩⟩

def straddlingRecord : DnsRecord :=
  { name := [], type := 2, klass := 1, ttl := 0, data := [3], dataText := "abc".toList }

theorem parse_straddlingMessage : parseDnsMessage (.ofVector straddlingMessage) =
    (.ok { answers := [straddlingRecord] }, []) := by
  have hroot : readDnsName (.ofVector straddlingMessage) 12 = .ok ([], 13) :=
    readDnsName_eq_ok.mpr ⟨_, by simpa using nameAt_straddlingMessage.1, rfl⟩
  have habc : readDnsName (.ofVector straddlingMessage) 23 = .ok ("abc".toList, 28) :=
    readDnsName_eq_ok.mpr ⟨_, by simpa using nameAt_straddlingMessage.2, rfl⟩
  have hin : 23 + 1 ≤ (ByteView.ofVector straddlingMessage).size := by decide
  have hrender := renderRdata_name (.inl rfl) Nat.one_pos hin habc
  have hrecord : readRecord (.ofVector straddlingMessage) 12 = .ok (straddlingRecord, 24) := by
    rw [readRecord, hroot]
    refine (if_neg (by decide)).trans ((if_neg (by decide)).trans ?_)
    exact congrArg (fun t => Except.ok ({ straddlingRecord with dataText := t }, 24)) hrender
  have hsections : readSections (.ofVector straddlingMessage) =
      .ok { answers := [straddlingRecord] } := by
    have hone : readBe16 ((ByteView.ofVector straddlingMessage).ptr 6) = 1 := by decide
    have hzero : ∀ o ∈ [0, 2, 4, 8, 10], readBe16 ((ByteView.ofVector straddlingMessage).ptr o) =
        0 := by
      decide
    simp only [List.forall_mem_cons, List.not_mem_nil, false_implies, implies_true, and_true]
      at hzero
    simp only [readSections, hone, hzero, readMany, hrecord, dnsHeader, bind, Except.bind]
    rfl
  rw [parseDnsMessage, if_neg (by decide), hsections]
  rfl

/-- The record is one byte of rdata, at offset 23, and its text is taken from
the bytes behind it. -/
theorem straddlingMessage_not_confined :
    ∃ msg notes r, parseDnsMessage (.ofVector straddlingMessage) = (.ok msg, notes) ∧
      msg.records[0]? = some r ∧ HasNameData r ∧ r.data = [3] ∧ r.dataText = "abc".toList ∧
      RecordAt straddlingMessage 0 13 ∧
      Segment straddlingMessage (13 + 10) [[97, 98, 99]] none 28 ∧
        13 + 10 + r.data.length < 28 := by
  obtain ⟨hroot, habc⟩ := nameAt_straddlingMessage
  have hcounts : questionCount straddlingMessage = 0 ∧ recordCount straddlingMessage = 1 := by
    decide
  have hat : RecordAt straddlingMessage 0 13 := by
    refine ⟨by omega, 12, [], ?_, hroot⟩
    rw [hcounts.1]
    exact .first
  have hsegment : Segment straddlingMessage 23 [[97, 98, 99]] none 28 :=
    .label (show _ = some 3 from rfl) (by decide) (by decide) (by decide) (.zero rfl)
  exact ⟨_, _, straddlingRecord, parse_straddlingMessage, rfl, ⟨.inl rfl, by decide⟩, rfl, rfl, hat,
    hsegment, by decide⟩

theorem renderedName_confined_iff_straddlingMessage :
    ∃ fields, RecordAt (ByteView.ofVector straddlingMessage).toVector 0 fields ∧
      straddlingRecord.data = rdataAt (ByteView.ofVector straddlingMessage).toVector fields ∧
      (HasNameData straddlingRecord → ∀ labels next,
        NameAt (ByteView.ofVector straddlingMessage).toVector (fields + 10) labels next →
          straddlingRecord.dataText = dottedLabels labels ∧
            (next ≤ fields + 10 + straddlingRecord.data.length ↔
              ∃ first target, SegmentAt straddlingRecord.data 0 first target)) :=
  renderedName_confined_iff parse_straddlingMessage rfl

end PacketGuard.Packet
