import PacketGuard.Packet.NameFormat
import PacketGuard.Lib.Outcome

/-! # Where the entries of a message stand

The entries of a message follow one another from offset 12: the questions, and
then the records of three sections.  An entry starts with a name, and its length
is known where the name ends.  Here the offsets are stated over the bytes alone,
and what `parse_dns_message` returns is tied to them, entry by entry.
-/
namespace PacketGuard.Packet
open PacketGuard.Core PacketGuard.Lib

/-! ## The layout -/

/-- The 16-bit word at an offset. -/
def wordAt (msg : List UInt8) (o : Nat) : Nat := bigEndianValue ((msg.drop o).take 2)

def questionCount (msg : List UInt8) : Nat := wordAt msg 4

/-- The records of all three sections. -/
def recordCount (msg : List UInt8) : Nat := wordAt msg 6 + wordAt msg 8 + wordAt msg 10

/-- Entry `k`, questions first, starts at an offset. -/
inductive EntryAt (msg : List UInt8) : Nat → Nat → Prop
  | first : EntryAt msg 0 12
  | question {k o next : Nat} {labels : List (List UInt8)} :
    EntryAt msg k o → k < questionCount msg → NameAt msg o labels next →
      EntryAt msg (k + 1) (next + 4)
  | record {k o next : Nat} {labels : List (List UInt8)} :
    EntryAt msg k o → questionCount msg ≤ k → NameAt msg o labels next →
    EntryAt msg (k + 1) (next + 10 + wordAt msg (next + 8))

/-- The fixed fields of record `k` stand at an offset: behind its name. -/
def RecordAt (msg : List UInt8) (k fields : Nat) : Prop :=
  k < recordCount msg ∧ ∃ o labels, EntryAt msg (questionCount msg + k) o ∧
    NameAt msg o labels fields

theorem NameAt.unique {msg : List UInt8} {o next next' : Nat} {labels labels' : List (List UInt8)}
    (h : NameAt msg o labels next) (h' : NameAt msg o labels' next') :
    labels = labels' ∧ next = next' := by
  obtain ⟨first, target, rest, hsegment, htrail, -, -, rfl⟩ := h
  obtain ⟨first', target', rest', hsegment', htrail', -, -, rfl⟩ := h'
  obtain ⟨rfl, rfl, rfl⟩ := hsegment.unique hsegment'
  rw [htrail.unique (unforked_segmentAt msg) htrail']
  exact ⟨rfl, rfl⟩

theorem EntryAt.unique {msg : List UInt8} {k o o' : Nat} (h : EntryAt msg k o)
    (h' : EntryAt msg k o') : o = o' := by
  induction h generalizing o' with
  | first =>
    cases h'
    rfl
  | question hentry hk hname ih =>
    cases h' with
    | question hentry' _ hname' =>
      obtain rfl := ih hentry'
      rw [(hname.unique hname').2]
    | record _ hk' => omega
  | record hentry hk hname ih =>
    cases h' with
    | question _ hk' => omega
    | record hentry' _ hname' =>
      obtain rfl := ih hentry'
      rw [(hname.unique hname').2]

theorem RecordAt.unique {msg : List UInt8} {k fields fields' : Nat} (h : RecordAt msg k fields)
    (h' : RecordAt msg k fields') : fields = fields' := by
  obtain ⟨-, o, labels, hentry, hname⟩ := h
  obtain ⟨-, o', labels', hentry', hname'⟩ := h'
  obtain rfl := hentry.unique hentry'
  exact (hname.unique hname').2

/-! ## Entries, one after the other -/

/-- `readMany` as a relation: the entries `xs` are read from an offset on, and
the last one ends at `stop`. -/
inductive ReadFrom {α : Type} (read : Nat → Result (α × Nat)) : Nat → List α → Nat → Prop
  | nil {o : Nat} : ReadFrom read o [] o
  | cons {o mid stop : Nat} {x : α} {xs : List α} :
    read o = .ok (x, mid) → ReadFrom read mid xs stop → ReadFrom read o (x :: xs) stop

section
variable {α : Type} {read : Nat → Result (α × Nat)}

theorem readFrom_of_readMany {count o stop : Nat} {xs : List α}
    (h : readMany read count o = .ok (xs, stop)) : ReadFrom read o xs stop ∧ xs.length = count := by
  induction count generalizing o xs with
  | zero =>
    cases h
    exact ⟨.nil, rfl⟩
  | succ count ih =>
    unfold readMany at h
    split at h
    · cases h
    rename_i x mid hx
    split at h
    · cases h
    rename_i xs stop hxs
    cases h
    obtain ⟨hrest, hlen⟩ := ih hxs
    exact ⟨.cons hx hrest, congrArg (· + 1) hlen⟩

theorem ReadFrom.append {o mid stop : Nat} {xs ys : List α} (h : ReadFrom read o xs mid)
    (h' : ReadFrom read mid ys stop) : ReadFrom read o (xs ++ ys) stop := by
  induction h with
  | nil => exact h'
  | cons hx _ ih => exact .cons hx (ih h')

/-- Where a property of the offset is handed on from entry to entry, every entry
is read at an offset that has it, and so is the end. -/
theorem ReadFrom.handed (At : Nat → Nat → Prop) {count : Nat}
    (hread : ∀ {i o x mid}, i < count → At i o → read o = .ok (x, mid) → At (i + 1) mid)
    {o stop : Nat} {xs : List α} (h : ReadFrom read o xs stop) {k : Nat}
    (hlen : k + xs.length = count) (hk : At k o) :
    At count stop ∧ ∀ i x, xs[i]? = some x → ∃ o mid, At (k + i) o ∧ read o = .ok (x, mid) := by
  induction h generalizing k with
  | nil =>
    subst hlen
    exact ⟨hk, fun i x hx => by simp at hx⟩
  | @cons o mid stop x xs hx _ ih =>
    rw [List.length_cons] at hlen
    obtain ⟨hstop, hall⟩ := ih (k := k + 1) (by omega) (hread (by omega) hk hx)
    refine ⟨hstop, fun i y hy => ?_⟩
    cases i with
    | zero =>
      rw [List.getElem?_cons_zero, Option.some_inj] at hy
      exact ⟨o, mid, hk, hy ▸ hx⟩
    | succ i =>
      obtain ⟨o', mid', hi, hy'⟩ := hall i y (by simpa using hy)
      refine ⟨o', mid', ?_, hy'⟩
      rwa [show k + (i + 1) = k + 1 + i by omega]
end

/-! ## Questions and records -/

theorem readBe16_eq_wordAt {v : ByteView} {o : Nat} (h : o + 2 ≤ v.size) :
    readBe16 (v.ptr o) = wordAt v.toVector o := by
  rw [readBe16_ptr, ByteView.copy_eq h]
  rfl

/-- A question that was read has the name that stands at its offset. -/
theorem readQuestion_eq_ok {v : ByteView} {o stop : Nat} {q : DnsQuestion}
    (h : readQuestion v o = .ok (q, stop)) :
    ∃ labels next, NameAt v.toVector o labels next ∧ q.name = dottedLabels labels ∧
      stop = next + 4 := by
  unfold readQuestion at h
  split at h
  · cases h
  rename_i name next hname
  split at h
  · cases h
  cases h
  obtain ⟨labels, hat, hlabels⟩ := readDnsName_eq_ok.mp hname
  exact ⟨labels, next, hat, hlabels, rfl⟩

/-- The rdata of a record, as it stands behind its fixed fields. -/
def rdataAt (msg : List UInt8) (fields : Nat) : List UInt8 :=
  (msg.drop (fields + 10)).take (wordAt msg (fields + 8))

/-- What is read of a record whose fixed fields stand at `fields`. -/
structure RecordRead (v : ByteView) (fields : Nat) (r : DnsRecord) : Prop where
  within : fields + 10 + wordAt v.toVector (fields + 8) ≤ v.size
  type : r.type = wordAt v.toVector fields
  data : r.data = rdataAt v.toVector fields
  dataText : r.dataText = renderRdata r.type v (v.sub _ _ within)

theorem RecordRead.length_data {v : ByteView} {fields : Nat} {r : DnsRecord}
    (h : RecordRead v fields r) : r.data.length = wordAt v.toVector (fields + 8) := by
  have hin := h.within
  rw [h.data, rdataAt, List.length_take, List.length_drop, ByteView.length_toVector]
  omega

/-- A record that was read has the name that stands at its offset. -/
theorem readRecord_eq_ok {v : ByteView} {o stop : Nat} {r : DnsRecord}
    (h : readRecord v o = .ok (r, stop)) :
    ∃ labels fields, NameAt v.toVector o labels fields ∧ r.name = dottedLabels labels ∧
      RecordRead v fields r ∧ stop = fields + 10 + wordAt v.toVector (fields + 8) := by
  unfold readRecord at h
  split at h
  · cases h
  rename_i name fields hname
  split at h
  · cases h
  rename_i hfixed
  have hfields : fields + 10 ≤ v.size := hasBytes_iff.mp (by simpa using hfixed)
  simp only at h
  split at h
  · cases h
  rename_i hrdata
  rw [Bool.not_eq_true, Bool.not_eq_false'] at hrdata
  have hin := hasBytes_iff.mp hrdata
  rw [readBe16_eq_wordAt (show fields + 8 + 2 ≤ v.size by omega)] at h hin
  rw [ByteView.slice_eq_ok hin, readBe16_eq_wordAt (show fields + 2 ≤ v.size by omega)] at h
  cases h
  obtain ⟨labels, hat, hlabels⟩ := readDnsName_eq_ok.mp hname
  exact ⟨labels, fields, hat, hlabels, ⟨hin, rfl, ByteView.copy_eq hin, rfl⟩, rfl⟩

/-- The types whose rdata is rendered as a name: NS, CNAME and PTR. -/
def HasNameData (r : DnsRecord) : Prop := (r.type = 2 ∨ r.type = 5 ∨ r.type = 12) ∧ r.data ≠ []

/-- The rdata of such a record is read as a name of the whole message. -/
theorem renderRdata_name {v : ByteView} {type rdata len after : Nat} {name : Str}
    (htype : type = 2 ∨ type = 5 ∨ type = 12) (hpos : 0 < len) (hin : rdata + len ≤ v.size)
    (hread : readDnsName v rdata = .ok (name, after)) :
    renderRdata type v (v.sub rdata len hin) = name := by
  have hstart : (v.sub rdata len hin).start = v.start + rdata := if_neg (by omega)
  have hsize := ByteView.size_sub v rdata len hin
  rw [renderRdata, if_neg (by omega), if_pos ⟨htype, by omega⟩, hstart, hsize, if_neg (by omega),
    Nat.add_sub_cancel_left, hread]

theorem RecordRead.dataText_eq {v : ByteView} {fields : Nat} {r : DnsRecord}
    (h : RecordRead v fields r) (hr : HasNameData r) {labels : List (List UInt8)} {next : Nat}
    (hname : NameAt v.toVector (fields + 10) labels next) : r.dataText = dottedLabels labels := by
  have hpos : 0 < wordAt v.toVector (fields + 8) := by
    rw [← h.length_data]
    exact List.length_pos_of_ne_nil hr.2
  rw [h.dataText]
  exact renderRdata_name hr.1 hpos h.within (readDnsName_eq_ok.mpr ⟨labels, hname, rfl⟩)

/-! ## Messages -/

def DnsMessage.records (msg : DnsMessage) : List DnsRecord :=
  msg.answers ++ msg.authorities ++ msg.additionals

/-- The lists of an accepted message, as they were read. -/
theorem readFrom_of_parseDnsMessage {v : ByteView} {msg : DnsMessage} {notes : Diagnostics}
    (h : parseDnsMessage v = (.ok msg, notes)) :
    ∃ mid stop, ReadFrom (readQuestion v) 12 msg.questions mid ∧
      ReadFrom (readRecord v) mid msg.records stop ∧
      msg.questions.length = questionCount v.toVector ∧
      msg.records.length = recordCount v.toVector := by
  unfold parseDnsMessage at h
  split at h
  · cases h
  rename_i hsize
  split at h
  · cases h
  rename_i msg' hmsg
  cases h
  unfold readSections at hmsg
  obtain ⟨⟨questions, mid⟩, hquestions, hmsg⟩ := bind_eq_ok hmsg
  obtain ⟨⟨answers, mid'⟩, hanswers, hmsg⟩ := bind_eq_ok hmsg
  obtain ⟨⟨authorities, mid''⟩, hauthorities, hmsg⟩ := bind_eq_ok hmsg
  obtain ⟨⟨additionals, stop⟩, hadditionals, hmsg⟩ := bind_eq_ok hmsg
  cases hmsg
  obtain ⟨hqs, hqd⟩ := readFrom_of_readMany hquestions
  obtain ⟨hans, han⟩ := readFrom_of_readMany hanswers
  obtain ⟨haus, hns⟩ := readFrom_of_readMany hauthorities
  obtain ⟨hads, har⟩ := readFrom_of_readMany hadditionals
  rw [readBe16_eq_wordAt (by omega)] at hqd han hns har
  refine ⟨mid, stop, hqs, (hans.append haus).append hads, hqd, ?_⟩
  simp only [DnsMessage.records, dnsHeader, List.length_append, han, hns, har, recordCount]

/-- **Every entry of an accepted message is read where the layout puts it.** -/
theorem entries_of_parseDnsMessage {v : ByteView} {msg : DnsMessage} {notes : Diagnostics}
    (h : parseDnsMessage v = (.ok msg, notes)) :
    (∀ k q, msg.questions[k]? = some q → ∃ o labels next, EntryAt v.toVector k o ∧
      NameAt v.toVector o labels next ∧ q.name = dottedLabels labels) ∧
    ∀ k r, msg.records[k]? = some r → ∃ o labels fields,
      EntryAt v.toVector (questionCount v.toVector + k) o ∧ NameAt v.toVector o labels fields ∧
      r.name = dottedLabels labels ∧ RecordRead v fields r := by
  obtain ⟨mid, stop, hquestions, hrecords, hqd, hcount⟩ := readFrom_of_parseDnsMessage h
  obtain ⟨hmid, hqs⟩ := hquestions.handed (EntryAt v.toVector)
    (fun hi ho hq => by
      obtain ⟨labels, next, hname, -, rfl⟩ := readQuestion_eq_ok hq
      exact .question ho hi hname) ((Nat.zero_add _).trans hqd) .first
  obtain ⟨-, hrs⟩ := hrecords.handed
    (fun i => EntryAt v.toVector (questionCount v.toVector + i))
    (fun hi ho hr => by
      obtain ⟨labels, fields, hname, -, -, rfl⟩ := readRecord_eq_ok hr
      exact .record ho (Nat.le_add_right _ _) hname) (Nat.zero_add _) hmid
  constructor
  · intro k q hq
    obtain ⟨o, stop', ho, hread⟩ := hqs k q hq
    obtain ⟨labels, next, hname, htext, -⟩ := readQuestion_eq_ok hread
    rw [Nat.zero_add] at ho
    exact ⟨o, labels, next, ho, hname, htext⟩
  · intro k r hr
    obtain ⟨o, stop', ho, hread⟩ := hrs k r hr
    obtain ⟨labels, fields, hname, htext, hr', -⟩ := readRecord_eq_ok hread
    rw [Nat.zero_add] at ho
    exact ⟨o, labels, fields, ho, hname, htext, hr'⟩

end PacketGuard.Packet
