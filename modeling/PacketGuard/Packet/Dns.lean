import PacketGuard.Packet.Decode

/-! The DNS readers of `packet/packet.cpp`.  A reader takes the offset it starts
at and returns what it read with the offset after it. -/
namespace PacketGuard.Packet
open PacketGuard.Core

/-- The character a label byte stands for in a name. -/
def dnsChar (c : UInt8) : Char :=
  if 33 ≤ c.toNat ∧ c.toNat ≤ 126 then (Char.ofNat c.toNat).toLower else '?'

/-- The loop of `read_dns_name`, after `name` has been read.  A compression
pointer reads the rest of the name elsewhere, at most twelve pointers deep. -/
def readDnsNameFrom (bytes : ByteView) (depth : Nat) (name : Str) (offset : Nat) :
    Result (Str × Nat) :=
  if _h : bytes.size ≤ offset then failure "dns name outside message"
  else
    let len := (bytes.data offset).toNat
    if len = 0 then .ok (name, offset + 1)
    else if len &&& 0xc0 = 0xc0 then
      if bytes.size ≤ offset + 1 then failure "dns compression pointer truncated"
      else
        let ptr := ((len &&& 0x3f) <<< 8) ||| (bytes.data (offset + 1)).toNat
        if _h : 12 < depth + 1 then failure "dns name compression loop"
        else
          match readDnsNameFrom bytes (depth + 1) [] ptr with
          | .error e => .error e
          | .ok (suffix, _) =>
            .ok (name ++ (if !name.isEmpty && !suffix.isEmpty then ['.'] else []) ++ suffix,
              offset + 2)
    else if len &&& 0xc0 ≠ 0 then failure "invalid dns label marker"
    else if !hasBytes bytes (offset + 1) len then failure "dns label outside message"
    else
      let name' := name ++ (if !name.isEmpty then ['.'] else []) ++
        (bytes.copy (offset + 1) len).map dnsChar
      if 255 < name'.length then failure "dns name too long"
      else readDnsNameFrom bytes depth name' (offset + 1 + len)
termination_by (12 - depth, bytes.size - offset)
decreasing_by
  · exact Prod.Lex.left _ _ (by omega)
  · exact Prod.Lex.right _ (by omega)

def readDnsName (bytes : ByteView) (offset : Nat) (depth : Nat := 0) : Result (Str × Nat) :=
  if 12 < depth then failure "dns name compression loop" else readDnsNameFrom bytes depth [] offset

def readQuestion (bytes : ByteView) (offset : Nat) : Result (DnsQuestion × Nat) :=
  match readDnsName bytes offset with
  | .error e => .error e
  | .ok (name, offset) =>
    if !hasBytes bytes offset 4 then failure "dns question truncated"
    else
      .ok (⟨name, readBe16 (bytes.ptr offset), readBe16 (bytes.ptr (offset + 2))⟩, offset + 4)

/-- The loop of `render_rdata` over the strings of a TXT record. -/
def renderTxt (data : ByteView) (txt : Str) (off : Nat) : Str :=
  if off < data.size then
    let len := (data.data off).toNat
    if data.size - (off + 1) < len then txt
    else
      renderTxt data
        (txt ++ (if !txt.isEmpty then [' '] else []) ++
          (data.copy (off + 1) len).map fun c => Char.ofNat c.toNat)
        (off + 1 + len)
  else txt
termination_by data.size - off

def renderRdata (type : Nat) (message data : ByteView) : Str :=
  if type = 1 ∧ data.size = 4 then
    ipv4ToString ⟨BitVec.ofNat 32 (readBe32 (data.ptr 0))⟩
  else if (type = 2 ∨ type = 5 ∨ type = 12) ∧ 0 < data.size then
    if data.start < message.start ∨ message.size < data.size ∨
        message.size - data.size < data.start - message.start then
      bytesToHex data.toVector
    else
      match readDnsName message (data.start - message.start) with
      | .ok (name, _) => name
      | .error _ => bytesToHex data.toVector
  else if type = 16 ∧ 1 < data.size then renderTxt data [] 0
  else bytesToHex data.toVector

def readRecord (bytes : ByteView) (offset : Nat) : Result (DnsRecord × Nat) :=
  match readDnsName bytes offset with
  | .error e => .error e
  | .ok (name, offset) =>
    if !hasBytes bytes offset 10 then failure "dns record truncated"
    else
      let type := readBe16 (bytes.ptr offset)
      let len := readBe16 (bytes.ptr (offset + 8))
      let rdata := offset + 10
      if !hasBytes bytes rdata len then failure "dns rdata truncated"
      else
        .ok
          ({ name := name
             type := type
             klass := readBe16 (bytes.ptr (offset + 2))
             ttl := readBe32 (bytes.ptr (offset + 4))
             data := bytes.copy rdata len
             dataText :=
               match bytes.slice rdata len with
               | .ok view => renderRdata type bytes view
               | .error _ => [] },
            rdata + len)

/-- The loops of `parse_dns_message`: `count` entries, one after the other. -/
def readMany {α : Type} (read : Nat → Result (α × Nat)) : Nat → Nat → Result (List α × Nat)
  | 0, offset => .ok ([], offset)
  | count + 1, offset =>
    match read offset with
    | .error e => .error e
    | .ok (x, offset) =>
      match readMany read count offset with
      | .error e => .error e
      | .ok (xs, offset) => .ok (x :: xs, offset)

/-- The header of a message whose four lists are given. -/
def dnsHeader (bytes : ByteView) (questions : List DnsQuestion)
    (answers authorities additionals : List DnsRecord) : DnsMessage :=
  let flags := readBe16 (bytes.ptr 2)
  { id := readBe16 (bytes.ptr 0)
    response := flags &&& 0x8000 != 0
    opcode := (flags >>> 11) &&& 0x0f
    authoritative := flags &&& 0x0400 != 0
    truncated := flags &&& 0x0200 != 0
    recursionDesired := flags &&& 0x0100 != 0
    recursionAvailable := flags &&& 0x0080 != 0
    rcode := flags &&& 0x0f
    questions, answers, authorities, additionals }

/-- The four lists, read from offset 12. -/
def readSections (bytes : ByteView) : Result DnsMessage := do
  let (questions, offset) ← readMany (readQuestion bytes) (readBe16 (bytes.ptr 4)) 12
  let (answers, offset) ← readMany (readRecord bytes) (readBe16 (bytes.ptr 6)) offset
  let (authorities, offset) ← readMany (readRecord bytes) (readBe16 (bytes.ptr 8)) offset
  let (additionals, _) ← readMany (readRecord bytes) (readBe16 (bytes.ptr 10)) offset
  return dnsHeader bytes questions answers authorities additionals

def parseDnsMessage (bytes : ByteView) : Result DnsMessage × Diagnostics :=
  if bytes.size < 12 then (failure "dns message too short", [])
  else
    match readSections bytes with
    | .error e => (.error e, [])
    | .ok msg =>
      (.ok msg,
        if msg.truncated then
          Diagnostics.warn "dns.truncated".toList "DNS message marked truncated".toList 2
        else [])

/-! ## The names of a message -/

theorem plainName_dnsChars (bytes : List UInt8) : PlainName (bytes.map dnsChar) := by
  constructor
  · rw [toLower, List.map_map]
    refine List.map_congr_left fun c _ => ?_
    show (dnsChar c).toLower = dnsChar c
    unfold dnsChar
    split
    · exact Char.toLower_toLower_eq_toLower _
    · rfl
  · have hprintable : ∀ n < 127, 33 ≤ n → isSpace (Char.ofNat n) = false := by decide
    intro d hd
    obtain ⟨c, -, rfl⟩ := List.mem_map.mp hd
    unfold dnsChar
    split
    · rename_i hrange
      rw [isSpace_toLower]
      exact hprintable c.toNat (by omega) hrange.1
    · rfl

theorem plainName_nil : PlainName [] := ⟨rfl, fun _ hc => absurd hc List.not_mem_nil⟩

theorem plainName_dot : PlainName ['.'] := by
  refine ⟨rfl, fun c hc => ?_⟩
  rw [List.mem_singleton.mp hc]
  rfl

/-- A name that was read is plain, wherever its labels lie. -/
theorem readDnsNameFrom_plain {bytes : ByteView} {depth : Nat} {name : Str} {offset : Nat}
    {read : Str × Nat} (hname : PlainName name)
    (h : readDnsNameFrom bytes depth name offset = .ok read) : PlainName read.1 := by
  fun_induction readDnsNameFrom bytes depth name offset generalizing read with
  | case2 =>
    cases h
    exact hname
  | case6 =>
    rename_i suffix _ hok ih
    cases h
    have hsuffix : PlainName suffix := ih plainName_nil hok
    refine (hname.append ?_).append hsuffix
    split
    · exact plainName_dot
    · exact plainName_nil
  | case10 =>
    rename_i hlong ih
    refine ih ((hname.append ?_).append (plainName_dnsChars _)) h
    split
    · exact plainName_dot
    · exact plainName_nil
  | _ => cases h

theorem readDnsName_plain {bytes : ByteView} {offset : Nat} {read : Str × Nat}
    (h : readDnsName bytes offset = .ok read) : PlainName read.1 := by
  unfold readDnsName at h
  split at h
  · cases h
  · exact readDnsNameFrom_plain plainName_nil h

theorem readQuestion_plain {bytes : ByteView} {offset : Nat} {read : DnsQuestion × Nat}
    (h : readQuestion bytes offset = .ok read) : PlainName read.1.name := by
  unfold readQuestion at h
  split at h
  · cases h
  · rename_i name offset' hname
    split at h
    · cases h
    · cases h
      exact readDnsName_plain hname

theorem readRecord_plain {bytes : ByteView} {offset : Nat} {read : DnsRecord × Nat}
    (h : readRecord bytes offset = .ok read) : PlainName read.1.name := by
  unfold readRecord at h
  split at h
  · cases h
  · rename_i name offset' hname
    simp only at h
    split at h
    · cases h
    · split at h
      · cases h
      · cases h
        exact readDnsName_plain hname

/-- What every entry satisfies, the entries of a list satisfy. -/
theorem forall_readMany {α : Type} {read : Nat → Result (α × Nat)} {P : α → Prop}
    (hread : ∀ offset x, read offset = .ok x → P x.1) {count offset : Nat} {list : List α × Nat}
    (h : readMany read count offset = .ok list) : ∀ x ∈ list.1, P x := by
  induction count generalizing offset list with
  | zero =>
    cases h
    exact fun x hx => absurd hx List.not_mem_nil
  | succ count ih =>
    unfold readMany at h
    split at h
    · cases h
    · rename_i x offset' hx
      split at h
      · cases h
      · rename_i xs offset'' hxs
        cases h
        intro y hy
        rcases List.mem_cons.mp hy with rfl | hy
        · exact hread _ _ hx
        · exact ih hxs y hy

/-- **The names of a parsed message are plain.** -/
theorem parseDnsMessage_plain {bytes : ByteView} {msg : DnsMessage} {notes : Diagnostics}
    (h : parseDnsMessage bytes = (.ok msg, notes)) :
    (∀ q ∈ msg.questions, PlainName q.name) ∧ ∀ r ∈ msg.answers, PlainName r.name := by
  unfold parseDnsMessage at h
  split at h
  · cases h
  split at h
  · cases h
  rename_i msg' hmsg
  cases h
  unfold readSections at hmsg
  rcases hq : readMany (readQuestion bytes) (readBe16 (bytes.ptr 4)) 12 with e | ⟨questions, offset⟩
  · rw [hq] at hmsg
    cases hmsg
  rw [hq] at hmsg
  simp only [bind, Except.bind] at hmsg
  rcases ha : readMany (readRecord bytes) (readBe16 (bytes.ptr 6)) offset
    with e | ⟨answers, offset'⟩
  · rw [ha] at hmsg
    cases hmsg
  rw [ha] at hmsg
  simp only at hmsg
  split at hmsg
  · cases hmsg
  split at hmsg
  · cases hmsg
  cases hmsg
  exact ⟨forall_readMany (fun _ _ => readQuestion_plain) hq,
    forall_readMany (fun _ _ => readRecord_plain) ha⟩

end PacketGuard.Packet
