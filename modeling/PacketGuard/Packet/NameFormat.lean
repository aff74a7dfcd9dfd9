import PacketGuard.Packet.Dns
import PacketGuard.Lib.Trail

/-! # The compressed-name format

A name on the wire is made of segments.  A segment is a run of labels that a
zero byte ends, or a pointer to the segment that follows.  Here the format is
stated over the bytes of a message alone, and `read_dns_name` is shown to read
it: nothing else, and all of it up to twelve pointers and 255 characters for
each segment.
-/
namespace PacketGuard.Packet
open PacketGuard.Core PacketGuard.Lib

/-! ## The format -/

/-- The text of a name: its labels, joined by dots. -/
def dottedLabels (labels : List (List UInt8)) : Str :=
  ['.'].intercalate (labels.map fun l => l.map dnsChar)

/-- `Segment msg o labels target next`: at `o` stand `labels`, and behind them a
zero byte, or a pointer to `target`; `next` is the offset behind that. -/
inductive Segment (msg : List UInt8) : Nat → List (List UInt8) → Option Nat → Nat → Prop
  | zero {o : Nat} : msg[o]? = some 0 → Segment msg o [] none (o + 1)
  | pointer {o : Nat} {hi lo : UInt8} : msg[o]? = some hi → 192 ≤ hi.toNat →
    msg[o + 1]? = some lo →
    Segment msg o [] (some ((hi.toNat - 192) * 256 + lo.toNat)) (o + 2)
  | label {o : Nat} {len : UInt8} {labels : List (List UInt8)} {target : Option Nat} {next : Nat} :
    msg[o]? = some len → 1 ≤ len.toNat → len.toNat ≤ 63 → o + 1 + len.toNat ≤ msg.length →
    Segment msg (o + 1 + len.toNat) labels target next →
    Segment msg o ((msg.drop (o + 1)).take len.toNat :: labels) target next

/-- The labels at an offset, and the target of the pointer behind them. -/
def SegmentAt (msg : List UInt8) (o : Nat) (labels : List (List UInt8)) (target : Option Nat) :
    Prop :=
  ∃ next, Segment msg o labels target next

/-- A name of `labels` starts at `o`, and `next` is the offset behind its first
segment.  The name has at most twelve pointers. -/
def NameAt (msg : List UInt8) (o : Nat) (labels : List (List UInt8)) (next : Nat) : Prop :=
  ∃ first target rest, Segment msg o first target next ∧ Trail (SegmentAt msg) target rest ∧
    rest.length ≤ 12 ∧ (∀ segment ∈ first :: rest, (dottedLabels segment).length ≤ 255) ∧
    labels = (first :: rest).flatten

/-- A length byte tells the three forms apart. -/
theorem Segment.unique {msg : List UInt8} {o next next' : Nat} {labels labels' : List (List UInt8)}
    {target target' : Option Nat} (h : Segment msg o labels target next)
    (h' : Segment msg o labels' target' next') :
    labels = labels' ∧ target = target' ∧ next = next' := by
  induction h generalizing labels' target' next' with
  | zero hbyte =>
    cases h' with
    | zero => exact ⟨rfl, rfl, rfl⟩
    | pointer hbyte' hhi =>
      cases hbyte.symm.trans hbyte'
      exact absurd hhi (by decide)
    | label hbyte' hpos =>
      cases hbyte.symm.trans hbyte'
      exact absurd hpos (by decide)
  | pointer hbyte hhi hlo =>
    cases h' with
    | zero hbyte' =>
      cases hbyte.symm.trans hbyte'
      exact absurd hhi (by decide)
    | pointer hbyte' _ hlo' =>
      cases hbyte.symm.trans hbyte'
      cases hlo.symm.trans hlo'
      exact ⟨rfl, rfl, rfl⟩
    | label hbyte' _ hle =>
      cases hbyte.symm.trans hbyte'
      omega
  | label hbyte hpos hle _ _ ih =>
    cases h' with
    | zero hbyte' =>
      cases hbyte.symm.trans hbyte'
      exact absurd hpos (by decide)
    | pointer hbyte' hhi =>
      cases hbyte.symm.trans hbyte'
      omega
    | label hbyte' _ _ _ hrest =>
      cases hbyte.symm.trans hbyte'
      obtain ⟨rfl, rfl, rfl⟩ := ih hrest
      exact ⟨rfl, rfl, rfl⟩

theorem unforked_segmentAt (msg : List UInt8) : Unforked (SegmentAt msg) := by
  rintro o labels labels' target target' ⟨next, h⟩ ⟨next', h'⟩
  obtain ⟨rfl, rfl, -⟩ := h.unique h'
  exact ⟨rfl, rfl⟩

theorem Segment.labels_pos {msg : List UInt8} {o next : Nat} {labels : List (List UInt8)}
    {target : Option Nat} (h : Segment msg o labels target next) : ∀ l ∈ labels, 1 ≤ l.length := by
  induction h with
  | zero => simp
  | pointer => simp
  | label _ hpos _ hin _ ih =>
    intro l hl
    rcases List.mem_cons.mp hl with rfl | hl
    · rw [List.length_take, List.length_drop]
      omega
    · exact ih l hl

theorem trail_labels_pos {msg : List UInt8} {target : Option Nat}
    {segments : List (List (List UInt8))} (h : Trail (SegmentAt msg) target segments) :
    ∀ l ∈ segments.flatten, 1 ≤ l.length := by
  induction h with
  | stop => simp
  | hop hsegment _ ih =>
    obtain ⟨_, hsegment⟩ := hsegment
    intro l hl
    rw [List.flatten_cons, List.mem_append] at hl
    exact hl.elim (hsegment.labels_pos l) (ih l)

/-! ## Joined labels -/

/-- What one turn of the loop of `read_dns_name` adds to `name` for a label. -/
def appendLabel (name : Str) (l : List UInt8) : Str :=
  name ++ (if !name.isEmpty then ['.'] else []) ++ l.map dnsChar

theorem length_le_foldl_appendLabel (labels : List (List UInt8)) (name : Str) :
    name.length ≤ (labels.foldl appendLabel name).length := by
  induction labels generalizing name with
  | nil => exact Nat.le_refl _
  | cons l labels ih =>
    refine Nat.le_trans ?_ (ih (appendLabel name l))
    simp only [appendLabel, List.length_append]
    omega

theorem foldl_appendLabel_of_ne_nil (labels : List (List UInt8)) {name : Str} (hne : name ≠ []) :
    labels.foldl appendLabel name =
      name ++ labels.flatMap fun l => '.' :: l.map dnsChar := by
  induction labels generalizing name with
  | nil => simp
  | cons l labels ih =>
    have hdot : appendLabel name l = name ++ '.' :: l.map dnsChar := by
      simp [appendLabel, hne]
    rw [List.foldl_cons, hdot, ih (by simp), List.flatMap_cons, List.append_assoc]

theorem dottedLabels_cons (l : List UInt8) (labels : List (List UInt8)) :
    dottedLabels (l :: labels) =
      l.map dnsChar ++ labels.flatMap fun l' => '.' :: l'.map dnsChar := by
  rw [dottedLabels, List.map_cons, intercalate_cons_eq, List.flatMap_map]
  rfl

/-- Reading label after label joins the labels by dots. -/
theorem foldl_appendLabel {labels : List (List UInt8)} (hl : ∀ l ∈ labels, 1 ≤ l.length) :
    labels.foldl appendLabel [] = dottedLabels labels := by
  cases labels with
  | nil => rfl
  | cons l labels =>
    have hne : l.map dnsChar ≠ [] := by
      have hpos := hl l (by simp)
      intro hnil
      rw [List.map_eq_nil_iff.mp hnil] at hpos
      simp at hpos
    have hfirst : appendLabel [] l = l.map dnsChar := rfl
    rw [List.foldl_cons, hfirst, foldl_appendLabel_of_ne_nil labels hne, dottedLabels_cons]

/-- The two parts of a name, with a dot between them unless one is empty. -/
def joinNames (name suffix : Str) : Str :=
  name ++ (if !name.isEmpty && !suffix.isEmpty then ['.'] else []) ++ suffix

theorem dottedLabels_eq_nil_iff {labels : List (List UInt8)} (hpos : ∀ l ∈ labels, 1 ≤ l.length) :
    dottedLabels labels = [] ↔ labels = [] := by
  cases labels with
  | nil => exact ⟨fun _ => rfl, fun _ => rfl⟩
  | cons l labels =>
    have hl := hpos l (by simp)
    rw [dottedLabels_cons]
    constructor
    · intro h
      rw [List.append_eq_nil_iff, List.map_eq_nil_iff] at h
      rw [h.1] at hl
      simp at hl
    · exact fun h => absurd h (by simp)

theorem dottedLabels_append {labels labels' : List (List UInt8)}
    (hpos : ∀ l ∈ labels, 1 ≤ l.length) (hpos' : ∀ l ∈ labels', 1 ≤ l.length) :
    dottedLabels (labels ++ labels') = joinNames (dottedLabels labels) (dottedLabels labels') := by
  cases labels with
  | nil => simp [joinNames, dottedLabels]
  | cons l labels =>
    cases labels' with
    | nil => simp [joinNames, dottedLabels]
    | cons l' labels' =>
      have hne : dottedLabels (l :: labels) ≠ [] := fun h =>
        absurd ((dottedLabels_eq_nil_iff hpos).mp h) (by simp)
      have hne' : dottedLabels (l' :: labels') ≠ [] := fun h =>
        absurd ((dottedLabels_eq_nil_iff hpos').mp h) (by simp)
      have hdot : (!(dottedLabels (l :: labels)).isEmpty &&
          !(dottedLabels (l' :: labels')).isEmpty) = true := by
        simp [hne, hne']
      rw [joinNames, if_pos hdot, List.cons_append, dottedLabels_cons, dottedLabels_cons,
        dottedLabels_cons, List.flatMap_append, List.flatMap_cons]
      simp

theorem dottedLabels_concat {labels : List (List UInt8)} (hpos : ∀ l ∈ labels, 1 ≤ l.length)
    {l : List UInt8} (hl : 1 ≤ l.length) :
    dottedLabels (labels ++ [l]) = appendLabel (dottedLabels labels) l := by
  have hall : ∀ l' ∈ labels ++ [l], 1 ≤ l'.length := by
    simpa [or_imp, forall_and] using ⟨hpos, hl⟩
  rw [← foldl_appendLabel hall, List.foldl_append, foldl_appendLabel hpos]
  rfl

theorem length_dottedLabels_le {labels labels' : List (List UInt8)}
    (hpos : ∀ l ∈ labels ++ labels', 1 ≤ l.length) :
    (dottedLabels labels).length ≤ (dottedLabels (labels ++ labels')).length := by
  rw [← foldl_appendLabel hpos, List.foldl_append,
    foldl_appendLabel fun l hl => hpos l (List.mem_append_left _ hl)]
  exact length_le_foldl_appendLabel _ _

/-! ## The reader reads the format -/

theorem getElem?_toVector {v : ByteView} {i : Nat} {b : UInt8} :
    v.toVector[i]? = some b ↔ i < v.size ∧ v.data i = b := by
  constructor
  · intro h
    have hi : i < v.size := by
      rw [← ByteView.length_toVector]
      exact (List.getElem?_eq_some_iff.mp h).1
    refine ⟨hi, ?_⟩
    rw [ByteView.data_eq_getD hi, List.getD_eq_getElem?_getD, h]
    rfl
  · rintro ⟨hi, rfl⟩
    rw [ByteView.data_eq_getD hi]
    exact List.getElem?_eq_some_iff.mpr
      ⟨by rwa [ByteView.length_toVector], (List.getD_eq_getElem _ _ _).symm⟩

/-- The masks that tell the length bytes apart. -/
theorem lengthByte_masks : ∀ len < 256,
    (len &&& 0xc0 = 0xc0 ↔ 192 ≤ len) ∧ (len &&& 0xc0 = 0 ↔ len < 64) ∧
      (192 ≤ len → len &&& 0x3f = len - 192) := by
  decide +kernel

theorem pointerTarget_eq {hi : Nat} (lo : UInt8) (h : hi < 256) (hhi : 192 ≤ hi) :
    ((hi &&& 0x3f) <<< 8) ||| lo.toNat = (hi - 192) * 256 + lo.toNat := by
  rw [((lengthByte_masks hi h).2.2 hhi), or_byte_eq _ lo.toNat_lt]

/-- What `readDnsNameFrom` has read when it succeeds, `before` being the labels
in front of `offset` in its segment. -/
def ReadsAs (msg : List UInt8) (depth : Nat) (before : List (List UInt8)) (o : Nat)
    (read : Str × Nat) : Prop :=
  ∃ labels target rest, Segment msg o labels target read.2 ∧ Trail (SegmentAt msg) target rest ∧
    depth + rest.length ≤ 12 ∧
    (∀ segment ∈ (before ++ labels) :: rest, (dottedLabels segment).length ≤ 255) ∧
    read.1 = dottedLabels (before ++ labels ++ rest.flatten)

/-- A pointer, followed. -/
theorem ReadsAs.of_pointer {v : ByteView} {depth o after : Nat} {before : List (List UInt8)}
    {suffix : Str} (hpos : ∀ l ∈ before, 1 ≤ l.length) (hfits : (dottedLabels before).length ≤ 255)
    (hin : o + 1 < v.size) (hhi : 192 ≤ (v.data o).toNat)
    (h : ReadsAs v.toVector (depth + 1) []
      (((v.data o).toNat - 192) * 256 + (v.data (o + 1)).toNat) (suffix, after)) :
    ReadsAs v.toVector depth before o (joinNames (dottedLabels before) suffix, o + 2) := by
  obtain ⟨labels, target, rest, hsegment, htrail, hdepth, hall, hsuffix⟩ := h
  have hpointer : Segment v.toVector o [] _ (o + 2) :=
    .pointer (getElem?_toVector.mpr ⟨by omega, rfl⟩) hhi (getElem?_toVector.mpr ⟨hin, rfl⟩)
  have htail : Trail (SegmentAt v.toVector) _ (labels :: rest) := .hop ⟨_, hsegment⟩ htrail
  have hpos' := trail_labels_pos htail
  refine ⟨[], _, labels :: rest, hpointer, htail, by simp only [List.length_cons]; omega, ?_, ?_⟩
  · intro segment hmem
    rcases List.mem_cons.mp hmem with rfl | hmem
    · rwa [List.append_nil]
    · exact hall segment hmem
  · rw [List.nil_append, ← List.flatten_cons] at hsuffix
    rw [List.append_nil, dottedLabels_append hpos hpos', ← hsuffix]

/-- A label, read. -/
theorem ReadsAs.of_label {v : ByteView} {depth o : Nat} {before : List (List UInt8)}
    {read : Str × Nat} (hpos : 1 ≤ (v.data o).toNat) (hle : (v.data o).toNat ≤ 63)
    (hin : o + 1 + (v.data o).toNat ≤ v.size)
    (h : ReadsAs v.toVector depth (before ++ [v.copy (o + 1) (v.data o).toNat])
      (o + 1 + (v.data o).toNat) read) :
    ReadsAs v.toVector depth before o read := by
  obtain ⟨labels, target, rest, hsegment, htrail, hdepth, hall, hread⟩ := h
  have hlabel : Segment v.toVector o _ target read.2 :=
    .label (getElem?_toVector.mpr ⟨by omega, rfl⟩) hpos hle
      (by rwa [ByteView.length_toVector]) hsegment
  rw [← ByteView.copy_eq hin] at hlabel
  simp only [List.append_assoc, List.singleton_append] at hall hread
  exact ⟨_, target, rest, hlabel, htrail, hdepth, hall, by simpa using hread⟩

/-- **Only the format is read.** -/
theorem readsAs_of_readDnsNameFrom {v : ByteView} {depth offset : Nat} {name : Str}
    {before : List (List UInt8)} (hpos : ∀ l ∈ before, 1 ≤ l.length)
    (hname : name = dottedLabels before) (hfits : name.length ≤ 255) (hdepth : depth ≤ 12)
    {read : Str × Nat} (h : readDnsNameFrom v depth name offset = .ok read) :
    ReadsAs v.toVector depth before offset read := by
  fun_induction readDnsNameFrom v depth name offset generalizing before read with
  | case2 depth name offset hin len =>
    rename_i hzero
    cases h
    subst hname
    have hbyte : v.data offset = 0 := UInt8.toNat_inj.mp hzero
    have hend : Segment v.toVector offset [] none (offset + 1) :=
      .zero (getElem?_toVector.mpr ⟨by omega, hbyte⟩)
    exact ⟨[], none, [], hend, .stop, hdepth, by simpa using hfits, by simp⟩
  | case6 depth name offset hin len hzero hmask hin' ptr hdeep suffix after hsuffix =>
    rename_i ih
    cases h
    subst hname
    have hlt : len < 256 := (v.data offset).toNat_lt
    have hhi : 192 ≤ len := (lengthByte_masks len hlt).1.mp hmask
    have hread : ReadsAs v.toVector (depth + 1) [] ptr (suffix, after) :=
      ih (by simp) rfl (by simp) (by omega) hsuffix
    rw [show ptr = _ from pointerTarget_eq _ hlt hhi] at hread
    exact hread.of_pointer hpos hfits (by omega) hhi
  | case10 depth name offset hin len hzero hmask hmark hhas name' hlong =>
    rename_i ih
    have hlt : len < 256 := (v.data offset).toNat_lt
    have hle : len < 64 := (lengthByte_masks len hlt).2.1.mp (by simpa using hmark)
    have hbody : offset + 1 + len ≤ v.size := hasBytes_iff.mp (by simpa using hhas)
    have hlen : 1 ≤ (v.copy (offset + 1) len).length := by
      simp only [ByteView.copy, List.length_map, List.length_range]
      omega
    have hname' : name' = dottedLabels (before ++ [v.copy (offset + 1) len]) := by
      rw [dottedLabels_concat hpos hlen, ← hname]
      rfl
    have hread := ih (by simpa [or_imp, forall_and] using ⟨hpos, hlen⟩) hname' (by omega) hdepth h
    exact hread.of_label (by omega) (by omega) hbody
  | _ => cases h

/-- One turn of the loop, over a label inside the view. -/
theorem readDnsNameFrom_turn {v : ByteView} {depth offset : Nat} {name : Str}
    (hpos : 1 ≤ (v.data offset).toNat) (hle : (v.data offset).toNat ≤ 63)
    (hin : offset + 1 + (v.data offset).toNat ≤ v.size)
    (hfits : (appendLabel name (v.copy (offset + 1) (v.data offset).toNat)).length ≤ 255) :
    readDnsNameFrom v depth name offset =
      readDnsNameFrom v depth (appendLabel name (v.copy (offset + 1) (v.data offset).toNat))
        (offset + 1 + (v.data offset).toNat) := by
  have hmask : ∀ n, n < 64 → n &&& 0xc0 = 0 := by decide
  have hzero := hmask _ (Nat.lt_succ_of_le hle)
  have hhas : hasBytes v (offset + 1) (v.data offset).toNat = true := hasBytes_iff.mpr hin
  rw [readDnsNameFrom, dif_neg (by omega)]
  simp only [hzero, hhas]
  rw [if_neg (by omega), if_neg (by omega), if_neg (by omega), if_neg (by simp)]
  exact if_neg (by simpa [appendLabel] using hfits)

/-- A segment is read to its end, and joined to what its pointer leads to. -/
theorem readDnsNameFrom_segment {v : ByteView} {depth o next : Nat}
    {before labels : List (List UInt8)} {target : Option Nat} {suffix : Str}
    (h : Segment v.toVector o labels target next) (hpos : ∀ l ∈ before, 1 ≤ l.length)
    (hfits : (dottedLabels (before ++ labels)).length ≤ 255)
    (hend : target = none → suffix = [])
    (honward : ∀ t ∈ target, depth < 12 ∧
      ∃ after, readDnsNameFrom v (depth + 1) [] t = .ok (suffix, after)) :
    readDnsNameFrom v depth (dottedLabels before) o =
      .ok (joinNames (dottedLabels (before ++ labels)) suffix, next) := by
  induction h generalizing before with
  | zero hbyte =>
    obtain ⟨hin, hbyte⟩ := getElem?_toVector.mp hbyte
    rw [readDnsNameFrom, dif_neg (by omega), hend rfl, List.append_nil]
    simp [hbyte, joinNames]
  | @pointer o hi lo hbyte hhi hlo =>
    obtain ⟨hin, rfl⟩ := getElem?_toVector.mp hbyte
    obtain ⟨hin', rfl⟩ := getElem?_toVector.mp hlo
    obtain ⟨hdeep, after, hsuffix⟩ := honward _ rfl
    have hlt := (v.data o).toNat_lt
    have hmask := (lengthByte_masks _ hlt).1.mpr hhi
    rw [readDnsNameFrom, dif_neg (by omega), List.append_nil]
    simp only [hmask, pointerTarget_eq _ hlt hhi, hsuffix]
    rw [if_neg (by omega), if_pos trivial, if_neg (by omega), dif_neg (by omega)]
    rfl
  | @label o len labels target next hbyte hlen hle hin hrest ih =>
    obtain ⟨hin', rfl⟩ := getElem?_toVector.mp hbyte
    rw [ByteView.length_toVector] at hin
    rw [← ByteView.copy_eq hin] at hfits ⊢
    have hl : 1 ≤ (v.copy (o + 1) (v.data o).toNat).length := by
      simpa [ByteView.copy] using hlen
    have hpos' : ∀ l ∈ before ++ [v.copy (o + 1) (v.data o).toNat], 1 ≤ l.length := by
      simpa [or_imp, forall_and] using ⟨hpos, hl⟩
    rw [← List.singleton_append, ← List.append_assoc] at hfits ⊢
    have hfits' : (dottedLabels (before ++ [v.copy (o + 1) (v.data o).toNat])).length ≤ 255 :=
      (length_dottedLabels_le fun l hmem =>
        (List.mem_append.mp hmem).elim (hpos' l) (hrest.labels_pos l)).trans hfits
    rw [← ih hpos' hfits hend honward, dottedLabels_concat hpos hl]
    rw [dottedLabels_concat hpos hl] at hfits'
    exact readDnsNameFrom_turn hlen hle hin hfits'

/-- A trail is read to its end. -/
theorem readDnsNameFrom_trail {v : ByteView} {target : Option Nat}
    {rest : List (List (List UInt8))} (h : Trail (SegmentAt v.toVector) target rest) {depth : Nat}
    (hdepth : depth + rest.length ≤ 12)
    (hfits : ∀ segment ∈ rest, (dottedLabels segment).length ≤ 255) :
    ∀ t ∈ target, depth < 12 ∧
      ∃ after, readDnsNameFrom v (depth + 1) [] t = .ok (dottedLabels rest.flatten, after) := by
  induction h generalizing depth with
  | stop => exact fun t ht => absurd ht (by simp)
  | @hop o labels target rest hsegment htrail ih =>
    intro t ht
    obtain rfl := Option.mem_some_iff.mp ht
    obtain ⟨next, hsegment⟩ := hsegment
    rw [List.length_cons] at hdepth
    have honward := @ih (depth + 1) (by omega) fun segment hmem =>
      hfits segment (List.mem_cons_of_mem _ hmem)
    have hend : target = none → dottedLabels rest.flatten = [] := by
      rintro rfl
      cases htrail
      rfl
    have hread : readDnsNameFrom v (depth + 1) (dottedLabels []) o = _ :=
      readDnsNameFrom_segment hsegment (by simp) (hfits labels List.mem_cons_self) hend honward
    refine ⟨by omega, next, ?_⟩
    rw [List.flatten_cons, dottedLabels_append hsegment.labels_pos (trail_labels_pos htrail)]
    exact hread

/-- **All of the format is read.** -/
theorem readDnsNameFrom_of_readsAs {v : ByteView} {depth o : Nat} {before : List (List UInt8)}
    {read : Str × Nat} (hpos : ∀ l ∈ before, 1 ≤ l.length)
    (h : ReadsAs v.toVector depth before o read) :
    readDnsNameFrom v depth (dottedLabels before) o = .ok read := by
  obtain ⟨labels, target, rest, hsegment, htrail, hdepth, hall, hread⟩ := h
  have honward := readDnsNameFrom_trail htrail hdepth fun segment hmem =>
    hall segment (List.mem_cons_of_mem _ hmem)
  have hend : target = none → dottedLabels rest.flatten = [] := by
    rintro rfl
    cases htrail
    rfl
  have hpos' : ∀ l ∈ before ++ labels, 1 ≤ l.length := fun l hmem =>
    (List.mem_append.mp hmem).elim (hpos l) (hsegment.labels_pos l)
  rw [readDnsNameFrom_segment hsegment hpos (hall _ List.mem_cons_self) hend honward,
    ← dottedLabels_append hpos' (trail_labels_pos htrail), ← hread]

/-- What `read_dns_name` reads: a name of the format, and the offset behind its
first segment. -/
theorem readDnsName_eq_ok {v : ByteView} {offset next : Nat} {name : Str} :
    readDnsName v offset = .ok (name, next) ↔
      ∃ labels, NameAt v.toVector offset labels next ∧ name = dottedLabels labels := by
  rw [readDnsName, if_neg (by omega)]
  constructor
  · intro h
    have hread : ReadsAs v.toVector 0 [] offset (name, next) :=
      readsAs_of_readDnsNameFrom (fun l hl => absurd hl List.not_mem_nil) rfl (Nat.zero_le _)
        (Nat.zero_le _) h
    obtain ⟨first, target, rest, hsegment, htrail, hdepth, hall, hname⟩ := hread
    exact ⟨_, ⟨first, target, rest, hsegment, htrail, by omega, hall, rfl⟩, hname⟩
  · rintro ⟨labels, ⟨first, target, rest, hsegment, htrail, hdepth, hall, rfl⟩, hname⟩
    have hread : ReadsAs v.toVector 0 [] offset (name, next) :=
      ⟨first, target, rest, hsegment, htrail, by omega, hall, hname⟩
    exact readDnsNameFrom_of_readsAs (fun l hl => absurd hl List.not_mem_nil) hread

/-! ## The bytes that are read -/

/-- `readDnsNameFrom`, with the offsets at which `data()` is read. -/
def readDnsNameTraced (bytes : ByteView) (depth : Nat) (name : Str) (offset : Nat) :
    Result (Str × Nat) × List Nat :=
  if _h : bytes.size ≤ offset then (failure "dns name outside message", [])
  else
    let len := (bytes.data offset).toNat
    if len = 0 then (.ok (name, offset + 1), [offset])
    else if len &&& 0xc0 = 0xc0 then
      if bytes.size ≤ offset + 1 then (failure "dns compression pointer truncated", [offset])
      else
        let ptr := ((len &&& 0x3f) <<< 8) ||| (bytes.data (offset + 1)).toNat
        if _h : 12 < depth + 1 then (failure "dns name compression loop", [offset, offset + 1])
        else
          match readDnsNameTraced bytes (depth + 1) [] ptr with
          | (.error e, reads) => (.error e, offset :: (offset + 1) :: reads)
          | (.ok (suffix, _), reads) =>
            (.ok (name ++ (if !name.isEmpty && !suffix.isEmpty then ['.'] else []) ++ suffix,
              offset + 2), offset :: (offset + 1) :: reads)
    else if len &&& 0xc0 ≠ 0 then (failure "invalid dns label marker", [offset])
    else if !hasBytes bytes (offset + 1) len then (failure "dns label outside message", [offset])
    else
      let name' := name ++ (if !name.isEmpty then ['.'] else []) ++
        (bytes.copy (offset + 1) len).map dnsChar
      let reads := offset :: List.range' (offset + 1) len
      if 255 < name'.length then (failure "dns name too long", reads)
      else
        match readDnsNameTraced bytes depth name' (offset + 1 + len) with
        | (read, reads') => (read, reads ++ reads')
termination_by (12 - depth, bytes.size - offset)
decreasing_by
  · exact Prod.Lex.left _ _ (by omega)
  · exact Prod.Lex.right _ (by omega)

theorem readDnsNameTraced_fst (v : ByteView) (depth : Nat) (name : Str) (offset : Nat) :
    (readDnsNameTraced v depth name offset).1 = readDnsNameFrom v depth name offset := by
  fun_induction readDnsNameTraced v depth name offset with
  | case1 depth name offset hin => rw [readDnsNameFrom, dif_pos hin]
  | case2 depth name offset hin len =>
    rename_i hzero
    rw [readDnsNameFrom, dif_neg hin]
    exact (if_pos hzero).symm
  | case3 depth name offset hin len hzero hmask hin' =>
    rw [readDnsNameFrom, dif_neg hin]
    exact ((if_neg hzero).trans ((if_pos hmask).trans (if_pos hin'))).symm
  | case4 depth name offset hin len hzero hmask hin' hdeep =>
    rw [readDnsNameFrom, dif_neg hin]
    refine ((if_neg hzero).trans ((if_pos hmask).trans ((if_neg hin').trans ?_))).symm
    exact dif_pos hdeep
  | case5 depth name offset hin len hzero hmask hin' ptr hdeep e reads htarget ih =>
    rw [readDnsNameFrom, dif_neg hin]
    refine ((if_neg hzero).trans ((if_pos hmask).trans ((if_neg hin').trans ?_))).symm
    refine (dif_neg hdeep).trans ?_
    rw [htarget] at ih
    rw [← ih]
  | case6 depth name offset hin len hzero hmask hin' ptr hdeep suffix after reads htarget ih =>
    rw [readDnsNameFrom, dif_neg hin]
    refine ((if_neg hzero).trans ((if_pos hmask).trans ((if_neg hin').trans ?_))).symm
    refine (dif_neg hdeep).trans ?_
    rw [htarget] at ih
    rw [← ih]
  | case7 depth name offset hin len hzero hmask hmark =>
    rw [readDnsNameFrom, dif_neg hin]
    exact ((if_neg hzero).trans ((if_neg hmask).trans (if_pos hmark))).symm
  | case8 depth name offset hin len hzero hmask hmark hhas =>
    rw [readDnsNameFrom, dif_neg hin]
    exact ((if_neg hzero).trans ((if_neg hmask).trans ((if_neg hmark).trans (if_pos hhas)))).symm
  | case9 depth name offset hin len hzero hmask hmark hhas name' reads hlong =>
    rw [readDnsNameFrom, dif_neg hin]
    refine ((if_neg hzero).trans ((if_neg hmask).trans ((if_neg hmark).trans ?_))).symm
    exact (if_neg hhas).trans (if_pos hlong)
  | case10 depth name offset hin len hzero hmask hmark hhas name' reads hlong read reads'
    hrest ih =>
    rw [readDnsNameFrom, dif_neg hin]
    refine ((if_neg hzero).trans ((if_neg hmask).trans ((if_neg hmark).trans ?_))).symm
    rw [hrest] at ih
    exact (if_neg hhas).trans ((if_neg hlong).trans ih.symm)

/-- The offsets of a label and its length byte. -/
theorem labelReads_within {v : ByteView} {offset len : Nat} (hin : ¬v.size ≤ offset)
    (hhas : ¬(!hasBytes v (offset + 1) len) = true) :
    ∀ i ∈ offset :: List.range' (offset + 1) len, i < v.size := by
  have hbody : offset + 1 + len ≤ v.size := hasBytes_iff.mp (by simpa using hhas)
  intro i hi
  rw [List.mem_cons, List.mem_range'_1] at hi
  omega

/-- The offsets of a pointer, and those that are read where it leads. -/
theorem pointerReads_within {v : ByteView} {offset : Nat} {reads : List Nat}
    (hin : ¬v.size ≤ offset + 1) (h : ∀ i ∈ reads, i < v.size) :
    ∀ i ∈ offset :: (offset + 1) :: reads, i < v.size := by
  intro i hi
  rcases List.mem_cons.mp hi with rfl | hi
  · omega
  rcases List.mem_cons.mp hi with rfl | hi
  · omega
  · exact h i hi

theorem readDnsNameTraced_within (v : ByteView) (depth : Nat) (name : Str) (offset : Nat) :
    ∀ i ∈ (readDnsNameTraced v depth name offset).2, i < v.size := by
  fun_induction readDnsNameTraced v depth name offset with
  | case1 => exact fun i hi => absurd hi List.not_mem_nil
  | case5 depth name offset hin len hzero hmask hin' ptr hdeep e reads htarget ih =>
    rw [htarget] at ih
    exact pointerReads_within hin' ih
  | case6 depth name offset hin len hzero hmask hin' ptr hdeep suffix after reads htarget ih =>
    rw [htarget] at ih
    exact pointerReads_within hin' ih
  | case9 depth name offset hin len hzero hmask hmark hhas =>
    exact labelReads_within hin hhas
  | case10 depth name offset hin len hzero hmask hmark hhas name' reads hlong read reads'
    hrest ih =>
    rw [hrest] at ih
    intro i hi
    exact (List.mem_append.mp hi).elim (labelReads_within hin hhas i) (ih i)
  | _ =>
    intro i hi
    simp only [List.mem_cons, List.not_mem_nil, or_false] at hi
    omega

/-- **`read_dns_name` decodes exactly the compressed-name format**, without
reading outside the message, and accepts no name whose pointers lead into a cycle. -/
theorem readDnsName_exact (v : ByteView) (offset : Nat) :
    ((readDnsNameTraced v 0 [] offset).1 = readDnsName v offset ∧
      ∀ i ∈ (readDnsNameTraced v 0 [] offset).2, i < v.size) ∧
    (∀ name next, readDnsName v offset = .ok (name, next) ↔
      ∃ labels, NameAt v.toVector offset labels next ∧ name = dottedLabels labels) ∧
    ∀ target, Relation.ReflTransGen (Leads (SegmentAt v.toVector)) offset target →
      Relation.TransGen (Leads (SegmentAt v.toVector)) target target →
      ∀ read, readDnsName v offset ≠ .ok read := by
  refine ⟨⟨?_, readDnsNameTraced_within v 0 [] offset⟩, fun _ _ => readDnsName_eq_ok, ?_⟩
  · rw [readDnsNameTraced_fst, readDnsName, if_neg (by omega)]
  · rintro target hreach hcycle ⟨name, next⟩ hread
    obtain ⟨labels, ⟨first, onward, rest, hsegment, htrail, -⟩, -⟩ := readDnsName_eq_ok.mp hread
    exact not_trail_of_cycle (unforked_segmentAt v.toVector) hreach hcycle _
      (.hop ⟨next, hsegment⟩ htrail)

/-- A pointer back to a label is followed; a pointer to itself is not. -/
theorem readDnsName_exact_pointers :
    readDnsName (.ofVector [1, 97, 0, 192, 0]) 3 = .ok ("a".toList, 5) ∧
      ∀ read, readDnsName (.ofVector [192, 0]) 0 ≠ .ok read := by
  constructor
  · refine ((readDnsName_exact (.ofVector [1, 97, 0, 192, 0]) 3).2.1 _ _).mpr ⟨[[97]], ?_, rfl⟩
    have hpointer : Segment [1, 97, 0, 192, 0] 3 [] (some 0) 5 :=
      .pointer (show _ = some 192 from rfl) (by decide) (show _ = some 0 from rfl)
    have hlabel : Segment [1, 97, 0, 192, 0] 0 [[97]] none 3 :=
      .label (show _ = some 1 from rfl) (by decide) (by decide) (by decide) (.zero rfl)
    exact ⟨[], some 0, [[[97]]], hpointer, .hop ⟨3, hlabel⟩ .stop, by decide, by decide, rfl⟩
  · have hself : Leads (SegmentAt [192, 0]) 0 0 :=
      ⟨[], 2, .pointer (show _ = some 192 from rfl) (by decide) (show _ = some 0 from rfl)⟩
    exact (readDnsName_exact (.ofVector [192, 0]) 0).2.2 0 .refl (.single hself)

end PacketGuard.Packet
