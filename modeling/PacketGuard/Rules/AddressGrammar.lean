import PacketGuard.Rules.PortGrammar

/-! # The text forms of addresses and ranges

`parse_ipv4` accepts exactly the dotted quads, with white space around them, and
`parse_cidr` these and those with a prefix behind a slash.  Both read back what
`ipv4_to_string` and `CIDRRange::to_string` print.
-/
namespace PacketGuard.Rules
open PacketGuard.Core PacketGuard.Lib

/-! ## Dotted quads -/

/-- One to three digits that denote a number of eight bits. -/
def OctetText (field : Str) (n : Nat) : Prop := Denotes field n ∧ field.length ≤ 3 ∧ n ≤ 255

/-- Four octets with dots between them, the first one the highest. -/
inductive DottedQuad : Str → Nat → Prop
  | mk {a b c d : Str} {i j k l : Nat} :
      OctetText a i → OctetText b j → OctetText c k → OctetText d l →
      DottedQuad (['.'].intercalate [a, b, c, d]) (((i * 256 + j) * 256 + k) * 256 + l)

theorem OctetText.not_mem {field : Str} {n : Nat} (h : OctetText field n) {c : Char}
    (hc : isDigit c = false) : c ∉ field :=
  not_mem_decimal h.1.1 hc

/-- The octets, read one behind the other. -/
theorem parseIpv4Parts_cons_iff {value result : BitVec 32} {part : Str} {parts : List Str} :
    parseIpv4Parts value (part :: parts) = some result ↔
      ∃ n, OctetText part n ∧
        parseIpv4Parts ((value <<< 8) ||| BitVec.ofNat 32 n) parts = some result := by
  have hdenotes : ∀ {n}, OctetText part n → n = stoi part := fun h => h.1.2.symm
  rw [parseIpv4Parts]
  by_cases hshape : (!isDecimal part || decide (3 < part.length)) = true
  · rw [if_pos hshape]
    refine iff_of_false (by simp) ?_
    rintro ⟨n, ⟨⟨hdecimal, -⟩, hlength, -⟩, -⟩
    simp [hdecimal, Nat.not_lt.mpr hlength] at hshape
  rw [if_neg hshape]
  simp only [Bool.or_eq_true, Bool.not_eq_true', decide_eq_true_eq, not_or, Bool.not_eq_false,
    Nat.not_lt] at hshape
  by_cases hlarge : 255 < stoi part
  · rw [if_pos hlarge]
    refine iff_of_false (by simp) ?_
    rintro ⟨n, hn, -⟩
    have hle := hn.2.2
    rw [hdenotes hn] at hle
    omega
  · rw [if_neg hlarge]
    constructor
    · intro h
      exact ⟨stoi part, ⟨⟨hshape.1, rfl⟩, hshape.2, Nat.le_of_not_lt hlarge⟩, h⟩
    · rintro ⟨n, hn, h⟩
      rwa [hdenotes hn] at h

/-- Four octets are composed from the highest to the lowest. -/
theorem toNat_compose {i j k l : Nat} (hi : i ≤ 255) (hj : j ≤ 255) (hk : k ≤ 255) (hl : l ≤ 255)
    {value : BitVec 32} :
    ((((((((0 : BitVec 32) <<< 8) ||| BitVec.ofNat 32 i) <<< 8) ||| BitVec.ofNat 32 j) <<< 8) |||
      BitVec.ofNat 32 k) <<< 8) ||| BitVec.ofNat 32 l = value ↔
      ((i * 256 + j) * 256 + k) * 256 + l = value.toNat := by
  rw [← BitVec.toNat_inj, toNat_shiftIn _ hl, toNat_shiftIn _ hk, toNat_shiftIn _ hj,
    toNat_shiftIn _ hi]
  have hzero : (0 : BitVec 32).toNat = 0 := rfl
  rw [hzero]
  omega

/-- **Addresses**: the trimmed text is a dotted quad, and the address is the number it denotes. -/
theorem parseIpv4_iff {text : Str} {ip : IPv4Address} :
    parseIpv4 text = some ip ↔ DottedQuad (trim text) ip.value.toNat := by
  unfold parseIpv4
  simp only
  constructor
  · intro h
    split at h
    · cases h
    rename_i hlength
    have hne : trim text ≠ [] := by
      intro hnil
      rw [hnil] at hlength
      exact hlength (by decide)
    obtain ⟨-, -, htext⟩ := (split_true_eq_iff hne).mp rfl
    obtain ⟨value, hvalue, rfl⟩ := Option.map_eq_some_iff.mp h
    rw [not_not] at hlength
    obtain ⟨a, b, c, d, hparts⟩ : ∃ a b c d, split (trim text) '.' true = [a, b, c, d] :=
      List.length_eq_four.mp hlength
    rw [hparts] at hvalue htext
    simp only [parseIpv4Parts_cons_iff] at hvalue
    obtain ⟨i, hi, j, hj, k, hk, l, hl, heq⟩ := hvalue
    cases heq
    have hvalue := (toNat_compose hi.2.2 hj.2.2 hk.2.2 hl.2.2).mp rfl
    rw [htext]
    simp only
    rw [← hvalue]
    exact .mk hi hj hk hl
  · generalize htext : trim text = trimmed
    generalize hvalue : ip.value.toNat = value
    rintro ⟨hi, hj, hk, hl⟩
    rename_i a b c d i j k l
    have hparts : split (['.'].intercalate [a, b, c, d]) '.' true = [a, b, c, d] := by
      refine (split_true_eq_iff ?_).mpr ⟨by simp, ?_, rfl⟩
      · simp [List.intercalate]
      · intro p hp
        simp only [List.mem_cons, List.not_mem_nil, or_false] at hp
        rcases hp with rfl | rfl | rfl | rfl
        · exact hi.not_mem rfl
        · exact hj.not_mem rfl
        · exact hk.not_mem rfl
        · exact hl.not_mem rfl
    rw [hparts, if_neg (by simp)]
    refine Option.map_eq_some_iff.mpr ⟨ip.value, ?_, rfl⟩
    simp only [parseIpv4Parts_cons_iff]
    refine ⟨i, hi, j, hj, k, hk, l, hl, ?_⟩
    rw [parseIpv4Parts, Option.some.injEq]
    exact (toNat_compose hi.2.2 hj.2.2 hk.2.2 hl.2.2).mpr hvalue.symm

theorem DottedQuad.lt {text : Str} {n : Nat} (h : DottedQuad text n) : n < 2 ^ 32 := by
  obtain ⟨hi, hj, hk, hl⟩ := h
  have hi := hi.2.2
  have hj := hj.2.2
  have hk := hk.2.2
  have hl := hl.2.2
  omega

/-- A dotted quad has digits and dots only. -/
theorem DottedQuad.mem {text : Str} {n : Nat} (h : DottedQuad text n) {c : Char} (hc : c ∈ text) :
    isDigit c = true ∨ c = '.' := by
  obtain ⟨hi, hj, hk, hl⟩ := h
  by_contra hnot
  rw [not_or, Bool.not_eq_true] at hnot
  simp only [List.intercalate_cons_cons, List.intercalate_singleton, List.mem_append,
    List.mem_singleton, hnot.2, hi.not_mem hnot.1, hj.not_mem hnot.1, hk.not_mem hnot.1,
    hl.not_mem hnot.1, or_false] at hc

theorem DottedQuad.noSpace {text : Str} {n : Nat} (h : DottedQuad text n) : NoSpace text := by
  intro c hc
  rcases h.mem hc with hdigit | rfl
  · exact isSpace_of_isDigit hdigit
  · rfl

theorem DottedQuad.ne_nil {text : Str} {n : Nat} (h : DottedQuad text n) : text ≠ [] := by
  obtain ⟨hi, hj, hk, hl⟩ := h
  simp [List.intercalate]

/-! ## Ranges -/

/-- An address, or an address and the length of a prefix, to which it is masked. -/
inductive RangeText (text : Str) : CIDRRange → Prop
  | address {n : Nat} : DottedQuad text n → RangeText text ⟨⟨BitVec.ofNat 32 n⟩, 32⟩
  | range {quad blanks digits : Str} {n p : Nat} : text = quad ++ (blanks ++ '/' :: digits) →
      DottedQuad quad n → Blank blanks → Denotes digits p → p ≤ 32 →
      RangeText text ⟨⟨BitVec.ofNat 32 n &&& cidrMask p⟩, p⟩

/-- The prefix may have any number of digits. -/
theorem parseCidrPrefix_iff {digits : Str} {p : Nat} (h : isDecimal digits = true) :
    parseCidrPrefix digits = some p ↔ Denotes digits p ∧ p ≤ 32 := by
  obtain ⟨hne, hdigits⟩ := isDecimal_iff.mp h
  rw [parseCidrPrefix, if_neg (by simp [hne]), boundedDecimal_eq (by decide) hdigits
    (Nat.zero_le _)]
  by_cases hle : Nat.ofDigitChars 10 digits 0 ≤ 32
  · rw [if_pos hle, Option.some.injEq]
    constructor
    · rintro rfl
      exact ⟨⟨h, rfl⟩, hle⟩
    · exact fun hp => hp.1.2
  · rw [if_neg hle]
    refine iff_of_false (by simp) ?_
    rintro ⟨⟨-, rfl⟩, hp⟩
    exact hle hp

/-- No step of the prefix loop wraps. -/
theorem parseCidrPrefix_checked {digits : Str} (h : isDecimal digits = true) :
    boundedDecimalChecked 32 32 0 digits = .ok (boundedDecimal 32 32 0 digits) :=
  boundedDecimalChecked_eq (by decide) (isDecimal_iff.mp h).2 (Nat.zero_le _)

/-- An address, by the number it is. -/
theorem eq_ofNat_iff {ip : IPv4Address} {n : Nat} (h : n < 2 ^ 32) :
    ip.value.toNat = n ↔ ip = ⟨BitVec.ofNat 32 n⟩ := by
  cases ip with
  | mk value =>
    rw [IPv4Address.mk.injEq, ← BitVec.toNat_inj, BitVec.toNat_ofNat, Nat.mod_eq_of_lt h]

theorem parseIpv4_eq_some {text : Str} {n : Nat} (h : DottedQuad (trim text) n) :
    parseIpv4 text = some ⟨BitVec.ofNat 32 n⟩ := by
  rw [parseIpv4_iff, (eq_ofNat_iff h.lt).mpr rfl]
  exact h

/-- What stands before the slash of a trimmed text may end in white space. -/
theorem exists_quad {part digits : Str} {n : Nat} (htrimmed : Trimmed (part ++ '/' :: digits))
    (hquad : DottedQuad (trim part) n) :
    ∃ quad blanks, part = quad ++ blanks ∧ DottedQuad quad n ∧ Blank blanks := by
  obtain ⟨s, t, hs, ht, heq⟩ := exists_blank_trim part
  have hnil : s = [] := by
    cases s with
    | nil => rfl
    | cons c s =>
      have hc := htrimmed.1 c (by rw [heq]; rfl)
      rw [hs c List.mem_cons_self] at hc
      cases hc
  exact ⟨trim part, t, by rw [hnil, List.nil_append] at heq; exact heq, hquad, ht⟩

/-- **Ranges**: the trimmed text is an address, or an address, perhaps white space,
a slash and a prefix of at most 32 bits. -/
theorem parseCidr_iff {text : Str} {r : CIDRRange} :
    parseCidr text = some r ↔ RangeText (trim text) r := by
  have htrimmed := trimmed_trim text
  unfold parseCidr
  constructor
  · intro h
    split at h
    · rename_i part hparts
      obtain ⟨ip, hip, rfl⟩ := Option.map_eq_some_iff.mp h
      have hne : trim text ≠ [] := by
        intro hnil
        rw [hnil] at hparts
        cases hparts
      obtain ⟨-, -, htext⟩ := (split_true_eq_iff hne).mp hparts
      rw [List.intercalate_singleton] at htext
      have hquad := parseIpv4_iff.mp hip
      rw [← htext, trim_eq_self htrimmed] at hquad
      have hvalue := (eq_ofNat_iff hquad.lt).mp rfl
      rw [hvalue]
      exact .address hquad
    · rename_i part digits hparts
      split at h
      · cases h
      rename_i hdecimal
      rw [Bool.not_eq_true', Bool.not_eq_false] at hdecimal
      obtain ⟨p, hp, h⟩ := Option.bind_eq_some_iff.mp h
      obtain ⟨ip, hip, h⟩ := Option.bind_eq_some_iff.mp h
      cases h
      have hne : trim text ≠ [] := by
        intro hnil
        rw [hnil] at hparts
        cases hparts
      obtain ⟨-, -, htext⟩ := (split_true_eq_iff hne).mp hparts
      rw [List.intercalate_cons_cons, List.intercalate_singleton, List.append_assoc] at htext
      have hquad := parseIpv4_iff.mp hip
      obtain ⟨hdenotes, hle⟩ := (parseCidrPrefix_iff hdecimal).mp hp
      obtain ⟨quad, blanks, rfl, hquad, hblank⟩ := exists_quad (htext ▸ htrimmed) hquad
      have hvalue := (eq_ofNat_iff hquad.lt).mp rfl
      rw [hvalue]
      exact .range (by rw [htext]; simp) hquad hblank hdenotes hle
    · cases h
  · intro h
    cases h with
    | address hquad =>
      have hslash : '/' ∉ trim text := by
        intro hmem
        rcases hquad.mem hmem with hdigit | hdot
        · cases hdigit
        · cases hdot
      have hparts : split (trim text) '/' true = [trim text] :=
        (split_true_eq_iff hquad.ne_nil).mpr ⟨by simp, by simpa using hslash, by simp⟩
      rw [hparts]
      simp only
      rw [parseIpv4_eq_some (by rwa [trim_eq_self htrimmed])]
      rfl
    | range htext hquad hblank hdenotes hle =>
      rename_i quad blanks digits n p
      have hslash : '/' ∉ quad ++ blanks := by
        intro hmem
        rcases List.mem_append.mp hmem with hmem | hmem
        · rcases hquad.mem hmem with hdigit | hdot
          · cases hdigit
          · cases hdot
        · cases hblank _ hmem
      have hparts : split (trim text) '/' true = [quad ++ blanks, digits] := by
        refine (split_true_eq_iff (by rw [htext]; simp [hquad.ne_nil])).mpr ⟨by simp, ?_, ?_⟩
        · intro part hpart
          simp only [List.mem_cons, List.not_mem_nil, or_false] at hpart
          rcases hpart with rfl | rfl
          · exact hslash
          · exact not_mem_decimal hdenotes.1 rfl
        · rw [htext]
          simp
      have hip : parseIpv4 (quad ++ blanks) = some ⟨BitVec.ofNat 32 n⟩ := by
        refine parseIpv4_eq_some ?_
        have htrim := trim_blank_append (fun _ hc => absurd hc List.not_mem_nil)
          hquad.noSpace.trimmed hblank
          hquad.ne_nil (s := [])
        rw [List.nil_append] at htrim
        rwa [htrim]
      rw [hparts]
      simp only
      rw [if_neg (by simp [hdenotes.1]), (parseCidrPrefix_iff hdenotes.1).mpr ⟨hdenotes, hle⟩, hip]
      rfl

/-- **The text forms of addresses and ranges are exact.** -/
theorem addressTexts_exact :
    (∀ text ip, parseIpv4 text = some ip ↔ DottedQuad (trim text) ip.value.toNat) ∧
      (∀ text, (parseIpv4 text).isSome = true ↔ ∃ n, DottedQuad (trim text) n) ∧
      (∀ ip, parseIpv4 (ipv4ToString ip) = some ip) ∧
      (∀ text r, parseCidr text = some r ↔ RangeText (trim text) r) ∧
      (∀ text r, parseCidr text = some r → r.prefixLength ≤ 32 ∧ r.masked = r) ∧
      (∀ digits, isDecimal digits = true →
        boundedDecimalChecked 32 32 0 digits = .ok (boundedDecimal 32 32 0 digits)) ∧
      ∀ r : CIDRRange, r.prefixLength ≤ 32 → parseCidr r.toString = some r.masked := by
  refine ⟨fun _ _ => parseIpv4_iff, fun text => ?_, parseIpv4_ipv4ToString, fun _ _ =>
    parseCidr_iff,
    fun _ _ => parseCidr_valid, fun _ => parseCidrPrefix_checked, parseCidr_toString⟩
  rw [Option.isSome_iff_exists]
  constructor
  · rintro ⟨ip, hip⟩
    exact ⟨_, parseIpv4_iff.mp hip⟩
  · rintro ⟨n, hquad⟩
    exact ⟨_, parseIpv4_eq_some hquad⟩

/-- `10.0.0.5 /008` is the range 10.0.0.0/8. -/
theorem addressTexts_exact_blank :
    (⟨⟨0x0a000000⟩, 8⟩ : CIDRRange).masked = ⟨⟨0x0a000000⟩, 8⟩ ∧
      RangeText (trim "10.0.0.5 /008".toList) ⟨⟨0x0a000000⟩, 8⟩ :=
  ⟨(addressTexts_exact.2.2.2.2.1 "10.0.0.5 /008".toList _ rfl).2,
    (addressTexts_exact.2.2.2.1 "10.0.0.5 /008".toList _).mp rfl⟩

end PacketGuard.Rules
