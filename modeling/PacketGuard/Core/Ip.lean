import PacketGuard.Core.Strings

/-! IPv4 addresses and CIDR ranges (`core/ip.cpp`), with the round trip through
their text forms. -/
namespace PacketGuard.Core

structure IPv4Address where
  value : BitVec 32 := 0
  deriving DecidableEq, Repr

/-- A range of addresses; `prefixLength` is the field `prefix`. -/
structure CIDRRange where
  network : IPv4Address := {}
  prefixLength : Nat := 32
  deriving DecidableEq, Repr

def cidrMask (prefixLength : Nat) : BitVec 32 :=
  if prefixLength = 0 then 0
  else if 32 ≤ prefixLength then 0xffffffff
  else (0xffffffff : BitVec 32) <<< (32 - prefixLength)

def CIDRRange.contains (r : CIDRRange) (ip : IPv4Address) : Bool :=
  (ip.value &&& cidrMask r.prefixLength) == (r.network.value &&& cidrMask r.prefixLength)

/-- `(value >> shift) & 255`. -/
def octet (value : BitVec 32) (shift : Nat) : Nat := ((value >>> shift) &&& 255).toNat

def ipv4ToString (ip : IPv4Address) : Str :=
  natToString (octet ip.value 24) ++ ['.'] ++ natToString (octet ip.value 16) ++ ['.'] ++
    natToString (octet ip.value 8) ++ ['.'] ++ natToString (octet ip.value 0)

def CIDRRange.toString (r : CIDRRange) : Str :=
  ipv4ToString ⟨r.network.value &&& cidrMask r.prefixLength⟩ ++ ['/'] ++ natToString r.prefixLength

/-- `std::stoi` of a string of digits. -/
def stoi (digits : Str) : Nat := Nat.ofDigitChars 10 digits 0

/-- The loop of `parse_ipv4` over the parts. -/
def parseIpv4Parts (value : BitVec 32) : List Str → Option (BitVec 32)
  | [] => some value
  | part :: parts =>
    if !isDecimal part || 3 < part.length then none
    else if 255 < stoi part then none
    else parseIpv4Parts ((value <<< 8) ||| BitVec.ofNat 32 (stoi part)) parts

def parseIpv4 (text : Str) : Option IPv4Address :=
  let parts := split (trim text) '.' true
  if parts.length ≠ 4 then none else (parseIpv4Parts 0 parts).map IPv4Address.mk

def parseCidrPrefix (text : Str) : Option Nat :=
  if text.isEmpty then none else boundedDecimal 32 32 0 text

def parseCidr (text : Str) : Option CIDRRange :=
  match split (trim text) '/' true with
  | [part] => (parseIpv4 part).map fun ip => ⟨ip, 32⟩
  | [part, suffix] =>
    if !isDecimal suffix then none
    else do
      let prefixLength ← parseCidrPrefix suffix
      let ip ← parseIpv4 part
      some ⟨⟨ip.value &&& cidrMask prefixLength⟩, prefixLength⟩
  | _ => none

/-! ## The round trip -/

theorem octet_eq (value : BitVec 32) (shift : Nat) :
    octet value shift = value.toNat / 2 ^ shift % 256 := by
  simp only [octet, BitVec.toNat_and, BitVec.toNat_ushiftRight,
    Nat.shiftRight_eq_div_pow]
  exact Nat.and_two_pow_sub_one_eq_mod (value.toNat / 2 ^ shift) 8

theorem octet_le (value : BitVec 32) (shift : Nat) : octet value shift ≤ 255 := by
  have := Nat.mod_lt (value.toNat / 2 ^ shift) (show 0 < 256 by omega)
  rw [octet_eq]
  omega

/-- Shifting in an octet, as arithmetic. -/
theorem toNat_shiftIn (value : BitVec 32) {o : Nat} (ho : o ≤ 255) :
    ((value <<< 8) ||| BitVec.ofNat 32 o).toNat = value.toNat % 2 ^ 24 * 256 + o := by
  have hshift : (value <<< 8).toNat = (value.toNat % 2 ^ 24) <<< 8 := by
    rw [BitVec.toNat_shiftLeft, Nat.shiftLeft_eq, Nat.shiftLeft_eq]
    omega
  rw [BitVec.toNat_or, hshift, BitVec.toNat_ofNat, Nat.mod_eq_of_lt (show o < 2 ^ 32 by omega),
    ← Nat.shiftLeft_add_eq_or_of_lt (show o < 2 ^ 8 by omega), Nat.shiftLeft_eq]

theorem parseIpv4Parts_natToString (value : BitVec 32) {o : Nat} (ho : o ≤ 255)
    (parts : List Str) :
    parseIpv4Parts value (natToString o :: parts) =
      parseIpv4Parts ((value <<< 8) ||| BitVec.ofNat 32 o) parts := by
  have hlen : (natToString o).length ≤ 3 := by
    rw [natToString, Nat.length_toDigits_le_iff (by decide) (by decide)]
    omega
  have hval : stoi (natToString o) = o := Nat.ofDigitChars_ten_toDigits
  rw [parseIpv4Parts, hval, if_neg, if_neg (by omega)]
  simp [isDecimal_natToString o, hlen]

theorem parseIpv4Parts_octets (value : BitVec 32) :
    parseIpv4Parts 0 [natToString (octet value 24), natToString (octet value 16),
      natToString (octet value 8), natToString (octet value 0)] = some value := by
  rw [parseIpv4Parts_natToString _ (octet_le _ _), parseIpv4Parts_natToString _ (octet_le _ _),
    parseIpv4Parts_natToString _ (octet_le _ _), parseIpv4Parts_natToString _ (octet_le _ _)]
  rw [parseIpv4Parts, Option.some.injEq]
  apply BitVec.eq_of_toNat_eq
  rw [toNat_shiftIn _ (octet_le _ _), toNat_shiftIn _ (octet_le _ _),
    toNat_shiftIn _ (octet_le _ _), toNat_shiftIn _ (octet_le _ _)]
  have := value.isLt
  simp only [octet_eq]
  omega

/-- The parts of a dotted address. -/
def octetTexts (ip : IPv4Address) : List Str :=
  [natToString (octet ip.value 24), natToString (octet ip.value 16),
    natToString (octet ip.value 8), natToString (octet ip.value 0)]

theorem ipv4ToString_eq (ip : IPv4Address) :
    ipv4ToString ip = ['.'].intercalate (octetTexts ip) := by
  simp [ipv4ToString, octetTexts, List.intercalate]

/-- The characters of a dotted address are digits and dots. -/
theorem mem_ipv4ToString {ip : IPv4Address} {c : Char} (h : c ∈ ipv4ToString ip) :
    isDigit c ∨ c = '.' := by
  simp only [ipv4ToString, List.mem_append, List.mem_singleton] at h
  have hd : ∀ n, c ∈ natToString n → isDigit c := fun n hn =>
    Nat.isDigit_of_mem_toDigits (by decide) (by decide) hn
  rcases h with (((((h | h) | h) | h) | h) | h) | h <;>
    first | exact Or.inr h | exact Or.inl (hd _ h)

theorem not_mem_ipv4ToString {c : Char} (hd : isDigit c = false) (hdot : c ≠ '.')
    (ip : IPv4Address) : c ∉ ipv4ToString ip := by
  intro h
  rcases mem_ipv4ToString h with h | h
  · rw [hd] at h
    cases h
  · exact hdot h

theorem noSpace_ipv4ToString (ip : IPv4Address) : NoSpace (ipv4ToString ip) := by
  intro c hc
  rcases mem_ipv4ToString hc with h | rfl
  · exact isSpace_of_isDigit h
  · rfl

theorem ipv4ToString_ne_nil (ip : IPv4Address) : ipv4ToString ip ≠ [] := by
  simp [ipv4ToString]

/-- **Reading back a printed address.** -/
theorem parseIpv4_ipv4ToString (ip : IPv4Address) : parseIpv4 (ipv4ToString ip) = some ip := by
  have hsplit : split (ipv4ToString ip) '.' true = octetTexts ip := by
    rw [ipv4ToString_eq]
    refine split_keep_intercalate (by simp [octetTexts]) ?_ ?_
    · intro p hp
      simp only [octetTexts, List.mem_cons, List.not_mem_nil, or_false] at hp
      rcases hp with rfl | rfl | rfl | rfl <;> exact not_mem_natToString rfl _
    · simp [octetTexts, natToString]
  rw [parseIpv4, trim_eq_self (noSpace_ipv4ToString ip).trimmed, hsplit, octetTexts,
    parseIpv4Parts_octets]
  rfl

theorem noSpace_toString (r : CIDRRange) : NoSpace r.toString :=
  ((noSpace_ipv4ToString _).append (by intro c hc; rw [List.mem_singleton.mp hc]; rfl)).append
    (noSpace_natToString _)

/-- The characters of a printed range are digits, dots and the slash. -/
theorem mem_cidrToString {r : CIDRRange} {c : Char} (h : c ∈ r.toString) :
    isDigit c ∨ c = '.' ∨ c = '/' := by
  simp only [CIDRRange.toString, List.mem_append, List.mem_singleton] at h
  rcases h with (h | h) | h
  · exact (mem_ipv4ToString h).imp_right Or.inl
  · exact Or.inr (Or.inr h)
  · exact Or.inl (Nat.isDigit_of_mem_toDigits (by decide) (by decide) h)

/-- The range with its network masked to its prefix. -/
def CIDRRange.masked (r : CIDRRange) : CIDRRange :=
  ⟨⟨r.network.value &&& cidrMask r.prefixLength⟩, r.prefixLength⟩

/-- **Reading back a printed range** gives the range with its network masked. -/
theorem parseCidr_toString (r : CIDRRange) (h : r.prefixLength ≤ 32) :
    parseCidr r.toString = some r.masked := by
  have hsplit : split r.toString '/' true =
      [ipv4ToString ⟨r.network.value &&& cidrMask r.prefixLength⟩, natToString r.prefixLength] := by
    have he : r.toString = ['/'].intercalate
        [ipv4ToString ⟨r.network.value &&& cidrMask r.prefixLength⟩,
          natToString r.prefixLength] := by
      simp [CIDRRange.toString, List.intercalate]
    rw [he]
    refine split_keep_intercalate (by simp) ?_ ?_
    · intro p hp
      simp only [List.mem_cons, List.not_mem_nil, or_false] at hp
      rcases hp with rfl | rfl
      · exact not_mem_ipv4ToString rfl (by decide) _
      · exact not_mem_natToString rfl _
    · simp [natToString]
  have hpre : parseCidrPrefix (natToString r.prefixLength) = some r.prefixLength := by
    rw [parseCidrPrefix, if_neg (by simp [natToString]), boundedDecimal_natToString (by norm_num) h]
  rw [parseCidr, trim_eq_self (noSpace_toString r).trimmed, hsplit]
  simp [isDecimal_natToString, hpre, parseIpv4_ipv4ToString, CIDRRange.masked, BitVec.and_assoc]

theorem CIDRRange.masked_masked (r : CIDRRange) : r.masked.masked = r.masked := by
  simp [CIDRRange.masked, BitVec.and_assoc]

/-- A parsed range has a prefix of at most 32 bits and a masked network. -/
theorem parseCidr_valid {text : Str} {r : CIDRRange} (h : parseCidr text = some r) :
    r.prefixLength ≤ 32 ∧ r.masked = r := by
  unfold parseCidr at h
  split at h
  · obtain ⟨ip, -, rfl⟩ := Option.map_eq_some_iff.mp h
    refine ⟨Nat.le_refl 32, ?_⟩
    exact congrArg (fun v => (⟨⟨v⟩, 32⟩ : CIDRRange)) BitVec.and_allOnes
  · rename_i part suffix _
    split at h
    · cases h
    · obtain ⟨n, hn, h⟩ := Option.bind_eq_some_iff.mp h
      obtain ⟨ip, -, h⟩ := Option.bind_eq_some_iff.mp h
      cases h
      refine ⟨?_, CIDRRange.masked_masked ⟨ip, n⟩⟩
      unfold parseCidrPrefix at hn
      split at hn
      · cases hn
      · exact boundedDecimal_le (by omega) hn
  · cases h

/-! ## Masks -/

/-- The mask sets the bits of the prefix. -/
theorem getLsbD_cidrMask (count : Nat) {i : Nat} (hi : i < 32) :
    (cidrMask count).getLsbD i = decide (32 - count ≤ i) := by
  have hones : (0xffffffff : BitVec 32) = BitVec.allOnes 32 := rfl
  unfold cidrMask
  by_cases h0 : count = 0
  · rw [if_pos h0, decide_eq_false (by omega)]
    exact BitVec.getLsbD_zero
  · rw [if_neg h0]
    by_cases h32 : 32 ≤ count
    · rw [if_pos h32, hones, BitVec.getLsbD_allOnes, decide_eq_true hi]
      exact (decide_eq_true (by omega)).symm
    · rw [if_neg h32, hones, BitVec.getLsbD_shiftLeft, BitVec.getLsbD_allOnes, decide_eq_true hi]
      by_cases hlow : i < 32 - count
      · have hcount : i + count < 32 := by omega
        simp [hlow, hcount]
      · have hrest : i - (32 - count) < 32 := by omega
        have hhigh : 32 - count ≤ i := by omega
        simp [hlow, hrest, hhigh]

/-- The mask of a shorter prefix is a part of the mask of a longer one. -/
theorem cidrMask_and_of_le {short long : Nat} (h : short ≤ long) :
    cidrMask long &&& cidrMask short = cidrMask short := by
  apply BitVec.eq_of_getLsbD_eq
  intro i hi
  rw [BitVec.getLsbD_and, getLsbD_cidrMask long hi, getLsbD_cidrMask short hi]
  by_cases hshort : 32 - short ≤ i
  · rw [decide_eq_true hshort, decide_eq_true (by omega)]
    rfl
  · rw [decide_eq_false hshort, Bool.and_false]

end PacketGuard.Core
