import PacketGuard.Core.Strings

/-! Bytes as hexadecimal text: `bytes_to_hex` and `hex_to_bytes`
(`core/strings.cpp`). -/
namespace PacketGuard.Core

/-- The characters that `hex_to_bytes` passes over. -/
def isHexSeparator (c : Char) : Bool := isSpace c || c == ':' || c == '-'

/-- The value of a hexadecimal digit. -/
def hexDigitValue (c : Char) : Nat :=
  if isDigit c then digitValue c else c.toLower.toNat - 'a'.toNat + 10

/-- `std::stoul(digits, nullptr, 16)` of hexadecimal digits. -/
def stoulHex (digits : Str) : Nat := digits.foldl (fun value c => value * 16 + hexDigitValue c) 0

/-- The loop of `hex_to_bytes` over the pairs of digits. -/
def hexPairs : Str → List UInt8
  | c :: d :: h => UInt8.ofNat (stoulHex [c, d]) :: hexPairs h
  | _ => []

/-- The digits of a text: everything but the separators. -/
def hexDigits (hex : Str) : Str := hex.filter fun c => !isHexSeparator c

def hexToBytes (hex : Str) : List UInt8 :=
  let h := hexDigits hex
  if h.length % 2 ≠ 0 || !isHexString h then [] else hexPairs h

/-! ## Digits -/

theorem isXDigit_toLower (c : Char) : isXDigit c.toLower = isXDigit c := by
  by_cases hu : c.isUpper
  · have hletters : ∀ n < 91, 65 ≤ n →
        isXDigit (Char.ofNat n).toLower = isXDigit (Char.ofNat n) := by decide
    simp only [Char.isUpper, decide_eq_true_eq] at hu
    have hlow : 65 ≤ c.toNat := hu.1
    have hhigh : c.toNat ≤ 90 := hu.2
    have heq := hletters c.toNat (by omega) hlow
    rwa [Char.ofNat_toNat] at heq
  · rw [Char.toLower_eq_of_not_isUpper hu]

/-- The digit that `bytes_to_hex` writes for a value. -/
def hexLut (n : Nat) : Char := "0123456789abcdef".toList.getD n '0'

theorem bytesToHex_cons (b : UInt8) (data : List UInt8) :
    bytesToHex (b :: data) = hexLut (b.toNat / 16) :: hexLut (b.toNat % 16) :: bytesToHex data := by
  have hhigh : b.toNat >>> 4 = b.toNat / 16 := Nat.shiftRight_eq_div_pow b.toNat 4
  have hlow : b.toNat &&& 15 = b.toNat % 16 := Nat.and_two_pow_sub_one_eq_mod b.toNat 4
  rw [← hhigh, ← hlow]
  rfl

@[simp] theorem hexDigitValue_hexLut {n : Nat} (hn : n < 16) : hexDigitValue (hexLut n) = n := by
  revert n
  decide

theorem isXDigit_hexLut {n : Nat} (hn : n < 16) : isXDigit (hexLut n) = true := by
  revert n
  decide

/-- A digit, read and written. -/
theorem hexLut_hexDigitValue {c : Char} (h : isXDigit c = true) :
    hexLut (hexDigitValue c) = c.toLower ∧ hexDigitValue c < 16 := by
  have hdigits : ∀ n < 103, isXDigit (Char.ofNat n) = true →
      hexLut (hexDigitValue (Char.ofNat n)) = (Char.ofNat n).toLower ∧
        hexDigitValue (Char.ofNat n) < 16 := by
    decide
  have hlt : c.toNat < 103 := by
    simp only [isXDigit, isDigit, Char.isDigit, Bool.or_eq_true, Bool.and_eq_true,
      decide_eq_true_eq] at h
    rcases h with (⟨-, h⟩ | ⟨-, h⟩) | ⟨-, h⟩
    · exact Nat.lt_of_le_of_lt (show c.toNat ≤ 57 from h) (by decide)
    · exact Nat.lt_of_le_of_lt (show c.toNat ≤ 102 from h) (by decide)
    · exact Nat.lt_of_le_of_lt (show c.toNat ≤ 70 from h) (by decide)
  have hc := hdigits c.toNat hlt
  rw [Char.ofNat_toNat] at hc
  exact hc h

/-! ## The round trip -/

theorem hexPairs_bytesToHex (data : List UInt8) : hexPairs (bytesToHex data) = data := by
  induction data with
  | nil => rfl
  | cons b data ih =>
    have hb := b.toNat_lt
    have hpair : stoulHex [hexLut (b.toNat / 16), hexLut (b.toNat % 16)] = b.toNat := by
      simp only [stoulHex, List.foldl_cons, List.foldl_nil]
      rw [hexDigitValue_hexLut (by omega), hexDigitValue_hexLut (by omega)]
      omega
    rw [bytesToHex_cons, hexPairs, ih, hpair, UInt8.ofNat_toNat]

/-- **Step and run** of the loop: pairs of digits, read and written, are the digits
in lower case. -/
theorem bytesToHex_hexPairs {h : Str} (heven : h.length % 2 = 0)
    (hdigits : ∀ c ∈ h, isXDigit c = true) :
    bytesToHex (hexPairs h) = toLower h := by
  fun_induction hexPairs h with
  | case1 c d h ih =>
    obtain ⟨hc, hclt⟩ := hexLut_hexDigitValue (hdigits c List.mem_cons_self)
    obtain ⟨hd, hdlt⟩ := hexLut_hexDigitValue
      (hdigits d (List.mem_cons_of_mem _ List.mem_cons_self))
    have hpair : (UInt8.ofNat (stoulHex [c, d])).toNat =
        hexDigitValue c * 16 + hexDigitValue d := by
      simp only [stoulHex, List.foldl_cons, List.foldl_nil, UInt8.toNat_ofNat']
      omega
    have hdiv : (hexDigitValue c * 16 + hexDigitValue d) / 16 = hexDigitValue c := by omega
    have hmod : (hexDigitValue c * 16 + hexDigitValue d) % 16 = hexDigitValue d := by omega
    have heven' : h.length % 2 = 0 := by
      rw [List.length_cons, List.length_cons] at heven
      omega
    rw [bytesToHex_cons, hpair, hdiv, hmod, hc, hd,
      ih heven' fun e he => hdigits e (List.mem_cons_of_mem _ (List.mem_cons_of_mem _ he))]
    rfl
  | case2 h hshort =>
    rcases h with _ | ⟨c, _ | ⟨d, h⟩⟩
    · rfl
    · cases heven
    · exact absurd rfl (hshort c d h)

theorem isXDigit_of_mem_bytesToHex {data : List UInt8} {c : Char} (h : c ∈ bytesToHex data) :
    isXDigit c = true := by
  induction data with
  | nil => cases h
  | cons b data ih =>
    have hb := b.toNat_lt
    rw [bytesToHex_cons, List.mem_cons, List.mem_cons] at h
    rcases h with rfl | rfl | h
    · exact isXDigit_hexLut (by omega)
    · exact isXDigit_hexLut (by omega)
    · exact ih h

theorem length_bytesToHex (data : List UInt8) : (bytesToHex data).length = 2 * data.length := by
  induction data with
  | nil => rfl
  | cons b data ih =>
    rw [bytesToHex_cons, List.length_cons, List.length_cons, ih, List.length_cons]
    omega

/-- The hexadecimal form of bytes, in any case and with any separators, is read back. -/
theorem hexToBytes_of_digits {text : Str} {data : List UInt8}
    (h : toLower (hexDigits text) = bytesToHex data) :
    hexToBytes text = data := by
  have hlength : (hexDigits text).length = 2 * data.length := by
    rw [← length_bytesToHex, ← h, toLower, List.length_map]
  have hdigits : ∀ c ∈ hexDigits text, isXDigit c = true := by
    intro c hc
    have hmem : c.toLower ∈ toLower (hexDigits text) := List.mem_map_of_mem hc
    rw [h] at hmem
    rw [← isXDigit_toLower]
    exact isXDigit_of_mem_bytesToHex hmem
  have hpairs : hexPairs (hexDigits text) = data := by
    rw [← hexPairs_bytesToHex data, ← h, ← bytesToHex_hexPairs (by omega) hdigits,
      hexPairs_bytesToHex]
  unfold hexToBytes
  simp only
  split_ifs with hbad
  · -- only a text without digits is turned away here
    have hempty : hexDigits text = [] := by
      simpa [isHexString, List.all_eq_true.mpr hdigits, hlength] using hbad
    rw [← hpairs, hempty]
    rfl
  · exact hpairs

/-- **A text stands for some bytes** exactly when it is their hexadecimal form, in
any case and with any separators between the digits; every other text stands for
none. -/
theorem hexToBytes_eq_iff (text : Str) {data : List UInt8} (hne : data ≠ []) :
    hexToBytes text = data ↔ toLower (hexDigits text) = bytesToHex data := by
  refine ⟨fun h => ?_, hexToBytes_of_digits⟩
  unfold hexToBytes at h
  simp only at h
  split_ifs at h with hbad
  · exact absurd h.symm hne
  · simp only [ne_eq, decide_not, Bool.or_eq_true, Bool.not_eq_true', decide_eq_false_iff_not,
      not_or, not_not, Bool.not_eq_false, isHexString, Bool.and_eq_true, List.all_eq_true] at hbad
    rw [← h, bytesToHex_hexPairs hbad.1 hbad.2.2]

theorem hexToBytes_eq_iff_mixed : hexToBytes "0A:1b-2C 3d".toList = [10, 27, 44, 61] :=
  (hexToBytes_eq_iff _ (by decide)).mpr (by decide)

/-! ## Bytes set apart -/

/-- No digit is passed over. -/
theorem isHexSeparator_eq_false {c : Char} (h : isXDigit c = true) : isHexSeparator c = false := by
  rw [Bool.eq_false_iff]
  intro hsep
  simp only [isHexSeparator, isSpace, Bool.or_eq_true, beq_iff_eq] at hsep
  rcases hsep with ((((((rfl | rfl) | rfl) | rfl) | rfl) | rfl) | rfl) | rfl <;>
    exact absurd h (by decide)

theorem hexDigits_bytesToHex (data : List UInt8) :
    hexDigits (bytesToHex data) = bytesToHex data := by
  refine List.filter_eq_self.mpr fun c hc => ?_
  rw [isHexSeparator_eq_false (isXDigit_of_mem_bytesToHex hc)]
  rfl

theorem hexDigits_append (a b : Str) : hexDigits (a ++ b) = hexDigits a ++ hexDigits b :=
  List.filter_append ..

theorem toLower_bytesToHex (data : List UInt8) : toLower (bytesToHex data) = bytesToHex data := by
  have hlut : ∀ n < 16, (hexLut n).toLower = hexLut n := by decide
  induction data with
  | nil => rfl
  | cons b data ih =>
    have hb := b.toNat_lt
    have hcons : ∀ (c d : Char) (rest : Str), toLower (c :: d :: rest) = c.toLower :: d.toLower ::
        toLower rest :=
      fun _ _ _ => rfl
    rw [bytesToHex_cons, hcons, hlut _ (by omega), hlut _ (by omega), ih]

/-- Bytes that are written one by one behind separators are read back. -/
theorem hexToBytes_intercalate {sep : Char} (hsep : isHexSeparator sep = true) (data : List UInt8) :
    hexToBytes ([sep].intercalate (data.map fun b => bytesToHex [b])) = data := by
  refine hexToBytes_of_digits ?_
  have hdigits : hexDigits ([sep].intercalate (data.map fun b => bytesToHex [b])) =
      bytesToHex data := by
    induction data with
    | nil => rfl
    | cons b data ih =>
      have hcons : bytesToHex (b :: data) = bytesToHex [b] ++ bytesToHex data := rfl
      cases data with
      | nil => exact hexDigits_bytesToHex [b]
      | cons b' data =>
        have hskip : hexDigits
            (sep :: [sep].intercalate ((b' :: data).map fun b => bytesToHex [b])) =
            hexDigits ([sep].intercalate ((b' :: data).map fun b => bytesToHex [b])) :=
          List.filter_cons_of_neg (by simp [hsep])
        calc hexDigits ([sep].intercalate ((b :: b' :: data).map fun b => bytesToHex [b]))
            = hexDigits (bytesToHex [b] ++ sep :: [sep].intercalate
              ((b' :: data).map fun b => bytesToHex [b])) := rfl
          _ = bytesToHex [b] ++
            hexDigits ([sep].intercalate ((b' :: data).map fun b => bytesToHex [b])) := by
            rw [hexDigits_append, hexDigits_bytesToHex, hskip]
          _ = bytesToHex (b :: b' :: data) := by rw [ih, hcons]
  rw [hdigits, toLower_bytesToHex]

end PacketGuard.Core
