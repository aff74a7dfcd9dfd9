import PacketGuard.Core.Strings
import PacketGuard.Core.Time
import PacketGuard.Lib.Faults

/-! # Unix time stamps

`parse_unix_timestamp` reads a number of seconds and perhaps a fraction.  It
returns nothing for a text that is neither, but the conversion of the seconds
throws on a number that a 64-bit integer cannot hold.
-/
namespace PacketGuard.Core
open PacketGuard.Lib

/-- `std::stoll` of a string of digits: `std::out_of_range` is thrown beyond `LLONG_MAX`. -/
def stoll (digits : Str) : Checked Int :=
  if Nat.ofDigitChars 10 digits 0 < 2 ^ 63 then .ok (Nat.ofDigitChars 10 digits 0)
  else .error .outOfRange

/-- `std::stol` of a string of digits, where a `long` has no more than the 32 bits it must have. -/
def stol (digits : Str) : Checked Int :=
  if Nat.ofDigitChars 10 digits 0 < 2 ^ 31 then .ok (Nat.ofDigitChars 10 digits 0)
  else .error .outOfRange

/-- Zeros are appended up to nine digits, and digits behind the ninth cut off. -/
def nineDigits (frac : Str) : Str :=
  (frac ++ List.replicate (9 - frac.length) '0').take 9

def parseUnixTimestamp (value : Str) : Checked (Option Timestamp) :=
  let v := trim value
  match find '.' v with
  | none =>
    if !isDecimal v then return none
    else do
      let seconds ← stoll v
      return some ⟨seconds, 0⟩
  | some pos =>
    let sec := v.take pos
    let frac := substr (pos + 1) v
    if !isDecimal sec || !isDecimal frac then return none
    else do
      let seconds ← stoll sec
      let nanos ← stol (nineDigits frac)
      return some ⟨seconds, nanos⟩

/-- A text that denotes seconds and nanoseconds: of a fraction the first nine digits count. -/
inductive UnixText : Str → Nat → Nat → Prop
  | whole {digits : Str} :
  isDecimal digits = true → UnixText digits (Nat.ofDigitChars 10 digits 0) 0
  | fraction {sec frac : Str} : isDecimal sec = true → isDecimal frac = true →
      UnixText (sec ++ '.' :: frac) (Nat.ofDigitChars 10 sec 0)
        (Nat.ofDigitChars 10 (frac.take 9) 0 * 10 ^ (9 - (frac.take 9).length))

/-- The result is as the text says, and there is none when the text says nothing or too much. -/
def ExactlyParsed (value : Str) : Prop :=
  (∀ seconds nanos, UnixText (trim value) seconds nanos → seconds < 2 ^ 63 →
      parseUnixTimestamp value = .ok (some ⟨seconds, nanos⟩)) ∧
    ((∀ seconds nanos, UnixText (trim value) seconds nanos → 2 ^ 63 ≤ seconds) →
      parseUnixTimestamp value = .ok none)

theorem ofDigitChars_lt {digits : Str} (h : digits.all isDigit = true) :
    Nat.ofDigitChars 10 digits 0 < 10 ^ digits.length := by
  induction digits using List.reverseRecOn with
  | nil => exact Nat.one_pos
  | append_singleton digits c ih =>
    rw [List.all_append, Bool.and_eq_true, List.all_cons, Bool.and_eq_true] at h
    have hc := digitValue_le h.2.1
    have hdigits := ih h.1
    have hlast : Nat.ofDigitChars 10 (digits ++ [c]) 0 = 10 * Nat.ofDigitChars 10 digits 0 +
        digitValue c := by
      rw [Nat.ofDigitChars_append, Nat.ofDigitChars_cons, Nat.ofDigitChars_nil, digitValue]
    rw [hlast, List.length_append, List.length_singleton, Nat.pow_succ]
    omega

/-- Padding and cutting come to the same number in either order. -/
theorem ofDigitChars_nineDigits (frac : Str) :
    Nat.ofDigitChars 10 (nineDigits frac) 0 =
      Nat.ofDigitChars 10 (frac.take 9) 0 * 10 ^ (9 - (frac.take 9).length) := by
  have hsplit : nineDigits frac = frac.take 9 ++ List.replicate (9 - (frac.take 9).length) '0' := by
    unfold nineDigits
    rw [List.take_append, List.take_replicate, List.length_take]
    congr 2
    omega
  rw [hsplit, Nat.ofDigitChars_append, Nat.ofDigitChars_replicate_zero, Nat.mul_comm]

/-- Nine digits are less than a second. -/
theorem nanos_lt {frac : Str} (h : isDecimal frac = true) :
    Nat.ofDigitChars 10 (frac.take 9) 0 * 10 ^ (9 - (frac.take 9).length) < 10 ^ 9 := by
  have hall : (frac.take 9).all isDigit = true :=
    List.all_eq_true.mpr fun c hc => isDigit_of_mem_decimal h (List.mem_of_mem_take hc)
  have hlength : (frac.take 9).length ≤ 9 := List.length_take_le _ _
  calc Nat.ofDigitChars 10 (frac.take 9) 0 * 10 ^ (9 - (frac.take 9).length)
      < 10 ^ (frac.take 9).length * 10 ^ (9 - (frac.take 9).length) :=
        Nat.mul_lt_mul_of_pos_right (ofDigitChars_lt hall) (by positivity)
    _ = 10 ^ 9 := by rw [← Nat.pow_add, Nat.add_sub_cancel' hlength]

theorem UnixText.nanos_lt {text : Str} {seconds nanos : Nat} (h : UnixText text seconds nanos) :
    nanos < 10 ^ 9 := by
  cases h with
  | whole _ => positivity
  | fraction _ hfrac => exact Core.nanos_lt hfrac

/-- **A time stamp** is converted when its seconds fit into 64 bits; else the conversion throws. -/
theorem parseUnixTimestamp_of_text {value : Str} {seconds nanos : Nat}
    (h : UnixText (trim value) seconds nanos) :
    parseUnixTimestamp value =
      if seconds < 2 ^ 63 then .ok (some ⟨seconds, nanos⟩) else .error .outOfRange := by
  unfold parseUnixTimestamp
  generalize trim value = text at h ⊢
  cases h with
  | whole hdigits =>
    simp only
    rw [find_eq_none (not_mem_decimal hdigits rfl)]
    simp only
    rw [if_neg (by simp [hdigits]), stoll]
    split <;> rfl
  | fraction hsec hfrac =>
    rename_i sec frac
    simp only
    rw [find_append_cons (not_mem_decimal hsec rfl)]
    have hdrop : substr (sec.length + 1) (sec ++ '.' :: frac) = frac := by simp [substr]
    have hnanos := Core.nanos_lt hfrac
    simp only [List.take_left, hdrop]
    rw [if_neg (by simp [hsec, hfrac]), stoll, stol, ofDigitChars_nineDigits,
      if_pos (hnanos.trans (by norm_num))]
    split <;> rfl

/-- There is no result for any other text. -/
theorem parseUnixTimestamp_eq_none {value : Str}
    (h : ∀ seconds nanos, ¬ UnixText (trim value) seconds nanos) :
    parseUnixTimestamp value = .ok none := by
  unfold parseUnixTimestamp
  simp only
  cases hdot : find '.' (trim value) with
  | none =>
    have hdecimal : isDecimal (trim value) = false :=
      Bool.eq_false_iff.mpr fun hdecimal => h _ _ (.whole hdecimal)
    simp only [hdecimal]
    rfl
  | some pos =>
    obtain ⟨hlt, hchar, -⟩ := List.findIdx?_eq_some_iff_getElem.mp hdot
    have htext : trim value = (trim value).take pos ++ '.' :: substr (pos + 1) (trim value) := by
      conv_lhs => rw [← List.take_append_drop pos (trim value), List.drop_eq_getElem_cons hlt,
        beq_iff_eq.mp hchar]
      rw [substr]
    have hdecimal : (!isDecimal ((trim value).take pos) || !isDecimal
        (substr (pos + 1) (trim value))) = true := by
      rw [Bool.or_eq_true, Bool.not_eq_true', Bool.not_eq_true']
      by_contra hboth
      rw [not_or, Bool.not_eq_false, Bool.not_eq_false] at hboth
      have hfraction := UnixText.fraction hboth.1 hboth.2
      rw [← htext] at hfraction
      exact h _ _ hfraction
    simp only
    rw [if_pos hdecimal]
    rfl

/-- **Parsing is exact, and throws nothing, exactly when** the seconds of the text
fit into 64 bits. -/
theorem exactlyParsed_iff (value : Str) :
    (ExactlyParsed value ↔
        ∀ seconds nanos, UnixText (trim value) seconds nanos → seconds < 2 ^ 63) ∧
      ∀ seconds nanos, UnixText (trim value) seconds nanos → nanos < 10 ^ 9 := by
  refine ⟨?_, fun _ _ htext => htext.nanos_lt⟩
  constructor
  · rintro ⟨-, hnothing⟩ seconds nanos htext
    by_contra hlarge
    have hparse := parseUnixTimestamp_of_text htext
    rw [if_neg hlarge] at hparse
    have hall : ∀ seconds' nanos', UnixText (trim value) seconds' nanos' → 2 ^ 63 ≤ seconds' := by
      intro seconds' nanos' htext'
      by_contra hfits
      have hparse' := parseUnixTimestamp_of_text htext'
      rw [if_pos (Nat.lt_of_not_le hfits), hparse] at hparse'
      cases hparse'
    rw [hparse] at hnothing
    cases hnothing hall
  · intro hfits
    constructor
    · intro seconds nanos htext hsmall
      rw [parseUnixTimestamp_of_text htext, if_pos hsmall]
    · intro hlarge
      exact parseUnixTimestamp_eq_none fun seconds nanos htext =>
        Nat.not_lt.mpr (hlarge seconds nanos htext) (hfits seconds nanos htext)

/-- One more than `LLONG_MAX` seconds. -/
theorem not_exactlyParsed_large : ¬ ∀ value, ExactlyParsed value := by
  intro hexact
  have hthrows : parseUnixTimestamp "9223372036854775808".toList = .error .outOfRange := by rfl
  have hlarge : ∀ seconds nanos, UnixText (trim "9223372036854775808".toList) seconds nanos →
      2 ^ 63 ≤ seconds := by
    intro seconds nanos htext
    by_contra hsmall
    have hparse := parseUnixTimestamp_of_text htext
    rw [if_pos (Nat.lt_of_not_le hsmall), hthrows] at hparse
    cases hparse
  have hnone := (hexact _).2 hlarge
  rw [hthrows] at hnone
  cases hnone

end PacketGuard.Core
