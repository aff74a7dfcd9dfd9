import PacketGuard.Core.UnixTime
import PacketGuard.Lib.Calendar

/-! # Time stamps in ISO 8601

`Timestamp::to_string` prints the date and time of day of a time stamp with its
nanoseconds, and `parse_iso8601_utc` reads such a text, up to the seconds.  A
printed time stamp is read back from the epoch up to the year 9999, and in that
range the texts are ordered as the time stamps are.
-/
namespace PacketGuard.Core
open PacketGuard.Lib

/-! ## The C library -/

/-- `struct tm`: months are counted from 0 and years from 1900. -/
structure Tm where
  year : Int := 0
  mon : Int := 0
  mday : Int := 0
  hour : Int := 0
  min : Int := 0
  sec : Int := 0
  deriving DecidableEq, Repr

/-- The day of the epoch. -/
def epochDay : Int := 719162

/-- `timegm`, which takes fields out of their ranges over into the next ones. -/
def timegm (tm : Tm) : Int :=
  let year := tm.year + 1900 + tm.mon / 12
  let days := daysBeforeYear year + joinBlocks (monthLengths (leapYear year)) (tm.mon % 12).toNat
    0 + (tm.mday - 1)
  (days - epochDay) * 86400 + tm.hour * 3600 + tm.min * 60 + tm.sec

/-- The year of the second, counted from 1900, fits into an `int`. -/
def YearFits (seconds : Int) : Prop :=
  -2 ^ 31 ≤ (dateAt (seconds / 86400 + epochDay)).year - 1900 ∧
    (dateAt (seconds / 86400 + epochDay)).year - 1900 < 2 ^ 31

instance (seconds : Int) : Decidable (YearFits seconds) := inferInstanceAs (Decidable (_ ∧ _))

/-- `gmtime_r`; it fails when the year does not fit into an `int`. -/
def gmtime (seconds : Int) : Option Tm :=
  let date := dateAt (seconds / 86400 + epochDay)
  let rest := seconds % 86400
  if YearFits seconds then
    some
      { year := date.year - 1900
        mon := date.month
        mday := date.day + 1
        hour := rest / 3600
        min := rest / 60 % 60
        sec := rest % 60 }
  else none

/-- What a `gmtime_r` that fails leaves in a `tm` of zeros: it stores the time of day and the year,
cut to an `int`, before it looks whether the year has fit. -/
def failedTm (seconds : Int) : Tm where
  year := Int.bmod ((dateAt (seconds / 86400 + epochDay)).year - 1900) (2 ^ 32)
  hour := seconds % 86400 / 3600
  min := seconds % 86400 / 60 % 60
  sec := seconds % 86400 % 60

/-- `std::stoi`, which throws when there is no number or it does not fit; what
follows the number is ignored. -/
def stoiText (text : Str) : Option Int :=
  let rest := text.dropWhile isSpace
  let digits := (if rest.head? = some '-' ∨ rest.head? = some '+' then rest.tail
    else rest).takeWhile isDigit
  let value : Int := Nat.ofDigitChars 10 digits 0
  let number := if rest.head? = some '-' then -value else value
  if digits.isEmpty then none
  else if -2 ^ 31 ≤ number ∧ number < 2 ^ 31 then some number else none

/-! ## Texts -/

def intToString (n : Int) : Str :=
  if n < 0 then '-' :: natToString n.natAbs else natToString n.natAbs

/-- The number with zeros in front of it, up to the width. -/
def zeroFilled (width : Nat) (n : Int) : Str := (intToString n).leftpad width '0'

/-- `%Y-%m-%dT%H:%M:%S`. -/
def putTime (tm : Tm) : Str :=
  intToString (tm.year + 1900) ++ '-' ::
    (zeroFilled 2 (tm.mon + 1) ++ '-' :: (zeroFilled 2 tm.mday ++
    'T' :: (zeroFilled 2 tm.hour ++ ':' :: (zeroFilled 2 tm.min ++ ':' :: zeroFilled 2 tm.sec))))

/-- The result of `gmtime_r` is not looked at. -/
def Timestamp.toString (t : Timestamp) : Str :=
  putTime ((gmtime t.seconds).getD (failedTm t.seconds)) ++ '.' :: (zeroFilled 9 t.nanos ++ ['Z'])

def parseIso8601Utc (value : Str) : Option Timestamp :=
  if value.length < 20 ∨ value[4]? ≠ some '-' ∨ value[7]? ≠ some '-' ∨ value[10]? ≠ some 'T' ∨
      value[13]? ≠ some ':' ∨ value[16]? ≠ some ':' then none
  else do
    let year ← stoiText ((substr 0 value).take 4)
    let mon ← stoiText ((substr 5 value).take 2)
    let mday ← stoiText ((substr 8 value).take 2)
    let hour ← stoiText ((substr 11 value).take 2)
    let min ← stoiText ((substr 14 value).take 2)
    let sec ← stoiText ((substr 17 value).take 2)
    let seconds := timegm { year := year - 1900, mon := mon - 1, mday, hour, min, sec }
    if seconds < 0 then none else some ⟨seconds, 0⟩

example : Timestamp.toString ⟨951782400, 5⟩ = "2000-02-29T00:00:00.000000005Z".toList := by decide

example : Timestamp.toString ⟨135536077748188800, 0⟩ = "2000-01-00T00:00:00.000000000Z".toList := by
  decide

example : parseIso8601Utc "2000-02-29T00:00:00Z".toList = some ⟨951782400, 0⟩ := by decide

/-! ## Dates and times -/

/-- **`timegm` undoes `gmtime`.** -/
theorem timegm_of_gmtime {seconds : Int} {tm : Tm} (h : gmtime seconds = some tm) :
    timegm tm = seconds := by
  have hnumber := CivilDate.number_dateAt (seconds / 86400 + epochDay)
  obtain ⟨length, hlength, -⟩ := (dateAt (seconds / 86400 + epochDay)).valid
  have hmonth : (dateAt (seconds / 86400 + epochDay)).month < 12 :=
    (List.getElem?_eq_some_iff.mp hlength).1
  unfold gmtime at h
  simp only at h
  split at h
  · cases h
    have hyear : (dateAt (seconds / 86400 + epochDay)).year - 1900 + 1900 +
        ((dateAt (seconds / 86400 + epochDay)).month : Int) / 12 =
          (dateAt (seconds / 86400 + epochDay)).year := by
      omega
    have hmon : (((dateAt (seconds / 86400 + epochDay)).month : Int) % 12).toNat =
        (dateAt (seconds / 86400 + epochDay)).month := by
      omega
    simp only [timegm, hyear, hmon, joinBlocks] at hnumber ⊢
    rw [CivilDate.number, joinBlocks] at hnumber
    omega
  · cases h

/-- The fields that `gmtime` fills are in their ranges. -/
structure Tm.InRange (tm : Tm) : Prop where
  mon : 0 ≤ tm.mon ∧ tm.mon < 12
  mday : 0 ≤ tm.mday ∧ tm.mday ≤ 31
  hour : 0 ≤ tm.hour ∧ tm.hour < 24
  min : 0 ≤ tm.min ∧ tm.min < 60
  sec : 0 ≤ tm.sec ∧ tm.sec < 60

theorem inRange_of_gmtime {seconds : Int} {tm : Tm} (h : gmtime seconds = some tm) :
    tm.InRange := by
  obtain ⟨length, hlength, hday⟩ := (dateAt (seconds / 86400 + epochDay)).valid
  have hmonth : (dateAt (seconds / 86400 + epochDay)).month < 12 :=
    (List.getElem?_eq_some_iff.mp hlength).1
  have hlong : length ≤ 31 := by
    have hmem := List.mem_of_getElem? hlength
    revert hmem
    generalize leapYear (dateAt (seconds / 86400 + epochDay)).year = leap
    intro hmem
    have hall : ∀ leap, ∀ length ∈ monthLengths leap, length ≤ 31 := by decide
    exact hall leap length hmem
  unfold gmtime at h
  simp only at h
  split at h
  · cases h
    constructor <;> simp only <;> omega
  · cases h

/-! ## Numerals -/

/-- A number in decimal digits. -/
structure Numeral (width value : Nat) (text : Str) : Prop where
  length : text.length = width
  digits : text.all isDigit = true
  value : Nat.ofDigitChars 10 text 0 = value

theorem numeral_natToString (n : Nat) : Numeral (natToString n).length n (natToString n) :=
  ⟨rfl, (isDecimal_iff.mp (isDecimal_natToString n)).2, Nat.ofDigitChars_ten_toDigits⟩

theorem intToString_natCast (n : Nat) : intToString n = natToString n := by
  rw [intToString, if_neg (by omega), Int.natAbs_natCast]

theorem numeral_zeroFilled {width n : Nat} (hwidth : 0 < width) (h : n < 10 ^ width) :
    Numeral width n (zeroFilled width n) := by
  have hlength : (natToString n).length ≤ width :=
    (Nat.length_toDigits_le_iff (by decide) hwidth).mpr h
  have htext : zeroFilled width n = List.replicate (width - (natToString n).length) '0' ++
      natToString n := by
    rw [zeroFilled, intToString_natCast]
    rfl
  rw [htext]
  constructor
  · rw [List.length_append, List.length_replicate]
    omega
  · rw [List.all_append, List.all_replicate, (numeral_natToString n).digits]
    simp [show isDigit '0' = true from rfl]
  · rw [Nat.ofDigitChars_append, Nat.ofDigitChars_replicate_zero, Nat.mul_zero,
      (numeral_natToString n).value]

theorem stoiText_of_digits {digits rest : Str} {n : Int} (hrest : rest.dropWhile isSpace = rest)
    (hsign : (rest = digits ∧ rest.head? ≠ some '-' ∧ rest.head? ≠ some '+' ∧
    n = Nat.ofDigitChars 10 digits 0) ∨
      rest = '-' :: digits ∧ n = -(Nat.ofDigitChars 10 digits 0 : Int))
    (hne : digits ≠ []) (hdigits : digits.all isDigit = true) (hn : -2 ^ 31 ≤ n ∧ n < 2 ^ 31) :
    stoiText rest = some n := by
  have htake : digits.takeWhile isDigit = digits := by
    rw [List.takeWhile_eq_self_iff]
    exact List.all_eq_true.mp hdigits
  unfold stoiText
  rw [hrest]
  rcases hsign with ⟨rfl, hminus, hplus, rfl⟩ | ⟨rfl, rfl⟩
  · simp only [hminus, hplus, or_self, if_false, htake, List.isEmpty_iff, hne]
    rw [if_pos hn]
  · simp only [List.head?_cons, true_or, if_true, List.tail_cons, htake, List.isEmpty_iff,
      hne, if_false]
    rw [if_pos hn]

/-- A digit is neither a blank nor a sign. -/
theorem head_of_digits {digits : Str} (hdigits : digits.all isDigit = true) :
    digits.dropWhile isSpace = digits ∧ digits.head? ≠ some '-' ∧ digits.head? ≠ some '+' := by
  cases digits with
  | nil => exact ⟨rfl, by decide, by decide⟩
  | cons c digits =>
    rw [List.all_cons, Bool.and_eq_true] at hdigits
    refine ⟨List.dropWhile_cons_of_neg (by rw [isSpace_of_isDigit hdigits.1]; decide), ?_, ?_⟩
    all_goals
      rintro ⟨⟩
      exact absurd hdigits.1 (by decide)

theorem Numeral.stoiText_eq {width value : Nat} {text : Str} (h : Numeral width value text)
    (hwidth : 0 < width)
    (hvalue : value < 2 ^ 31) : stoiText text = some (value : Int) := by
  obtain ⟨hspace, hminus, hplus⟩ := head_of_digits h.digits
  refine stoiText_of_digits hspace (Or.inl ⟨rfl, hminus, hplus, ?_⟩) ?_ h.digits (by omega)
  · rw [h.value]
  · rintro rfl
    exact absurd h.length.symm (by simpa using hwidth.ne')

theorem stoiText_intToString {n : Int} (h : -2 ^ 31 ≤ n ∧ n < 2 ^ 31) :
    stoiText (intToString n) = some n := by
  have hnumeral := numeral_natToString n.natAbs
  have hne := natToString_ne_nil n.natAbs
  by_cases hneg : n < 0
  · rw [intToString, if_pos hneg]
    refine stoiText_of_digits ?_ (Or.inr ⟨rfl, ?_⟩) hne hnumeral.digits h
    · exact List.dropWhile_cons_of_neg (by decide)
    · rw [hnumeral.value]
      omega
  · rw [intToString, if_neg hneg]
    obtain ⟨hspace, hminus, hplus⟩ := head_of_digits hnumeral.digits
    refine stoiText_of_digits hspace (Or.inl ⟨rfl, hminus, hplus, ?_⟩) hne hnumeral.digits h
    rw [hnumeral.value]
    omega

/-- Digits behind the first character. -/
theorem isDigit_of_mem_tail_intToString {n : Int} {c : Char} (h : c ∈ (intToString n).tail) :
    isDigit c = true := by
  have hall := List.all_eq_true.mp (numeral_natToString n.natAbs).digits
  unfold intToString at h
  split at h
  · exact hall c h
  · exact hall c (List.mem_of_mem_tail h)

/-! ## Round trip -/

theorem Numeral.exists_two {value : Nat} {text : Str} (h : Numeral 2 value text) :
    ∃ a b, text = [a, b] ∧ isDigit a = true ∧ isDigit b = true := by
  obtain ⟨a, b, rfl⟩ := List.length_eq_two.mp h.length
  have hdigits := h.digits
  simp only [List.all_cons, List.all_nil, Bool.and_true, Bool.and_eq_true] at hdigits
  exact ⟨a, b, rfl, hdigits⟩

theorem Numeral.stoiText_two {value : Nat} {text : Str} (h : Numeral 2 value text) :
    stoiText text = some (value : Int) := by
  have hlt := ofDigitChars_lt h.digits
  rw [h.value, h.length] at hlt
  exact h.stoiText_eq (by decide) (by omega)

theorem ne_dash_of_isDigit {c : Char} (h : isDigit c = true) : some c ≠ some '-' := by
  rintro ⟨⟩
  exact absurd h (by decide)

section
variable {year : Str} {mon mday hour min sec : Nat} {smon smday shour smin ssec tail : Str}
  (hmon : Numeral 2 mon smon) (hmday : Numeral 2 mday smday) (hhour : Numeral 2 hour shour)
  (hmin : Numeral 2 min smin) (hsec : Numeral 2 sec ssec)
include hmon hmday hhour hmin hsec

/-- A text whose year has four characters is read. -/
theorem parseIso8601Utc_of_four (hyear : year.length = 4) {y : Int} (hy : stoiText year = some y) :
    parseIso8601Utc (year ++
      '-' :: (smon ++ '-' :: (smday ++ 'T' :: (shour ++ ':' :: (smin ++ ':' ::
        (ssec ++ '.' :: tail)))))) =
        let seconds := timegm { year := y - 1900, mon := mon - 1, mday, hour, min, sec }
        if seconds < 0 then none else some ⟨seconds, 0⟩ := by
  have hmon' := hmon.stoiText_two
  have hmday' := hmday.stoiText_two
  have hhour' := hhour.stoiText_two
  have hmin' := hmin.stoiText_two
  have hsec' := hsec.stoiText_two
  obtain ⟨y₁, y₂, y₃, y₄, rfl⟩ := List.length_eq_four.mp hyear
  obtain ⟨m₁, m₂, rfl, -, -⟩ := hmon.exists_two
  obtain ⟨d₁, d₂, rfl, -, -⟩ := hmday.exists_two
  obtain ⟨h₁, h₂, rfl, -, -⟩ := hhour.exists_two
  obtain ⟨n₁, n₂, rfl, -, -⟩ := hmin.exists_two
  obtain ⟨s₁, s₂, rfl, -, -⟩ := hsec.exists_two
  unfold parseIso8601Utc
  rw [if_neg (by simp)]
  simp only [substr, List.cons_append, List.nil_append, List.drop_zero, List.drop_succ_cons,
    List.take_succ_cons, List.take_zero, hy, hmon', hmday', hhour', hmin', hsec']
  rfl

omit hhour hmin hsec in
/-- Behind a year of another length, the signs are in the wrong places. -/
theorem parseIso8601Utc_of_not_four (hne : year ≠ []) (hyear : year.length ≠ 4)
    (hdigits : ∀ c ∈ year.tail, isDigit c = true) :
    parseIso8601Utc (year ++
      '-' :: (smon ++ '-' :: (smday ++ 'T' :: (shour ++ ':' :: (smin ++ ':' ::
        (ssec ++ '.' :: tail)))))) = none := by
  obtain ⟨m₁, m₂, rfl, hm₁, hm₂⟩ := hmon.exists_two
  obtain ⟨d₁, d₂, rfl, -, -⟩ := hmday.exists_two
  refine if_pos ?_
  rcases year with _ | ⟨a, _ | ⟨b, _ | ⟨c, _ | ⟨d, _ | ⟨e, year⟩⟩⟩⟩⟩
  · exact absurd rfl hne
  · simp
  · simp [ne_dash_of_isDigit hm₂]
  · simp [ne_dash_of_isDigit hm₁]
  · exact absurd rfl hyear
  · have he : isDigit e = true := hdigits e (by simp)
    simp [ne_dash_of_isDigit he]

end

theorem length_intToString_eq_four {n : Int} :
    (intToString n).length = 4 ↔ 1000 ≤ n ∧ n ≤ 9999 ∨ -999 ≤ n ∧ n ≤ -100 := by
  have hle : ∀ {k : Nat}, 0 < k → ((natToString n.natAbs).length ≤ k ↔ n.natAbs < 10 ^ k) :=
    fun hk => Nat.length_toDigits_le_iff (by decide) hk
  have h₂ := hle (k := 2) (by decide)
  have h₃ := hle (k := 3) (by decide)
  have h₄ := hle (k := 4) (by decide)
  unfold intToString
  split
  · rw [List.length_cons]
    omega
  · omega

theorem intToString_ne_nil (n : Int) : intToString n ≠ [] := by
  unfold intToString
  split
  · exact List.cons_ne_nil _ _
  · exact natToString_ne_nil _

/-- What is read from a printed date and time. -/
theorem parseIso8601Utc_putTime {tm : Tm} (h : tm.InRange) (tail : Str) :
    parseIso8601Utc (putTime tm ++ '.' :: tail) =
      if (intToString (tm.year + 1900)).length = 4 ∧ 0 ≤ timegm tm then some ⟨timegm tm, 0⟩
        else none := by
  obtain ⟨year, mon, mday, hour, min, sec⟩ := tm
  obtain ⟨⟨hmon₀, hmon⟩, ⟨hmday₀, hmday⟩, ⟨hhour₀, hhour⟩, ⟨hmin₀, hmin⟩, ⟨hsec₀, hsec⟩⟩ := h
  simp only at hmon₀ hmon hmday₀ hmday hhour₀ hhour hmin₀ hmin hsec₀ hsec ⊢
  lift mon to Nat using hmon₀
  lift mday to Nat using hmday₀
  lift hour to Nat using hhour₀
  lift min to Nat using hmin₀
  lift sec to Nat using hsec₀
  have nmon : Numeral 2 (mon + 1) (zeroFilled 2 (mon + 1)) :=
    numeral_zeroFilled (by decide) (by omega)
  have nmday : Numeral 2 mday (zeroFilled 2 mday) := numeral_zeroFilled (by decide) (by omega)
  have nhour : Numeral 2 hour (zeroFilled 2 hour) := numeral_zeroFilled (by decide) (by omega)
  have nmin : Numeral 2 min (zeroFilled 2 min) := numeral_zeroFilled (by decide) (by omega)
  have nsec : Numeral 2 sec (zeroFilled 2 sec) := numeral_zeroFilled (by decide) (by omega)
  simp only [putTime, List.append_assoc, List.cons_append]
  by_cases hfour : (intToString (year + 1900)).length = 4
  · have hrange := length_intToString_eq_four.mp hfour
    have hyear : stoiText (intToString (year + 1900)) = some (year + 1900) :=
      stoiText_intToString (by omega)
    have hback : (((mon + 1 : Nat) : Int) - 1) = mon := by omega
    rw [parseIso8601Utc_of_four nmon nmday nhour nmin nsec hfour hyear, Int.add_sub_cancel, hback]
    simp only [hfour, true_and, ← Int.not_lt]
    rw [ite_not]
  · rw [if_neg (fun h => hfour h.1)]
    exact parseIso8601Utc_of_not_four nmon nmday (intToString_ne_nil _) hfour
      fun c hc => isDigit_of_mem_tail_intToString hc

/-- The years from the epoch to 9999, in seconds. -/
def lastSecond : Int := 253402300800

theorem year_of_gmtime {seconds : Int} {tm : Tm} (h : gmtime seconds = some tm) :
    tm.year + 1900 = yearAt (seconds / 86400 + epochDay) := by
  unfold gmtime at h
  simp only at h
  split at h
  · cases h
    exact Int.sub_add_cancel _ _
  · cases h

theorem yearAt_bounds {seconds : Int} (h : 0 ≤ seconds) :
    1970 ≤ yearAt (seconds / 86400 + epochDay) ∧
      (yearAt (seconds / 86400 + epochDay) ≤ 9999 ↔ seconds < lastSecond) := by
  constructor
  · rw [le_yearAt_iff, show daysBeforeYear 1970 = 719162 from rfl, epochDay]
    omega
  · rw [← Int.not_lt, ← Int.add_one_le_iff, le_yearAt_iff, show daysBeforeYear (9999 + 1) =
      3652059 from rfl, epochDay, lastSecond]
    omega

/-- The year has four digits. -/
theorem yearAt_four_iff {seconds : Int} (h : 0 ≤ seconds) :
    (intToString (yearAt (seconds / 86400 + epochDay))).length = 4 ↔ seconds < lastSecond := by
  obtain ⟨hfirst, hlast⟩ := yearAt_bounds h
  rw [length_intToString_eq_four, ← hlast]
  omega

theorem exists_gmtime {seconds : Int} (h : 0 ≤ seconds ∧ seconds < lastSecond) :
    ∃ tm, gmtime seconds = some tm ∧ 1000 ≤ tm.year + 1900 ∧ tm.year + 1900 ≤ 9999 := by
  obtain ⟨hfirst, hlast⟩ := yearAt_bounds h.1
  have hlast := hlast.mpr h.2
  have hyear : (dateAt (seconds / 86400 + epochDay)).year = yearAt (seconds / 86400 + epochDay) :=
    rfl
  have hfits : YearFits seconds := by
    unfold YearFits
    omega
  refine ⟨_, if_pos hfits, ?_⟩
  simp only
  omega

/-- **A time stamp is read back** from its text, up to the seconds, exactly from the
epoch up to the year 9999, among all time stamps whose year fits into an `int`. -/
theorem parseIso8601Utc_toString (t : Timestamp) (hyear : YearFits t.seconds) :
    parseIso8601Utc t.toString = if 0 ≤ t.seconds ∧ t.seconds < lastSecond then some ⟨t.seconds, 0⟩
      else none := by
  obtain ⟨tm, htm⟩ : ∃ tm, gmtime t.seconds = some tm := ⟨_, if_pos hyear⟩
  rw [Timestamp.toString, htm, Option.getD_some, parseIso8601Utc_putTime (inRange_of_gmtime htm),
    timegm_of_gmtime htm, year_of_gmtime htm]
  by_cases hsign : 0 ≤ t.seconds
  · simp only [yearAt_four_iff hsign, hsign, true_and, and_true]
  · simp only [hsign, false_and, and_false]

/-- A leap day, and the first second of the year 10000. -/
theorem parseIso8601Utc_toString_leapDay :
    parseIso8601Utc (Timestamp.toString ⟨951782400, 5⟩) = some ⟨951782400, 0⟩ ∧
      parseIso8601Utc (Timestamp.toString ⟨253402300800, 0⟩) = none :=
  ⟨parseIso8601Utc_toString ⟨951782400, 5⟩ (by decide), parseIso8601Utc_toString ⟨253402300800, 0⟩
    (by decide)⟩

/-! ## Order -/

theorem mul_add_lt_iff {k p q r s : Nat} (hr : r < k) (hs : s < k) :
    k * p + r < k * q + s ↔ p < q ∨ p = q ∧ r < s := by
  rcases Nat.lt_trichotomy p q with h | rfl | h
  · have hle : k * (p + 1) ≤ k * q := Nat.mul_le_mul_left k h
    rw [Nat.mul_succ] at hle
    omega
  · omega
  · have hle : k * (q + 1) ≤ k * p := Nat.mul_le_mul_left k h
    rw [Nat.mul_succ] at hle
    omega

theorem mul_add_eq_iff {k p q r s : Nat} (hr : r < k) (hs : s < k) :
    k * p + r = k * q + s ↔ p = q ∧ r = s := by
  have h := mul_add_lt_iff (p := p) (q := q) hr hs
  have h' := mul_add_lt_iff (p := q) (q := p) hs hr
  omega

/-- Digits are ordered as the numbers they stand for. -/
theorem digit_lt_iff {c d : Char} (hc : isDigit c = true) (hd : isDigit d = true) :
    c < d ↔ digitValue c < digitValue d := by
  have hzero : ∀ {c : Char}, isDigit c = true → 48 ≤ c.toNat := by
    intro c hc
    simp only [isDigit, Char.isDigit, Bool.and_eq_true, decide_eq_true_eq] at hc
    exact UInt32.le_iff_toNat_le.mp hc.1
  have hc := hzero hc
  have hd := hzero hd
  rw [Char.lt_def, UInt32.lt_iff_toNat_lt, digitValue, digitValue]
  show c.toNat < d.toNat ↔ c.toNat - 48 < d.toNat - 48
  omega

/-- **Numerals of one width** are ordered as their numbers, and texts that start
with them as what follows. -/
theorem Numeral.append_lt_iff {width n m : Nat} {a b : Str} (ha : Numeral width n a)
    (hb : Numeral width m b)
    (x y : Str) : a ++ x < b ++ y ↔ n < m ∨ n = m ∧ x < y := by
  obtain ⟨hwidth, hda, rfl⟩ := ha
  obtain ⟨hlength, hdb, rfl⟩ := hb
  rw [← hwidth] at hlength
  clear hwidth
  induction a generalizing b with
  | nil =>
    rw [List.length_nil, List.length_eq_zero_iff] at hlength
    subst hlength
    simp
  | cons c a ih =>
    obtain ⟨d, b, rfl⟩ := List.exists_cons_of_length_eq_add_one hlength
    rw [List.all_cons, Bool.and_eq_true] at hda hdb
    rw [List.length_cons, List.length_cons, Nat.add_right_cancel_iff] at hlength
    have hlta := ofDigitChars_lt hda.2
    have hltb := ofDigitChars_lt hdb.2
    have hvalue : ∀ (e : Char) (text : Str), Nat.ofDigitChars 10 (e :: text) 0 =
        10 ^ text.length * digitValue e + Nat.ofDigitChars 10 text 0 := by
      intro e text
      rw [Nat.ofDigitChars_cons, Nat.ofDigitChars_eq_ofDigitChars_zero, Nat.mul_zero, Nat.zero_add]
      rfl
    have hinj : c = d ↔ digitValue c = digitValue d := by
      have h := digit_lt_iff hda.1 hdb.1
      have h' := digit_lt_iff hdb.1 hda.1
      constructor
      · rintro rfl
        rfl
      · intro heq
        rw [heq] at h h'
        exact le_antisymm (not_lt.mp fun hlt => lt_irrefl _ (h'.mp hlt))
          (not_lt.mp fun hlt => lt_irrefl _ (h.mp hlt))
    rw [hlength] at hltb
    rw [List.cons_append, List.cons_append, List.cons_lt_cons_iff, ih hda.2 hlength hdb.2,
      digit_lt_iff hda.1 hdb.1, hinj, hvalue, hvalue, hlength, mul_add_lt_iff hlta hltb,
        mul_add_eq_iff hlta hltb]
    rw [and_or_left, or_assoc, and_assoc]

theorem cons_lt_cons_iff_self {c : Char} {x y : Str} : c :: x < c :: y ↔ x < y := by
  rw [List.cons_lt_cons_iff]
  simp

theorem zeroFilled_append_lt_iff {width : Nat} {n m : Int} (hwidth : 0 < width)
    (hn : 0 ≤ n ∧ n < 10 ^ width)
    (hm : 0 ≤ m ∧ m < 10 ^ width) (x y : Str) :
    zeroFilled width n ++ x < zeroFilled width m ++ y ↔ n < m ∨ n = m ∧ x < y := by
  obtain ⟨hn₀, hn⟩ := hn
  obtain ⟨hm₀, hm⟩ := hm
  lift n to Nat using hn₀
  lift m to Nat using hm₀
  have ha := numeral_zeroFilled hwidth (by exact_mod_cast hn)
  have hb := numeral_zeroFilled hwidth (by exact_mod_cast hm)
  rw [ha.append_lt_iff hb, Int.ofNat_lt, Int.natCast_inj]

theorem yearText_append_lt_iff {n m : Int} (hn : 1000 ≤ n ∧ n ≤ 9999) (hm : 1000 ≤ m ∧ m ≤ 9999)
    (x y : Str) :
    intToString n ++ x < intToString m ++ y ↔ n < m ∨ n = m ∧ x < y := by
  have hlength : (intToString n).length = 4 := length_intToString_eq_four.mpr (Or.inl hn)
  have hlength' : (intToString m).length = 4 := length_intToString_eq_four.mpr (Or.inl hm)
  -- a year of four digits is filled up by no zeros
  have hn' : intToString n = zeroFilled 4 n := by simp [zeroFilled, List.leftpad, hlength]
  have hm' : intToString m = zeroFilled 4 m := by simp [zeroFilled, List.leftpad, hlength']
  rw [hn', hm', zeroFilled_append_lt_iff (by decide) (by omega) (by omega)]

/-- Printed dates and times are ordered field by field. -/
theorem putTime_append_lt_iff {tm tm' : Tm} (h : tm.InRange) (h' : tm'.InRange)
    (hyear : 1000 ≤ tm.year + 1900 ∧ tm.year + 1900 ≤ 9999)
    (hyear' : 1000 ≤ tm'.year + 1900 ∧ tm'.year + 1900 ≤ 9999)
    (x y : Str) :
    putTime tm ++ x < putTime tm' ++ y ↔ tm.year < tm'.year ∨ tm.year = tm'.year ∧
      (tm.mon < tm'.mon ∨ tm.mon = tm'.mon ∧ (tm.mday < tm'.mday ∨ tm.mday = tm'.mday ∧
        (tm.hour < tm'.hour ∨ tm.hour = tm'.hour ∧ (tm.min < tm'.min ∨ tm.min = tm'.min ∧
          (tm.sec < tm'.sec ∨ tm.sec = tm'.sec ∧ x < y))))) := by
  have hfield : ∀ {n m : Int}, 0 ≤ n ∧ n < 60 → 0 ≤ m ∧ m < 60 → ∀ x y,
      (zeroFilled 2 n ++ x < zeroFilled 2 m ++ y ↔ n < m ∨ n = m ∧ x < y) :=
    fun hn hm => zeroFilled_append_lt_iff (by decide) (by omega) (by omega)
  obtain ⟨hmon, hmday, hhour, hmin, hsec⟩ := h
  obtain ⟨hmon', hmday', hhour', hmin', hsec'⟩ := h'
  simp only [putTime, List.append_assoc, List.cons_append]
  rw [yearText_append_lt_iff hyear hyear', cons_lt_cons_iff_self,
    hfield (n := tm.mon + 1) (m := tm'.mon + 1) (by omega) (by omega), cons_lt_cons_iff_self,
    hfield (n := tm.mday) (m := tm'.mday) (by omega) (by omega), cons_lt_cons_iff_self,
    hfield (n := tm.hour) (m := tm'.hour) (by omega) (by omega), cons_lt_cons_iff_self,
    hfield (n := tm.min) (m := tm'.min) (by omega) (by omega), cons_lt_cons_iff_self,
    hfield (n := tm.sec) (m := tm'.sec) (by omega) (by omega)]
  simp only [add_lt_add_iff_right, add_left_inj]

/-- A time stamp from the epoch up to the year 9999, with less than a second of nanoseconds. -/
structure Timestamp.Printable (t : Timestamp) : Prop where
  seconds : 0 ≤ t.seconds ∧ t.seconds < lastSecond
  nanos : 0 ≤ t.nanos ∧ t.nanos < 10 ^ 9

/-- The fields of `gmtime` are ordered as the seconds are. -/
theorem gmtime_lt_iff {s s' : Int} {tm tm' : Tm} (h : gmtime s = some tm)
    (h' : gmtime s' = some tm') {P : Prop} :
    (tm.year < tm'.year ∨ tm.year = tm'.year ∧
      (tm.mon < tm'.mon ∨ tm.mon = tm'.mon ∧ (tm.mday < tm'.mday ∨ tm.mday = tm'.mday ∧
        (tm.hour < tm'.hour ∨ tm.hour = tm'.hour ∧ (tm.min < tm'.min ∨ tm.min = tm'.min ∧
          (tm.sec < tm'.sec ∨ tm.sec = tm'.sec ∧ P)))))) ↔ s < s' ∨ s = s' ∧ P := by
  have hdate := @CivilDate.number_lt_iff (dateAt (s / 86400 + epochDay))
    (dateAt (s' / 86400 + epochDay))
  have hdate' := @CivilDate.number_lt_iff (dateAt (s' / 86400 + epochDay))
    (dateAt (s / 86400 + epochDay))
  simp only [CivilDate.number_dateAt, CivilDate.Before] at hdate hdate'
  unfold gmtime at h h'
  simp only at h h'
  split at h
  · split at h'
    · cases h
      cases h'
      by_cases hP : P
      · simp only [hP, and_true]
        omega
      · simp only [hP, and_false, or_false]
        omega
    · cases h'
  · cases h

/-- **Texts are ordered as time stamps are.** -/
theorem toString_lt_iff {t t' : Timestamp} (h : t.Printable) (h' : t'.Printable) :
    t.toString < t'.toString ↔ t.seconds < t'.seconds ∨ t.seconds = t'.seconds ∧
      t.nanos < t'.nanos := by
  obtain ⟨tm, htm, hyear⟩ := exists_gmtime h.seconds
  obtain ⟨tm', htm', hyear'⟩ := exists_gmtime h'.seconds
  rw [Timestamp.toString, Timestamp.toString, htm, htm', Option.getD_some, Option.getD_some,
    putTime_append_lt_iff (inRange_of_gmtime htm) (inRange_of_gmtime htm') hyear hyear',
      gmtime_lt_iff htm htm',
    cons_lt_cons_iff_self, zeroFilled_append_lt_iff (by decide) h.nanos h'.nanos]
  simp

end PacketGuard.Core
