import Mathlib

/-! # The Gregorian calendar

Dates of the calendar, carried back before its introduction, against numbers of
days.  A date counts the days of the years, of the months and of the month before
it.  Every number of days is the number of one date, and a later date has a
larger number.
-/
namespace PacketGuard.Lib

/-! ## Blocks -/

/-- Where position `i` lies, in blocks of these lengths one after another: the block
and the place in it. -/
def splitBlocks : List Nat → Nat → Nat × Nat
  | [], i => (0, i)
  | length :: lengths, i =>
    if i < length then (0, i)
    else ((splitBlocks lengths (i - length)).1 + 1, (splitBlocks lengths (i - length)).2)

/-- The position of a place in a block. -/
def joinBlocks (lengths : List Nat) (block place : Nat) : Nat := (lengths.take block).sum + place

section
variable {lengths : List Nat} {block place : Nat}

theorem splitBlocks_spec {i : Nat} (h : i < lengths.sum) :
    (∃ length, lengths[(splitBlocks lengths i).1]? = some length ∧
        (splitBlocks lengths i).2 < length) ∧
      joinBlocks lengths (splitBlocks lengths i).1 (splitBlocks lengths i).2 = i := by
  induction lengths generalizing i with
  | nil => cases h
  | cons length lengths ih =>
    rw [List.sum_cons] at h
    unfold splitBlocks
    split
    · rename_i hi
      exact ⟨⟨length, rfl, hi⟩, by simp [joinBlocks]⟩
    · rename_i hi
      obtain ⟨⟨bound, hbound, hplace⟩, hjoin⟩ := ih (i := i - length) (by omega)
      refine ⟨⟨bound, hbound, hplace⟩, ?_⟩
      rw [joinBlocks] at hjoin ⊢
      rw [List.take_succ_cons, List.sum_cons]
      omega

theorem joinBlocks_lt_sum {length : Nat} (h : lengths[block]? = some length)
    (hplace : place < length) :
    joinBlocks lengths block place < lengths.sum := by
  obtain ⟨hblock, hlength⟩ := List.getElem?_eq_some_iff.mp h
  have hsum : (lengths.take (block + 1)).sum + (lengths.drop (block + 1)).sum = lengths.sum := by
    rw [← List.sum_append, List.take_append_drop]
  rw [List.take_succ_eq_append_getElem hblock, List.sum_append, List.sum_singleton, hlength] at hsum
  rw [joinBlocks]
  omega

/-- A place in a later block has a larger position. -/
theorem joinBlocks_lt_of_lt {block' place' length : Nat} (h : lengths[block]? = some length)
    (hplace : place < length) (hlt : block < block') :
    joinBlocks lengths block place < joinBlocks lengths block' place' := by
  obtain ⟨hblock, hlength⟩ := List.getElem?_eq_some_iff.mp h
  have hsum : (lengths.take (block + 1)).sum ≤ (lengths.take block').sum :=
    (List.take_sublist_take_left hlt).sum_le_sum fun _ _ => Nat.zero_le _
  rw [List.take_succ_eq_append_getElem hblock, List.sum_append, List.sum_singleton, hlength] at hsum
  rw [joinBlocks, joinBlocks]
  omega

end

/-! ## Years -/

def leapYear (year : Int) : Bool := year % 4 = 0 ∧ (year % 100 ≠ 0 ∨ year % 400 = 0)

def yearLength (year : Int) : Nat := if leapYear year then 366 else 365

/-- The number of days between the start of year 1 and the start of the year. -/
def daysBeforeYear (year : Int) : Int :=
  365 * (year - 1) + (year - 1) / 4 - (year - 1) / 100 + (year - 1) / 400

theorem daysBeforeYear_succ (year : Int) :
    daysBeforeYear (year + 1) = daysBeforeYear year + yearLength year := by
  unfold daysBeforeYear yearLength leapYear
  simp only [decide_eq_true_eq]
  split_ifs <;> omega

theorem daysBeforeYear_strictMono : StrictMono daysBeforeYear := by
  refine strictMono_int_of_lt_succ fun year => ?_
  rw [daysBeforeYear_succ]
  unfold yearLength
  split_ifs <;> omega

/-- The year in which day `n` lies: it is found in its cycle of 400 years, then in a
century, in four years. -/
def yearAt (n : Int) : Int :=
  let century := min (n % 146097 / 36524) 3
  let rest := n % 146097 - 36524 * century
  400 * (n / 146097) + 100 * century + 4 * (rest / 1461) + min (rest % 1461 / 365) 3 + 1

/-- The days before a year, by its place in the cycle. -/
theorem daysBeforeYear_cycle {era century quad year : Int} (hc : 0 ≤ century ∧ century ≤ 3)
    (hq : 0 ≤ quad ∧ quad ≤ 24) (hy : 0 ≤ year ∧ year ≤ 3) :
    daysBeforeYear (400 * era + 100 * century + 4 * quad + year + 1) =
      146097 * era + 36524 * century + 1461 * quad + 365 * year := by
  unfold daysBeforeYear
  have h4 : (400 * era + 100 * century + 4 * quad + year) / 4 =
      100 * era + 25 * century + quad := by
    omega
  have h100 : (400 * era + 100 * century + 4 * quad + year) / 100 = 4 * era + century := by omega
  have h400 : (400 * era + 100 * century + 4 * quad + year) / 400 = era := by omega
  rw [Int.add_sub_cancel, h4, h100, h400]
  omega

theorem yearAt_spec (n : Int) :
    daysBeforeYear (yearAt n) ≤ n ∧ n < daysBeforeYear (yearAt n + 1) := by
  obtain ⟨century, hcentury⟩ : ∃ century, century = min (n % 146097 / 36524) 3 := ⟨_, rfl⟩
  obtain ⟨rest, hrest⟩ : ∃ rest, rest = n % 146097 - 36524 * century := ⟨_, rfl⟩
  obtain ⟨quad, hquad⟩ : ∃ quad, quad = rest / 1461 := ⟨_, rfl⟩
  obtain ⟨year, hyear⟩ : ∃ year, year = min (rest % 1461 / 365) 3 := ⟨_, rfl⟩
  have hc : 0 ≤ century ∧ century ≤ 3 := by omega
  -- the last day of a cycle belongs to its fourth century
  have hrange : 0 ≤ rest ∧ rest ≤ 36524 ∧ (century ≠ 3 → rest < 36524) := by omega
  have hq : 0 ≤ quad ∧ quad ≤ 24 := by omega
  have hy : 0 ≤ year ∧ year ≤ 3 := by omega
  have hat : yearAt n = 400 * (n / 146097) + 100 * century + 4 * quad + year + 1 := by
    rw [yearAt, ← hcentury, ← hrest, ← hquad, ← hyear]
  have hleap : leapYear (400 * (n / 146097) + 100 * century + 4 * quad + year + 1) =
      decide (year = 3 ∧ (quad ≠ 24 ∨ century = 3)) := by
    unfold leapYear
    rw [decide_eq_decide]
    omega
  rw [daysBeforeYear_succ, hat, daysBeforeYear_cycle hc hq hy, yearLength, hleap]
  simp only [decide_eq_true_eq]
  split_ifs <;> omega

/-- A year has started when all days before it are over. -/
theorem le_yearAt_iff {n year : Int} : year ≤ yearAt n ↔ daysBeforeYear year ≤ n := by
  obtain ⟨hle, hlt⟩ := yearAt_spec n
  constructor
  · exact fun h => (daysBeforeYear_strictMono.monotone h).trans hle
  · exact fun h => Int.lt_add_one_iff.mp (daysBeforeYear_strictMono.lt_iff_lt.mp (h.trans_lt hlt))

/-! ## Dates -/

/-- The lengths of the months. -/
def monthLengths (leap : Bool) : List Nat :=
  [31, if leap then 29 else 28, 31, 30, 31, 30, 31, 31, 30, 31, 30, 31]

theorem sum_monthLengths (year : Int) : (monthLengths (leapYear year)).sum = yearLength year := by
  unfold yearLength
  cases leapYear year <;> rfl

/-- A day of a month of a year, each counted from 0. -/
@[ext]
structure CivilDate where
  year : Int
  month : Nat
  day : Nat
  valid : ∃ length, (monthLengths (leapYear year))[month]? = some length ∧ day < length

namespace CivilDate

/-- The number of days from the start of year 1. -/
def number (d : CivilDate) : Int :=
  daysBeforeYear d.year + joinBlocks (monthLengths (leapYear d.year)) d.month d.day

theorem number_bounds (d : CivilDate) :
    daysBeforeYear d.year ≤ d.number ∧ d.number < daysBeforeYear (d.year + 1) := by
  obtain ⟨length, hlength, hday⟩ := d.valid
  have hlt := joinBlocks_lt_sum hlength hday
  rw [sum_monthLengths] at hlt
  rw [daysBeforeYear_succ, number]
  omega

end CivilDate

/-- The day of its year. -/
def dayOfYear (n : Int) : Nat := (n - daysBeforeYear (yearAt n)).toNat

theorem dayOfYear_lt (n : Int) : dayOfYear n < (monthLengths (leapYear (yearAt n))).sum := by
  obtain ⟨hle, hlt⟩ := yearAt_spec n
  rw [daysBeforeYear_succ] at hlt
  rw [sum_monthLengths, dayOfYear]
  omega

/-- The date of day `n`. -/
def dateAt (n : Int) : CivilDate where
  year := yearAt n
  month := (splitBlocks (monthLengths (leapYear (yearAt n))) (dayOfYear n)).1
  day := (splitBlocks (monthLengths (leapYear (yearAt n))) (dayOfYear n)).2
  valid := (splitBlocks_spec (dayOfYear_lt n)).1

namespace CivilDate

/-- **Every number is the number of its date.** -/
theorem number_dateAt (n : Int) : (dateAt n).number = n := by
  have hle := (yearAt_spec n).1
  have hyear : (dateAt n).year = yearAt n := rfl
  have hjoin : joinBlocks (monthLengths (leapYear (dateAt n).year)) (dateAt n).month
      (dateAt n).day = dayOfYear n :=
    (splitBlocks_spec (dayOfYear_lt n)).2
  rw [number, hjoin, hyear, dayOfYear]
  omega

/-- The date comes first, by year, month and day. -/
def Before (d d' : CivilDate) : Prop :=
  d.year < d'.year ∨ d.year = d'.year ∧ (d.month < d'.month ∨ d.month = d'.month ∧ d.day < d'.day)

theorem number_lt_of_before {d d' : CivilDate} (h : d.Before d') : d.number < d'.number := by
  rcases h with hyear | ⟨hyear, hmonth | ⟨hmonth, hday⟩⟩
  · calc d.number < daysBeforeYear (d.year + 1) := d.number_bounds.2
      _ ≤ daysBeforeYear d'.year := daysBeforeYear_strictMono.monotone hyear
      _ ≤ d'.number := d'.number_bounds.1
  · obtain ⟨length, hlength, hday⟩ := d.valid
    have hlt : joinBlocks (monthLengths (leapYear d.year)) d.month d.day <
        joinBlocks (monthLengths (leapYear d.year)) d'.month d'.day :=
          joinBlocks_lt_of_lt hlength hday hmonth
    rw [number, number, ← hyear]
    omega
  · rw [number, number, ← hyear, joinBlocks, joinBlocks, hmonth]
    omega

/-- **The later date** has the larger number. -/
theorem number_lt_iff {d d' : CivilDate} : d.number < d'.number ↔ d.Before d' := by
  refine ⟨fun h => ?_, number_lt_of_before⟩
  by_contra hnot
  rcases eq_or_ne d d' with rfl | hne
  · exact lt_irrefl _ h
  · have hparts : ¬ (d.year = d'.year ∧ d.month = d'.month ∧ d.day = d'.day) :=
      fun heq => hne (CivilDate.ext heq.1 heq.2.1 heq.2.2)
    have hafter : d'.Before d := by
      unfold Before at hnot ⊢
      omega
    exact lt_asymm h (number_lt_of_before hafter)

end CivilDate

end PacketGuard.Lib
