import Mathlib.Algebra.Order.Ring.Nat

/-!
Owns the proleptic Gregorian calendar: leap years, the days before a year and
before a month, and the day number of a date. Day numbers follow the
chronological order of dates, so a date is known from its day number.
-/

namespace NetBSD.Arith

/-! ### Years -/

/-- A year with a 29th of February. -/
def leapYear (year : Nat) : Bool :=
  decide (year % 4 = 0 ∧ year % 100 ≠ 0 ∨ year % 400 = 0)

def yearDays (year : Nat) : Nat := if leapYear year then 366 else 365

def daysOfYears (base : Nat) : (count : Nat) → Nat
  | 0 => 0
  | count + 1 => daysOfYears base count + yearDays (base + count)

def daysToYear (year : Nat) : Nat := daysOfYears 1970 (year - 1970)

def leapYearsBefore (year : Nat) : Nat := (year - 1) / 4 - (year - 1) / 100 + (year - 1) / 400

theorem yearDays_cases (year : Nat) : yearDays year = 365 ∨ yearDays year = 366 := by
  unfold yearDays
  split <;> simp

theorem leapYear_iff (year : Nat) :
    leapYear year = true ↔ year % 4 = 0 ∧ year % 100 ≠ 0 ∨ year % 400 = 0 := by
  simp [leapYear]

theorem succ_div_eq {y : Nat} (pos : 0 < y) (k : Nat) :
    y / k = (y - 1) / k + if y % k = 0 then 1 else 0 := by
  have step := @Nat.succ_div (y - 1) k
  have whole : y - 1 + 1 = y := by omega
  rw [whole] at step
  rw [step]
  simp only [Nat.dvd_iff_mod_eq_zero]

theorem leapYearsBefore_succ {year : Nat} (pos : 0 < year) :
    leapYearsBefore (year + 1) = leapYearsBefore year + if leapYear year then 1 else 0 := by
  have byFour := succ_div_eq pos 4
  have byHundred := succ_div_eq pos 100
  have byFourHundred := succ_div_eq pos 400
  have ord : (year - 1) / 100 ≤ (year - 1) / 4 := Nat.div_le_div_left (by decide) (by decide)
  have hundreds : year % 400 = 0 → year % 100 = 0 := by omega
  have fours : year % 100 = 0 → year % 4 = 0 := by omega
  rw [leapYearsBefore, leapYearsBefore, Nat.add_sub_cancel, byFour, byHundred, byFourHundred]
  simp only [leapYear_iff]
  generalize (year - 1) / 400 = c
  generalize year % 4 = a' at fours ⊢
  generalize year % 100 = b' at hundreds fours ⊢
  generalize year % 400 = c' at hundreds ⊢
  clear byFour byHundred byFourHundred
  by_cases isFour : a' = 0
  · by_cases isHundred : b' = 0
    · by_cases isFourHundred : c' = 0
      · simp only [isFour, isHundred, isFourHundred, or_true]
        omega
      · simp only [isFour, isHundred, isFourHundred, if_true, if_false, ne_eq, not_true, and_false,
          or_false]
        omega
    · have notFourHundred : c' ≠ 0 := fun zero => isHundred (hundreds zero)
      simp only [isFour, isHundred, notFourHundred, if_true, if_false, ne_eq, not_false_eq_true,
        and_true, true_or]
      omega
  · have notHundred : b' ≠ 0 := fun zero => isFour (fours zero)
    have notFourHundred : c' ≠ 0 := fun zero => notHundred (hundreds zero)
    simp only [isFour, notHundred, notFourHundred, if_false, false_and, or_false, add_zero]

theorem daysOfYears_add (base few more : Nat) :
    daysOfYears base (few + more) = daysOfYears base few + daysOfYears (base + few) more := by
  induction more with
  | zero => rfl
  | succ more ih =>
    rw [← add_assoc, daysOfYears, ih, daysOfYears, add_assoc base few more, add_assoc]

theorem daysOfYears_eq {base : Nat} (pos : 0 < base) (cnt : Nat) :
    daysOfYears base cnt + leapYearsBefore base =
      365 * cnt + leapYearsBefore (base + cnt) := by
  induction cnt with
  | zero => simp [daysOfYears]
  | succ cnt ih =>
    have next := @leapYearsBefore_succ (base + cnt) (by omega)
    rw [daysOfYears, yearDays, ← add_assoc base cnt 1, next]
    split <;> omega

theorem leapYearsBefore_split {blks cents fours tl : Nat} (centuriesLt : cents < 4)
    (foursLt : fours < 25) (restLt : tl < 4) :
    leapYearsBefore (2000 + blks * 400 + cents * 100 + fours * 4 + tl) =
      484 + blks * 97 + cents * 24 + fours + (if tl = 0 then 0 else 1) +
        if cents ≠ 0 ∧ fours = 0 ∧ tl = 0 then 1 else 0 := by
  have byFour : (2000 + blks * 400 + cents * 100 + fours * 4 + tl - 1) / 4 =
      499 + blks * 100 + cents * 25 + fours + if tl = 0 then 0 else 1 := by
    split <;> omega
  have byHundred : (2000 + blks * 400 + cents * 100 + fours * 4 + tl - 1) / 100 =
      19 + blks * 4 + cents + if fours = 0 ∧ tl = 0 then 0 else 1 := by
    split <;> omega
  have byFourHundred : (2000 + blks * 400 + cents * 100 + fours * 4 + tl - 1) / 400 =
      4 + blks + if cents = 0 ∧ fours = 0 ∧ tl = 0 then 0 else 1 := by
    split <;> omega
  rw [leapYearsBefore, byFour, byHundred, byFourHundred]
  by_cases noRest : tl = 0
  · by_cases noFours : fours = 0
    · by_cases noCenturies : cents = 0
      · simp only [noRest, noFours, noCenturies, and_self, if_true, ne_eq, not_true, false_and,
          if_false]
        omega
      · simp only [noRest, noFours, noCenturies, and_self, if_true, ne_eq, not_false_eq_true,
          false_and, if_false]
        omega
    · simp only [noRest, noFours, and_true, and_false, if_true, if_false]
      omega
  · simp only [noRest, and_false, if_false]
    omega

theorem daysToYear_eq {year : Nat} (late : 1970 ≤ year) :
    daysToYear year + 477 = 365 * (year - 1970) + leapYearsBefore year := by
  have general := @daysOfYears_eq 1970 (by decide) (year - 1970)
  have whole : 1970 + (year - 1970) = year := by omega
  rw [whole] at general
  exact general

theorem daysToYear_blocks {blks cents fours tl : Nat} (centuriesLt : cents < 4)
    (foursLt : fours < 25) (restLt : tl < 4) :
    daysToYear (2000 + blks * 400 + cents * 100 + fours * 4 + tl) =
      10957 + blks * 146097 + cents * 36524 + fours * 1461 + tl * 365 +
        (if tl = 0 then 0 else 1) + if cents ≠ 0 ∧ fours = 0 ∧ tl = 0 then 1 else 0 := by
  have closed := @daysToYear_eq
    (2000 + blks * 400 + cents * 100 + fours * 4 + tl) (by omega)
  rw [leapYearsBefore_split centuriesLt foursLt restLt] at closed
  have years : 2000 + blks * 400 + cents * 100 + fours * 4 + tl - 1970 =
      30 + blks * 400 + cents * 100 + fours * 4 + tl := by omega
  rw [years] at closed
  omega

theorem daysToYear_add {year : Nat} (late : 1970 ≤ year) (cnt : Nat) :
    daysToYear (year + cnt) = daysToYear year + daysOfYears year cnt := by
  have shift : year + cnt - 1970 = year - 1970 + cnt := by omega
  have whole : 1970 + (year - 1970) = year := by omega
  rw [daysToYear, daysToYear, shift, daysOfYears_add, whole]

theorem daysToYear_succ {year : Nat} (late : 1970 ≤ year) :
    daysToYear (year + 1) = daysToYear year + yearDays year := by
  rw [daysToYear_add late 1, daysOfYears, daysOfYears, zero_add, add_zero]

theorem daysToYear_le {year s' : Nat} (late : 1970 ≤ year) (ord : year < s') :
    daysToYear year + yearDays year ≤ daysToYear s' := by
  induction s', ord using Nat.le_induction with
  | base => exact le_of_eq (daysToYear_succ late).symm
  | succ s' ord ih =>
    rw [daysToYear_succ (by omega)]
    omega

/-! ### Months -/

def monthDays (year : Nat) : (month : Nat) → Nat
  | 1 | 3 | 5 | 7 | 8 | 10 | 12 => 31
  | 4 | 6 | 9 | 11 => 30
  | 2 => if leapYear year then 29 else 28
  | _ => 0

def daysOfMonths (year : Nat) : (count : Nat) → Nat
  | 0 => 0
  | count + 1 => daysOfMonths year count + monthDays year (count + 1)

theorem daysOfMonths_twelve (year : Nat) : daysOfMonths year 12 = yearDays year := by
  simp only [daysOfMonths, monthDays, yearDays]
  split <;> rfl

theorem daysOfMonths_le (year : Nat) {few more : Nat} (ord : few ≤ more) :
    daysOfMonths year few ≤ daysOfMonths year more := by
  induction more, ord using Nat.le_induction with
  | base => exact le_refl _
  | succ more ord ih => exact Nat.le_trans ih (Nat.le_add_right _ _)

/-! ### Dates -/

structure DateOf (year month day : Nat) : Prop where
  month_pos : 1 ≤ month
  month_le : month ≤ 12
  day_pos : 1 ≤ day
  day_le : day ≤ monthDays year month

def dayOfYear (year month day : Nat) : Nat := daysOfMonths year (month - 1) + (day - 1)

/-- The days from 1 January 1970 to a date. -/
def dayNumber (year month day : Nat) : Nat := daysToYear year + dayOfYear year month day

theorem DateOf.dayOfYear_lt {year month day : Nat} (date : DateOf year month day) :
    dayOfYear year month day < daysOfMonths year month := by
  have whole : month - 1 + 1 = month := by have := date.month_pos; omega
  have unfolded : daysOfMonths year month =
      daysOfMonths year (month - 1) + monthDays year month := by
    rw [← whole, daysOfMonths, whole]
  have fst := date.day_pos
  have last := date.day_le
  rw [dayOfYear]
  omega

theorem DateOf.dayOfYear_lt_yearDays {year month day : Nat} (date : DateOf year month day) :
    dayOfYear year month day < yearDays year := by
  rw [← daysOfMonths_twelve]
  exact lt_of_lt_of_le date.dayOfYear_lt (daysOfMonths_le year date.month_le)

/-- The dates in chronological order. -/
def DateBefore (year month day year' month' day' : Nat) : Prop :=
  year < year' ∨ year = year' ∧ (month < month' ∨ month = month' ∧ day < day')

theorem DateOf.dayNumber_lt {year month day year' month' day' : Nat} (late : 1970 ≤ year)
    (date : DateOf year month day) (date' : DateOf year' month' day')
    (prev : DateBefore year month day year' month' day') :
    dayNumber year month day < dayNumber year' month' day' := by
  unfold dayNumber
  rcases prev with years | ⟨rfl, months | ⟨rfl, days⟩⟩
  · have inYear := date.dayOfYear_lt_yearDays
    have ord := daysToYear_le late years
    omega
  · have inMonth := date.dayOfYear_lt
    have ord := @daysOfMonths_le year month (month' - 1) (by omega)
    have beg : daysOfMonths year (month' - 1) ≤ dayOfYear year month' day' := Nat.le_add_right _ _
    omega
  · have fst := date.day_pos
    simp only [dayOfYear]
    omega

end NetBSD.Arith
