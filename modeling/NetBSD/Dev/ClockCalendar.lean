import Mathlib.Algebra.Order.Ring.Int
import Mathlib.Tactic.IntervalCases
import NetBSD.Arith.Gregorian

/-!
Owns the calendar conversions of `sys/dev/clock_subr.c` and the helpers of
`sys/sys/clock.h` that they use. `days` and `secs` of `clock_ymdhms_to_secs`
are `uint64_t` values that are only added and multiplied before `secs` is
tested, so they wrap once, in `secs`. The other counters stay in range.
-/

namespace NetBSD.Dev

open List Nat

/-! ### `sys/clock.h` -/

def secsPerMinute : Nat := 60
def secsPerHour : Nat := 3600
def secsPerDay : Nat := 86400
def posixBaseYear : Nat := 1970

def daysInMonth (m : Nat) : Int :=
  match m with
  | 2 => 28
  | 4 | 6 | 9 | 11 => 30
  | 1 | 3 | 5 | 7 | 8 | 10 | 12 => 31
  | _ => -1

def isLeapYear (year : Nat) : Bool :=
  if year &&& 3 ≠ 0 then false
  else if year % 100 ≠ 0 then true
  else year % 400 == 0

def daysPerYear (year : Nat) : Nat := if isLeapYear year then 366 else 365

/-! ### `clock_subr.c` -/

structure ClockYmdhms where
  dt_year : UInt64
  dt_mon : UInt8
  dt_day : UInt8
  dt_wday : UInt8
  dt_hour : UInt8
  dt_min : UInt8
  dt_sec : UInt8
deriving DecidableEq, Repr

def february : Nat := 2
def daysTo2000 : Nat := 365 * 30 + 7
def days4Years : Nat := 365 * 4 + 1
def days100Years : Nat := 365 * 100 + 24
def days400Years : Nat := 365 * 400 + 97

def timeMax : Nat := 9223372036854775807

def addYears (start count : Nat) (days : Int) : Int :=
  (List.range' start count).foldl (fun days i => days + daysPerYear i) days

def addMonths (mon : Nat) (days : Int) : Int :=
  (List.range' 1 (mon - 1)).foldl (fun days i => days + daysInMonth i) days

def addYearsBefore (dtYear : Nat) (days : Int) : Int :=
  if dtYear < 2000 then addYears posixBaseYear (dtYear - posixBaseYear) days
  else
    let days := days + daysTo2000
    let year := dtYear - 2000
    let i := year / 400
    let days := days + i * days400Years
    let year := year - i * 400
    let i := year / 100
    let days := days + i * days100Years
    let year := year - i * 100
    let i := year / 4
    let days := days + i * days4Years
    let year := year - i * 4
    addYears (dtYear - year) year days

def clockYmdhmsToSecs (dt : ClockYmdhms) : Int :=
  let year := dt.dt_year.toNat
  if year < posixBaseYear then -1
  else
    let days : Int := if isLeapYear year && decide (february < dt.dt_mon.toNat) then 1 else 0
    let days := addYearsBefore year days
    let days := addMonths dt.dt_mon.toNat days
    let days := days + ((dt.dt_day.toNat : Int) - 1)
    let secs := (((days * 24 + dt.dt_hour.toNat) * 60 + dt.dt_min.toNat) * 60 + dt.dt_sec.toNat) %
      18446744073709551616
    if timeMax < secs then -1 else secs

/-- `for (i = year; days >= days_per_year(i); i++) days -= days_per_year(i)`;
every round takes away a day at least. -/
def subYears : (fuel days i : Nat) → Nat × Nat
  | 0, days, i => (days, i)
  | fuel + 1, days, i =>
    if daysPerYear i ≤ days then subYears fuel (days - daysPerYear i) (i + 1) else (days, i)

/-- The loop that subtracts whole months. -/
def subMonths (year : Nat) : (fuel : Nat) → (days : Int) → (leap i : Nat) → Int × Nat
  | 0, days, _, i => (days, i)
  | fuel + 1, days, leap, i =>
    if daysInMonth i + leap ≤ days then
      let days := days - (daysInMonth i + leap)
      let leap := if i = 1 ∧ isLeapYear year = true then 1 else 0
      subMonths year fuel days leap (i + 1)
    else (days, i)

def splitYears (days : Nat) : Nat × Nat :=
  if daysTo2000 ≤ days then
    let days := days - daysTo2000
    let year := 2000
    let i := days / days400Years
    let days := days - i * days400Years
    let year := year + i * 400
    let i := days / days100Years
    let days := days - i * days100Years
    let year := year + i * 100
    let i := days / days4Years
    let days := days - i * days4Years
    let year := year + i * 4
    subYears days days year
  else subYears days days posixBaseYear

def clockSecsToYmdhms (secs : Int) : Option ClockYmdhms :=
  if secs < 0 then none
  else
    let days := secs.toNat / secsPerDay
    let rsec := secs.toNat % secsPerDay
    let wday := (days + 4) % 7
    let years := splitYears days
    let months := subMonths years.2 years.1 years.1 0 1
    let hour := rsec / secsPerHour
    let rsec := rsec % secsPerHour
    let min := rsec / secsPerMinute
    let rsec := rsec % secsPerMinute
    some {
      dt_year := UInt64.ofNat years.2
      dt_mon := UInt8.ofNat months.2
      dt_day := UInt8.ofNat (months.1 + 1).toNat
      dt_wday := UInt8.ofNat wday
      dt_hour := UInt8.ofNat hour
      dt_min := UInt8.ofNat min
      dt_sec := UInt8.ofNat rsec }

/-!
### The calendar

What the two conversions compute in terms of the calendar. Blocks of 100
years are counted from 2000 with 24 leap years each, but the first block of
every 400 years has 25. `clock_ymdhms_to_secs` is therefore a day short in the
first four years of the other three blocks, and `clock_secs_to_ymdhms` is a day
ahead there.
-/

open NetBSD.Arith

/-! ### Specification -/

/-- The fields name a date from 1970 on and a time of that day. -/
structure ValidDate (dt : ClockYmdhms) : Prop where
  late : 1970 ≤ dt.dt_year.toNat
  date : DateOf dt.dt_year.toNat dt.dt_mon.toNat dt.dt_day.toNat
  hour : dt.dt_hour.toNat < 24
  min : dt.dt_min.toNat < 60
  sec : dt.dt_sec.toNat < 60

def dateNumber (dt : ClockYmdhms) : Nat :=
  dayNumber dt.dt_year.toNat dt.dt_mon.toNat dt.dt_day.toNat

def timeOfDay (dt : ClockYmdhms) : Nat :=
  (dt.dt_hour.toNat * 60 + dt.dt_min.toNat) * 60 + dt.dt_sec.toNat

/-- The seconds from the start of 1970 to a date and time. -/
def secondOf (dt : ClockYmdhms) : Nat := 86400 * dateNumber dt + timeOfDay dt

/-- The day of the week, from 0 for Sunday; 1 January 1970 was a Thursday. -/
def weekday (days : Nat) : Nat := (4 + days) % 7

/-- The fields of the date are equal. -/
def SameDate (first second : ClockYmdhms) : Prop :=
  first.dt_year.toNat = second.dt_year.toNat ∧ first.dt_mon.toNat = second.dt_mon.toNat ∧
    first.dt_day.toNat = second.dt_day.toNat

/-- The order of two times of a day. -/
def TimeBefore (hour min sec hour' min' sec' : Nat) : Prop :=
  hour < hour' ∨ hour = hour' ∧ (min < min' ∨ min = min' ∧ sec < sec')

def Before (first second : ClockYmdhms) : Prop :=
  DateBefore first.dt_year.toNat first.dt_mon.toNat first.dt_day.toNat
    second.dt_year.toNat second.dt_mon.toNat second.dt_day.toNat ∨
  SameDate first second ∧ TimeBefore first.dt_hour.toNat first.dt_min.toNat first.dt_sec.toNat
      second.dt_hour.toNat second.dt_min.toNat second.dt_sec.toNat

variable {dt : ClockYmdhms}

theorem ValidDate.timeOfDay_lt (valid : ValidDate dt) : timeOfDay dt < 86400 := by
  have hour := valid.hour
  have min := valid.min
  have sec := valid.sec
  unfold timeOfDay
  omega

theorem ValidDate.secondOf_lt {fst snd : ClockYmdhms} (valid : ValidDate fst)
    (valid' : ValidDate snd) (prev : Before fst snd) :
    secondOf fst < secondOf snd := by
  have inDay := valid.timeOfDay_lt
  unfold secondOf
  rcases prev with dates | ⟨⟨years, months, days⟩, times⟩
  · have numbers := valid.date.dayNumber_lt valid.late valid'.date dates
    unfold dateNumber
    omega
  have min := valid.min
  have sec := valid.sec
  unfold dateNumber
  rw [years, months, days]
  unfold timeOfDay
  rcases times with hours | ⟨hours, mins | ⟨mins, secs⟩⟩ <;> omega

theorem before_total (fst snd : ClockYmdhms) :
    Before fst snd ∨ Before snd fst ∨ secondOf fst = secondOf snd := by
  by_cases prev : Before fst snd
  · exact .inl prev
  by_cases s' : Before snd fst
  · exact .inr (.inl s')
  unfold Before DateBefore SameDate TimeBefore at prev s'
  obtain ⟨years, months, days⟩ : SameDate fst snd := by
    unfold SameDate
    omega
  have times : fst.dt_hour.toNat = snd.dt_hour.toNat ∧
      fst.dt_min.toNat = snd.dt_min.toNat ∧ fst.dt_sec.toNat = snd.dt_sec.toNat := by
    omega
  refine .inr (.inr ?_)
  rw [secondOf, secondOf, dateNumber, dateNumber, timeOfDay, timeOfDay, years, months, days,
    times.1, times.2.1, times.2.2]

theorem ValidDate.before_iff {fst snd : ClockYmdhms} (valid : ValidDate fst)
    (valid' : ValidDate snd) : Before fst snd ↔ secondOf fst < secondOf snd := by
  constructor
  · exact valid.secondOf_lt valid'
  intro old
  rcases before_total fst snd with prev | s' | same
  · exact prev
  · have later := valid'.secondOf_lt valid s'
    omega
  · omega

/-! ### The helpers -/

theorem isLeapYear_eq (year : Nat) : isLeapYear year = leapYear year := by
  have low : year &&& 3 = year % 4 := and_two_pow_sub_one_eq_mod year 2
  rw [Bool.eq_iff_iff, leapYear_iff, isLeapYear, low]
  by_cases fours : year % 4 = 0
  · by_cases hundreds : year % 100 = 0
    · simp [fours]
    · simp [fours]
  · have fourHundreds : year % 400 ≠ 0 := by omega
    simp [fourHundreds]

theorem daysPerYear_eq (year : Nat) : daysPerYear year = yearDays year := by
  rw [daysPerYear, yearDays, isLeapYear_eq]

theorem addYears_eq (beg cnt : Nat) (days : Int) :
    addYears beg cnt days = days + daysOfYears beg cnt := by
  induction cnt with
  | zero => simp [addYears, daysOfYears]
  | succ cnt ih =>
    rw [addYears] at ih ⊢
    rw [range'_concat, foldl_append, daysOfYears, one_mul]
    rw [foldl_cons, foldl_nil, daysPerYear_eq]
    omega

theorem exists_blocks {year : Nat} (late : 2000 ≤ year) :
    ∃ blks cents fours tl, cents < 4 ∧ fours < 25 ∧ tl < 4 ∧
      year = 2000 + blks * 400 + cents * 100 + fours * 4 + tl := by
  refine ⟨(year - 2000) / 400, (year - 2000) % 400 / 100, (year - 2000) % 400 % 100 / 4,
    (year - 2000) % 400 % 100 % 4, ?_, ?_, ?_, ?_⟩ <;> omega

/-- The first four years of a block of 100 years that starts with a common
year, from 2000 on. -/
def shortYear (year : Nat) : Bool :=
  decide (2000 ≤ year ∧ 100 ≤ year % 400 ∧ year % 100 < 4)

theorem shortYear_iff (year : Nat) :
    shortYear year = true ↔ 2000 ≤ year ∧ 100 ≤ year % 400 ∧ year % 100 < 4 := by
  simp [shortYear]

/-- The day that `clock_ymdhms_to_secs` leaves out. -/
def missingDays (year : Nat) : Nat := if shortYear year then 1 else 0

theorem missingDays_blocks {blks cents fours tl : Nat} (centuriesLt : cents < 4)
    (foursLt : fours < 25) (restLt : tl < 4) :
    missingDays (2000 + blks * 400 + cents * 100 + fours * 4 + tl) =
      if cents ≠ 0 ∧ fours = 0 then 1 else 0 := by
  have modFourHundred : (2000 + blks * 400 + cents * 100 + fours * 4 + tl) % 400 =
      cents * 100 + fours * 4 + tl := by omega
  have modHundred : (2000 + blks * 400 + cents * 100 + fours * 4 + tl) % 100 =
      fours * 4 + tl := by omega
  have iff : (2000 ≤ 2000 + blks * 400 + cents * 100 + fours * 4 + tl ∧
      100 ≤ cents * 100 + fours * 4 + tl ∧ fours * 4 + tl < 4) ↔
      cents ≠ 0 ∧ fours = 0 := by
    constructor
    · rintro ⟨-, later, fst⟩
      omega
    · rintro ⟨later, fst⟩
      omega
  simp only [missingDays, shortYear, modFourHundred, modHundred, iff, decide_eq_true_eq]

theorem addYearsBefore_blocks {blks cents fours tl : Nat} (centuriesLt : cents < 4)
    (foursLt : fours < 25) (restLt : tl < 4) (days : Int) :
    addYearsBefore (2000 + blks * 400 + cents * 100 + fours * 4 + tl) days =
      days + (10957 + blks * 146097 + cents * 36524 + fours * 1461 +
        daysOfYears (2000 + blks * 400 + cents * 100 + fours * 4) tl : Nat) := by
  have four : 2000 + blks * 400 + cents * 100 + fours * 4 + tl - 2000 =
      blks * 400 + cents * 100 + fours * 4 + tl := by omega
  have byFourHundred : (blks * 400 + cents * 100 + fours * 4 + tl) / 400 = blks := by
    omega
  have inBlock : blks * 400 + cents * 100 + fours * 4 + tl - blks * 400 =
      cents * 100 + fours * 4 + tl := by omega
  have byHundred : (cents * 100 + fours * 4 + tl) / 100 = cents := by omega
  have inCentury : cents * 100 + fours * 4 + tl - cents * 100 = fours * 4 + tl := by
    omega
  have byFour : (fours * 4 + tl) / 4 = fours := by omega
  have inFour : fours * 4 + tl - fours * 4 = tl := by omega
  have fst : 2000 + blks * 400 + cents * 100 + fours * 4 + tl - tl =
      2000 + blks * 400 + cents * 100 + fours * 4 := by omega
  rw [addYearsBefore]
  simp only [four, byFourHundred, inBlock, byHundred, inCentury, byFour, inFour, fst,
    addYears_eq, daysTo2000, days400Years, days100Years, days4Years]
  omega

theorem addYearsBefore_eq {year : Nat} (late : 1970 ≤ year) (days : Int) :
    addYearsBefore year days + missingDays year = days + daysToYear year := by
  by_cases early : year < 2000
  · have whole : shortYear year = false := by simp [shortYear]; omega
    rw [addYearsBefore, if_pos early, addYears_eq, missingDays, whole]
    simp only [posixBaseYear, Bool.false_eq_true, if_false, Int.natCast_zero, Int.add_zero,
      daysToYear]
  obtain ⟨blks, cents, fours, tl, centuriesLt, foursLt, restLt, rfl⟩ :=
    exists_blocks (not_lt.mp early)
  have beg := @daysToYear_blocks blks _ _ 0 centuriesLt foursLt (by decide)
  have whole := @daysToYear_blocks blks _ _ _ centuriesLt foursLt restLt
  rw [addYearsBefore_blocks centuriesLt foursLt restLt, missingDays_blocks centuriesLt foursLt restLt]
  rw [daysToYear_add (by omega)] at whole ⊢
  simp only [add_zero, and_true, if_true] at beg
  by_cases short : cents ≠ 0 ∧ fours = 0
  · rw [if_pos short] at beg ⊢
    by_cases noRest : tl = 0
    · rw [if_pos noRest] at whole
      omega
    · rw [if_neg noRest] at whole
      omega
  · rw [if_neg short] at beg ⊢
    split at whole <;> omega

theorem monthDays_eq (year : Nat) {mon : Nat} (pos : 1 ≤ mon) (sml : mon ≤ 12) :
    (monthDays year mon : Int) =
      daysInMonth mon + if leapYear year && decide (mon = 2) then 1 else 0 := by
  have tl : ∀ m ≤ 12, 1 ≤ m → m ≠ 2 → (monthDays 0 m : Int) = daysInMonth m := by decide
  by_cases isFebruary : mon = 2
  · rw [isFebruary, monthDays, daysInMonth]
    cases leapYear year <;> rfl
  have plain := tl mon sml pos isFebruary
  have same : monthDays year mon = monthDays 0 mon := by
    unfold monthDays
    split <;> first | rfl | exact absurd rfl isFebruary
  rw [same, plain, decide_eq_false isFebruary, Bool.and_false]
  exact (add_zero _).symm

theorem addMonths_succ (mon : Nat) (days : Int) :
    addMonths (mon + 2) days = addMonths (mon + 1) days + daysInMonth (mon + 1) := by
  have grown : List.range' 1 (mon + 1) = List.range' 1 mon ++ [mon + 1] := by
    rw [range'_concat, mul_comm, mul_one, add_comm 1 mon]
  unfold addMonths
  rw [show mon + 2 - 1 = mon + 1 from rfl, show mon + 1 - 1 = mon from rfl, grown,
    foldl_append]
  rfl

theorem addMonths_eq (year : Nat) {mon : Nat} (pos : 1 ≤ mon) (sml : mon ≤ 12) (days : Int) :
    addMonths mon days + (if isLeapYear year && decide (february < mon) then 1 else 0) =
      days + daysOfMonths year (mon - 1) := by
  rw [isLeapYear_eq, february]
  obtain ⟨mon, rfl⟩ := Nat.exists_eq_add_of_le' pos
  rw [Nat.add_sub_cancel]
  induction mon with
  | zero =>
    rw [decide_eq_false (by decide), Bool.and_false]
    rfl
  | succ mon ih =>
    have prev := ih (by omega) (by omega)
    have month := monthDays_eq year (show 1 ≤ mon + 1 by omega) (by omega)
    rw [addMonths_succ, daysOfMonths, cast_add, month]
    simp only [Bool.and_eq_true, decide_eq_true_eq] at prev ⊢
    by_cases leap : leapYear year = true
    · simp only [leap, true_and] at prev ⊢
      split at prev <;> split <;> split <;> omega
    · have no (month : Nat) : ¬ (leapYear year = true ∧ 2 < month) := fun both => leap both.1
      have notFebruary : ¬ (leapYear year = true ∧ mon + 1 = 2) := fun both => leap both.1
      rw [if_neg (no _)] at prev ⊢
      rw [if_neg notFebruary]
      omega

/-! ### From a date to its second -/

def timeOf (secs : Int) : Int :=
  let secs := secs % 18446744073709551616
  if timeMax < secs then -1 else secs

theorem timeOf_eq {secs : Int} (nonneg : 0 ≤ secs)
    (fits : secs ≤ timeMax) : timeOf secs = secs := by
  have width : timeMax = 9223372036854775807 := rfl
  have same : secs % 18446744073709551616 = secs := by omega
  simp only [timeOf, same]
  rw [if_neg (by omega)]

theorem timeOf_le (secs : Int) : timeOf secs ≤ timeMax := by
  simp only [timeOf]
  split
  · have width : timeMax = 9223372036854775807 := rfl
    omega
  · omega

theorem clockYmdhmsToSecs_eq (valid : ValidDate dt) :
    clockYmdhmsToSecs dt = timeOf ((secondOf dt : Int) - 86400 * missingDays dt.dt_year.toNat) := by
  have late := valid.late
  have date := valid.date
  have years := addYearsBefore_eq late
    (if isLeapYear dt.dt_year.toNat && decide (february < dt.dt_mon.toNat) then 1 else 0)
  have months := addMonths_eq dt.dt_year.toNat date.month_pos date.month_le
    (addYearsBefore dt.dt_year.toNat
      (if isLeapYear dt.dt_year.toNat && decide (february < dt.dt_mon.toNat) then 1 else 0))
  have fst := date.day_pos
  have notEarly : ¬ dt.dt_year.toNat < posixBaseYear := not_lt.mpr late
  unfold clockYmdhmsToSecs timeOf
  simp only [if_neg notEarly]
  generalize addMonths dt.dt_mon.toNat _ = total at months ⊢
  have same : (((total + ((dt.dt_day.toNat : Int) - 1)) * 24 + dt.dt_hour.toNat) * 60 +
      dt.dt_min.toNat) * 60 + dt.dt_sec.toNat =
      (secondOf dt : Int) - 86400 * missingDays dt.dt_year.toNat := by
    unfold secondOf timeOfDay dateNumber dayNumber dayOfYear
    omega
  rw [same]

theorem clockYmdhmsToSecs_fits (valid : ValidDate dt) (fits : secondOf dt ≤ timeMax) :
    clockYmdhmsToSecs dt = (secondOf dt : Int) - 86400 * missingDays dt.dt_year.toNat := by
  rw [clockYmdhmsToSecs_eq valid]
  have suff : 86400 * missingDays dt.dt_year.toNat ≤ secondOf dt := by
    unfold missingDays
    by_cases short : shortYear dt.dt_year.toNat = true
    · have years := (shortYear_iff _).mp short
      have closed := daysToYear_eq valid.late
      rw [if_pos short]
      unfold secondOf dateNumber dayNumber
      omega
    · simp [short]
  apply timeOf_eq <;> omega

/-! ### From a second to its date -/

theorem subYears_spec {fuel days i : Nat} (suff : days ≤ fuel) (late : 1970 ≤ i) :
    i ≤ (subYears fuel days i).2 ∧
    daysToYear i + days = daysToYear (subYears fuel days i).2 + (subYears fuel days i).1 ∧
    (subYears fuel days i).1 < yearDays (subYears fuel days i).2 := by
  induction fuel generalizing days i with
  | zero =>
    have pos := yearDays_cases i
    refine ⟨le_refl _, rfl, ?_⟩
    simp only [subYears]
    omega
  | succ fuel ih =>
    have pos := yearDays_cases i
    have next := daysToYear_succ late
    rw [subYears, daysPerYear_eq]
    by_cases whole : yearDays i ≤ days
    · rw [if_pos whole]
      obtain ⟨above, total, lt⟩ :=
        @ih (days - yearDays i) (i + 1) (by omega) (by omega)
      exact ⟨by omega, by omega, lt⟩
    · rw [if_neg whole]
      exact ⟨le_refl _, rfl, Nat.lt_of_not_le whole⟩

/-- The last days of the blocks of 100 years that are taken for the first days
of the next block, and the days that follow them up to the next leap year. -/
def misplaced (days : Nat) : Bool :=
  decide (10957 ≤ days ∧ 36524 ≤ (days - 10957) % 146097 ∧ (days - 10957) % 146097 % 36524 ≤ 1460)

theorem misplaced_iff (days : Nat) :
    misplaced days = true ↔ 10957 ≤ days ∧ 36524 ≤ (days - 10957) % 146097 ∧
      (days - 10957) % 146097 % 36524 ≤ 1460 := by
  simp [misplaced]

theorem misplaced_blocks {blks cents part : Nat} (partLt : part < 36524)
    (restLt : cents * 36524 + part < 146097) :
    misplaced (10957 + blks * 146097 + cents * 36524 + part) = true ↔
      cents ≠ 0 ∧ part ≤ 1460 := by
  have tl : (10957 + blks * 146097 + cents * 36524 + part - 10957) % 146097 =
      cents * 36524 + part := by omega
  have inCentury : (cents * 36524 + part) % 36524 = part := by omega
  rw [misplaced_iff, tl, inCentury]
  constructor
  · rintro ⟨-, later, fst⟩
    exact ⟨by omega, fst⟩
  · rintro ⟨later, fst⟩
    exact ⟨by omega, by omega, fst⟩

/-- The days from 2000 on in the blocks that the code takes; the last day of
400 years starts a fifth century. -/
theorem exists_dayBlocks {days : Nat} (late : 10957 ≤ days) :
    ∃ blks cents fours tl, fours < 25 ∧ tl < 1461 ∧ fours * 1461 + tl < 36524 ∧
      cents * 36524 + (fours * 1461 + tl) < 146097 ∧
      days = 10957 + blks * 146097 + cents * 36524 + (fours * 1461 + tl) := by
  refine ⟨(days - 10957) / 146097, (days - 10957) % 146097 / 36524,
    (days - 10957) % 146097 % 36524 / 1461, (days - 10957) % 146097 % 36524 % 1461, ?_⟩
  have inBlock : (days - 10957) % 146097 < 146097 := mod_lt _ (by decide)
  have block := div_add_mod (days - 10957) 146097
  generalize (days - 10957) % 146097 = r at inBlock block ⊢
  have century := div_add_mod r 36524
  have inCentury : r % 36524 < 36524 := mod_lt _ (by decide)
  generalize r % 36524 = part at century inCentury ⊢
  have inFour : part % 1461 < 1461 := mod_lt _ (by decide)
  exact ⟨by omega, inFour, by omega, by omega, by omega⟩

theorem block_div {size cnt part : Nat} (partLt : part < size) :
    (cnt * size + part) / size = cnt := by
  rw [mul_comm, mul_add_div (by omega), div_eq_of_lt partLt, add_zero]

theorem splitYears_blocks {blks cents fours tl : Nat} (restLt : tl < 1461)
    (partLt : fours * 1461 + tl < 36524)
    (blockLt : cents * 36524 + (fours * 1461 + tl) < 146097) :
    splitYears (10957 + blks * 146097 + cents * 36524 + (fours * 1461 + tl)) =
      subYears tl tl (2000 + blks * 400 + cents * 100 + fours * 4) := by
  have to2000 : daysTo2000 = 10957 := rfl
  have of400 : days400Years = 146097 := rfl
  have of100 : days100Years = 36524 := rfl
  have of4 : days4Years = 1461 := rfl
  have late : 10957 ≤ 10957 + blks * 146097 + cents * 36524 + (fours * 1461 + tl) := by omega
  have beg : 10957 + blks * 146097 + cents * 36524 + (fours * 1461 + tl) - 10957 =
      blks * 146097 + (cents * 36524 + (fours * 1461 + tl)) := by omega
  rw [splitYears, to2000, if_pos late]
  simp only [of400, of100, of4, beg, block_div blockLt, block_div partLt, block_div restLt,
    Nat.add_sub_cancel_left]

/-- The year loop leaves a day of the year it stops at. -/
theorem splitYears_spec (days : Nat) : 1970 ≤ (splitYears days).2 ∧
    daysToYear (splitYears days).2 + (splitYears days).1 =
      days + (if misplaced days then 1 else 0) ∧
    (splitYears days).1 < yearDays (splitYears days).2 := by
  by_cases early : days < 10957
  · have notLate : ¬ daysTo2000 ≤ days := by simp only [daysTo2000]; omega
    rw [splitYears, if_neg notLate]
    obtain ⟨above, total, lt⟩ :=
      subYears_spec (i := posixBaseYear) (le_refl days) (le_refl _)
    have beg : daysToYear posixBaseYear = 0 := rfl
    have right : misplaced days = false := by simp [misplaced]; omega
    refine ⟨above, ?_, lt⟩
    rw [right, if_neg (by decide), ← total]
    omega
  obtain ⟨blks, cents, fours, tl, foursLt, restLt, partLt, blockLt, rfl⟩ :=
    exists_dayBlocks (not_lt.mp early)
  have wrong := @misplaced_blocks blks _ _ partLt blockLt
  rw [splitYears_blocks restLt partLt blockLt]
  obtain ⟨above, total, lt⟩ := @subYears_spec _ _
    (2000 + blks * 400 + cents * 100 + fours * 4) (le_refl tl) (by omega)
  refine ⟨by omega, ?_, lt⟩
  rw [← total]
  by_cases fifth : cents = 4
  · subst fifth
    have noFours : fours = 0 := by omega
    have next := @daysToYear_blocks (blks + 1) 0 0 0 (by decide) (by decide) (by decide)
    have sameYear : 2000 + (blks + 1) * 400 + 0 * 100 + 0 * 4 + 0 =
        2000 + blks * 400 + 4 * 100 + 0 * 4 := by omega
    rw [sameYear] at next
    rw [if_pos (wrong.mpr ⟨by decide, by omega⟩), noFours, next]
    simp only [if_true, ne_eq, not_true, false_and, if_false]
    omega
  · have fst := @daysToYear_blocks blks cents _ 0 (by omega) foursLt (by decide)
    simp only [add_zero, and_true, if_true] at fst
    rw [fst]
    by_cases ahead : cents ≠ 0 ∧ fours = 0
    · rw [if_pos ahead, if_pos (wrong.mpr ⟨ahead.1, by omega⟩)]
      omega
    · rw [if_neg ahead, if_neg fun isWrong => ahead ⟨(wrong.mp isWrong).1, by
        have := (wrong.mp isWrong).2; omega⟩]
      omega

theorem daysInMonth_eq (year : Nat) {month : Nat} (pos : 1 ≤ month) (sml : month ≤ 12) :
    daysInMonth month + (if month = 2 ∧ leapYear year = true then 1 else 0) =
      (monthDays year month : Int) := by
  interval_cases month <;> by_cases leap : leapYear year = true <;>
    simp [daysInMonth, monthDays, leap]

/-- The month loop stops at the month that holds the day. -/
theorem subMonths_spec (year : Nat) {fuel days month : Nat} (suff : days ≤ fuel)
    (pos : 1 ≤ month) (sml : month ≤ 12)
    (inYear : daysOfMonths year (month - 1) + days < yearDays year) : ∃ month' tl : Nat,
      subMonths year fuel days (if month = 2 ∧ leapYear year = true then 1 else 0) month =
        ((tl : Int), month') ∧
      1 ≤ month' ∧ month' ≤ 12 ∧ tl < monthDays year month' ∧
      daysOfMonths year (month' - 1) + tl = daysOfMonths year (month - 1) + days := by
  induction fuel generalizing days month with
  | zero =>
    refine ⟨month, days, rfl, pos, sml, ?_, rfl⟩
    have any : 0 < monthDays year month := by
      interval_cases month <;> simp only [monthDays] <;> first | omega | (split <;> omega)
    omega
  | succ fuel ih =>
    have len := daysInMonth_eq year pos sml
    have unfolded : daysOfMonths year month =
        daysOfMonths year (month - 1) + monthDays year month := by
      have whole : month - 1 + 1 = month := by omega
      rw [← whole, daysOfMonths, whole]
    have leapCast : ((if month = 2 ∧ leapYear year = true then 1 else 0 : Nat) : Int) =
        if month = 2 ∧ leapYear year = true then 1 else 0 := by split <;> rfl
    simp only [subMonths, isLeapYear_eq]
    rw [leapCast, len]
    by_cases whole : monthDays year month ≤ days
    · rw [if_pos (by omega)]
      have more : month ≠ 12 := by
        intro last
        rw [last, daysOfMonths_twelve] at unfolded
        rw [last] at inYear whole
        omega
      have any : 0 < monthDays year month := by
        interval_cases month <;> simp only [monthDays] <;> first | omega | (split <;> omega)
      obtain ⟨month', tl, res, facts⟩ := @ih
        (days - monthDays year month) (month + 1) (by omega) (by omega) (by omega)
        (by rw [Nat.add_sub_cancel]; omega)
      have leapNext : (if month + 1 = 2 ∧ leapYear year = true then 1 else 0) =
          if month = 1 ∧ leapYear year = true then 1 else 0 := by
        have shift : month + 1 = 2 ↔ month = 1 := by omega
        simp only [shift]
      have daysNext : ((days - monthDays year month : Nat) : Int) =
          (days : Int) - monthDays year month := by omega
      rw [leapNext, daysNext] at res
      refine ⟨month', tl, res, facts.1, facts.2.1, facts.2.2.1, ?_⟩
      rw [facts.2.2.2, Nat.add_sub_cancel]
      omega
    · rw [if_neg (by omega)]
      exact ⟨month, days, rfl, pos, sml, by omega, rfl⟩

end NetBSD.Dev
