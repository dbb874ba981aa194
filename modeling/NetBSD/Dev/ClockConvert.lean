import NetBSD.Dev.ClockCalendar

/-!
Owns when the two conversions are the Gregorian calendar. Reading a second is
right outside of the days that the blocks of 100 years misplace, and so is
reading it back; turning dates into seconds keeps their order up to the first
of January of a century that is no leap year.
-/

namespace NetBSD.Dev

open NetBSD.Arith

/-! ### Seconds into dates -/

/-- The date of `secs`, one day late on a misplaced day. -/
theorem clockSecsToYmdhms_spec {secs : Int} (nonneg : 0 ≤ secs) (fits : secs ≤ timeMax) :
    ∃ dt, clockSecsToYmdhms secs = some dt ∧ ValidDate dt ∧
      dateNumber dt = secs.toNat / 86400 + (if misplaced (secs.toNat / 86400) then 1 else 0) ∧
      timeOfDay dt = secs.toNat % 86400 ∧
      dt.dt_wday.toNat = weekday (secs.toNat / 86400) := by
  have width : timeMax = 9223372036854775807 := rfl
  obtain ⟨late, total, inYear⟩ := splitYears_spec (secs.toNat / 86400)
  have beg := @subMonths_spec (splitYears (secs.toNat / 86400)).2 _ _ 1
    (le_refl (splitYears (secs.toNat / 86400)).1) (by decide) (by decide)
    (by simpa [daysOfMonths] using inYear)
  obtain ⟨month, tl, months, monthPos, monthLe, inMonth, restEq⟩ := beg
  have noLeap : (if 1 = 2 ∧ leapYear (splitYears (secs.toNat / 86400)).2 = true then 1 else 0) = 0 := by
    simp
  rw [noLeap] at months
  have closed := daysToYear_eq late
  have yearLt : (splitYears (secs.toNat / 86400)).2 < 2 ^ 64 := by
    split at total <;> omega
  have dayLe : monthDays (splitYears (secs.toNat / 86400)).2 month ≤ 31 := by
    unfold monthDays
    split <;> first | omega | (split <;> omega)
  have inDay : secs.toNat % 86400 < 86400 := Nat.mod_lt _ (by decide)
  have dayEq : (((tl : Int) + 1)).toNat = tl + 1 := by omega
  refine ⟨_, if_neg (not_lt.mpr nonneg), ?_⟩
  simp only [secsPerDay, secsPerHour, secsPerMinute, months, dayEq]
  generalize (splitYears (secs.toNat / 86400)).2 = year at *
  generalize secs.toNat % 86400 = rsec at *
  have fields : (UInt64.ofNat year).toNat = year ∧ (UInt8.ofNat month).toNat = month ∧
      (UInt8.ofNat (tl + 1)).toNat = tl + 1 := by
    refine ⟨?_, ?_, ?_⟩
    · rw [UInt64.toNat_ofNat', Nat.mod_eq_of_lt yearLt]
    · rw [UInt8.toNat_ofNat', Nat.mod_eq_of_lt (by omega)]
    · rw [UInt8.toNat_ofNat', Nat.mod_eq_of_lt (by omega)]
  have times : (UInt8.ofNat (rsec / 3600)).toNat = rsec / 3600 ∧
      (UInt8.ofNat (rsec % 3600 / 60)).toNat = rsec % 3600 / 60 ∧
      (UInt8.ofNat (rsec % 3600 % 60)).toNat = rsec % 3600 % 60 := by
    refine ⟨?_, ?_, ?_⟩ <;> rw [UInt8.toNat_ofNat', Nat.mod_eq_of_lt (by omega)]
  refine ⟨⟨?_, ⟨?_, ?_, ?_, ?_⟩, ?_, ?_, ?_⟩, ?_, ?_, ?_⟩
  · simpa only [fields] using late
  · simpa only [fields] using monthPos
  · simpa only [fields] using monthLe
  · simp only [fields]
    omega
  · simp only [fields]
    omega
  · simp only [times]
    omega
  · simp only [times]
    omega
  · simp only [times]
    omega
  · simp only [dateNumber, dayNumber, dayOfYear, fields, Nat.add_sub_cancel]
    rw [restEq, ← total]
    simp [daysOfMonths]
  · simp only [timeOfDay]
    omega
  · rw [UInt8.toNat_ofNat', weekday, Nat.add_comm, Nat.mod_eq_of_lt (by omega)]

variable {dt : ClockYmdhms}

theorem ValidDate.dateNumber_lt (valid : ValidDate dt) :
    dateNumber dt < daysToYear dt.dt_year.toNat + yearDays dt.dt_year.toNat :=
  Nat.add_lt_add_left valid.date.dayOfYear_lt_yearDays _

theorem misplaced_of_shortYear {year days : Nat} (short : shortYear year = true)
    (above : daysToYear year ≤ days) (below : days < daysToYear year + yearDays year) :
    misplaced days = true := by
  have years := (shortYear_iff year).mp short
  have common : leapYear year = false := by
    rw [Bool.eq_false_iff, ne_eq, leapYear_iff]
    omega
  rw [yearDays, common, if_neg (by decide)] at below
  obtain ⟨blks, cents, fours, tl, centuriesLt, foursLt, restLt, rfl⟩ := exists_blocks years.1
  have lacks := @missingDays_blocks blks _ _ _ centuriesLt foursLt restLt
  rw [missingDays, if_pos short] at lacks
  have fst : cents ≠ 0 ∧ fours = 0 := by
    by_contra no
    rw [if_neg no] at lacks
    cases lacks
  rw [daysToYear_blocks centuriesLt foursLt restLt] at above below
  obtain ⟨later, rfl⟩ := fst
  obtain ⟨part, partEq⟩ : ∃ part, days = 10957 + blks * 146097 + cents * 36524 + part :=
    ⟨days - (10957 + blks * 146097 + cents * 36524), by omega⟩
  have partLe : part ≤ 1460 := by
    split at below <;> split at below <;> omega
  rw [partEq, misplaced_blocks (by omega) (by omega)]
  exact ⟨later, partLe⟩

/-- `clock_secs_to_ymdhms` gives the date and time, and the day of the week, of
a second, and `clock_ymdhms_to_secs` gives the second back. -/
def Converts (secs : Int) : Prop :=
  ∃ dt, clockSecsToYmdhms secs = some dt ∧ ValidDate dt ∧ (secondOf dt : Int) = secs ∧
    dt.dt_wday.toNat = weekday (secs.toNat / 86400) ∧ clockYmdhmsToSecs dt = secs

theorem converts_iff {secs : Int} (nonneg : 0 ≤ secs) (fits : secs ≤ timeMax) :
    Converts secs ↔ misplaced (secs.toNat / 86400) = false := by
  obtain ⟨dt, isDate, valid, number, time, day⟩ := clockSecsToYmdhms_spec nonneg fits
  have whole := Nat.div_add_mod secs.toNat 86400
  constructor
  · rintro ⟨dt', isDate', _, same, _⟩
    obtain rfl := Option.some.inj (isDate.symm.trans isDate')
    rw [Bool.eq_false_iff]
    intro wrong
    rw [if_pos wrong] at number
    rw [secondOf] at same
    omega
  intro right
  rw [right, if_neg (by decide), add_zero] at number
  have snd : secondOf dt = secs.toNat := by
    rw [secondOf, number, time, whole]
  have complete : missingDays dt.dt_year.toNat = 0 := by
    rw [missingDays, if_neg]
    intro short
    have wrong := misplaced_of_shortYear short (Nat.le_add_right _ _) valid.dateNumber_lt
    rw [← number] at right
    rw [dateNumber] at right
    rw [show daysToYear dt.dt_year.toNat + dayOfYear dt.dt_year.toNat dt.dt_mon.toNat
      dt.dt_day.toNat = dayNumber dt.dt_year.toNat dt.dt_mon.toNat dt.dt_day.toNat from rfl,
      right] at wrong
    cases wrong
  refine ⟨dt, isDate, valid, by omega, day, ?_⟩
  rw [clockYmdhmsToSecs_fits valid (by omega)]
  omega

/-! ### Dates into seconds -/

/-- The first of January of a century that is no leap year. -/
def CenturyDay (dt : ClockYmdhms) : Prop :=
  2000 ≤ dt.dt_year.toNat ∧ dt.dt_year.toNat % 100 = 0 ∧ dt.dt_year.toNat % 400 ≠ 0 ∧
    dt.dt_mon.toNat = 1 ∧ dt.dt_day.toNat = 1

/-- Every earlier date has an earlier second. -/
def Rises (later : ClockYmdhms) : Prop :=
  ∀ earlier, ValidDate earlier → Before earlier later →
    clockYmdhmsToSecs earlier < clockYmdhmsToSecs later

def lastSecond : ClockYmdhms := ⟨292277026596, 12, 4, 0, 15, 30, 7⟩

theorem lastSecond_valid : ValidDate lastSecond where
  late := by decide
  date := ⟨by decide, by decide, by decide, by decide⟩
  hour := by decide
  min := by decide
  sec := by decide

theorem secondOf_lastSecond : secondOf lastSecond = timeMax := by
  have closed := @daysToYear_eq lastSecond.dt_year.toNat (by decide)
  have leaps : leapYearsBefore lastSecond.dt_year.toNat = 70877178949 := by decide
  have years : lastSecond.dt_year.toNat - 1970 = 292277024626 := rfl
  have inYear : dayOfYear lastSecond.dt_year.toNat lastSecond.dt_mon.toNat
      lastSecond.dt_day.toNat = 338 := by decide
  have time : timeOfDay lastSecond = 55807 := by decide
  have width : timeMax = 9223372036854775807 := rfl
  rw [secondOf, dateNumber, dayNumber, width]
  generalize daysToYear lastSecond.dt_year.toNat = days at closed ⊢
  omega

/-- The same time on 31 December of the year before. -/
def newYearsEve (dt : ClockYmdhms) : ClockYmdhms :=
  { dt with dt_year := dt.dt_year - 1, dt_mon := 12, dt_day := 31 }

theorem newYearsEve_year (late : 2000 ≤ dt.dt_year.toNat) :
    (newYearsEve dt).dt_year.toNat = dt.dt_year.toNat - 1 := by
  have one : (1 : UInt64).toNat = 1 := rfl
  have lt : (1 : UInt64) ≤ dt.dt_year := by
    rw [UInt64.le_iff_toNat_le]
    omega
  rw [newYearsEve, UInt64.toNat_sub_of_le _ _ lt, one]

/-- A century day has no more seconds than the day before it. -/
theorem CenturyDay.not_rises {later : ClockYmdhms} (valid : ValidDate later)
    (century : CenturyDay later) (fits : secondOf later ≤ timeMax) : ¬ Rises later := by
  obtain ⟨late, hundred, notFour, january, fst⟩ := century
  have year := newYearsEve_year late
  have valid' : ValidDate (newYearsEve later) := by
    have december : (newYearsEve later).dt_mon.toNat = 12 := rfl
    have last : (newYearsEve later).dt_day.toNat = 31 := rfl
    refine ⟨by omega, ?_, valid.hour, valid.min, valid.sec⟩
    rw [december, last]
    exact ⟨by decide, by decide, by decide, le_refl 31⟩
  have next := @daysToYear_succ (later.dt_year.toNat - 1) (by omega)
  have whole : later.dt_year.toNat - 1 + 1 = later.dt_year.toNat := by omega
  rw [whole] at next
  have days := daysOfMonths_twelve (later.dt_year.toNat - 1)
  have december : daysOfMonths (later.dt_year.toNat - 1) 12 =
      daysOfMonths (later.dt_year.toNat - 1) 11 + 31 := rfl
  have number : dateNumber (newYearsEve later) + 1 = dateNumber later := by
    have eve : dateNumber (newYearsEve later) = dayNumber (later.dt_year.toNat - 1) 12 31 := by
      rw [dateNumber, year]
      rfl
    have newYear : dayOfYear later.dt_year.toNat 1 1 = 0 := rfl
    have twelfth : 12 - 1 = 11 := rfl
    rw [eve, dateNumber, january, fst, dayNumber, dayNumber, dayOfYear, twelfth]
    omega
  have time : timeOfDay (newYearsEve later) = timeOfDay later := rfl
  have snd : secondOf (newYearsEve later) + 86400 = secondOf later := by
    rw [secondOf, secondOf]
    omega
  have complete : missingDays (newYearsEve later).dt_year.toNat = 0 := by
    rw [missingDays, if_neg]
    rw [shortYear_iff]
    omega
  have lacks : missingDays later.dt_year.toNat = 1 := by
    rw [missingDays, if_pos]
    rw [shortYear_iff]
    omega
  intro rises
  have less := rises (newYearsEve later) valid' (.inl (.inl (by omega)))
  rw [clockYmdhmsToSecs_fits valid fits, clockYmdhmsToSecs_fits valid' (by omega), complete,
    lacks] at less
  omega

/-- A date that is no first day of such a century comes at least two days after
the years before the century. -/
theorem dateNumber_gt_of_short (valid : ValidDate dt) (short : shortYear dt.dt_year.toNat = true)
    (notFirst : ¬ CenturyDay dt) :
    daysToYear (dt.dt_year.toNat - dt.dt_year.toNat % 100) < dateNumber dt := by
  have years := (shortYear_iff _).mp short
  rw [dateNumber, dayNumber]
  by_cases century : dt.dt_year.toNat % 100 = 0
  · rw [century, Nat.sub_zero]
    have january := valid.date.month_pos
    have fst := valid.date.day_pos
    have later : ¬ (dt.dt_mon.toNat = 1 ∧ dt.dt_day.toNat = 1) := fun both =>
      notFirst ⟨years.1, century, by omega, both.1, both.2⟩
    have any : 0 < dayOfYear dt.dt_year.toNat dt.dt_mon.toNat dt.dt_day.toNat := by
      rw [dayOfYear]
      by_cases isJanuary : dt.dt_mon.toNat = 1
      · omega
      · have months := @daysOfMonths_le dt.dt_year.toNat 1 (dt.dt_mon.toNat - 1) (by omega)
        have january' : daysOfMonths dt.dt_year.toNat 1 = 31 := rfl
        omega
    omega
  · have ord := @daysToYear_le (dt.dt_year.toNat - dt.dt_year.toNat % 100) dt.dt_year.toNat
    have pos := yearDays_cases (dt.dt_year.toNat - dt.dt_year.toNat % 100)
    omega

/-- Only the century days break the order of the seconds. -/
theorem rises_iff {later : ClockYmdhms} (valid : ValidDate later) :
    Rises later ↔ secondOf later ≤ timeMax ∧ ¬ CenturyDay later := by
  constructor
  · intro rises
    have fits : secondOf later ≤ timeMax := by
      by_contra far
      have prev : Before lastSecond later := by
        rw [lastSecond_valid.before_iff valid, secondOf_lastSecond]
        omega
      have less := rises lastSecond lastSecond_valid prev
      have most := timeOf_le ((secondOf later : Int) - 86400 * missingDays later.dt_year.toNat)
      have complete : missingDays lastSecond.dt_year.toNat = 0 := by decide
      rw [clockYmdhmsToSecs_fits lastSecond_valid (le_of_eq secondOf_lastSecond),
        secondOf_lastSecond, complete, clockYmdhmsToSecs_eq valid] at less
      omega
    exact ⟨fits, fun century => century.not_rises valid fits rises⟩
  rintro ⟨fits, notFirst⟩ old valid' prev
  have ord := valid'.secondOf_lt valid prev
  rw [clockYmdhmsToSecs_fits valid fits, clockYmdhmsToSecs_fits valid' (by omega)]
  by_cases short : shortYear later.dt_year.toNat = true
  · by_cases alsoShort : shortYear old.dt_year.toNat = true
    · rw [missingDays, missingDays, if_pos short, if_pos alsoShort]
      omega
    have beg := dateNumber_gt_of_short valid short notFirst
    have years := (shortYear_iff _).mp short
    rw [shortYear_iff] at alsoShort
    have notLater : old.dt_year.toNat ≤ later.dt_year.toNat := by
      rcases prev with (less | ⟨same, _⟩) | ⟨⟨same, _⟩, _⟩ <;> omega
    have less : old.dt_year.toNat < later.dt_year.toNat - later.dt_year.toNat % 100 := by
      omega
    have years' := daysToYear_le valid'.late less
    have inYear := valid'.dateNumber_lt
    have inDay := valid'.timeOfDay_lt
    have lacks : missingDays later.dt_year.toNat = 1 := by rw [missingDays, if_pos short]
    rw [secondOf, secondOf]
    omega
  · rw [missingDays, missingDays, if_neg short]
    omega

/-! ### Both conversions -/

/-- A second that `time_t` holds. -/
abbrev Second := { secs : Int // 0 ≤ secs ∧ secs ≤ timeMax }

abbrev Date := { dt : ClockYmdhms // ValidDate dt }

/-- Seconds convert exactly off the misplaced days, and dates rise off the century days. -/
theorem clock_gregorian_iff (secs : Second) (later : Date) :
    (Converts secs ↔ misplaced (secs.val.toNat / secsPerDay) = false) ∧
    (Rises later ↔ secondOf later ≤ timeMax ∧ ¬ CenturyDay later) :=
  ⟨converts_iff secs.2.1 secs.2.2, rises_iff later.2⟩

/-- The start of 31 December 2099 is read as the start of 2100, and both dates
have one second. -/
theorem december2099_misread :
    clockSecsToYmdhms 4102358400 = some ⟨2100, 1, 1, 4, 0, 0, 0⟩ ∧ ¬ Converts 4102358400 ∧
    clockYmdhmsToSecs ⟨2099, 12, 31, 4, 0, 0, 0⟩ = clockYmdhmsToSecs ⟨2100, 1, 1, 5, 0, 0, 0⟩ := by
  have read : clockSecsToYmdhms 4102358400 = some ⟨2100, 1, 1, 4, 0, 0, 0⟩ := by decide +kernel
  have snd : secondOf ⟨2100, 1, 1, 4, 0, 0, 0⟩ = 4102444800 := by decide +kernel
  refine ⟨read, ?_, by decide +kernel⟩
  rintro ⟨dt, isDate, _, same, _⟩
  obtain rfl := Option.some.inj (read.symm.trans isDate)
  rw [snd] at same
  cases same

end NetBSD.Dev
