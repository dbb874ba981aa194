import NetBSD.Dev.ClockConvert

/-!
Owns the DOS time stamps of `msdosfs_conv.c`: a second packed into a date, a time and hundredths,
and when reading them gives the second back.
-/

namespace NetBSD.Msdosfs

open NetBSD.Dev

section Model

structure Timespec where
  tv_sec : Int
  tv_nsec : Int
deriving DecidableEq, Repr

/-- The three fields of a directory entry. -/
structure DosStamp where
  dd : Nat
  dt : Nat
  dh : Nat
deriving DecidableEq, Repr

def dosbiasyear : Nat := 1980
def secondsTo1980 : Nat := (8 * 365 + 2 * 366) * (24 * 60 * 60)
def dosmaxyear : Nat := (0xFE00 >>> 9) + dosbiasyear

def dosFormat (tsp : Timespec) (t : Nat) (ymd : ClockYmdhms) : DosStamp where
  dd := (ymd.dt_day.toNat + (ymd.dt_mon.toNat <<< 5) +
    ((ymd.dt_year.toNat - dosbiasyear) <<< 9)) % 2 ^ 16
  dh := (tsp.tv_sec % 2 * 100 + tsp.tv_nsec / 10000000).toNat % 2 ^ 8
  dt := (t / 2 % 30 + ((t / 60 % 60) <<< 5) + ((t / 3600 % 24) <<< 11)) % 2 ^ 16

/-- `none` where the fields are made of a date that `clock_secs_to_ymdhms` left unset. -/
def unix2dostime (tsp : Timespec) (gmtoff : Int) : Option DosStamp :=
  let t := ((tsp.tv_sec + gmtoff) % 2 ^ 64).toNat
  if t < secondsTo1980 then some ⟨0, 0, 0⟩ else
  let t := t - t % 2
  -- the second is signed there
  match clockSecsToYmdhms (if t < 2 ^ 63 then t else t - 2 ^ 64) with
  | none => none
  | some ymd =>
    if dosmaxyear < ymd.dt_year.toNat then some ⟨0, 0, 0⟩ else
    some (dosFormat tsp t ymd)

def dosYmdhms (dd dt : Nat) : ClockYmdhms where
  dt_year := UInt64.ofNat (((dd &&& 0xFE00) >>> 9) + 1980)
  dt_mon := UInt8.ofNat ((dd &&& 0x1E0) >>> 5)
  dt_day := UInt8.ofNat (dd &&& 0x1F)
  dt_wday := 0
  dt_hour := UInt8.ofNat ((dt &&& 0xF800) >>> 11)
  dt_min := UInt8.ofNat ((dt &&& 0x7E0) >>> 5)
  dt_sec := UInt8.ofNat ((dt &&& 0x1F) * 2)

def dos2unixtime (dd dt dh : Nat) (gmtoff : Int) : Timespec :=
  if dd = 0 then ⟨0, 0⟩ else
  ⟨clockYmdhmsToSecs (dosYmdhms dd dt) - gmtoff, (dh % 100 * 10000000 : Nat)⟩

end Model

theorem field_eq (x mask shift width : Nat) (isMask : mask >>> shift = 2 ^ width - 1) :
    (x &&& mask) >>> shift = x / 2 ^ shift % 2 ^ width := by
  rw [Nat.shiftRight_and_distrib, isMask, Nat.and_two_pow_sub_one_eq_mod, Nat.shiftRight_eq_div_pow]

/-- A date between 1980 and 2107 is packed and read to itself. -/
theorem dosYmdhms_dosFormat {ymd : ClockYmdhms} {t : Nat} (tsp : Timespec) (valid : ValidDate ymd)
    (isTime : timeOfDay ymd = t % 86400) (isEven : t % 2 = 0)
    (isLate : 1980 ≤ ymd.dt_year.toNat) (isEarly : ymd.dt_year.toNat ≤ 2107) :
    dosYmdhms (dosFormat tsp t ymd).dd (dosFormat tsp t ymd).dt = { ymd with dt_wday := 0 } ∧
      (dosFormat tsp t ymd).dd ≠ 0 := by
  obtain ⟨-, ⟨monthPos, monthLe, dayPos, dayLe⟩, hourLt, minLt, secLt⟩ := valid
  have dayLe : ymd.dt_day.toNat ≤ 31 := dayLe.trans (by unfold Arith.monthDays; grind)
  rw [timeOfDay] at isTime
  have isHour : t / 3600 % 24 = ymd.dt_hour.toNat := by
    rw [show t / 3600 % 24 = t % 86400 / 3600 by omega]
    omega
  have isMin : t / 60 % 60 = ymd.dt_min.toNat := by
    rw [show t / 60 % 60 = t % 86400 / 60 % 60 by omega]
    omega
  have isSec : t / 2 % 30 * 2 = ymd.dt_sec.toNat := by
    rw [show t / 2 % 30 * 2 = t % 86400 % 60 by omega]
    omega
  simp only [dosFormat, dosbiasyear, Nat.shiftLeft_eq, isHour, isMin]
  generalize isDd : (ymd.dt_day.toNat + ymd.dt_mon.toNat * 2 ^ 5 + (ymd.dt_year.toNat - 1980) * 2 ^ 9) %
    2 ^ 16 = dd
  generalize isDt : (t / 2 % 30 + ymd.dt_min.toNat * 2 ^ 5 + ymd.dt_hour.toNat * 2 ^ 11) %
    2 ^ 16 = time
  have day : dd &&& 0x1F = ymd.dt_day.toNat := by
    rw [show 0x1F = 2 ^ 5 - 1 from rfl, Nat.and_two_pow_sub_one_eq_mod]
    omega
  have month : (dd &&& 0x1E0) >>> 5 = ymd.dt_mon.toNat := by
    rw [field_eq dd _ 5 4 rfl]
    omega
  have year : ((dd &&& 0xFE00) >>> 9) + 1980 = ymd.dt_year.toNat := by
    rw [field_eq dd _ 9 7 rfl]
    omega
  have hour : (time &&& 0xF800) >>> 11 = ymd.dt_hour.toNat := by
    rw [field_eq time _ 11 5 rfl]
    omega
  have min : (time &&& 0x7E0) >>> 5 = ymd.dt_min.toNat := by
    rw [field_eq time _ 5 6 rfl]
    omega
  have sec : (time &&& 0x1F) * 2 = ymd.dt_sec.toNat := by
    rw [show 0x1F = 2 ^ 5 - 1 from rfl, Nat.and_two_pow_sub_one_eq_mod]
    omega
  refine ⟨?_, by rintro rfl; exact absurd day (Nat.ne_of_lt dayPos)⟩
  unfold dosYmdhms
  simp only [day, month, year, hour, min, sec, UInt64.ofNat_toNat, UInt8.ofNat_toNat]

theorem year_of_second {dt : ClockYmdhms} (valid : ValidDate dt) (late : 315532800 ≤ secondOf dt)
    (early : secondOf dt < 4102358400) : 1980 ≤ dt.dt_year.toNat ∧ dt.dt_year.toNat ≤ 2107 := by
  have inDay := valid.timeOfDay_lt
  have inYear := valid.dateNumber_lt
  have beg : Arith.daysToYear dt.dt_year.toNat ≤ dateNumber dt := Nat.le_add_right _ _
  rw [secondOf] at late early
  constructor <;> by_contra oth
  · have prev := Arith.daysToYear_le valid.late (Nat.lt_of_not_le oth)
    rw [show Arith.daysToYear 1980 = 3652 by decide +kernel] at prev
    omega
  · have s' := Arith.daysToYear_le (by decide : 1970 ≤ 2107) (Nat.lt_of_not_le oth)
    rw [show Arith.daysToYear 2107 = 50038 by decide +kernel] at s'
    omega

/-- A time stamp gives the time back, truncated to 10 milliseconds. -/
def DosRoundTrip (tsp : Timespec) (gmtoff : Int) : Prop :=
  ∃ stamp, unix2dostime tsp gmtoff = some stamp ∧ dos2unixtime stamp.dd stamp.dt stamp.dh gmtoff =
      ⟨tsp.tv_sec, tsp.tv_nsec - tsp.tv_nsec % 10000000⟩

/-- The local time lies between 1980-01-01 and the end of 2099-12-30. -/
structure DosTime (tsp : Timespec) (gmtoff : Int) : Prop where
  late : 315532800 ≤ tsp.tv_sec + gmtoff
  early : tsp.tv_sec + gmtoff < 4102358400
  nsec_nonneg : 0 ≤ tsp.tv_nsec
  nsec_lt : tsp.tv_nsec < 1000000000

/-- The odd second of the local time is lost: it is in the hundredths at most, and the hundredths
are read without it. -/
theorem dos2unixtime_unix2dostime {tsp : Timespec} {gmtoff : Int} (isTime : DosTime tsp gmtoff) :
    ∃ stamp, unix2dostime tsp gmtoff = some stamp ∧ dos2unixtime stamp.dd stamp.dt stamp.dh gmtoff =
        ⟨tsp.tv_sec - (tsp.tv_sec + gmtoff) % 2, tsp.tv_nsec - tsp.tv_nsec % 10000000⟩ := by
  obtain ⟨late, early, nonneg, below⟩ := isTime
  have whole : (((tsp.tv_nsec / 10000000).toNat * 10000000 : Nat) : Int) =
      tsp.tv_nsec - tsp.tv_nsec % 10000000 := by omega
  obtain ⟨loc, isLocal⟩ : ∃ loc : Nat, tsp.tv_sec + gmtoff = loc := ⟨_, (Int.toNat_of_nonneg
    (by omega)).symm⟩
  have at' : misplaced (((loc - loc % 2 : Nat) : Int).toNat / 86400) = false := by
    rw [Bool.eq_false_iff, ne_eq, misplaced_iff]
    omega
  have fits : ((loc - loc % 2 : Nat) : Int) ≤ timeMax := by
    have : timeMax = 9223372036854775807 := rfl
    omega
  obtain ⟨ymd, isYmd, valid, h2, -, isBack⟩ :=
    (converts_iff (Int.natCast_nonneg _) fits).mpr at'
  obtain ⟨isLate, isEarly⟩ := year_of_second valid (by omega) (by omega)
  have inDay := valid.timeOfDay_lt
  obtain ⟨isPacked, isDate⟩ := dosYmdhms_dosFormat (t := loc - loc % 2) tsp valid
    (by rw [secondOf] at h2; omega) (by omega) isLate isEarly
  refine ⟨dosFormat tsp (loc - loc % 2) ymd, ?_, ?_⟩
  · have isFormat : ¬dosmaxyear < ymd.dt_year.toNat := not_lt.mpr isEarly
    have isT : ((loc : Int) % 2 ^ 64).toNat = loc := by omega
    simp only [unix2dostime, isLocal, isT]
    rw [if_neg (by unfold secondsTo1980; omega), if_pos (by omega), isYmd]
    exact if_neg isFormat
  · rw [dos2unixtime, if_neg isDate, isPacked]
    change Timespec.mk (clockYmdhmsToSecs ymd - gmtoff) _ = _
    have hundredths : (tsp.tv_sec % 2 * 100 + tsp.tv_nsec / 10000000).toNat % 2 ^ 8 % 100 =
        (tsp.tv_nsec / 10000000).toNat := by
      rcases Int.emod_two_eq_zero_or_one tsp.tv_sec with isOdd | isOdd <;> rw [isOdd] <;> omega
    rw [Timespec.mk.injEq]
    simp only [dosFormat, hundredths]
    exact ⟨by omega, whole⟩

/-- A time comes back as the same second exactly when its local second is even. -/
theorem dosRoundTrip_iff {tsp : Timespec} {gmtoff : Int} (isTime : DosTime tsp gmtoff) :
    DosRoundTrip tsp gmtoff ↔ (tsp.tv_sec + gmtoff) % 2 = 0 := by
  obtain ⟨stamp, isStamp, reads⟩ := dos2unixtime_unix2dostime isTime
  constructor
  · rintro ⟨other, oth, back⟩
    obtain rfl := Option.some.inj (isStamp.symm.trans oth)
    have same := congrArg Timespec.tv_sec (reads.symm.trans back)
    simp only at same
    omega
  · intro isEven
    rw [isEven, sub_zero] at reads
    exact ⟨stamp, isStamp, reads⟩

theorem dosRoundTrip_even : DosTime ⟨946684800, 5⟩ (-3600) ∧ DosRoundTrip ⟨946684800, 5⟩ (-3600) := by
  have isTime : DosTime ⟨946684800, 5⟩ (-3600) := by constructor <;> decide
  exact ⟨isTime, (dosRoundTrip_iff isTime).mpr (by decide)⟩

/-- An odd second comes back one second early. -/
theorem dosRoundTrip_loses_second :
    DosTime ⟨946684801, 0⟩ 0 ∧ unix2dostime ⟨946684801, 0⟩ 0 = some ⟨10273, 0, 100⟩ ∧
      dos2unixtime 10273 0 100 0 = ⟨946684800, 0⟩ ∧ ¬DosRoundTrip ⟨946684801, 0⟩ 0 := by
  have isStamp : unix2dostime ⟨946684801, 0⟩ 0 = some ⟨10273, 0, 100⟩ := by decide +kernel
  have reads : dos2unixtime 10273 0 100 0 = ⟨946684800, 0⟩ := by decide +kernel
  refine ⟨by constructor <;> decide, isStamp, reads, ?_⟩
  rintro ⟨other, oth, back⟩
  obtain rfl := Option.some.inj (isStamp.symm.trans oth)
  cases reads.symm.trans back

end NetBSD.Msdosfs
