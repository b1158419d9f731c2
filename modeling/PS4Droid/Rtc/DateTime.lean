import PS4Droid.Foundations.Calendar

/-!
# The real-time clock library

Ticks count microseconds from the first day of the year one. The types and the conversions
between a tick and a calendar time follow `rtc.h` and `rtc.cpp`, with the widths of the source:
a pointer argument is an optional value, and a call returns its code together with what the
pointers point to afterwards.
-/

namespace PS4Droid.Rtc

structure OrbisRtcTick where
  tick : UInt64
  deriving DecidableEq

structure OrbisRtcDateTime where
  year : UInt16
  month : UInt16
  day : UInt16
  hour : UInt16
  minute : UInt16
  second : UInt16
  microsecond : UInt32
  deriving DecidableEq

/-- The codes `ORBIS_OK` and `ORBIS_RTC_ERROR_…` that the modelled functions return. -/
inductive Code where
  | ok
  | invalidPointer
  | invalidYear
  | invalidMonth
  | invalidDay
  | invalidHour
  | invalidMinute
  | invalidSecond
  | invalidMicrosecond
  deriving DecidableEq

/-- The ways in which a call ends without a result: a signed product that does not fit its
type and a character past the end of a text have no defined value, and the standard library
throws on texts it cannot read. -/
inductive Abort where
  | signedOverflow
  | outOfBounds
  | invalidArgument
  | outOfRange
  deriving DecidableEq

/-- A product of type `int` of two non-negative operands. -/
def mulInt (a b : ℕ) : Except Abort ℕ :=
  if a * b < 2 ^ 31 then .ok (a * b) else .error .signedOverflow

/-- The day of `year_month_day_last`. -/
def lastDay (year month : UInt16) : ℕ :=
  Calendar.monthLength year.toNat month.toNat

def sceRtcCheckValid (pTime : Option OrbisRtcDateTime) : Code :=
  match pTime with
  | none => .invalidPointer
  | some time =>
    if time.year = 0 ∨ 9999 < time.year then .invalidYear
    else if time.month = 0 ∨ 12 < time.month then .invalidMonth
    else if time.day = 0 then .invalidDay
    else if lastDay time.year time.month < time.day.toNat then .invalidDay
    else if 24 ≤ time.hour then .invalidHour
    else if 60 ≤ time.minute then .invalidMinute
    else if 60 ≤ time.second then .invalidSecond
    else if 1000000 ≤ time.microsecond then .invalidMicrosecond
    else .ok

/-- What the pointer arguments of a conversion point to when it returns. -/
structure Returned where
  code : Code
  pTime : Option OrbisRtcDateTime
  pTick : Option OrbisRtcTick
  deriving DecidableEq

/-- `sceRtcGetTick` moves the year of the given time to March in place. -/
def marchTime (time : OrbisRtcDateTime) : OrbisRtcDateTime :=
  if 2 < time.month then { time with month := time.month - 3 }
  else { time with month := time.month + 9, year := time.year - 1 }

/-- Days before the shifted date; the intermediate values have type `int` and, for a valid
time, stay far below its bound. -/
def dayCount (time : OrbisRtcDateTime) : ℕ :=
  let c := time.year.toNat / 100
  let ya := time.year.toNat - 100 * c
  ((146097 * c) >>> 2) + ((1461 * ya) >>> 2) + (153 * time.month.toNat + 2) / 5 + time.day.toNat

/-- The microseconds of the day. The factors of hours need 64 bits; minutes and seconds are
multiplied as `int`. -/
def dayMicroseconds (time : OrbisRtcDateTime) : Except Abort UInt64 := do
  let minutes ← mulInt time.minute.toNat 60000000
  let seconds ← mulInt time.second.toNat 1000000
  return UInt64.ofNat
    (time.hour.toNat * 3600000000 + minutes + seconds + time.microsecond.toNat)

def sceRtcGetTick (pTime : Option OrbisRtcDateTime) (pTick : Option OrbisRtcTick) :
    Except Abort Returned :=
  match pTime, pTick with
  | some time, some _ =>
    match sceRtcCheckValid pTime with
    | .ok => do
      let time := marchTime time
      let days := UInt64.ofNat (dayCount time)
      let days := days - 307
      let days := days * 86400000000
      let msec ← dayMicroseconds time
      return ⟨.ok, some time, some ⟨days + msec⟩⟩
    | isTimeValid => .ok ⟨isTimeValid, pTime, pTick⟩
  | _, _ => .ok ⟨.invalidPointer, pTime, pTick⟩

/-- The year, month and day that `sceRtcSetTick` finds for a number of days. -/
def splitDays (days : UInt64) : UInt32 × UInt32 × UInt32 :=
  let days := days + 307
  let j := ((days <<< 2) - 1).toUInt32
  let ly := j / 146097
  let j := j - 146097 * ly
  let ld := j >>> 2
  let j := ((ld <<< 2) + 3) / 1461
  let ld := (((ld <<< 2) + 7) - 1461 * j) >>> 2
  let lm := (5 * ld - 3) / 153
  let ld := (5 * ld + 2 - 153 * lm) / 5
  let ly := 100 * ly + j
  if lm < 10 then (ly, lm + 3, ld) else (ly + 1, lm - 9, ld)

/-- The time of day of the microseconds left over by the days. -/
def timeOfTick (tick : OrbisRtcTick) : OrbisRtcDateTime :=
  let days := tick.tick / 86400000000
  let msec := tick.tick % 86400000000
  let (ly, lm, ld) := splitDays days
  let hour := msec / 3600000000
  let msec := msec % 3600000000
  let minute := msec / 60000000
  let msec := msec % 60000000
  let second := msec / 1000000
  let msec := msec % 1000000
  { year := ly.toUInt16
    month := lm.toUInt16
    day := ld.toUInt16
    hour := hour.toUInt16
    minute := minute.toUInt16
    second := second.toUInt16
    microsecond := msec.toUInt32 }

def sceRtcSetTick (pTime : Option OrbisRtcDateTime) (pTick : Option OrbisRtcTick) : Returned :=
  match pTime, pTick with
  | some _, some tick => ⟨.ok, some (timeOfTick tick), pTick⟩
  | _, _ => ⟨.invalidPointer, pTime, pTick⟩

/-- What `pTick1` points to afterwards; the product has type `int64_t`, and the modelled callers
pass an `int`, for which it cannot overflow. -/
def sceRtcTickAddMinutes (pTick1 pTick2 : Option OrbisRtcTick) (lAdd : ℤ) :
    Code × Option OrbisRtcTick :=
  match pTick1, pTick2 with
  | some _, some tick => (.ok, some ⟨UInt64.ofInt (lAdd * 60000000) + tick.tick⟩)
  | _, _ => (.invalidPointer, pTick1)

end PS4Droid.Rtc
