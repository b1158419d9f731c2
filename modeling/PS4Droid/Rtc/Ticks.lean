import PS4Droid.Rtc.DateTime

/-!
# Ticks and calendar times

The date half of both conversions is exact: the shifted-year formulas compute the day number of
the Gregorian calendar and its inverse. The time of day is exact as long as the number of
microseconds of the minutes fits the type it is computed in.
-/

namespace PS4Droid.Rtc

open Calendar

/-- What `sceRtcCheckValid` accepts, in numbers. -/
structure Valid (time : OrbisRtcDateTime) : Prop where
  year_pos : 1 ≤ time.year.toNat
  year_le : time.year.toNat ≤ 9999
  month_pos : 1 ≤ time.month.toNat
  month_le : time.month.toNat ≤ 12
  day_pos : 1 ≤ time.day.toNat
  day_le : time.day.toNat ≤ monthLength time.year.toNat time.month.toNat
  hour_lt : time.hour.toNat < 24
  minute_lt : time.minute.toNat < 60
  second_lt : time.second.toNat < 60
  microsecond_lt : time.microsecond.toNat < 1000000

theorem sceRtcCheckValid_eq_ok_iff {time : OrbisRtcDateTime} :
    sceRtcCheckValid (some time) = .ok ↔ Valid time := by
  simp only [sceRtcCheckValid, lastDay, ← UInt16.toNat_inj,
    UInt16.lt_iff_toNat_lt, UInt16.le_iff_toNat_le, UInt32.le_iff_toNat_le]
  constructor
  · intro h
    split_ifs at h
    simp at *
    constructor <;> omega
  · rintro ⟨⟩
    simp
    grind

namespace Valid

variable {time a b : OrbisRtcDateTime}

def date (h : Valid time) : Date where
  year := time.year.toNat
  month := time.month.toNat
  day := time.day.toNat
  year_pos := h.year_pos
  month_pos := h.month_pos
  month_le := h.month_le
  day_pos := h.day_pos
  day_le := h.day_le

@[simp]
theorem date_year (h : Valid time) : h.date.year = time.year.toNat := rfl

@[simp]
theorem date_month (h : Valid time) : h.date.month = time.month.toNat := rfl

@[simp]
theorem date_day (h : Valid time) : h.date.day = time.day.toNat := rfl

theorem day_lt (h : Valid time) : time.day.toNat < 100 := by
  have hlt := h.date.day_lt_monthStart
  simp only [monthStart, date_day] at hlt
  omega

end Valid

/-- Microseconds from the start of the day. -/
def microsecondOfDay (time : OrbisRtcDateTime) : ℕ :=
  time.hour.toNat * 3600000000 + time.minute.toNat * 60000000 + time.second.toNat * 1000000 +
    time.microsecond.toNat

/-- Microseconds from the first day of the year one. -/
def Valid.tickNumber {time : OrbisRtcDateTime} (h : Valid time) : ℕ :=
  h.date.dayNumber * 86400000000 + microsecondOfDay time

/-- The fields of a time from the year down to the microsecond. -/
def fields (time : OrbisRtcDateTime) : List ℕ :=
  [time.year.toNat, time.month.toNat, time.day.toNat, time.hour.toNat, time.minute.toNat,
    time.second.toNat, time.microsecond.toNat]

theorem fields_injective : Function.Injective fields := by
  rintro ⟨⟩ ⟨⟩ h
  simpa [fields, UInt16.toNat_inj, UInt32.toNat_inj] using h

section Order

variable {a b : OrbisRtcDateTime} (ha : Valid a) (hb : Valid b)

include ha in
theorem Valid.microsecondOfDay_lt : microsecondOfDay a < 86400000000 := by
  have := ha.hour_lt
  have := ha.minute_lt
  have := ha.second_lt
  have := ha.microsecond_lt
  unfold microsecondOfDay
  omega

/-- Later times have larger tick numbers. -/
theorem Valid.tickNumber_lt (h : fields a < fields b) : ha.tickNumber < hb.tickNumber := by
  have hday := ha.microsecondOfDay_lt
  unfold Valid.tickNumber
  by_cases hbefore : ha.date.Before hb.date
  · have := hbefore.dayNumber_lt
    omega
  · -- the dates agree, so the times of day decide
    have hsame : ha.date = hb.date ∧ microsecondOfDay a < microsecondOfDay b := by
      have := ha.minute_lt
      have := ha.second_lt
      have := ha.microsecond_lt
      rw [Date.before_iff] at hbefore
      simp only [fields, List.cons_lt_cons_iff, List.not_lt_nil, and_false, or_false] at h
      simp only [Valid.date, Date.ext_iff, microsecondOfDay] at hbefore ⊢
      omega
    rw [hsame.1]
    omega

theorem fields_trichotomy (a b : OrbisRtcDateTime) :
    fields a < fields b ∨ a = b ∨ fields b < fields a := by
  rcases lt_trichotomy (fields a) (fields b) with h | h | h
  · exact .inl h
  · exact .inr (.inl (fields_injective h))
  · exact .inr (.inr h)

/-- A valid time is determined by its tick number. -/
theorem Valid.eq_of_tickNumber_eq (h : ha.tickNumber = hb.tickNumber) : a = b := by
  rcases fields_trichotomy a b with hlt | heq | hgt
  · exact absurd h (ha.tickNumber_lt hb hlt).ne
  · exact heq
  · exact absurd h (hb.tickNumber_lt ha hgt).ne'

end Order

/-! ### From times to ticks -/

section GetTick

variable {time : OrbisRtcDateTime} (h : Valid time)

include h

theorem Valid.marchTime_year : (marchTime time).year.toNat = h.date.marchYear := by
  have hyear : 1 ≤ time.year := by
    rw [UInt16.le_iff_toNat_le]
    exact h.year_pos
  by_cases hm : 2 < time.month.toNat
  · have hm' : 2 < time.month := UInt16.lt_iff_toNat_lt.2 hm
    simp [marchTime, Date.marchYear, hm, hm']
  · have hm' : ¬ 2 < time.month := fun hlt => hm (UInt16.lt_iff_toNat_lt.1 hlt)
    simp [marchTime, Date.marchYear, hm, hm', UInt16.toNat_sub_of_le _ _ hyear]

theorem Valid.marchTime_month : (marchTime time).month.toNat = h.date.marchMonth := by
  have hle := h.month_le
  by_cases hm : 2 < time.month.toNat
  · have hm' : 2 < time.month := UInt16.lt_iff_toNat_lt.2 hm
    have hthree : 3 ≤ time.month := UInt16.le_iff_toNat_le.2 hm
    simp [marchTime, Date.marchMonth, hm, hm', UInt16.toNat_sub_of_le _ _ hthree]
  · have hm' : ¬ 2 < time.month := fun hlt => hm (UInt16.lt_iff_toNat_lt.1 hlt)
    simp [marchTime, Date.marchMonth, hm, hm', UInt16.toNat_add]
    omega

theorem Valid.dayCount_marchTime : dayCount (marchTime time) = h.date.dayNumber + 307 := by
  have hday : (marchTime time).day = time.day := by
    unfold marchTime
    split_ifs <;> rfl
  have hadd := h.date.dayNumber_add
  have hpos := h.day_pos
  have hcentury : h.date.marchYear - 100 * (h.date.marchYear / 100) = h.date.marchYear % 100 := by
    omega
  rw [hadd]
  simp only [dayCount, h.marchTime_year, h.marchTime_month, hday, Nat.shiftRight_eq_div_pow,
    yearStart, monthStart, h.date_day, hcentury]
  omega

theorem Valid.dayNumber_lt : h.date.dayNumber < 3652059 := by
  have hend : 3652059 = (newYear 10000 (by norm_num)).dayNumber := by decide
  rw [hend, ← Date.before_iff_dayNumber_lt, Date.before_iff]
  exact .inl (Nat.lt_succ_of_le h.year_le)

theorem Valid.tickNumber_lt_end : h.tickNumber < 315537897600000000 := by
  have := h.dayNumber_lt
  have := h.microsecondOfDay_lt
  unfold Valid.tickNumber
  omega

/-- The minutes are multiplied as `int`, which holds the microseconds of 35 minutes. -/
theorem Valid.dayMicroseconds_eq : dayMicroseconds (marchTime time) =
    if time.minute.toNat < 36 then .ok (UInt64.ofNat (microsecondOfDay time))
    else .error .signedOverflow := by
  have hsame : (marchTime time).hour = time.hour ∧ (marchTime time).minute = time.minute ∧
      (marchTime time).second = time.second ∧
      (marchTime time).microsecond = time.microsecond := by
    unfold marchTime
    split_ifs <;> exact ⟨rfl, rfl, rfl, rfl⟩
  have hsecond : time.second.toNat * 1000000 < 2 ^ 31 := by
    have := h.second_lt
    omega
  have hminute : time.minute.toNat * 60000000 < 2 ^ 31 ↔ time.minute.toNat < 36 := by omega
  obtain ⟨hh, hm, hs, hmicro⟩ := hsame
  simp only [dayMicroseconds, mulInt, hh, hm, hs, hmicro, if_pos hsecond, hminute]
  split_ifs <;> simp [microsecondOfDay, bind, Except.bind, pure, Except.pure]

theorem Valid.sceRtcGetTick_eq (old : OrbisRtcTick) : sceRtcGetTick (some time) (some old) =
    if time.minute.toNat < 36 then
      .ok ⟨.ok, some (marchTime time), some ⟨UInt64.ofNat h.tickNumber⟩⟩
    else .error .signedOverflow := by
  have hcheck := sceRtcCheckValid_eq_ok_iff.2 h
  simp only [sceRtcGetTick, hcheck, h.dayMicroseconds_eq, h.dayCount_marchTime]
  split_ifs with hfit
  · have htick : (UInt64.ofNat (h.date.dayNumber + 307) - 307) * 86400000000 +
        UInt64.ofNat (microsecondOfDay time) = UInt64.ofNat h.tickNumber := by
      rw [Valid.tickNumber, UInt64.ofNat_add, UInt64.ofNat_add, UInt64.ofNat_mul]
      simp
    simp only [pure, Except.pure, bind, Except.bind, htick]
  · rfl

end GetTick

/-! ### From ticks to times -/

/-- None of the 32-bit steps wraps: the parts are those of the calendar. -/
theorem splitDays_toNat (days : UInt64) (hdays : days.toNat < 2 ^ 29) :
    (splitDays days).1.toNat = yearOf days.toNat ∧ (splitDays days).2.1.toNat = monthOf days.toNat ∧
      (splitDays days).2.2.toNat = dayOfMonth days.toNat := by
  have hyearlt := yearOfCentury_lt days.toNat
  have hmem := dayOfYear_mem days.toNat
  have hmonthle := monthOfYear_le days.toNat
  obtain ⟨j, hj⟩ : ∃ j, j = (((days + 307) <<< 2) - 1).toUInt32 := ⟨_, rfl⟩
  have hjn : j.toNat = 4 * (days.toNat + 307) - 1 := by
    rw [hj, UInt64.toNat_toUInt32]
    simp [UInt64.toNat_sub, UInt64.toNat_add, UInt64.toNat_shiftLeft, Nat.shiftLeft_eq]
    omega
  obtain ⟨ly, hly⟩ : ∃ ly, ly = j / 146097 := ⟨_, rfl⟩
  have hlyn : ly.toNat = centuryOf days.toNat := by
    simp [hly, hjn, centuryOf]
  obtain ⟨j1, hj1⟩ : ∃ j1, j1 = j - 146097 * ly := ⟨_, rfl⟩
  obtain ⟨ld, hld⟩ : ∃ ld, ld = j1 >>> 2 := ⟨_, rfl⟩
  have hldn : ld.toNat = dayOfCentury days.toNat := by
    have hcentury : centuryOf days.toNat = (4 * (days.toNat + 307) - 1) / 146097 := rfl
    simp [hld, hj1, UInt32.toNat_sub, UInt32.toNat_mul, hjn, hlyn, Nat.shiftRight_eq_div_pow,
      dayOfCentury]
    omega
  obtain ⟨ya, hya⟩ : ∃ ya, ya = ((ld <<< 2) + 3) / 1461 := ⟨_, rfl⟩
  have hldlt : dayOfCentury days.toNat ≤ 36524 := by
    unfold dayOfCentury centuryOf
    omega
  have hyan : ya.toNat = yearOfCentury days.toNat := by
    simp [hya, UInt32.toNat_add, UInt32.toNat_shiftLeft, Nat.shiftLeft_eq, hldn, yearOfCentury]
    omega
  obtain ⟨doy, hdoy⟩ : ∃ doy, doy = (((ld <<< 2) + 7) - 1461 * ya) >>> 2 := ⟨_, rfl⟩
  have hdoyn : doy.toNat = dayOfYear days.toNat := by
    have hyear : yearOfCentury days.toNat = (4 * dayOfCentury days.toNat + 3) / 1461 := rfl
    simp [hdoy, UInt32.toNat_sub, UInt32.toNat_add, UInt32.toNat_mul, UInt32.toNat_shiftLeft,
      Nat.shiftLeft_eq, Nat.shiftRight_eq_div_pow, hldn, hyan, dayOfYear]
    omega
  obtain ⟨lm, hlm⟩ : ∃ lm, lm = (5 * doy - 3) / 153 := ⟨_, rfl⟩
  have hlmn : lm.toNat = monthOfYear days.toNat := by
    simp [hlm, UInt32.toNat_sub, UInt32.toNat_mul, hdoyn, monthOfYear]
    omega
  obtain ⟨dom, hdom⟩ : ∃ dom, dom = (5 * doy + 2 - 153 * lm) / 5 := ⟨_, rfl⟩
  have hdomn : dom.toNat = dayOfMonth days.toNat := by
    have hmonth : monthOfYear days.toNat = (5 * dayOfYear days.toNat - 3) / 153 := rfl
    simp [hdom, UInt32.toNat_sub, UInt32.toNat_add, UInt32.toNat_mul, hdoyn, hlmn, dayOfMonth]
    omega
  have hcenturylt : centuryOf days.toNat < 2 ^ 20 := by
    unfold centuryOf
    omega
  have hsplit : splitDays days = if lm < 10 then (100 * ly + ya, lm + 3, dom)
      else (100 * ly + ya + 1, lm - 9, dom) := by
    rw [hdom, hlm, hdoy, hya, hld, hj1, hly, hj]
    rfl
  rw [hsplit]
  by_cases hten : monthOfYear days.toNat < 10
  · have hlt : lm < 10 := by
      rw [UInt32.lt_iff_toNat_lt, hlmn]
      exact hten
    simp [hlt, UInt32.toNat_add, UInt32.toNat_mul, hlyn, hyan, hlmn, hdomn, yearOf, monthOf, hten]
    omega
  · have hge : ¬ lm < 10 := by
      rw [UInt32.lt_iff_toNat_lt, hlmn]
      exact hten
    simp [hge, UInt32.toNat_add, UInt32.toNat_mul, UInt32.toNat_sub, hlyn, hyan, hlmn, hdomn,
      yearOf, monthOf, hten]
    omega

section SetTick

variable {tick : OrbisRtcTick} (h : tick.tick.toNat < 315537897600000000)

theorem yearOf_le {n : ℕ} (hn : n < 3652059) : yearOf n ≤ 9999 := by
  have hend : (newYear 10000 (by norm_num)).dayNumber = 3652059 := by decide
  have := (yearOf_lt_iff n (y := 10000) (by norm_num)).2 (by rw [hend]; exact hn)
  omega

theorem timeOfTick_toNat (tick : OrbisRtcTick) :
    (timeOfTick tick).year.toNat = yearOf (tick.tick.toNat / 86400000000) % 2 ^ 16 ∧
      (timeOfTick tick).month.toNat = monthOf (tick.tick.toNat / 86400000000) ∧
      (timeOfTick tick).day.toNat = dayOfMonth (tick.tick.toNat / 86400000000) ∧
      (timeOfTick tick).hour.toNat = tick.tick.toNat % 86400000000 / 3600000000 ∧
      (timeOfTick tick).minute.toNat = tick.tick.toNat / 60000000 % 60 ∧
      (timeOfTick tick).second.toNat = tick.tick.toNat / 1000000 % 60 ∧
      (timeOfTick tick).microsecond.toNat = tick.tick.toNat % 1000000 := by
  have hdays : (tick.tick / 86400000000).toNat = tick.tick.toNat / 86400000000 := by simp
  obtain ⟨hy, hm, hd⟩ := splitDays_toNat (tick.tick / 86400000000) (by
    have := tick.tick.toNat_lt
    omega)
  rw [hdays] at hy hm hd
  have hmonth := (ofDayNumber (tick.tick.toNat / 86400000000)).month_le
  have hday : dayOfMonth (tick.tick.toNat / 86400000000) ≤ 366 := by
    have := (monthStart_add_dayOfMonth (tick.tick.toNat / 86400000000)).2
    have := dayOfYear_mem (tick.tick.toNat / 86400000000)
    omega
  simp only [ofDayNumber] at hmonth
  refine ⟨?_, ?_, ?_, ?_, ?_, ?_, ?_⟩
  · simp only [timeOfTick, UInt32.toNat_toUInt16, hy]
  · simp only [timeOfTick, UInt32.toNat_toUInt16, hm]
    omega
  · simp only [timeOfTick, UInt32.toNat_toUInt16, hd]
    omega
  all_goals
    simp [timeOfTick]
    omega

include h in
theorem timeOfTick_valid : Valid (timeOfTick tick) := by
  obtain ⟨hy, hm, hd, hh, hmin, hs, hmicro⟩ := timeOfTick_toNat tick
  have hyear := yearOf_le (n := tick.tick.toNat / 86400000000) (by omega)
  rw [Nat.mod_eq_of_lt (by omega)] at hy
  constructor
  · rw [hy]
    exact yearOf_pos _
  · rw [hy]
    exact hyear
  · rw [hm]
    exact (ofDayNumber _).month_pos
  · rw [hm]
    exact (ofDayNumber _).month_le
  · rw [hd]
    exact (ofDayNumber _).day_pos
  · rw [hy, hm, hd]
    exact (ofDayNumber _).day_le
  all_goals omega

include h in
theorem timeOfTick_tickNumber : (timeOfTick_valid h).tickNumber = tick.tick.toNat := by
  obtain ⟨hy, hm, hd, hh, hmin, hs, hmicro⟩ := timeOfTick_toNat tick
  have hyear := yearOf_le (n := tick.tick.toNat / 86400000000) (by omega)
  rw [Nat.mod_eq_of_lt (by omega)] at hy
  have hdate : (timeOfTick_valid h).date = ofDayNumber (tick.tick.toNat / 86400000000) :=
    Date.ext hy hm hd
  rw [Valid.tickNumber, hdate, dayNumber_ofDayNumber, microsecondOfDay, hh, hmin, hs, hmicro]
  omega

end SetTick

theorem Valid.timeOfTick_eq {time : OrbisRtcDateTime} (h : Valid time) :
    timeOfTick ⟨UInt64.ofNat h.tickNumber⟩ = time := by
  have hend := h.tickNumber_lt_end
  have hnat : (UInt64.ofNat h.tickNumber).toNat = h.tickNumber := by
    rw [UInt64.toNat_ofNat', Nat.mod_eq_of_lt (by omega)]
  have hlt : (⟨UInt64.ofNat h.tickNumber⟩ : OrbisRtcTick).tick.toNat < 315537897600000000 := by
    rw [hnat]
    exact hend
  apply (timeOfTick_valid hlt).eq_of_tickNumber_eq h
  rw [timeOfTick_tickNumber hlt, hnat]

/-! ### The two conversions together -/

/-- `sceRtcGetTick` stores `tick` for `time`, whatever its output held before. -/
def TickOf (time : OrbisRtcDateTime) (tick : OrbisRtcTick) : Prop :=
  ∀ old, ∃ moved, sceRtcGetTick (some time) (some old) = .ok ⟨.ok, moved, some tick⟩

/-- `sceRtcSetTick` stores `time` for `tick`. -/
def TimeOf (tick : OrbisRtcTick) (time : OrbisRtcDateTime) : Prop :=
  ∀ old, sceRtcSetTick (some old) (some tick) = ⟨.ok, some time, some tick⟩

theorem timeOf_iff {tick : OrbisRtcTick} {time : OrbisRtcDateTime} :
    TimeOf tick time ↔ timeOfTick tick = time := by
  simp only [TimeOf, sceRtcSetTick, Returned.mk.injEq, Option.some.injEq, and_true, true_and]
  exact ⟨fun h => h time, fun h _ => h⟩

theorem Valid.tickOf_iff {time : OrbisRtcDateTime} (h : Valid time) {tick : OrbisRtcTick} :
    TickOf time tick ↔ time.minute.toNat < 36 ∧ tick = ⟨UInt64.ofNat h.tickNumber⟩ := by
  simp only [TickOf, h.sceRtcGetTick_eq]
  split_ifs with hfit
  · constructor
    · intro hall
      obtain ⟨moved, heq⟩ := hall tick
      simp only [Except.ok.injEq, Returned.mk.injEq, Option.some.injEq] at heq
      exact ⟨hfit, heq.2.2.symm⟩
    · rintro ⟨-, rfl⟩ old
      exact ⟨_, rfl⟩
  · constructor
    · intro hall
      obtain ⟨moved, heq⟩ := hall tick
      simp at heq
    · rintro ⟨hlt, -⟩
      exact absurd hlt hfit

/-- The conversions are inverse to each other, and ticks grow with the calendar, exactly for the
times in the first 36 minutes of an hour: from the 36th minute on, the microseconds of the
minutes do not fit the `int` that holds them. -/
theorem sceRtcGetTick_sceRtcSetTick_iff (a b : OrbisRtcDateTime) (tick : OrbisRtcTick) :
    (sceRtcCheckValid (some a) = .ok →
      ((∃ t, TickOf a t ∧ TimeOf t a) ↔ a.minute < 36)) ∧
    (tick.tick < 315537897600000000 →
      ((∃ time, TimeOf tick time ∧ TickOf time tick) ↔ tick.tick / 60000000 % 60 < 36)) ∧
    (sceRtcCheckValid (some a) = .ok → sceRtcCheckValid (some b) = .ok →
      fields a < fields b →
      ((∃ s t, TickOf a s ∧ TickOf b t ∧ s.tick < t.tick) ↔ a.minute < 36 ∧ b.minute < 36)) := by
  refine ⟨fun hcheck => ?_, fun hend => ?_, fun hcheckA hcheckB hlt => ?_⟩
  · have h := sceRtcCheckValid_eq_ok_iff.1 hcheck
    simp only [h.tickOf_iff, timeOf_iff, UInt16.lt_iff_toNat_lt]
    constructor
    · rintro ⟨tick, ⟨hfit, -⟩, -⟩
      exact hfit
    · intro hfit
      exact ⟨_, ⟨hfit, rfl⟩, h.timeOfTick_eq⟩
  · have hlt : tick.tick.toNat < 315537897600000000 := by
      simpa [UInt64.lt_iff_toNat_lt] using hend
    have h := timeOfTick_valid hlt
    have hminute : (timeOfTick tick).minute.toNat < 36 ↔ tick.tick / 60000000 % 60 < 36 := by
      rw [(timeOfTick_toNat tick).2.2.2.2.1, UInt64.lt_iff_toNat_lt]
      simp
    simp only [timeOf_iff, exists_eq_left', h.tickOf_iff, hminute, and_iff_left_iff_imp]
    intro _
    rw [timeOfTick_tickNumber hlt, UInt64.ofNat_toNat]
  · have ha := sceRtcCheckValid_eq_ok_iff.1 hcheckA
    have hb := sceRtcCheckValid_eq_ok_iff.1 hcheckB
    simp only [ha.tickOf_iff, hb.tickOf_iff, UInt16.lt_iff_toNat_lt]
    constructor
    · rintro ⟨s, t, ⟨hfitA, -⟩, ⟨hfitB, -⟩, -⟩
      exact ⟨hfitA, hfitB⟩
    · rintro ⟨hfitA, hfitB⟩
      refine ⟨_, _, ⟨hfitA, rfl⟩, ⟨hfitB, rfl⟩, ?_⟩
      have hendA := ha.tickNumber_lt_end
      have hendB := hb.tickNumber_lt_end
      rw [UInt64.lt_iff_toNat_lt, UInt64.toNat_ofNat', UInt64.toNat_ofNat',
        Nat.mod_eq_of_lt (by omega), Nat.mod_eq_of_lt (by omega)]
      exact ha.tickNumber_lt hb hlt

/-- Half past noon of a leap day goes to its tick and back. -/
theorem sceRtcGetTick_sceRtcSetTick_leapDay :
    ∃ tick, TickOf ⟨2024, 2, 29, 12, 30, 0, 0⟩ tick ∧ TimeOf tick ⟨2024, 2, 29, 12, 30, 0, 0⟩ :=
  ((sceRtcGetTick_sceRtcSetTick_iff ⟨2024, 2, 29, 12, 30, 0, 0⟩ ⟨2024, 2, 29, 12, 30, 0, 0⟩
    ⟨0⟩).1 (by decide)).2 (by decide)

/-- At 36 minutes past midnight, a valid time, no tick is computed at all. -/
theorem sceRtcGetTick_overflows :
    sceRtcCheckValid (some ⟨2024, 1, 1, 0, 36, 0, 0⟩) = .ok ∧
      sceRtcGetTick (some ⟨2024, 1, 1, 0, 36, 0, 0⟩) (some ⟨0⟩) = .error .signedOverflow ∧
      ¬ ∃ tick, TickOf ⟨2024, 1, 1, 0, 36, 0, 0⟩ tick ∧
        TimeOf tick ⟨2024, 1, 1, 0, 36, 0, 0⟩ := by
  refine ⟨by decide, by decide, ?_⟩
  rintro ⟨tick, htick, -⟩
  obtain ⟨moved, heq⟩ := htick ⟨0⟩
  have hoverflow : sceRtcGetTick (some ⟨2024, 1, 1, 0, 36, 0, 0⟩) (some ⟨0⟩) =
      .error .signedOverflow := by
    decide
  rw [hoverflow] at heq
  cases heq

end PS4Droid.Rtc
