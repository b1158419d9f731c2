import PS4Droid.Rtc.CallerTime

/-!
# Shifts by months and years

The calendar time that is shifted is split from what the output points to, not from the input:
the shift is right only when the two lie in the same month at the same time of day. The shift by
years leaves the day as it is, so it refuses a leap day that the shift by months would cut.
-/

namespace PS4Droid.Rtc

open Calendar

/-! ### What the shifts are for -/

def dateOf (tick : OrbisRtcTick) : Date :=
  ofDayNumber (tick.tick.toNat / 86400000000)

/-- The number of the month that lies `n` months after that of the tick. -/
def shiftedMonth (tick : OrbisRtcTick) (n : ℤ) : ℤ :=
  (dateOf tick).monthIndex + n

/-- The shifted date lies in the years from 1 to 9999. -/
structure InCalendar (tick : OrbisRtcTick) (n : ℤ) : Prop where
  ge : 12 ≤ shiftedMonth tick n
  lt : shiftedMonth tick n < 120000

namespace InCalendar

variable {tick : OrbisRtcTick} {n : ℤ}

def date (h : InCalendar tick n) : Date :=
  (dateOf tick).atMonth (shiftedMonth tick n).toNat (by have := h.ge; omega)

/-- The time of day of the tick on the shifted date. -/
def tickNumber (h : InCalendar tick n) : ℕ :=
  h.date.dayNumber * 86400000000 + tick.tick.toNat % 86400000000

end InCalendar

/-- Two ticks whose dates go to the same day when shifted to month number `k`, at the same time
of day; years count modulo `2 ^ 16`. -/
structure ShiftAlike (old tick : OrbisRtcTick) (k : ℕ) : Prop where
  time : old.tick.toNat % 86400000000 = tick.tick.toNat % 86400000000
  year : (dateOf old).year % 2 ^ 16 = (dateOf tick).year % 2 ^ 16
  month : (dateOf old).month = (dateOf tick).month
  day : min (dateOf old).day (monthLength (k / 12) (k % 12 + 1)) =
    min (dateOf tick).day (monthLength (k / 12) (k % 12 + 1))

/-! ### The shifted fields -/

theorem toNat_ofInt16 (x : ℤ) : ((UInt16.ofInt x).toNat : ℤ) = x % 2 ^ 16 := by
  rw [UInt16.ofInt, UInt16.toNat_ofNat']
  omega

theorem truncated_parts (n : ℤ) : 12 * n.tdiv 12 + n.tmod 12 = n ∧ -12 < n.tmod 12 ∧
    n.tmod 12 < 12 ∧ (0 ≤ n → 0 ≤ n.tmod 12) ∧ (n < 0 → n.tmod 12 ≤ 0) := by
  refine ⟨Int.mul_tdiv_add_tmod n 12, Int.lt_tmod_of_pos n (by norm_num),
    Int.tmod_lt_of_pos n (by norm_num), Int.tmod_nonneg 12, fun hneg => ?_⟩
  have hnonneg := Int.tmod_nonneg 12 (Int.neg_nonneg_of_nonpos hneg.le)
  rw [Int.neg_tmod] at hnonneg
  omega

section AddMonths

variable (time : OrbisRtcDateTime)

/-- The year and month are those of the shifted month number, the year modulo `2 ^ 16`. -/
theorem addMonths_month (hpos : 1 ≤ time.month.toNat) (hle : time.month.toNat ≤ 12) (n : Int32) :
    ((addMonths time n).year.toNat : ℤ) =
        (12 * time.year.toNat + (time.month.toNat - 1) + n.toInt) / 12 % 2 ^ 16 ∧
      ((addMonths time n).month.toNat : ℤ) =
        (12 * time.year.toNat + (time.month.toNat - 1) + n.toInt) % 12 + 1 := by
  obtain ⟨hsum, hlow, hhigh, hnonneg, hneg⟩ := truncated_parts n.toInt
  simp only [addMonths]
  generalize n.toInt.tdiv 12 = q at *
  generalize n.toInt.tmod 12 = r at *
  split_ifs
  all_goals
    simp only [toNat_ofInt16]
    omega

theorem addMonths_day (n : Int32) : (addMonths time n).day.toNat = min time.day.toNat
      (monthLength (addMonths time n).year.toNat (addMonths time n).month.toNat) := by
  have hlen (y m : ℕ) : monthLength y m < 2 ^ 16 := by
    unfold monthLength
    split
    · split_ifs <;> omega
    all_goals omega
  have hday (last : ℕ) (hlast : last < 2 ^ 16) :
      (if last < time.day.toNat then UInt16.ofNat last else time.day).toNat =
        min time.day.toNat last := by
    split_ifs with hlt
    · rw [UInt16.toNat_ofNat', Nat.mod_eq_of_lt hlast]
      omega
    · omega
  exact hday _ (hlen _ _)

end AddMonths

/-! ### The shifts on ticks -/

theorem timeOfTick_date (tick : OrbisRtcTick) :
    (timeOfTick tick).year.toNat = (dateOf tick).year % 2 ^ 16 ∧
      (timeOfTick tick).month.toNat = (dateOf tick).month ∧
        (timeOfTick tick).day.toNat = (dateOf tick).day ∧
      (timeOfTick tick).minute.toNat = tick.tick.toNat / 60000000 % 60 ∧
      microsecondOfDay (timeOfTick tick) = tick.tick.toNat % 86400000000 := by
  obtain ⟨hy, hm, hd, hh, hmin, hs, hmicro⟩ := timeOfTick_toNat tick
  refine ⟨hy, hm, hd, hmin, ?_⟩
  rw [microsecondOfDay, hh, hmin, hs, hmicro]
  omega

theorem Valid.tickNumber_eq_iff {time : OrbisRtcDateTime} (h : Valid time) {d m : ℕ}
    (hm : m < 86400000000) : h.tickNumber = d * 86400000000 + m ↔
      h.date.dayNumber = d ∧ microsecondOfDay time = m := by
  have hlt := h.microsecondOfDay_lt
  unfold Valid.tickNumber
  omega

section ShiftTick

variable {old tick : OrbisRtcTick} {n : Int32} {shift : OrbisRtcDateTime → OrbisRtcDateTime}

theorem shiftTick_of_valid (hn : n ≠ 0) (h : Valid (shift (timeOfTick old))) :
    shiftTick (some old) (some tick) n shift =
      if (shift (timeOfTick old)).minute.toNat < 36 then
        .ok (.ok, some ⟨.ofNat h.tickNumber⟩)
      else .error .signedOverflow := by
  have hcheck := sceRtcCheckValid_eq_ok_iff.2 h
  simp only [shiftTick, if_neg hn, hcheck, h.sceRtcGetTick_eq]
  split_ifs <;> rfl

theorem shiftTick_of_check (hn : n ≠ 0) {code : Code} (hcode : code ≠ .ok)
    (hcheck : sceRtcCheckValid (some (shift (timeOfTick old))) = code) :
    shiftTick (some old) (some tick) n shift = .ok (code, some old) := by
  cases code with
  | ok => exact absurd rfl hcode
  | _ => simp only [shiftTick, if_neg hn, hcheck]

end ShiftTick

section Old

variable (old : OrbisRtcTick) (n : Int32)

theorem timeOfTick_clock : (timeOfTick old).hour.toNat < 24 ∧ (timeOfTick old).minute.toNat < 60 ∧
    (timeOfTick old).second.toNat < 60 ∧ (timeOfTick old).microsecond.toNat < 1000000 := by
  obtain ⟨-, -, -, hh, hmin, hs, hmicro⟩ := timeOfTick_toNat old
  omega

theorem addMonths_valid_iff : Valid (addMonths (timeOfTick old) n) ↔
    1 ≤ (addMonths (timeOfTick old) n).year.toNat ∧
      (addMonths (timeOfTick old) n).year.toNat ≤ 9999 := by
  obtain ⟨-, hm, hd, -, -⟩ := timeOfTick_date old
  obtain ⟨hhour, hminute, hsecond, hmicro⟩ := timeOfTick_clock old
  have hpos := (dateOf old).month_pos
  have hle := (dateOf old).month_le
  have hday := (dateOf old).day_pos
  have hmonth := (addMonths_month (timeOfTick old) (by omega) (by omega) n).2
  have hcut := addMonths_day (timeOfTick old) n
  have hlength := monthLength_pos (addMonths (timeOfTick old) n).year.toNat
    (addMonths (timeOfTick old) n).month.toNat
  refine ⟨fun h => ⟨h.year_pos, h.year_le⟩, fun h => ?_⟩
  exact ⟨h.1, h.2, by omega, by omega, by omega, by omega, hhour, hminute, hsecond, hmicro⟩

theorem sceRtcCheckValid_year {time : OrbisRtcDateTime}
    (hyear : ¬ (1 ≤ time.year.toNat ∧ time.year.toNat ≤ 9999)) :
    sceRtcCheckValid (some time) = .invalidYear := by
  have hout : time.year = 0 ∨ 9999 < time.year := by
    rw [← UInt16.toNat_inj, UInt16.lt_iff_toNat_lt]
    change time.year.toNat = 0 ∨ 9999 < time.year.toNat
    omega
  simp only [sceRtcCheckValid, if_pos hout]

end Old

/-! ### When the shifts are right -/

theorem InCalendar.tickNumber_lt {tick : OrbisRtcTick} {n : ℤ} (h : InCalendar tick n) :
    h.tickNumber < 315537897600000000 := by
  have hend : 3652059 = (newYear 10000 (by norm_num)).dayNumber := by decide
  have hday : h.date.dayNumber < 3652059 := by
    rw [hend, ← Date.before_iff_dayNumber_lt, Date.before_iff]
    have := h.lt
    simp only [InCalendar.date, Date.atMonth, newYear]
    omega
  unfold InCalendar.tickNumber
  omega

section Months

variable {old tick : OrbisRtcTick} {n : Int32}

/-- The shifted fields of the old contents are the date wanted exactly when the two ticks are
shifted alike. -/
theorem addMonths_date_iff (hin : InCalendar tick n.toInt)
    (h : Valid (addMonths (timeOfTick old) n)) :
    (h.date = hin.date ∧ old.tick.toNat % 86400000000 = tick.tick.toNat % 86400000000) ↔
      ShiftAlike old tick (shiftedMonth tick n.toInt).toNat := by
  obtain ⟨hy, hm, hd, -, -⟩ := timeOfTick_date old
  have hpos := (dateOf old).month_pos
  have hle := (dateOf old).month_le
  have hpos' := (dateOf tick).month_pos
  have hle' := (dateOf tick).month_le
  obtain ⟨hyear, hmonth⟩ := addMonths_month (timeOfTick old) (by omega) (by omega) n
  have hday := addMonths_day (timeOfTick old) n
  rw [hd] at hday
  rw [hy, hm] at hyear hmonth
  have hge := hin.ge
  have hlt := hin.lt
  have hk : shiftedMonth tick n.toInt =
      12 * (dateOf tick).year + ((dateOf tick).month - 1) + n.toInt := by
    simp only [shiftedMonth, Date.monthIndex]
    omega
  -- the year and the month agree exactly when the month numbers do, modulo the wrap of the year
  have hfields : ((addMonths (timeOfTick old) n).year.toNat =
        (shiftedMonth tick n.toInt).toNat / 12 ∧
      (addMonths (timeOfTick old) n).month.toNat =
        (shiftedMonth tick n.toInt).toNat % 12 + 1) ↔
      (dateOf old).year % 2 ^ 16 = (dateOf tick).year % 2 ^ 16 ∧
        (dateOf old).month = (dateOf tick).month := by
    omega
  rw [Date.ext_iff]
  simp only [InCalendar.date, Date.atMonth, h.date_year, h.date_month, h.date_day]
  constructor
  · rintro ⟨⟨hyear', hmonth', hday'⟩, htime⟩
    obtain ⟨hyears, hmonths⟩ := hfields.1 ⟨hyear', hmonth'⟩
    rw [hyear', hmonth'] at hday
    exact ⟨htime, hyears, hmonths, hday.symm.trans hday'⟩
  · rintro ⟨htime, hyears, hmonths, hdays⟩
    obtain ⟨hyear', hmonth'⟩ := hfields.2 ⟨hyears, hmonths⟩
    rw [hyear', hmonth'] at hday
    exact ⟨⟨hyear', hmonth', hday.trans hdays⟩, htime⟩

/-- The year of the shifted old contents is one of the calendar's if they are shifted alike. -/
theorem ShiftAlike.valid (hin : InCalendar tick n.toInt)
    (h : ShiftAlike old tick (shiftedMonth tick n.toInt).toNat) :
    Valid (addMonths (timeOfTick old) n) := by
  obtain ⟨hy, hm, -, -, -⟩ := timeOfTick_date old
  have hpos := (dateOf old).month_pos
  have hle := (dateOf old).month_le
  have hyear := (addMonths_month (timeOfTick old) (by omega) (by omega) n).1
  rw [hy, hm, h.year, h.month] at hyear
  have hpos' := (dateOf tick).month_pos
  have hle' := (dateOf tick).month_le
  have hge := hin.ge
  have hlt := hin.lt
  simp only [shiftedMonth, Date.monthIndex] at hge hlt
  rw [addMonths_valid_iff]
  omega

theorem InCalendar.tickNumber_zero (hin : InCalendar tick 0) :
    hin.tickNumber = tick.tick.toNat := by
  have hpos := (dateOf tick).month_pos
  have hle := (dateOf tick).month_le
  have hk : (shiftedMonth tick 0).toNat = 12 * (dateOf tick).year + ((dateOf tick).month - 1) := by
    simp only [shiftedMonth, Date.monthIndex]
    omega
  have hyear : (shiftedMonth tick 0).toNat / 12 = (dateOf tick).year := by omega
  have hmonth : (shiftedMonth tick 0).toNat % 12 + 1 = (dateOf tick).month := by omega
  have hdate : hin.date = dateOf tick := by
    apply Date.ext
    · exact hyear
    · exact hmonth
    · simp only [InCalendar.date, Date.atMonth, hyear, hmonth]
      exact min_eq_left (dateOf tick).day_le
  rw [InCalendar.tickNumber, hdate, dateOf, dayNumber_ofDayNumber]
  omega

theorem ofNat_inj_of_lt {a b : ℕ} (ha : a < 315537897600000000) (hb : b < 315537897600000000) :
    UInt64.ofNat a = UInt64.ofNat b ↔ a = b := by
  rw [← UInt64.toNat_inj, UInt64.toNat_ofNat', UInt64.toNat_ofNat', Nat.mod_eq_of_lt (by omega),
    Nat.mod_eq_of_lt (by omega)]

/-- What `sceRtcTickAddMonths` stores is the input shifted by `n` months, exactly when the old
contents of the output are shifted alike and in the first 36 minutes of their hour. -/
theorem sceRtcTickAddMonths_eq_iff (hin : InCalendar tick n.toInt) :
    sceRtcTickAddMonths (some old) (some tick) n = .ok (.ok, some ⟨.ofNat hin.tickNumber⟩) ↔
      n = 0 ∨ (ShiftAlike old tick (shiftedMonth tick n.toInt).toNat ∧
        old.tick.toNat / 60000000 % 60 < 36) := by
  obtain ⟨-, -, -, hminute, hmicro⟩ := timeOfTick_date old
  by_cases hn : n = 0
  · subst hn
    have hsame : UInt64.ofNat hin.tickNumber = tick.tick := by
      rw [InCalendar.tickNumber_zero, UInt64.ofNat_toNat]
    simp only [sceRtcTickAddMonths, shiftTick, if_pos, hsame, true_or]
  · by_cases hvalid : Valid (addMonths (timeOfTick old) n)
    · have hdate := addMonths_date_iff hin hvalid
      have hminute' : (addMonths (timeOfTick old) n).minute = (timeOfTick old).minute := rfl
      have hmicro' : microsecondOfDay (addMonths (timeOfTick old) n) =
          old.tick.toNat % 86400000000 := hmicro
      rw [sceRtcTickAddMonths, shiftTick_of_valid hn hvalid, hminute', hminute, ← hdate]
      split_ifs with hfit
      · have htick := ofNat_inj_of_lt hvalid.tickNumber_lt_end hin.tickNumber_lt
        have hparts := hvalid.tickNumber_eq_iff (d := hin.date.dayNumber)
          (Nat.mod_lt tick.tick.toNat (by norm_num))
        rw [hmicro', Date.dayNumber_injective.eq_iff] at hparts
        simp only [Except.ok.injEq, Prod.mk.injEq, Option.some.injEq, OrbisRtcTick.mk.injEq,
          true_and, htick, hn, hfit, false_or, and_true]
        exact hparts
      · simp [hn, hfit]
    · have hcheck := sceRtcCheckValid_year ((addMonths_valid_iff old n).not.1 hvalid)
      rw [sceRtcTickAddMonths, shiftTick_of_check hn (by decide) hcheck]
      constructor
      · intro heq
        cases heq
      · rintro (hzero | ⟨halike, -⟩)
        · exact absurd hzero hn
        · exact absurd (halike.valid hin) hvalid

end Months

section Years

variable {old tick : OrbisRtcTick} {n : Int32}

/-- The year that a shift by `n` years gives the old contents. -/
def shiftedYear (old : OrbisRtcTick) (n : ℤ) : ℤ :=
  ((dateOf old).year + n) % 2 ^ 16

/-- The old contents of the output move by `n` years as they do by `12 n` months: out of the
calendar, or to a month that has their day, in the first 36 minutes of their hour. -/
def YearAlike (old : OrbisRtcTick) (n : ℤ) : Prop :=
  shiftedYear old n = 0 ∨ 9999 < shiftedYear old n ∨
    ((dateOf old).day ≤ monthLength (shiftedYear old n).toNat (dateOf old).month ∧
      old.tick.toNat / 60000000 % 60 < 36)

theorem toInt_mul_twelve (hn : 12 * n.toInt < 2 ^ 31 ∧ -2 ^ 31 ≤ 12 * n.toInt) :
    (12 * n).toInt = 12 * n.toInt := by
  rw [Int32.toInt_mul]
  change (12 * n.toInt).bmod (2 ^ 32) = _
  rw [Int.bmod_def]
  split <;> omega

theorem addMonths_twelve (old : OrbisRtcTick) (hn : (12 * n).toInt = 12 * n.toInt) :
    addMonths (timeOfTick old) (12 * n) = { addYears (timeOfTick old) n with
        day := (addMonths (timeOfTick old) (12 * n)).day } ∧
      ((addYears (timeOfTick old) n).year.toNat : ℤ) = shiftedYear old n.toInt := by
  obtain ⟨hy, hm, -, -, -⟩ := timeOfTick_date old
  have hpos := (dateOf old).month_pos
  have hle := (dateOf old).month_le
  obtain ⟨hyear, hmonth⟩ := addMonths_month (timeOfTick old) (by omega) (by omega) (12 * n)
  have hyears : ((addYears (timeOfTick old) n).year.toNat : ℤ) = shiftedYear old n.toInt := by
    simp only [addYears, toNat_ofInt16, shiftedYear]
    omega
  rw [hn] at hyear hmonth
  refine ⟨?_, hyears⟩
  apply fields_injective
  have hyear' : (addMonths (timeOfTick old) (12 * n)).year.toNat =
      (addYears (timeOfTick old) n).year.toNat := by
    unfold shiftedYear at hyears
    omega
  have hmonth' : (addMonths (timeOfTick old) (12 * n)).month.toNat =
      (addYears (timeOfTick old) n).month.toNat := by
    change _ = (timeOfTick old).month.toNat
    omega
  simp only [fields, hyear', hmonth']
  rfl

/-- Both shifts return the same, exactly when the old contents move alike. -/
theorem sceRtcTickAddYears_eq_iff (hn : (12 * n).toInt = 12 * n.toInt) :
    (∃ returned, sceRtcTickAddYears (some old) (some tick) n = .ok returned ∧
      sceRtcTickAddMonths (some old) (some tick) (12 * n) = .ok returned) ↔
        n = 0 ∨ YearAlike old n.toInt := by
  by_cases hzero : n = 0
  · subst hzero
    simp only [sceRtcTickAddYears, sceRtcTickAddMonths, shiftTick, if_pos, true_or, iff_true]
    exact ⟨_, rfl, rfl⟩
  have hzero' : 12 * n ≠ 0 := by
    intro heq
    rw [heq] at hn
    refine hzero (Int32.toInt_inj.1 ?_)
    change n.toInt = 0
    change (0 : ℤ) = 12 * n.toInt at hn
    omega
  obtain ⟨hfields, hyear⟩ := addMonths_twelve old hn
  obtain ⟨-, hm, hd, hminute, -⟩ := timeOfTick_date old
  have hday := addMonths_day (timeOfTick old) (12 * n)
  have hvalid := addMonths_valid_iff old (12 * n)
  have hmonths : (addMonths (timeOfTick old) (12 * n)).year = (addYears (timeOfTick old) n).year ∧
      (addMonths (timeOfTick old) (12 * n)).month = (timeOfTick old).month := by
    rw [hfields]
    exact ⟨rfl, rfl⟩
  have hyear' : (shiftedYear old n.toInt).toNat = (addYears (timeOfTick old) n).year.toNat := by
    omega
  rw [hmonths.1, hmonths.2, hm, hd] at hday
  rw [hmonths.1] at hvalid
  rw [YearAlike, hyear', ← hyear, sceRtcTickAddYears, sceRtcTickAddMonths]
  by_cases hcal : 1 ≤ (addYears (timeOfTick old) n).year.toNat ∧
      (addYears (timeOfTick old) n).year.toNat ≤ 9999
  · have hv := hvalid.2 hcal
    have hminute' : (addMonths (timeOfTick old) (12 * n)).minute.toNat =
        old.tick.toNat / 60000000 % 60 := hminute
    rw [shiftTick_of_valid hzero' hv, hminute']
    by_cases hfits : (dateOf old).day ≤
        monthLength (addYears (timeOfTick old) n).year.toNat (dateOf old).month
    · -- the month has the day, so both shifts reach the same time
      have hsame : addMonths (timeOfTick old) (12 * n) = addYears (timeOfTick old) n := by
        rw [hfields]
        have hcut : (addMonths (timeOfTick old) (12 * n)).day =
          (addYears (timeOfTick old) n).day := by
          apply UInt16.toNat_inj.1
          change _ = (timeOfTick old).day.toNat
          omega
        rw [hcut]
      have hv' : Valid (addYears (timeOfTick old) n) := hsame ▸ hv
      have hminute'' : (addYears (timeOfTick old) n).minute.toNat =
          old.tick.toNat / 60000000 % 60 := hminute
      rw [shiftTick_of_valid hzero hv', hminute'']
      split_ifs with hfit
      · simp [hzero, hfits, hfit, hsame, Valid.tickNumber, Valid.date, microsecondOfDay]
      · simp [hzero, hfit]
        omega
    · -- the shift by years refuses the day that the one by months has cut
      have hnot : ¬ Valid (addYears (timeOfTick old) n) := by
        intro hyears
        have hle := hyears.day_le
        change (timeOfTick old).day.toNat ≤ monthLength _ (timeOfTick old).month.toNat at hle
        rw [hm, hd] at hle
        exact hfits hle
      have hcode : sceRtcCheckValid (some (addYears (timeOfTick old) n)) ≠ .ok :=
        fun hok => hnot (sceRtcCheckValid_eq_ok_iff.1 hok)
      rw [shiftTick_of_check hzero hcode rfl]
      constructor
      · rintro ⟨returned, hyears, hmonths⟩
        cases hyears
        split_ifs at hmonths
        simp only [Except.ok.injEq, Prod.mk.injEq] at hmonths
        exact absurd hmonths.1.symm hcode
      · rintro (h | h | h | h)
        · exact absurd h hzero
        all_goals omega
  · have hcheckMonths : sceRtcCheckValid (some (addMonths (timeOfTick old) (12 * n))) =
        .invalidYear := sceRtcCheckValid_year (by rw [hmonths.1]; exact hcal)
    rw [shiftTick_of_check hzero (by decide) (sceRtcCheckValid_year hcal),
      shiftTick_of_check hzero' (by decide) hcheckMonths]
    constructor
    · intro _
      omega
    · intro _
      exact ⟨_, rfl, rfl⟩

end Years

/-- Shifts that stay in the calendar move the input exactly when there is no shift or the old
contents of the output lie where the input lies; the shift by years agrees with that by months
exactly when the old contents do not fall on a day that only one of them accepts. -/
theorem calendarShifts_iff (old tick : OrbisRtcTick) (n : Int32) :
    (∀ hin : InCalendar tick n.toInt,
      (sceRtcTickAddMonths (some old) (some tick) n = .ok (.ok, some ⟨.ofNat hin.tickNumber⟩) ↔
        n = 0 ∨ (ShiftAlike old tick (shiftedMonth tick n.toInt).toNat ∧
          old.tick.toNat / 60000000 % 60 < 36))) ∧
    (InCalendar tick (12 * n.toInt) →
      ((∃ returned, sceRtcTickAddYears (some old) (some tick) n = .ok returned ∧
          sceRtcTickAddMonths (some old) (some tick) (12 * n) = .ok returned) ↔
        n = 0 ∨ YearAlike old n.toInt)) := by
  refine ⟨fun hin => sceRtcTickAddMonths_eq_iff hin, fun hin => ?_⟩
  apply sceRtcTickAddYears_eq_iff
  apply toInt_mul_twelve
  have hge := hin.ge
  have hlt := hin.lt
  have hsmall : (dateOf tick).year < 2 ^ 26 := by
    have htick := tick.tick.toNat_lt
    have hmonth := monthOfYear_le (tick.tick.toNat / 86400000000)
    have hyear := yearOfCentury_lt (tick.tick.toNat / 86400000000)
    simp only [dateOf, ofDayNumber, yearOf]
    unfold centuryOf
    split_ifs <;> omega
  have hmonth := (dateOf tick).month_le
  simp only [shiftedMonth, Date.monthIndex] at hge hlt
  omega

/-- The first of March 2024, shifted in place by a month and by a year. -/
theorem calendarShifts_march :
    (∀ hin : InCalendar ⟨63844848000000000⟩ 1, sceRtcTickAddMonths (some ⟨63844848000000000⟩)
      (some ⟨63844848000000000⟩) 1 = .ok (.ok, some ⟨.ofNat hin.tickNumber⟩)) ∧
    ∃ returned, sceRtcTickAddYears (some ⟨63844848000000000⟩) (some ⟨63844848000000000⟩) 1 =
        .ok returned ∧
      sceRtcTickAddMonths (some ⟨63844848000000000⟩) (some ⟨63844848000000000⟩) 12 =
        .ok returned :=
  ⟨fun hin => ((calendarShifts_iff ⟨63844848000000000⟩ ⟨63844848000000000⟩ 1).1 hin).2
      (.inr ⟨⟨rfl, rfl, rfl, rfl⟩, by decide⟩),
    ((calendarShifts_iff ⟨63844848000000000⟩ ⟨63844848000000000⟩ 1).2
      ⟨by decide, by decide⟩).2 (.inr (.inr (.inr ⟨by decide, by decide⟩)))⟩

/-- An output that held zero is shifted from the first day of the year one instead of from the
input, and a leap day is refused by the shift by years alone. -/
theorem calendarShifts_fails :
    (∃ hin : InCalendar ⟨63844848000000000⟩ 1,
      sceRtcTickAddMonths (some ⟨0⟩) (some ⟨63844848000000000⟩) 1 =
        .ok (.ok, some ⟨2678400000000⟩) ∧
      sceRtcTickAddMonths (some ⟨0⟩) (some ⟨63844848000000000⟩) 1 ≠
        .ok (.ok, some ⟨.ofNat hin.tickNumber⟩)) ∧
    sceRtcTickAddYears (some ⟨63844761600000000⟩) (some ⟨63844761600000000⟩) 1 =
      .ok (.invalidDay, some ⟨63844761600000000⟩) ∧
    sceRtcTickAddMonths (some ⟨63844761600000000⟩) (some ⟨63844761600000000⟩) 12 =
      .ok (.ok, some ⟨63876297600000000⟩) := by
  refine ⟨⟨⟨by decide, by decide⟩, by decide, by decide⟩, by decide, by decide⟩

end PS4Droid.Rtc
