import Mathlib.Data.List.Lex
import Mathlib.Tactic.IntervalCases
import Mathlib.Tactic.Ring

/-!
# Day numbers of the proleptic Gregorian calendar

A date is counted in days by moving the start of the year to the first of March: the leap day
is then the last day of its year, and both the years and the months lie one after another in
blocks whose starts have a closed form. The order of dates and the uniqueness of a date for its
day number are facts about consecutive blocks; the converse computation recovers the date from
its number by division.
-/

namespace PS4Droid

/-- Blocks of the given lengths laid one after another. -/
structure Consecutive (start length : ℕ → ℕ) : Prop where
  start_succ : ∀ k, start (k + 1) = start k + length k

namespace Consecutive

variable {start length : ℕ → ℕ} {k k' r r' : ℕ}

theorem start_mono (h : Consecutive start length) : Monotone start :=
  monotone_nat_of_le_succ fun k => by rw [h.start_succ k]; exact Nat.le_add_right _ _

/-- A position inside an earlier block lies before every position of a later one. -/
theorem add_lt_add (h : Consecutive start length) (hk : k < k') (hr : r < length k) (r' : ℕ) :
    start k + r < start k' + r' := by
  have hnext : start (k + 1) ≤ start k' := h.start_mono hk
  rw [h.start_succ k] at hnext
  omega

end Consecutive

namespace Calendar

def IsLeap (y : ℕ) : Prop :=
  (y % 4 = 0 ∧ y % 100 ≠ 0) ∨ y % 400 = 0

instance : DecidablePred IsLeap := fun y =>
  inferInstanceAs (Decidable ((y % 4 = 0 ∧ y % 100 ≠ 0) ∨ y % 400 = 0))

/-- The last day of month `m` of year `y`. -/
def monthLength (y m : ℕ) : ℕ :=
  match m with
  | 2 => if IsLeap y then 29 else 28
  | 4 | 6 | 9 | 11 => 30
  | _ => 31

/-- A day of the calendar, from the year one on. -/
@[ext]
structure Date where
  year : ℕ
  month : ℕ
  day : ℕ
  year_pos : 1 ≤ year
  month_pos : 1 ≤ month
  month_le : month ≤ 12
  day_pos : 1 ≤ day
  day_le : day ≤ monthLength year month
  deriving DecidableEq

/-! ### Years that begin in March -/

/-- Days before the first of March of year `y`. -/
def yearStart (y : ℕ) : ℕ :=
  146097 * (y / 100) / 4 + 1461 * (y % 100) / 4

/-- The year that begins in March of year `y` ends with the February of the next one. -/
def yearLength (y : ℕ) : ℕ :=
  if IsLeap (y + 1) then 366 else 365

/-- Days from the first of March to the first of the `m`-th month after it. -/
def monthStart (m : ℕ) : ℕ :=
  (153 * m + 2) / 5

theorem yearStart_century (c a : ℕ) (ha : a < 100) :
    yearStart (100 * c + a) = 36524 * c + c / 4 + (365 * a + a / 4) := by
  have hdiv : (100 * c + a) / 100 = c := by omega
  have hmod : (100 * c + a) % 100 = a := by omega
  have hc : 146097 * c = c + 4 * (36524 * c) := by ring
  have ha : 1461 * a = a + 4 * (365 * a) := by ring
  rw [yearStart, hdiv, hmod, hc, ha, Nat.add_mul_div_left _ _ (by norm_num),
    Nat.add_mul_div_left _ _ (by norm_num)]
  omega

theorem isLeap_succ_iff (c a : ℕ) (ha : a < 100) :
    IsLeap (100 * c + a + 1) ↔ (a % 4 = 3 ∧ a ≠ 99) ∨ (a = 99 ∧ c % 4 = 3) := by
  unfold IsLeap
  omega

theorem yearLength_century (c a : ℕ) (ha : a < 100) : yearLength (100 * c + a) =
      if (a % 4 = 3 ∧ a ≠ 99) ∨ (a = 99 ∧ c % 4 = 3) then 366 else 365 := by
  simp only [yearLength, isLeap_succ_iff c a ha]

theorem consecutive_years : Consecutive yearStart yearLength := by
  refine ⟨fun y => ?_⟩
  obtain ⟨c, a, ha, rfl⟩ : ∃ c a, a < 100 ∧ y = 100 * c + a :=
    ⟨y / 100, y % 100, Nat.mod_lt _ (by norm_num), by omega⟩
  rw [yearLength_century c a ha, yearStart_century c a ha]
  -- the last year of a century hands over to the next century
  by_cases hlast : a = 99
  · rw [show 100 * c + a + 1 = 100 * (c + 1) + 0 by omega, yearStart_century _ _ (by norm_num)]
    split_ifs with hleap <;> omega
  · rw [show 100 * c + a + 1 = 100 * c + (a + 1) by ring, yearStart_century _ _ (by omega)]
    split_ifs with hleap <;> omega

theorem consecutive_months : Consecutive monthStart fun m => monthStart (m + 1) - monthStart m := by
  refine ⟨fun m => ?_⟩
  unfold monthStart
  omega

namespace Date

variable (d e : Date)

/-- The year, counted from March, that holds the date. -/
def marchYear : ℕ :=
  if 2 < d.month then d.year else d.year - 1

def marchMonth : ℕ :=
  if 2 < d.month then d.month - 3 else d.month + 9

/-- Days from the first day of the year one. -/
def dayNumber : ℕ :=
  yearStart d.marchYear + monthStart d.marchMonth + d.day - 307

/-- Lexicographic order by year, month and day. -/
def Before : Prop :=
  [d.year, d.month, d.day] < [e.year, e.month, e.day]

theorem before_iff : d.Before e ↔ d.year < e.year ∨ (d.year = e.year ∧
    (d.month < e.month ∨ (d.month = e.month ∧ d.day < e.day))) := by
  simp [Before, List.cons_lt_cons_iff]

/-- A valid day lies inside the block of its month. -/
theorem day_lt_monthStart :
    d.day - 1 < monthStart (d.marchMonth + 1) - monthStart d.marchMonth := by
  obtain ⟨y, m, a, -, hm, hm', ha, hlen⟩ := d
  simp only [marchMonth]
  have hfeb : monthLength y 2 ≤ 29 := by simp only [monthLength]; split_ifs <;> norm_num
  by_cases hm2 : m = 2
  · subst hm2
    simp [monthStart]
    omega
  · interval_cases m <;> simp [monthLength] at hlen <;> simp [monthStart] <;> omega

/-- A valid day lies inside the block of its year, the leap day in leap years only. -/
theorem monthStart_lt_yearLength :
    monthStart d.marchMonth + (d.day - 1) < yearLength d.marchYear := by
  obtain ⟨y, m, a, hy, hm, hm', ha, hlen⟩ := d
  simp only [marchMonth, marchYear, yearLength]
  by_cases hfeb : m = 2
  · subst hfeb
    have hy1 : y - 1 + 1 = y := by omega
    by_cases hleap : IsLeap y
    all_goals simp [monthLength, hleap, monthStart, hy1] at hlen ⊢; omega
  · have hbound : 365 ≤ if IsLeap ((if 2 < m then y else y - 1) + 1) then 366 else 365 := by
      split_ifs <;> norm_num
    refine lt_of_lt_of_le ?_ hbound
    interval_cases m <;> simp [monthLength] at hlen <;> simp [monthStart] <;> omega

theorem dayNumber_add :
    d.dayNumber + 307 = yearStart d.marchYear + (monthStart d.marchMonth + (d.day - 1)) + 1 := by
  have hstart : 306 ≤ yearStart d.marchYear + monthStart d.marchMonth := by
    by_cases hy : d.marchYear = 0
    · have hm : 10 ≤ d.marchMonth := by
        have := d.year_pos
        have := d.month_pos
        simp only [marchYear, marchMonth] at hy ⊢
        split_ifs at hy ⊢ <;> omega
      simp only [monthStart]
      omega
    · have hone : yearStart 1 ≤ yearStart d.marchYear :=
        consecutive_years.start_mono (Nat.one_le_iff_ne_zero.2 hy)
      rw [show yearStart 1 = 365 by simp [yearStart]] at hone
      omega
  have := d.day_pos
  unfold dayNumber
  omega

/-- Moving the start of the year keeps the order of dates. -/
theorem Before.march {d e : Date} (h : d.Before e) : d.marchYear < e.marchYear ∨
    (d.marchYear = e.marchYear ∧ (d.marchMonth < e.marchMonth ∨
      (d.marchMonth = e.marchMonth ∧ d.day < e.day))) := by
  have := d.year_pos
  have := d.month_le
  have := e.month_le
  have := e.month_pos
  rw [before_iff] at h
  simp only [marchYear, marchMonth]
  split_ifs <;> omega

/-- Later dates have larger day numbers. -/
theorem Before.dayNumber_lt {d e : Date} (h : d.Before e) : d.dayNumber < e.dayNumber := by
  have hd := d.dayNumber_add
  have he := e.dayNumber_add
  have := e.day_pos
  have := d.day_pos
  rcases h.march with hyear | ⟨hyear, hmonth | ⟨hmonth, hday⟩⟩
  · have := consecutive_years.add_lt_add hyear d.monthStart_lt_yearLength
      (monthStart e.marchMonth + (e.day - 1))
    omega
  · have := consecutive_months.add_lt_add hmonth d.day_lt_monthStart (e.day - 1)
    rw [hyear] at hd
    omega
  · rw [hyear, hmonth] at hd
    omega

theorem before_trichotomy : d.Before e ∨ d = e ∨ e.Before d := by
  simp only [before_iff, Date.ext_iff]
  omega

theorem before_iff_dayNumber_lt : d.Before e ↔ d.dayNumber < e.dayNumber := by
  refine ⟨Before.dayNumber_lt, fun h => ?_⟩
  rcases d.before_trichotomy e with hlt | rfl | hgt
  · exact hlt
  · exact absurd h (lt_irrefl _)
  · exact absurd h hgt.dayNumber_lt.not_gt

/-- A date is determined by its day number. -/
theorem dayNumber_injective : Function.Injective dayNumber := by
  intro d e h
  rcases d.before_trichotomy e with hlt | heq | hgt
  · exact absurd h hlt.dayNumber_lt.ne
  · exact heq
  · exact absurd h hgt.dayNumber_lt.ne'

end Date

/-! ### The date of a day number -/

section OfDayNumber

variable (n : ℕ)

/-- The century of the `n`-th day, counted from March of the year zero. -/
def centuryOf : ℕ :=
  (4 * (n + 307) - 1) / 146097

def dayOfCentury : ℕ :=
  (4 * (n + 307) - 1 - 146097 * centuryOf n) / 4

def yearOfCentury : ℕ :=
  (4 * dayOfCentury n + 3) / 1461

/-- The day of the year, counted from one on the first of March. -/
def dayOfYear : ℕ :=
  (4 * dayOfCentury n + 7 - 1461 * yearOfCentury n) / 4

def monthOfYear : ℕ :=
  (5 * dayOfYear n - 3) / 153

def dayOfMonth : ℕ :=
  (5 * dayOfYear n + 2 - 153 * monthOfYear n) / 5

theorem yearOfCentury_lt : yearOfCentury n < 100 := by
  unfold yearOfCentury dayOfCentury centuryOf
  omega

theorem dayOfYear_mem : 1 ≤ dayOfYear n ∧ dayOfYear n ≤ 366 := by
  unfold dayOfYear yearOfCentury
  omega

/-- The parts recovered by division add up to the day number again, and the 366th day of a year
is found in leap years only. -/
theorem yearStart_add_dayOfYear :
    yearStart (100 * centuryOf n + yearOfCentury n) + dayOfYear n = n + 307 ∧
      (dayOfYear n = 366 → IsLeap (100 * centuryOf n + yearOfCentury n + 1)) := by
  rw [yearStart_century _ _ (yearOfCentury_lt n), isLeap_succ_iff _ _ (yearOfCentury_lt n)]
  have hcentury : centuryOf n = (4 * (n + 307) - 1) / 146097 := rfl
  have hday : dayOfCentury n = (4 * (n + 307) - 1 - 146097 * centuryOf n) / 4 := rfl
  have hyear : yearOfCentury n = (4 * dayOfCentury n + 3) / 1461 := rfl
  have hlast : dayOfYear n = (4 * dayOfCentury n + 7 - 1461 * yearOfCentury n) / 4 := rfl
  have hlt := yearOfCentury_lt n
  generalize centuryOf n = c at *
  generalize yearOfCentury n = a at *
  generalize dayOfCentury n = l at *
  generalize dayOfYear n = k at *
  -- the quarter days left over by the years and by the centuries decide the roundings
  obtain ⟨q, r, hr, rfl⟩ : ∃ q r, r < 4 ∧ c = 4 * q + r :=
    ⟨c / 4, c % 4, Nat.mod_lt _ (by norm_num), by omega⟩
  obtain ⟨p, s, hs, rfl⟩ : ∃ p s, s < 4 ∧ a = 4 * p + s :=
    ⟨a / 4, a % 4, Nat.mod_lt _ (by norm_num), by omega⟩
  have hq : (4 * q + r) / 4 = q := by omega
  have hp : (4 * p + s) / 4 = p := by omega
  rw [hq, hp]
  interval_cases r <;> interval_cases s <;> omega

theorem monthOfYear_le : monthOfYear n ≤ 11 := by
  have := dayOfYear_mem n
  unfold monthOfYear
  omega

theorem monthStart_add_dayOfMonth :
    1 ≤ dayOfMonth n ∧ monthStart (monthOfYear n) + dayOfMonth n = dayOfYear n := by
  have := dayOfYear_mem n
  unfold monthStart dayOfMonth monthOfYear
  omega

/-- The month and the year, with the year starting in January again. -/
def monthOf : ℕ :=
  if monthOfYear n < 10 then monthOfYear n + 3 else monthOfYear n - 9

def yearOf : ℕ :=
  if monthOfYear n < 10 then 100 * centuryOf n + yearOfCentury n
  else 100 * centuryOf n + yearOfCentury n + 1

theorem dayOfMonth_le : dayOfMonth n ≤ monthLength (yearOf n) (monthOf n) := by
  have hday := dayOfYear_mem n
  obtain ⟨hpos, hsum⟩ := monthStart_add_dayOfMonth n
  have hleap := (yearStart_add_dayOfYear n).2
  have hdef : monthOfYear n = (5 * dayOfYear n - 3) / 153 := rfl
  have hle := monthOfYear_le n
  unfold yearOf monthOf
  generalize 100 * centuryOf n + yearOfCentury n = y at *
  generalize monthOfYear n = m at *
  interval_cases m <;> simp [monthLength, monthStart] at hsum ⊢ <;> try omega
  split_ifs with h
  · omega
  · have : dayOfYear n ≠ 366 := fun h366 => h (hleap h366)
    omega

theorem yearOf_pos : 1 ≤ yearOf n := by
  unfold yearOf
  split_ifs with hm
  · by_contra hzero
    have hyear : 100 * centuryOf n + yearOfCentury n = 0 := by omega
    have hsum := (yearStart_add_dayOfYear n).1
    have hmonth : monthOfYear n = (5 * dayOfYear n - 3) / 153 := rfl
    rw [hyear, show yearStart 0 = 0 by simp [yearStart]] at hsum
    omega
  · omega

/-- The date of the `n`-th day from the first day of the year one. -/
def ofDayNumber : Date where
  year := yearOf n
  month := monthOf n
  day := dayOfMonth n
  year_pos := yearOf_pos n
  month_pos := by have := monthOfYear_le n; unfold monthOf; split_ifs <;> omega
  month_le := by have := monthOfYear_le n; unfold monthOf; split_ifs <;> omega
  day_pos := (monthStart_add_dayOfMonth n).1
  day_le := dayOfMonth_le n

theorem marchYear_ofDayNumber :
    (ofDayNumber n).marchYear = 100 * centuryOf n + yearOfCentury n := by
  have := monthOfYear_le n
  simp only [Date.marchYear, ofDayNumber, monthOf, yearOf]
  split_ifs <;> omega

theorem marchMonth_ofDayNumber : (ofDayNumber n).marchMonth = monthOfYear n := by
  have := monthOfYear_le n
  simp only [Date.marchMonth, ofDayNumber, monthOf]
  split_ifs <;> omega

@[simp]
theorem dayNumber_ofDayNumber : (ofDayNumber n).dayNumber = n := by
  have hyear := (yearStart_add_dayOfYear n).1
  have hmonth := (monthStart_add_dayOfMonth n).2
  have hday : (ofDayNumber n).day = dayOfMonth n := rfl
  unfold Date.dayNumber
  rw [marchYear_ofDayNumber, marchMonth_ofDayNumber, hday, Nat.sub_eq_iff_eq_add (by omega)]
  omega

/-- The first of January. -/
def newYear (y : ℕ) (hy : 1 ≤ y) : Date where
  year := y
  month := 1
  day := 1
  year_pos := hy
  month_pos := le_rfl
  month_le := by norm_num
  day_pos := le_rfl
  day_le := by simp [monthLength]

/-- A day lies before a year exactly when its number is below that of the first of January. -/
theorem yearOf_lt_iff {y : ℕ} (hy : 1 ≤ y) : yearOf n < y ↔ n < (newYear y hy).dayNumber := by
  have hbefore := (ofDayNumber n).before_iff_dayNumber_lt (newYear y hy)
  have hmonth := (ofDayNumber n).month_pos
  have hday := (ofDayNumber n).day_pos
  rw [dayNumber_ofDayNumber, Date.before_iff] at hbefore
  rw [← hbefore]
  simp only [ofDayNumber, newYear] at *
  omega

end OfDayNumber

/-! ### Shifts by months -/

theorem monthLength_pos (y m : ℕ) : 1 ≤ monthLength y m := by
  unfold monthLength
  split
  · split_ifs <;> omega
  all_goals omega

namespace Date

variable (d : Date)

/-- The number of the month among those of all years. -/
def monthIndex : ℕ :=
  12 * d.year + (d.month - 1)

/-- The day of another month with the same number, or its last day if it is shorter. -/
def atMonth (k : ℕ) (hk : 12 ≤ k) : Date where
  year := k / 12
  month := k % 12 + 1
  day := min d.day (monthLength (k / 12) (k % 12 + 1))
  year_pos := by omega
  month_pos := by omega
  month_le := by omega
  day_pos := le_min d.day_pos (monthLength_pos _ _)
  day_le := min_le_right _ _

end Date

end Calendar

end PS4Droid
