import PS4Droid.Rtc.Text
import PS4Droid.Rtc.Ticks

/-!
# Reading back a formatted time

The columns of a formatted time hold its fields as decimal digits. What the parser makes of
them is the tick moved by the offset twice, once by the formatter and once more by the parser,
with the fraction of the second read in another unit than it was written in.
-/

namespace PS4Droid.Rtc

/-! ### Decimal columns -/

def digits2 (n : ℕ) : List Char :=
  [(n / 10).digitChar, (n % 10).digitChar]

def digits4 (n : ℕ) : List Char :=
  [(n / 1000).digitChar, (n / 100 % 10).digitChar, (n / 10 % 10).digitChar, (n % 10).digitChar]

theorem toText_of_lt {n : ℕ} (h : n < 10) : toText n = [n.digitChar] :=
  Nat.toDigits_of_lt_base h

theorem toText_of_le {n : ℕ} (h : 10 ≤ n) : toText n = toText (n / 10) ++ [(n % 10).digitChar] :=
  Nat.toDigits_of_base_le (by norm_num) h

theorem toText_two {n : ℕ} (h : 10 ≤ n) (hlt : n < 100) : toText n = digits2 n := by
  rw [toText_of_le h, toText_of_lt (by omega)]
  rfl

theorem twoDigits_eq {n : ℕ} (h : n < 100) : twoDigits n = digits2 n := by
  unfold twoDigits
  split_ifs with hlt
  · have hdiv : n / 10 = 0 := by omega
    have hmod : n % 10 = n := by omega
    rw [toText_of_lt hlt, digits2, hdiv, hmod]
    rfl
  · exact toText_two (by omega) h

theorem toText_year {n : ℕ} (h : 1000 ≤ n) (hlt : n < 10000) : toText n = digits4 n := by
  have h1 : n / 10 / 10 / 10 = n / 1000 := by omega
  have h2 : n / 10 / 10 % 10 = n / 100 % 10 := by omega
  rw [toText_of_le (by omega), toText_of_le (by omega), toText_of_le (by omega),
    toText_of_lt (by omega), h1, h2]
  rfl

theorem digitChar_isDigit {n : ℕ} (h : n < 10) : n.digitChar.isDigit = true := by
  interval_cases n <;> rfl

theorem digitChar_not_isSpace {n : ℕ} (h : n < 10) : isSpace n.digitChar = false := by
  interval_cases n <;> rfl

theorem splitSign_digitChar {n : ℕ} (h : n < 10) (s : List Char) :
    splitSign (n.digitChar :: s) = (false, n.digitChar :: s) := by
  interval_cases n <;> rfl

/-- A text of digits, with nothing or with something else after it, reads as their number. -/
theorem stoi_digitChar {n : ℕ} (h : n < 10) (digits rest : List Char)
    (hdigits : digits.all Char.isDigit) (hrest : (rest.head?.map Char.isDigit).getD false = false)
    (hvalue : Nat.ofDigitChars 10 digits n < 2 ^ 31) :
    stoi (n.digitChar :: (digits ++ rest)) = .ok (Nat.ofDigitChars 10 digits n : ℕ) := by
  have hspace : (n.digitChar :: (digits ++ rest)).dropWhile isSpace =
      n.digitChar :: (digits ++ rest) := by
    simp [digitChar_not_isSpace h]
  have htake : (n.digitChar :: (digits ++ rest)).takeWhile Char.isDigit =
      n.digitChar :: digits := by
    have hstop : rest.takeWhile Char.isDigit = [] := by
      cases rest with
      | nil => rfl
      | cons c cs =>
        have hc : c.isDigit = false := by simpa using hrest
        simp [hc]
    have hall : ∀ c ∈ digits, c.isDigit = true := by simpa using hdigits
    rw [List.takeWhile_cons, if_pos (digitChar_isDigit h), List.takeWhile_append_of_pos hall, hstop,
      List.append_nil]
  have hnumber : Nat.ofDigitChars 10 (n.digitChar :: digits) 0 = Nat.ofDigitChars 10 digits n := by
    rw [Nat.ofDigitChars_cons_digitChar_of_lt_ten h, Nat.mul_zero, Nat.zero_add]
  unfold stoi
  simp only [hspace, splitSign_digitChar h, htake, hnumber, List.isEmpty_cons]
  have hbound : (-2 ^ 31 : ℤ) ≤ (Nat.ofDigitChars 10 digits n : ℕ) ∧
      ((Nat.ofDigitChars 10 digits n : ℕ) : ℤ) < 2 ^ 31 := by
    constructor
    · omega
    · exact_mod_cast hvalue
  simp only [Bool.false_eq_true, if_false, if_pos hbound]

theorem stoi_one {n : ℕ} (h : n < 10) (rest : List Char)
    (hrest : (rest.head?.map Char.isDigit).getD false = false) :
    stoi (n.digitChar :: rest) = .ok n := by
  have := stoi_digitChar h [] rest rfl hrest (by simp; omega)
  simpa using this

theorem stoi_digits2 {n : ℕ} (h : n < 100) : stoi (digits2 n) = .ok n := by
  have hlast : n % 10 < 10 := by omega
  have hvalue : Nat.ofDigitChars 10 [(n % 10).digitChar] (n / 10) = n := by
    rw [Nat.ofDigitChars_cons_digitChar_of_lt_ten hlast, Nat.ofDigitChars_nil]
    omega
  have := stoi_digitChar (n := n / 10) (by omega) [(n % 10).digitChar] []
    (by simp [digitChar_isDigit hlast]) rfl (by rw [hvalue]; omega)
  rwa [hvalue] at this

theorem stoi_digits4 {n : ℕ} (h : n < 10000) : stoi (digits4 n) = .ok n := by
  have h1 : n / 100 % 10 < 10 := by omega
  have h2 : n / 10 % 10 < 10 := by omega
  have h3 : n % 10 < 10 := by omega
  have hvalue : Nat.ofDigitChars 10
      [(n / 100 % 10).digitChar, (n / 10 % 10).digitChar, (n % 10).digitChar] (n / 1000) = n := by
    rw [Nat.ofDigitChars_cons_digitChar_of_lt_ten h1, Nat.ofDigitChars_cons_digitChar_of_lt_ten h2,
      Nat.ofDigitChars_cons_digitChar_of_lt_ten h3, Nat.ofDigitChars_nil]
    omega
  have := stoi_digitChar (n := n / 1000) (by omega) _ []
    (by simp [digitChar_isDigit h1, digitChar_isDigit h2, digitChar_isDigit h3] :
      [(n / 100 % 10).digitChar, (n / 10 % 10).digitChar,
        (n % 10).digitChar].all Char.isDigit = true) rfl (by rw [hvalue]; omega)
  rwa [hvalue] at this

/-! ### Offsets and fractions -/

/-- The offset the parser reads from the text of an offset. -/
def readOffset (iTimeZoneMinutes : ℤ) : ℤ :=
  if iTimeZoneMinutes ≤ -60 then iTimeZoneMinutes else iTimeZoneMinutes.natAbs

theorem formatTimeZone_eq (separator : List Char) {o : ℤ} (ho : o.natAbs < 1440) :
    ∃ minutes, formatTimeZone separator o =
        (if o ≤ -60 then '-' else '+') :: (digits2 (o.natAbs / 60) ++ separator ++ minutes) ∧
      (minutes.take 2 = minutes ∧ stoi minutes = .ok (o.natAbs % 60 : ℕ)) := by
  have hhours : (o.tdiv 60).natAbs = o.natAbs / 60 := by
    rw [Int.natAbs_tdiv]
    rfl
  have hminutes : (o.tmod 60).natAbs = o.natAbs % 60 := by
    rw [Int.natAbs_tmod]
    rfl
  have hsign : o.tdiv 60 < 0 ↔ o ≤ -60 := by
    rcases le_total 0 o with hpos | hneg
    · have := Int.tdiv_nonneg hpos (show (0 : ℤ) ≤ 60 by norm_num)
      omega
    · have := Int.tdiv_nonneg (neg_nonneg.2 hneg) (show (0 : ℤ) ≤ 60 by norm_num)
      rw [Int.neg_tdiv] at this
      omega
  refine ⟨if o.tmod 60 = 0 then ['0', '0'] else toText (o.natAbs % 60), ?_, ?_⟩
  · unfold formatTimeZone
    simp only [hhours, hminutes, hsign, twoDigits_eq (show o.natAbs / 60 < 100 by omega)]
    split_ifs <;> simp
  · split_ifs with hzero
    · have : o.natAbs % 60 = 0 := by rw [← hminutes, hzero]; rfl
      rw [this]
      exact ⟨rfl, by decide⟩
    · by_cases hsmall : o.natAbs % 60 < 10
      · rw [toText_of_lt hsmall]
        exact ⟨rfl, stoi_one hsmall [] rfl⟩
      · rw [toText_two (by omega) (by omega)]
        exact ⟨rfl, stoi_digits2 (by omega)⟩

/-- The number written for the fraction of a second: the first two digits of its milliseconds. -/
def readFraction (microsecond : ℕ) : ℕ :=
  if microsecond < 100000 then microsecond / 1000 else microsecond / 10000

theorem formatFraction_eq {n : ℕ} (h : n < 1000000) (hn : n % 10000 = 0) :
    formatFraction n = '.' :: digits2 (readFraction n) := by
  unfold formatFraction readFraction
  by_cases hzero : n = 0
  · subst hzero
    rfl
  · rw [if_pos hzero]
    split_ifs with hsmall
    · rw [toText_two (by omega) (by omega)]
      rfl
    · rw [toText_of_le (by omega), toText_two (by omega) (by omega),
        show n / 1000 / 10 = n / 10000 by omega]
      rfl

/-! ### RFC 3339 -/

section RFC3339

variable {y m d h n s f : ℕ}

/-- The columns of an RFC 3339 time. -/
def columns3339 (y m d h n s f : ℕ) (zone : List Char) : List Char :=
  digits4 y ++ '-' :: (digits2 m ++ '-' :: (digits2 d ++ 'T' :: (digits2 h ++ ':' ::
    (digits2 n ++ ':' :: (digits2 s ++ '.' :: (digits2 f ++ zone))))))

theorem textRFC3339_eq {time : OrbisRtcDateTime} (hv : Valid time)
    (hyear : 1000 ≤ time.year.toNat) (hmicro : time.microsecond.toNat % 10000 = 0) (o : ℤ) :
    textRFC3339 time o = columns3339 time.year.toNat time.month.toNat time.day.toNat
      time.hour.toNat time.minute.toNat time.second.toNat (readFraction time.microsecond.toNat)
      (if o = 0 then ['Z'] else formatTimeZone [':'] o) := by
  have hy := hv.year_le
  have hm := hv.month_le
  have hd := hv.day_lt
  have hh := hv.hour_lt
  have hn := hv.minute_lt
  have hs := hv.second_lt
  unfold textRFC3339 columns3339
  rw [toText_year hyear (by omega), twoDigits_eq (by omega), twoDigits_eq hd,
    twoDigits_eq (by omega), twoDigits_eq (by omega), twoDigits_eq (by omega),
    formatFraction_eq hv.microsecond_lt hmicro]
  simp only [List.append_assoc, List.cons_append, List.nil_append]

/-- The fields the parser finds in the columns, before it turns to the offset. -/
theorem readInt_columns3339 (hy : y < 10000) (hm : m < 100) (hd : d < 100) (hh : h < 100)
    (hn : n < 100) (hs : s < 100) (hf : f < 100) (zone : List Char) :
    readInt (columns3339 y m d h n s f zone) 0 4 = .ok y ∧
      readInt (columns3339 y m d h n s f zone) 5 2 = .ok m ∧
      readInt (columns3339 y m d h n s f zone) 8 2 = .ok d ∧
      readInt (columns3339 y m d h n s f zone) 11 2 = .ok h ∧
      readInt (columns3339 y m d h n s f zone) 14 2 = .ok n ∧
      readInt (columns3339 y m d h n s f zone) 17 2 = .ok s ∧
      charAt (columns3339 y m d h n s f zone) 19 = .ok '.' ∧
      readInt (columns3339 y m d h n s f zone) 20 2 = .ok f := by
  refine ⟨stoi_digits4 hy, stoi_digits2 hm, stoi_digits2 hd, stoi_digits2 hh, stoi_digits2 hn,
    stoi_digits2 hs, rfl, stoi_digits2 hf⟩

theorem charAt_columns3339 (c : Char) (zone : List Char) :
    charAt (columns3339 y m d h n s f (c :: zone)) 22 = .ok c := rfl

theorem addTimeZone_columns3339 {o : ℤ} (ho : o.natAbs < 1440) (c : Char)
    {minutes : List Char} (hshort : minutes.take 2 = minutes)
    (hminutes : stoi minutes = .ok (o.natAbs % 60 : ℕ)) (sign : ℤ) (tick : OrbisRtcTick) :
    addTimeZone (columns3339 y m d h n s f
        (c :: (digits2 (o.natAbs / 60) ++ [':'] ++ minutes))) 23 26 sign (some tick) =
      .ok (some ⟨UInt64.ofInt (o.natAbs * sign * 60000000) + tick.tick⟩) := by
  have hhours : readInt (columns3339 y m d h n s f
      (c :: (digits2 (o.natAbs / 60) ++ [':'] ++ minutes))) 23 2 = .ok (o.natAbs / 60 : ℕ) :=
    stoi_digits2 (by omega)
  have hread : readInt (columns3339 y m d h n s f
      (c :: (digits2 (o.natAbs / 60) ++ [':'] ++ minutes))) 26 2 = .ok (o.natAbs % 60 : ℕ) := by
    have hcolumn : readInt (columns3339 y m d h n s f
        (c :: (digits2 (o.natAbs / 60) ++ [':'] ++ minutes))) 26 2 = stoi (minutes.take 2) := by
      simp [readInt, substr, columns3339, digits2, digits4, bind, Except.bind]
    rw [hcolumn, hshort, hminutes]
  have hsum : ((o.natAbs / 60 : ℕ) : ℤ) * 60 + (o.natAbs % 60 : ℕ) = o.natAbs := by omega
  simp only [addTimeZone, hhours, hread, bind, Except.bind, pure, Except.pure, hsum,
    sceRtcTickAddMinutes]

theorem ofInt_natCast16 (n : ℕ) : UInt16.ofInt n = UInt16.ofNat n := by
  have hmod : ((n : ℤ) % 2 ^ 16).toNat = n % UInt16.size := by
    simp only [UInt16.size]
    omega
  rw [UInt16.ofInt, hmod, UInt16.ofNat_mod_size]

theorem ofInt_natCast32 (n : ℕ) : UInt32.ofInt n = UInt32.ofNat n := by
  have hmod : ((n : ℤ) % 2 ^ 32).toNat = n % UInt32.size := by
    simp only [UInt32.size]
    omega
  rw [UInt32.ofInt, hmod, UInt32.ofNat_mod_size]

/-- Reading the columns back: the tick of the fields, moved by the offset that was read. -/
theorem sceRtcParseRFC3339_columns (hy : y < 10000) (hm : m < 100) (hd : d < 100) (hh : h < 100)
    (hn : n < 100) (hs : s < 100) (hf : f < 100) {o : ℤ} (ho : o.natAbs < 1440)
    (old tick : OrbisRtcTick) {moved : Option OrbisRtcDateTime}
    (hget : sceRtcGetTick (some ⟨.ofNat y, .ofNat m, .ofNat d, .ofNat h, .ofNat n, .ofNat s,
      .ofNat f⟩) (some old) = .ok ⟨.ok, moved, some tick⟩) :
    sceRtcParseRFC3339 (some old) (some (columns3339 y m d h n s f
        (if o = 0 then ['Z'] else formatTimeZone [':'] o))) =
      .ok (.ok, some ⟨UInt64.ofInt (readOffset o * 60000000) + tick.tick⟩) := by
  obtain ⟨minutes, hzone, hshort, hminutes⟩ := formatTimeZone_eq [':'] ho
  obtain ⟨h0, h5, h8, h11, h14, h17, h19, h20⟩ := readInt_columns3339 hy hm hd hh hn hs hf
    (if o = 0 then ['Z'] else formatTimeZone [':'] o)
  simp only [sceRtcParseRFC3339, h0, h5, h8, h11, h14, h17, h19, h20, bind, Except.bind, pure,
    Except.pure, if_true, ofInt_natCast16, ofInt_natCast32, hget]
  by_cases hzero : o = 0
  · subst hzero
    have hnone : UInt64.ofInt 0 = 0 := rfl
    simp [charAt_columns3339, readOffset, hnone]
  · rw [if_neg hzero, hzone]
    simp only [charAt_columns3339]
    by_cases hneg : o ≤ -60
    · have hoffset : (o.natAbs : ℤ) * -1 = readOffset o := by
        rw [readOffset, if_pos hneg]
        omega
      rw [if_pos hneg, if_neg (by decide), if_pos rfl,
        addTimeZone_columns3339 ho _ hshort hminutes, hoffset]
    · have hoffset : (o.natAbs : ℤ) * 1 = readOffset o := by
        rw [readOffset, if_neg hneg, mul_one]
      rw [if_neg hneg, if_neg (by decide), if_neg (by decide), if_pos rfl,
        addTimeZone_columns3339 ho _ hshort hminutes, hoffset]

theorem sceRtcParseRFC3339_columns_error (hy : y < 10000) (hm : m < 100) (hd : d < 100)
    (hh : h < 100) (hn : n < 100) (hs : s < 100) (hf : f < 100) (zone : List Char)
    (old : OrbisRtcTick) {e : Abort}
    (hget : sceRtcGetTick (some ⟨.ofNat y, .ofNat m, .ofNat d, .ofNat h, .ofNat n, .ofNat s,
      .ofNat f⟩) (some old) = .error e) :
    sceRtcParseRFC3339 (some old) (some (columns3339 y m d h n s f zone)) = .error e := by
  obtain ⟨h0, h5, h8, h11, h14, h17, h19, h20⟩ := readInt_columns3339 hy hm hd hh hn hs hf zone
  simp only [sceRtcParseRFC3339, h0, h5, h8, h11, h14, h17, h19, h20, bind, Except.bind, pure,
    Except.pure, if_true, ofInt_natCast16, ofInt_natCast32, hget]

end RFC3339

/-! ### Local ticks -/

theorem toNat_ofInt (x : ℤ) : (UInt64.ofInt x).toNat = (x % 2 ^ 64).toNat := by
  rw [UInt64.ofInt, UInt64.toNat_ofNat']
  omega

theorem ofInt_toNat (x : UInt64) : UInt64.ofInt x.toNat = x := by
  have := x.toNat_lt
  rw [← UInt64.toNat_inj, toNat_ofInt]
  omega

theorem ofInt_natCast64 (n : ℕ) : UInt64.ofInt n = UInt64.ofNat n := by
  rw [← UInt64.toNat_inj, toNat_ofInt, UInt64.toNat_ofNat']
  omega

/-- A number that is less than one turn away from a tick wraps to it only when it equals it. -/
theorem ofInt_eq_tick_iff {x : ℤ} {tick : OrbisRtcTick}
    (h : (x - tick.tick.toNat).natAbs < 2 ^ 64) :
    (⟨UInt64.ofInt x⟩ : OrbisRtcTick) = tick ↔ x = tick.tick.toNat := by
  have hlt := tick.tick.toNat_lt
  obtain ⟨t⟩ := tick
  rw [OrbisRtcTick.mk.injEq, ← UInt64.toNat_inj, toNat_ofInt]
  simp only at *
  omega

/-- Microseconds of the local time. -/
def localNumber (tick : OrbisRtcTick) (o : ℤ) : ℤ :=
  tick.tick.toNat + o * 60000000

theorem formatTick_eq (now tick : OrbisRtcTick) (o : ℤ) :
    formatTick now (some tick) o = ⟨UInt64.ofInt (localNumber tick o)⟩ := by
  simp only [formatTick, sceRtcTickAddMinutes, Option.getD_some, localNumber, UInt64.ofInt_add,
    ofInt_toNat]
  rw [UInt64.add_comm]

/-- The time that is written. -/
def localTime (tick : OrbisRtcTick) (o : ℤ) : OrbisRtcDateTime :=
  timeOfTick ⟨UInt64.ofInt (localNumber tick o)⟩

section LocalTime

variable {tick : OrbisRtcTick} {o : ℤ} (hlow : 0 ≤ localNumber tick o)
  (hend : localNumber tick o < 315537897600000000)

include hlow hend

theorem toNat_localNumber :
    (UInt64.ofInt (localNumber tick o)).toNat = (localNumber tick o).toNat := by
  rw [toNat_ofInt]
  omega

theorem localTime_valid : Valid (localTime tick o) := by
  apply timeOfTick_valid
  simp only [toNat_localNumber hlow hend]
  omega

theorem localTime_tickNumber :
    ((localTime_valid hlow hend).tickNumber : ℤ) = localNumber tick o := by
  have hlt : (⟨UInt64.ofInt (localNumber tick o)⟩ : OrbisRtcTick).tick.toNat <
      315537897600000000 := by
    simp only [toNat_localNumber hlow hend]
    omega
  have heq : (localTime_valid hlow hend).tickNumber = (timeOfTick_valid hlt).tickNumber := rfl
  rw [heq, timeOfTick_tickNumber hlt]
  simp only [toNat_localNumber hlow hend]
  omega

theorem localTime_minute :
    ((localTime tick o).minute.toNat : ℤ) = localNumber tick o / 60000000 % 60 := by
  rw [localTime, (timeOfTick_toNat _).2.2.2.2.1]
  simp only [toNat_localNumber hlow hend]
  omega

theorem localTime_microsecond :
    (localTime tick o).microsecond.toNat = tick.tick.toNat % 1000000 := by
  rw [localTime, (timeOfTick_toNat _).2.2.2.2.2.2]
  simp only [toNat_localNumber hlow hend]
  simp only [localNumber] at *
  omega

theorem localTime_year (hyear : 31525372800000000 ≤ localNumber tick o) :
    1000 ≤ (localTime tick o).year.toNat := by
  have hfirst : (Calendar.newYear 1000 (by norm_num)).dayNumber = 364877 := by decide
  have hle := yearOf_le (n := (localNumber tick o).toNat / 86400000000) (by omega)
  have hnot := (Calendar.yearOf_lt_iff ((localNumber tick o).toNat / 86400000000)
    (y := 1000) (by norm_num)).not.2 (by rw [hfirst]; omega)
  rw [localTime, (timeOfTick_toNat _).1]
  simp only [toNat_localNumber hlow hend]
  omega

end LocalTime

/-! ### Reading back an RFC 3339 time -/

/-- The time as the parser sees it: only the microseconds differ. -/
theorem Valid.setMicrosecond {time : OrbisRtcDateTime} (hv : Valid time) {f : ℕ} (hf : f < 100) :
    Valid { time with microsecond := .ofNat f } := by
  have hmicro : (UInt32.ofNat f).toNat = f := by
    rw [UInt32.toNat_ofNat']
    omega
  exact { hv with microsecond_lt := by simp only [hmicro]; omega }

theorem Valid.setMicrosecond_tickNumber {time : OrbisRtcDateTime} (hv : Valid time) {f : ℕ}
    (hf : f < 100) :
    (hv.setMicrosecond hf).tickNumber + time.microsecond.toNat = hv.tickNumber + f := by
  have hmicro : (UInt32.ofNat f).toNat = f := by
    rw [UInt32.toNat_ofNat']
    omega
  have hdate : (hv.setMicrosecond hf).date = hv.date := rfl
  simp only [Valid.tickNumber, hdate, microsecondOfDay, hmicro]
  omega

/-- The text written for a tick reads back as the tick, whatever the buffer, the caller's tick
and the clock held before. -/
def ReadsBackRFC3339 (tick : OrbisRtcTick) (o : ℤ) : Prop :=
  ∀ now old buffer, ∃ text,
    sceRtcFormatRFC3339Precise now (some buffer) (some tick) o = (.ok, some text) ∧
      sceRtcParseRFC3339 (some old) (some text) = .ok (.ok, some tick)

theorem readsBackRFC3339_iff (tick : OrbisRtcTick) (o : ℤ) : ReadsBackRFC3339 tick o ↔
    ∀ old, sceRtcParseRFC3339 (some old) (some (textRFC3339 (localTime tick o) o)) =
      .ok (.ok, some tick) := by
  simp only [ReadsBackRFC3339, sceRtcFormatRFC3339Precise, formatTick_eq, Prod.mk.injEq,
    Option.some.injEq, true_and, exists_eq_left']
  exact ⟨fun h old => h tick old [], fun h _ old _ => h old⟩

section Columns

variable {tick : OrbisRtcTick} {o : ℤ} (hyear : 31525372800000000 ≤ localNumber tick o)
  (hend : localNumber tick o < 315537897600000000) (ho : o.natAbs < 1440)
  (hcenti : tick.tick.toNat % 10000 = 0)

include hyear hend ho hcenti

/-- With a local year of four digits the columns fit, and the parser returns the tick moved by
the offset and the fraction it misread, or stops at the minutes. -/
theorem sceRtcParseRFC3339_textRFC3339 (old : OrbisRtcTick) :
    sceRtcParseRFC3339 (some old) (some (textRFC3339 (localTime tick o) o)) =
      if (localTime tick o).minute.toNat < 36 then
        .ok (.ok, some ⟨UInt64.ofInt (readOffset o * 60000000 + localNumber tick o -
          (tick.tick.toNat % 1000000 : ℕ) + (readFraction (tick.tick.toNat % 1000000) : ℕ))⟩)
      else .error .signedOverflow := by
  have hlow : 0 ≤ localNumber tick o := by omega
  have hv := localTime_valid hlow hend
  have hmicro := localTime_microsecond hlow hend
  have hnumber := localTime_tickNumber hlow hend
  have hf : readFraction (tick.tick.toNat % 1000000) < 100 := by
    unfold readFraction
    split_ifs <;> omega
  have hy := hv.year_le
  have hm := hv.month_le
  have hd := hv.day_lt
  have hh := hv.hour_lt
  have hn := hv.minute_lt
  have hs := hv.second_lt
  have hget := (hv.setMicrosecond hf).sceRtcGetTick_eq old
  have htick := hv.setMicrosecond_tickNumber hf
  rw [textRFC3339_eq hv (localTime_year hlow hend hyear) (by omega), hmicro]
  by_cases hfit : (localTime tick o).minute.toNat < 36
  · rw [if_pos hfit] at hget ⊢
    rw [sceRtcParseRFC3339_columns (by omega) (by omega) hd (by omega) (by omega) (by omega) hf ho
      old _ (by simpa only [UInt16.ofNat_toNat] using hget)]
    rw [← ofInt_natCast64, ← UInt64.ofInt_add]
    congr 5
    omega
  · rw [if_neg hfit] at hget ⊢
    exact sceRtcParseRFC3339_columns_error (by omega) (by omega) hd (by omega) (by omega)
      (by omega) hf _ old (by simpa only [UInt16.ofNat_toNat] using hget)

theorem readsBackRFC3339_iff_of_columns : ReadsBackRFC3339 tick o ↔
    tick.tick.toNat % 1000000 = 0 ∧ -60 < o ∧ o ≤ 0 ∧ localNumber tick o / 60000000 % 60 < 36 := by
  have hminute := localTime_minute (by omega) hend
  have hlt : tick.tick.toNat < 2 ^ 63 := by
    simp only [localNumber] at hend hyear
    omega
  rw [readsBackRFC3339_iff]
  simp only [sceRtcParseRFC3339_textRFC3339 hyear hend ho hcenti]
  have hresult : (⟨UInt64.ofInt (readOffset o * 60000000 + localNumber tick o -
      (tick.tick.toNat % 1000000 : ℕ) + (readFraction (tick.tick.toNat % 1000000) : ℕ))⟩ :
        OrbisRtcTick) = tick ↔ tick.tick.toNat % 1000000 = 0 ∧ -60 < o ∧ o ≤ 0 := by
    have hfraction : readFraction (tick.tick.toNat % 1000000) < 100 := by
      unfold readFraction
      split_ifs <;> omega
    have hzero : tick.tick.toNat % 1000000 = 0 → readFraction (tick.tick.toNat % 1000000) = 0 := by
      intro h
      rw [h]
      rfl
    simp only [localNumber] at *
    rw [ofInt_eq_tick_iff]
    all_goals
      simp only [readOffset]
      split_ifs <;> omega
  split_ifs with hfit
  · simp only [Except.ok.injEq, Prod.mk.injEq, Option.some.injEq, true_and, hresult]
    constructor
    · intro h
      obtain ⟨h1, h2, h3⟩ := h tick
      exact ⟨h1, h2, h3, by omega⟩
    · rintro ⟨h1, h2, h3, -⟩ _
      exact ⟨h1, h2, h3⟩
  · constructor
    · intro h
      cases h tick
    · rintro ⟨-, -, -, h⟩
      omega

end Columns

/-! ### Years of three and of five digits

Within a day of its ends, the years of four digits leave the columns: the local time is then the
last day of the year 999 or the first day of the year 10000. -/

section Ends

variable {tick : OrbisRtcTick} {o : ℤ}

theorem digitChar_ne {n : ℕ} (h : n < 10) :
    n.digitChar ≠ '.' ∧ n.digitChar ≠ 'Z' ∧ n.digitChar ≠ '-' ∧ n.digitChar ≠ '+' := by
  interval_cases n <;> decide

theorem readInt_eq {text : List Char} {pos : ℕ} (h : pos ≤ text.length) (count : ℕ) :
    readInt text pos count = stoi ((text.drop pos).take count) := by
  simp only [readInt, substr, if_pos h, bind, Except.bind]

/-- The text of the last day of the year 999, up to its hours. -/
def newYearsEve999 : List Char :=
  ['9', '9', '9', '-', '1', '2', '-', '3', '1', 'T']

/-- The text of the first day of the year 10000, up to its hours. -/
def newYear10000 : List Char :=
  ['1', '0', '0', '0', '0', '-', '0', '1', '-', '0', '1', 'T']

/-- A text whose twentieth character is neither a point nor the start of an offset. -/
theorem sceRtcParseRFC3339_of_reads {text : List Char} {y m d h n s : ℕ} {c : Char}
    (h0 : readInt text 0 4 = .ok y) (h5 : readInt text 5 2 = .ok m) (h8 : readInt text 8 2 = .ok d)
    (h11 : readInt text 11 2 = .ok h) (h14 : readInt text 14 2 = .ok n)
    (h17 : readInt text 17 2 = .ok s) (h19 : charAt text 19 = .ok c)
    (hc : c ≠ '.' ∧ c ≠ 'Z' ∧ c ≠ '-' ∧ c ≠ '+') (old tick : OrbisRtcTick)
    {moved : Option OrbisRtcDateTime}
    (hget : sceRtcGetTick (some ⟨.ofNat y, .ofNat m, .ofNat d, .ofNat h, .ofNat n, .ofNat s, 0⟩)
      (some old) = .ok ⟨.ok, moved, some tick⟩) :
    sceRtcParseRFC3339 (some old) (some text) = .ok (.ok, some tick) := by
  obtain ⟨hpoint, hZ, hminus, hplus⟩ := hc
  simp only [sceRtcParseRFC3339, h0, h5, h8, h11, h14, h17, h19, bind, Except.bind, pure,
    Except.pure, hpoint, hZ, hminus, hplus, if_false, ofInt_natCast16]
  have hzero : UInt32.ofInt 0 = 0 := rfl
  rw [hzero, hget]

/-- With three digits of the year every later field is read one column too late, and neither the
fraction nor the offset is found. -/
theorem sceRtcParseRFC3339_year999 (h n s : ℕ) {f : ℕ} (hf : f < 100) (zone : List Char)
    (old tick : OrbisRtcTick) {moved : Option OrbisRtcDateTime}
    (hget : sceRtcGetTick (some ⟨.ofNat 999, .ofNat 2, .ofNat 1, .ofNat (h % 10),
      .ofNat (n % 10), .ofNat (s % 10), 0⟩) (some old) = .ok ⟨.ok, moved, some tick⟩) :
    sceRtcParseRFC3339 (some old) (some (newYearsEve999 ++ (digits2 h ++ ':' ::
        (digits2 n ++ ':' :: (digits2 s ++ '.' :: (digits2 f ++ zone)))))) = .ok (.ok,
          some tick) := by
  refine @sceRtcParseRFC3339_of_reads _ 999 2 1 (h % 10) (n % 10) (s % 10) (f / 10).digitChar
    ?_ ?_ ?_ ?_ ?_ ?_ rfl (digitChar_ne (by omega)) old tick moved hget
  all_goals rw [readInt_eq (by simp [newYearsEve999, digits2])]
  · exact (by decide : stoi ['9', '9', '9', '-'] = .ok (999 : ℕ))
  · exact (by decide : stoi ['2', '-'] = .ok (2 : ℕ))
  · exact (by decide : stoi ['1', 'T'] = .ok (1 : ℕ))
  · exact stoi_one (by omega) [':'] rfl
  · exact stoi_one (by omega) [':'] rfl
  · exact stoi_one (by omega) ['.'] rfl

theorem valid_february999 {h n s : ℕ} (hh : h < 10) (hn : n < 10) (hs : s < 10) :
    Valid ⟨.ofNat 999, .ofNat 2, .ofNat 1, .ofNat h, .ofNat n, .ofNat s, 0⟩ := by
  constructor <;> simp only [UInt16.toNat_ofNat'] <;> first | omega | decide

theorem not_readsBackRFC3339_of_lt (hlow : 31525286400000000 ≤ localNumber tick o)
    (hyear : localNumber tick o < 31525372800000000) (htick : 31525372800000000 ≤ tick.tick.toNat)
    (hcenti : tick.tick.toNat % 10000 = 0) : ¬ ReadsBackRFC3339 tick o := by
  have hpos : 0 ≤ localNumber tick o := by omega
  have hend : localNumber tick o < 315537897600000000 := by omega
  have hv := localTime_valid hpos hend
  have hmicro := localTime_microsecond hpos hend
  obtain ⟨hy, hm, hd, -⟩ := timeOfTick_toNat ⟨UInt64.ofInt (localNumber tick o)⟩
  simp only [toNat_localNumber hpos hend] at hy hm hd
  have hday : (localNumber tick o).toNat / 86400000000 = 364876 := by omega
  have hdate : Calendar.yearOf 364876 % 2 ^ 16 = 999 ∧ Calendar.monthOf 364876 = 12 ∧
      Calendar.dayOfMonth 364876 = 31 := by decide
  rw [hday, hdate.1] at hy
  rw [hday, hdate.2.1] at hm
  rw [hday, hdate.2.2] at hd
  have hh := hv.hour_lt
  have hn := hv.minute_lt
  have hs := hv.second_lt
  have hfields : textRFC3339 (localTime tick o) o = newYearsEve999 ++
      (digits2 (localTime tick o).hour.toNat ++ ':' :: (digits2 (localTime tick o).minute.toNat ++
        ':' :: (digits2 (localTime tick o).second.toNat ++ '.' ::
          (digits2 (readFraction (localTime tick o).microsecond.toNat) ++
            (if o = 0 then ['Z'] else formatTimeZone [':'] o))))) := by
    unfold textRFC3339
    rw [show (localTime tick o).year.toNat = 999 from hy,
      show (localTime tick o).month.toNat = 12 from hm,
      show (localTime tick o).day.toNat = 31 from hd, twoDigits_eq (n := 12) (by norm_num),
      twoDigits_eq (n := 31) (by norm_num), twoDigits_eq (by omega), twoDigits_eq (by omega),
      twoDigits_eq (by omega), formatFraction_eq hv.microsecond_lt (by omega)]
    simp only [List.append_assoc, List.cons_append, List.nil_append]
    rfl
  have hf : readFraction (localTime tick o).microsecond.toNat < 100 := by
    unfold readFraction
    split_ifs <;> omega
  -- the time that is found has one-digit hours, minutes and seconds, so its tick exists
  have hfound := valid_february999 (h := (localTime tick o).hour.toNat % 10)
    (n := (localTime tick o).minute.toNat % 10) (s := (localTime tick o).second.toNat % 10)
    (by omega) (by omega) (by omega)
  have hget := hfound.sceRtcGetTick_eq ⟨0⟩
  have hfit : (UInt16.ofNat ((localTime tick o).minute.toNat % 10)).toNat < 36 := by
    rw [UInt16.toNat_ofNat']
    omega
  rw [if_pos hfit] at hget
  have hread := sceRtcParseRFC3339_year999 _ _ _ hf
    (if o = 0 then ['Z'] else formatTimeZone [':'] o) ⟨0⟩ _ hget
  rw [readsBackRFC3339_iff]
  intro hall
  have hback := hall ⟨0⟩
  rw [hfields, hread] at hback
  have heq : UInt64.ofNat hfound.tickNumber = tick.tick := by
    simp only [Except.ok.injEq, Prod.mk.injEq, Option.some.injEq, true_and] at hback
    exact congrArg OrbisRtcTick.tick hback
  have hearly : hfound.date.dayNumber < 364877 := by
    have hfirst : (Calendar.newYear 1000 (by norm_num)).dayNumber = 364877 := by decide
    have hyear : hfound.date.year = 999 := by
      rw [Valid.date_year, UInt16.toNat_ofNat']
    have hbefore : hfound.date.Before (Calendar.newYear 1000 (by norm_num)) :=
      (Calendar.Date.before_iff _ _).2 (.inl (by rw [hyear]; exact Nat.lt_succ_self 999))
    exact lt_of_lt_of_eq hbefore.dayNumber_lt hfirst
  have hmicros := hfound.microsecondOfDay_lt
  have hbefore : hfound.tickNumber < 31525372800000000 := by
    unfold Valid.tickNumber
    omega
  rw [← heq, UInt64.toNat_ofNat', Nat.mod_eq_of_lt (by omega)] at htick
  omega

/-- With five digits of the year the hour is read from the letter before it. -/
theorem not_readsBackRFC3339_of_le (hyear : 315537897600000000 ≤ localNumber tick o)
    (hend : localNumber tick o < 315537984000000000) : ¬ ReadsBackRFC3339 tick o := by
  obtain ⟨hy, hm, hd, -⟩ := timeOfTick_toNat ⟨UInt64.ofInt (localNumber tick o)⟩
  have hnat : (UInt64.ofInt (localNumber tick o)).toNat = (localNumber tick o).toNat := by
    rw [toNat_ofInt]
    omega
  have hday : (localNumber tick o).toNat / 86400000000 = 3652059 := by omega
  have hdate : Calendar.yearOf 3652059 % 2 ^ 16 = 10000 ∧ Calendar.monthOf 3652059 = 1 ∧
      Calendar.dayOfMonth 3652059 = 1 := by decide
  simp only [hnat] at hy hm hd
  rw [hday, hdate.1] at hy
  rw [hday, hdate.2.1] at hm
  rw [hday, hdate.2.2] at hd
  obtain ⟨c, rest, htext⟩ : ∃ c rest, textRFC3339 (localTime tick o) o =
      newYear10000 ++ c :: rest := by
    have hhour : ∃ c rest, twoDigits (localTime tick o).hour.toNat = c :: rest := by
      unfold twoDigits toText
      split_ifs
      · exact ⟨_, _, rfl⟩
      · exact List.exists_cons_of_ne_nil Nat.toDigits_ne_nil
    obtain ⟨c, rest, hhour⟩ := hhour
    rw [textRFC3339, show (localTime tick o).year.toNat = 10000 from hy,
      show (localTime tick o).month.toNat = 1 from hm,
      show (localTime tick o).day.toNat = 1 from hd, hhour]
    simp only [List.append_assoc, List.cons_append, List.nil_append]
    exact ⟨c, _, rfl⟩
  rw [readsBackRFC3339_iff, htext]
  intro hall
  have hread := hall ⟨0⟩
  have h0 : readInt (newYear10000 ++ c :: rest) 0 4 = .ok 1000 := by
    have hcolumns : ((newYear10000 ++ c :: rest).drop 0).take 4 = ['1', '0', '0', '0'] := rfl
    rw [readInt_eq (by simp [newYear10000]), hcolumns]
    decide
  have h5 : readInt (newYear10000 ++ c :: rest) 5 2 = .ok 0 := by
    have hcolumns : ((newYear10000 ++ c :: rest).drop 5).take 2 = ['-', '0'] := rfl
    rw [readInt_eq (by simp [newYear10000]), hcolumns]
    decide
  have h8 : readInt (newYear10000 ++ c :: rest) 8 2 = .ok 0 := by
    have hcolumns : ((newYear10000 ++ c :: rest).drop 8).take 2 = ['-', '0'] := rfl
    rw [readInt_eq (by simp [newYear10000]), hcolumns]
    decide
  have h11 : readInt (newYear10000 ++ c :: rest) 11 2 = .error .invalidArgument := by
    have hcolumns : ((newYear10000 ++ c :: rest).drop 11).take 2 = ['T', c] := rfl
    rw [readInt_eq (by simp [newYear10000]), hcolumns]
    rfl
  simp only [sceRtcParseRFC3339, h0, h5, h8, h11, bind, Except.bind] at hread
  cases hread

end Ends

/-! ### RFC 2822 -/

section RFC2822

variable {d y h n s : ℕ}

/-- The columns of an RFC 2822 time after the day of the week. -/
def columns2822 (weekDay : List Char) (d : ℕ) (month : List Char) (y h n s : ℕ)
    (zone : List Char) : List Char :=
  weekDay ++ (digits2 d ++ ' ' :: (month ++ (digits4 y ++ ' ' :: (digits2 h ++ ':' ::
    (digits2 n ++ ':' :: (digits2 s ++ ' ' :: zone))))))

theorem weekDayText_eq {w : ℕ} (hw : w < 7) :
    ∃ c₀ c₁ c₂, weekDayText w = [c₀, c₁, c₂, ',', ' '] := by
  interval_cases w <;> exact ⟨_, _, _, rfl⟩

theorem monthText_eq {m : ℕ} (hpos : 1 ≤ m) (hle : m ≤ 12) : ∃ c₀ c₁ c₂,
    monthText m = [c₀, c₁, c₂, ' '] ∧ getMonthFromString [c₀, c₁, c₂] = m := by
  interval_cases m <;> exact ⟨_, _, _, rfl, by decide⟩

/-- The offset as the parser adds it: of an offset within an hour to the west the sign is lost. -/
theorem textRFC2822_eq {time : OrbisRtcDateTime} (hv : Valid time) (sdkVersion : ℤ)
    (hyear : 1000 ≤ time.year.toNat) (o : ℤ) : ∃ w < 7,
    textRFC2822 sdkVersion time o = columns2822 (weekDayText w) time.day.toNat
      (monthText time.month.toNat) time.year.toNat time.hour.toNat time.minute.toNat
      time.second.toNat (if o = 0 then "+0000".toList else formatTimeZone [] o) := by
  have hy := hv.year_le
  have hy' := hv.year_pos
  have hm := hv.month_le
  have hm' := hv.month_pos
  have hd' := hv.day_pos
  have hd := hv.day_le
  have hday := hv.day_lt
  have hh := hv.hour_lt
  have hn := hv.minute_lt
  have hs := hv.second_lt
  have hweek : ∃ w < 7, sceRtcGetDayOfWeek sdkVersion time.year.toNat time.month.toNat
      time.day.toNat = .ok w := by
    unfold sceRtcGetDayOfWeek
    rw [dif_neg (by omega), dif_neg (by omega), dif_neg (by omega)]
    exact ⟨_, Nat.mod_lt _ (by norm_num), rfl⟩
  obtain ⟨w, hw, hweek⟩ := hweek
  refine ⟨w, hw, ?_⟩
  unfold textRFC2822 columns2822
  simp only [hweek, twoDigits_eq hday, twoDigits_eq (show time.hour.toNat < 100 by omega),
    twoDigits_eq (show time.minute.toNat < 100 by omega),
    twoDigits_eq (show time.second.toNat < 100 by omega),
    toText_year hyear (show time.year.toNat < 10000 by omega), List.append_assoc, List.cons_append,
    List.nil_append]

/-- Reading the columns back: the tick of the fields, moved by the offset that was read. -/
theorem sceRtcParseDateTime_columns {w m : ℕ} (hw : w < 7) (hd : d < 100) (hm : 1 ≤ m)
    (hm' : m ≤ 12) (hy : y < 10000) (hh : h < 100) (hn : n < 100) (hs : s < 100) {o : ℤ}
    (ho : -60 < o) (ho' : o ≤ 0) (old tick : OrbisRtcTick) {moved : Option OrbisRtcDateTime}
    (hget : sceRtcGetTick (some ⟨.ofNat y, .ofNat m, .ofNat d, .ofNat h, .ofNat n, .ofNat s, 0⟩)
      (some old) = .ok ⟨.ok, moved, some tick⟩) :
    sceRtcParseDateTime (some old) (some (columns2822 (weekDayText w) d (monthText m) y h n s
        (if o = 0 then "+0000".toList else formatTimeZone [] o))) =
      .ok (.ok, some ⟨UInt64.ofInt (-o * 60000000) + tick.tick⟩) := by
  obtain ⟨minutes, hzone, hshort, hminutes⟩ : ∃ minutes,
      (if o = 0 then "+0000".toList else formatTimeZone [] o) = '+' :: '0' :: '0' :: minutes ∧
        minutes.take 2 = minutes ∧ stoi minutes = .ok (-o) := by
    by_cases hzero : o = 0
    · subst hzero
      exact ⟨['0', '0'], rfl, rfl, by decide⟩
    · obtain ⟨minutes, hzone, hshort, hminutes⟩ := formatTimeZone_eq [] (o := o) (by omega)
      have hhours : o.natAbs / 60 = 0 := by omega
      refine ⟨minutes, ?_, hshort, ?_⟩
      · rw [if_neg hzero, hzone, if_neg (by omega), hhours]
        rfl
      · rw [hminutes]
        congr 1
        omega
  obtain ⟨a₀, a₁, a₂, hweek⟩ := weekDayText_eq hw
  obtain ⟨b₀, b₁, b₂, hmonth, hname⟩ := monthText_eq hm hm'
  rw [hzone, hweek, hmonth]
  generalize htext : columns2822 [a₀, a₁, a₂, ',', ' '] d [b₀, b₁, b₂, ' '] y h n s
    ('+' :: '0' :: '0' :: minutes) = text
  have h5 : readInt text 5 2 = .ok d := by
    rw [← htext]
    exact stoi_digits2 hd
  have h8 : substr text 8 3 = .ok [b₀, b₁, b₂] := by
    rw [← htext]
    rfl
  have h12 : readInt text 12 4 = .ok y := by
    rw [← htext]
    exact stoi_digits4 hy
  have h17 : readInt text 17 2 = .ok h := by
    rw [← htext]
    exact stoi_digits2 hh
  have h20 : readInt text 20 2 = .ok n := by
    rw [← htext]
    exact stoi_digits2 hn
  have h23 : readInt text 23 2 = .ok s := by
    rw [← htext]
    exact stoi_digits2 hs
  have h19 : charAt text 19 = .ok ':' := by
    rw [← htext]
    rfl
  have h26 : charAt text 26 = .ok '+' := by
    rw [← htext]
    rfl
  have h27 : readInt text 27 2 = .ok (0 : ℕ) := by
    rw [← htext, readInt_eq (by simp [columns2822, digits2, digits4])]
    exact (by decide : stoi ['0', '0'] = .ok (0 : ℕ))
  have h29 : readInt text 29 2 = .ok (-o) := by
    rw [readInt_eq (by simp [← htext, columns2822, digits2, digits4]), ← hminutes, ← htext]
    exact congrArg stoi hshort
  have hzero : ((0 : ℕ) : ℤ) * 60 + -o = -o := by omega
  simp only [sceRtcParseDateTime, h19, parseRFC2822, h5, h8, hname, h12, h17, h20, h23, h26, bind,
    Except.bind, pure, Except.pure, ofInt_natCast16, hget, addTimeZone, h27, h29, hzero, mul_one,
    sceRtcTickAddMinutes, if_true]
  simp

end RFC2822

/-! ### Both formats -/

/-- The same for an RFC 2822 time and the parser of all formats. -/
def ReadsBackRFC2822 (sdkVersion : ℤ) (tick : OrbisRtcTick) (o : ℤ) : Prop :=
  ∀ now old buffer, ∃ text,
    sceRtcFormatRFC2822 sdkVersion now (some buffer) (some tick) o = (.ok, some text) ∧
      sceRtcParseDateTime (some old) (some text) = .ok (.ok, some tick)

theorem readsBackRFC2822_of_columns {tick : OrbisRtcTick} {o : ℤ} (sdkVersion : ℤ)
    (hyear : 31525372800000000 ≤ localNumber tick o)
    (hend : localNumber tick o < 315537897600000000) (hsecond : tick.tick.toNat % 1000000 = 0)
    (ho : -60 < o) (ho' : o ≤ 0) (hminute : localNumber tick o / 60000000 % 60 < 36) :
    ReadsBackRFC2822 sdkVersion tick o := by
  intro now old buffer
  have hlow : 0 ≤ localNumber tick o := by omega
  have hv := localTime_valid hlow hend
  have hnumber := localTime_tickNumber hlow hend
  have hmicro := localTime_microsecond hlow hend
  have hfit := localTime_minute hlow hend
  have hy := hv.year_le
  have hd := hv.day_lt
  have hh := hv.hour_lt
  have hn := hv.minute_lt
  have hs := hv.second_lt
  obtain ⟨w, hw, htext⟩ := textRFC2822_eq hv sdkVersion (localTime_year hlow hend hyear) o
  have hwhole : (localTime tick o).microsecond = 0 := by
    rw [← UInt32.toNat_inj, hmicro, hsecond]
    rfl
  have hget := hv.sceRtcGetTick_eq old
  rw [if_pos (by omega)] at hget
  refine ⟨textRFC2822 sdkVersion (localTime tick o) o, ?_, ?_⟩
  · have hcheck := sceRtcCheckValid_eq_ok_iff.2 hv
    simp only [sceRtcFormatRFC2822, formatTick_eq]
    exact if_pos hcheck
  · rw [htext, sceRtcParseDateTime_columns hw hd hv.month_pos hv.month_le (by omega) (by omega)
      (by omega) (by omega) ho ho' old _ (by
        simpa only [UInt16.ofNat_toNat, ← hwhole] using hget)]
    rw [← ofInt_natCast64, ← UInt64.ofInt_add, hnumber]
    congr 3
    rw [ofInt_eq_tick_iff]
    all_goals
      simp only [localNumber]
      omega

/-- Exactly the whole seconds read back, and of them those that are written with an offset of
less than an hour to the west or none, in the first 36 minutes of a local hour and in a local
year of four digits. A fraction is written in hundredths or in milliseconds and read as
microseconds, an offset is added where it should be taken away, unless its sign was lost, and
the tick of a later minute overflows. -/
theorem readsBack_iff (sdkVersion : ℤ) (tick : OrbisRtcTick) (o : ℤ)
    (hfirst : 1000 ≤ Calendar.yearOf (tick.tick.toNat / 86400000000))
    (hlast : Calendar.yearOf (tick.tick.toNat / 86400000000) ≤ 9999) (ho : o.natAbs < 1440) :
    ((tick.tick.toNat % 10000 = 0 → ReadsBackRFC3339 tick o) ∧
        (tick.tick.toNat % 1000000 = 0 → ReadsBackRFC2822 sdkVersion tick o)) ↔
      (tick.tick.toNat % 10000 = 0 → tick.tick.toNat % 1000000 = 0 ∧ -60 < o ∧ o ≤ 0 ∧
        1000 ≤ Calendar.yearOf ((localNumber tick o).toNat / 86400000000) ∧
        localNumber tick o / 60000000 % 60 < 36) := by
  have h1000 : (Calendar.newYear 1000 (by norm_num)).dayNumber = 364877 := by decide
  have h10000 : (Calendar.newYear 10000 (by norm_num)).dayNumber = 3652059 := by decide
  have hlow := (Calendar.yearOf_lt_iff (tick.tick.toNat / 86400000000) (y := 1000)
    (by norm_num)).not.1 (by omega)
  have hhigh := (Calendar.yearOf_lt_iff (tick.tick.toNat / 86400000000) (y := 10000)
    (by norm_num)).1 (by omega)
  have hlocal := (Calendar.yearOf_lt_iff ((localNumber tick o).toNat / 86400000000) (y := 1000)
    (by norm_num)).not
  rw [h1000] at hlow hlocal
  rw [h10000] at hhigh
  rw [not_lt] at hlocal
  rw [hlocal]
  have hnumber : localNumber tick o = tick.tick.toNat + o * 60000000 := rfl
  constructor
  · rintro ⟨hback, -⟩ hcenti
    have hback := hback hcenti
    -- the local time can lie outside the columns on one day at each end only
    by_cases hyear : 31525372800000000 ≤ localNumber tick o
    · by_cases hend : localNumber tick o < 315537897600000000
      · obtain ⟨h1, h2, h3, h4⟩ := (readsBackRFC3339_iff_of_columns hyear hend ho hcenti).1 hback
        exact ⟨h1, h2, h3, by omega, h4⟩
      · exact absurd hback (not_readsBackRFC3339_of_le (by omega) (by omega))
    · exact absurd hback (not_readsBackRFC3339_of_lt (by omega) (by omega) (by omega) hcenti)
  · intro hcond
    refine ⟨fun hcenti => ?_, fun hsecond => ?_⟩
    · obtain ⟨h1, h2, h3, h4, h5⟩ := hcond hcenti
      exact (readsBackRFC3339_iff_of_columns (by omega) (by omega) ho hcenti).2 ⟨h1, h2, h3, h5⟩
    · obtain ⟨h1, h2, h3, h4, h5⟩ := hcond (by omega)
      exact readsBackRFC2822_of_columns sdkVersion (by omega) (by omega) h1 h2 h3 h5

/-- Noon of the first of March 2024, written as UTC, reads back in both formats. -/
theorem readsBack_noon :
    ReadsBackRFC3339 ⟨63844891200000000⟩ 0 ∧ ReadsBackRFC2822 0 ⟨63844891200000000⟩ 0 := by
  have hboth := (readsBack_iff 0 ⟨63844891200000000⟩ 0 (by decide) (by decide)
    (by decide)).2 (by decide)
  exact ⟨hboth.1 (by decide), hboth.2 (by decide)⟩

/-- Noon in a zone one hour to the east is read as one o'clock. -/
theorem not_readsBack_east : ¬ ((63844891200000000 % 10000 = 0 →
      ReadsBackRFC3339 ⟨63844891200000000⟩ 60) ∧ (63844891200000000 % 1000000 = 0 →
        ReadsBackRFC2822 0 ⟨63844891200000000⟩ 60)) ∧
    sceRtcParseRFC3339 (some ⟨0⟩) (sceRtcFormatRFC3339Precise ⟨0⟩ (some [])
      (some ⟨63844891200000000⟩) 60).2 = .ok (.ok, some ⟨63844898400000000⟩) ∧
    sceRtcParseDateTime (some ⟨0⟩) (sceRtcFormatRFC2822 0 ⟨0⟩ (some [])
      (some ⟨63844891200000000⟩) 60).2 = .ok (.ok, some ⟨63844898400000000⟩) := by
  have hread : sceRtcParseRFC3339 (some ⟨0⟩) (sceRtcFormatRFC3339Precise ⟨0⟩ (some [])
      (some ⟨63844891200000000⟩) 60).2 = .ok (.ok, some ⟨63844898400000000⟩) := by
    decide
  refine ⟨?_, hread, by decide⟩
  rintro ⟨hback, -⟩
  obtain ⟨text, hformat, hparse⟩ := hback (by norm_num) ⟨0⟩ ⟨0⟩ []
  rw [hformat, hparse] at hread
  exact absurd hread (by decide)

end PS4Droid.Rtc
