import PS4Droid.Rtc.Ticks

/-!
# What a conversion leaves of the caller's time

The three conversions through a tick move the caller's time to a year that starts in March and
do not move it back: only the DOS time can be read twice.
-/

namespace PS4Droid.Rtc

/-!
### The conversions

`sceRtcGetTime_t` and `sceRtcGetWin32FileTime` go through `sceRtcGetTick` on the caller's time,
the DOS time is packed into a word of the caller's, and the shifts by months and years split a
tick, change the calendar fields and join them again.
-/

def UNIX_EPOCH_TICKS : UInt64 := 0xdcbffeff2bc000

def WIN32_FILETIME_EPOCH_TICKS : UInt64 := 0xb36168b6a58000

/-- What the pointers of a conversion into a value of type `α` point to when it returns. -/
structure Converted (α : Type) where
  code : Code
  pTime : Option OrbisRtcDateTime
  out : Option α
  deriving DecidableEq

/-- The tick is a local of the caller, whose first contents are not read once the time is valid;
the code of `sceRtcGetTick` is not looked at. -/
def convertTick {α : Type} (pTime : Option OrbisRtcDateTime) (out : Option α)
    (ofTick : UInt64 → α) : Except Abort (Converted α) :=
  match pTime, out with
  | some _, some _ =>
    match sceRtcCheckValid pTime with
    | .ok => do
      let returned ← sceRtcGetTick pTime (some ⟨0⟩)
      return ⟨.ok, returned.pTime, returned.pTick.map fun timeTick => ofTick timeTick.tick⟩
    | isValid => .ok ⟨isValid, pTime, out⟩
  | _, _ => .ok ⟨.invalidPointer, pTime, out⟩

def sceRtcGetTime_t (pTime : Option OrbisRtcDateTime) (llTime : Option Int64) :
    Except Abort (Converted Int64) :=
  convertTick pTime llTime fun tick =>
    if tick < UNIX_EPOCH_TICKS then 0 else ((tick - UNIX_EPOCH_TICKS) / 1000000).toInt64

def sceRtcGetWin32FileTime (pTime : Option OrbisRtcDateTime) (ulWin32Time : Option UInt64) :
    Except Abort (Converted UInt64) :=
  convertTick pTime ulWin32Time fun tick =>
    if tick < WIN32_FILETIME_EPOCH_TICKS then 0 else (tick - WIN32_FILETIME_EPOCH_TICKS) * 10

/-- The fields are put together by `|=` on the caller's word; the operands have type `int`, of
which only the low 32 bits matter. -/
def packDosTime (time : OrbisRtcDateTime) (dosTime : UInt32) : UInt32 :=
  let dosTime := dosTime ||| ((time.second / 2).toUInt32 &&& 0x1F)
  let dosTime := dosTime ||| ((time.minute.toUInt32 &&& 0x3F) <<< 5)
  let dosTime := dosTime ||| ((time.hour.toUInt32 &&& 0x1F) <<< 11)
  let dosTime := dosTime ||| ((time.day.toUInt32 &&& 0x1F) <<< 16)
  let dosTime := dosTime ||| ((time.month.toUInt32 &&& 0x0F) <<< 21)
  dosTime ||| (((time.year.toUInt32 - 1980) &&& 0x7F) <<< 25)

def sceRtcGetDosTime (pTime : Option OrbisRtcDateTime) (dosTime : Option UInt32) :
    Converted UInt32 :=
  match pTime, dosTime with
  | some time, some word =>
    match sceRtcCheckValid pTime with
    | .ok => ⟨.ok, pTime, some (packDosTime time word)⟩
    | isValid => ⟨isValid, pTime, dosTime⟩
  | _, _ => ⟨.invalidPointer, pTime, dosTime⟩

/-- The upper half goes through an `int16_t`, so that its shifts keep the sign. -/
def unpackDosTime (dosTime : UInt32) : OrbisRtcDateTime :=
  let days : Int32 := (dosTime >>> 0x10).toUInt16.toInt16.toInt32
  { year := ((days >>> 9) + 1980).toUInt32.toUInt16
    month := ((days >>> 5) &&& 0x0f).toUInt32.toUInt16
    day := (days &&& 0x1f).toUInt32.toUInt16
    hour := ((dosTime &&& 0xf800) >>> 0xb).toUInt16
    minute := ((dosTime >>> 5) &&& 0x3f).toUInt16
    second := ((dosTime <<< 1) &&& 0x3e).toUInt16
    microsecond := 0 }

def sceRtcSetDosTime (pTime : Option OrbisRtcDateTime) (dosTime : UInt32) :
    Code × Option OrbisRtcDateTime :=
  match pTime with
  | some _ => (.ok, some (unpackDosTime dosTime))
  | none => (.invalidPointer, none)

/-! ### Shifts -/

/-- The year and month are moved by the parts of a truncating division, put back into one year
by the sign of the shift, and the day is cut to the last of the new month. A year that does not
fit the calendar's `short` is rejected afterwards, whatever its last day. -/
def addMonths (time : OrbisRtcDateTime) (lAdd : Int32) : OrbisRtcDateTime :=
  let s : ℤ := if 0 ≤ lAdd.toInt then 1 else -1
  let year : UInt16 := .ofInt (time.year.toNat + lAdd.toInt.tdiv 12)
  let tempMonth : ℤ := time.month.toNat + lAdd.toInt.tmod 12 - 1
  let (tempMonth, year) :=
    if 11 < tempMonth ∨ tempMonth < 0 then
      (tempMonth - s * 12, UInt16.ofInt (year.toNat + s))
    else (tempMonth, year)
  let month : UInt16 := .ofInt (tempMonth + 1)
  let last := lastDay year month
  let day : UInt16 := if last < time.day.toNat then .ofNat last else time.day
  { time with year, month, day }

def addYears (time : OrbisRtcDateTime) (lAdd : Int32) : OrbisRtcDateTime :=
  { time with year := .ofInt (time.year.toNat + lAdd.toInt) }

/-- A shift by calendar fields: the time is split from what `pTick1` points to, and joined into
it again if the shifted time is valid. -/
def shiftTick (pTick1 pTick2 : Option OrbisRtcTick) (lAdd : Int32)
    (shift : OrbisRtcDateTime → OrbisRtcDateTime) : Except Abort (Code × Option OrbisRtcTick) :=
  match pTick1, pTick2 with
  | some tick1, some tick2 =>
    if lAdd = 0 then .ok (.ok, some tick2)
    else
      let time := shift (timeOfTick tick1)
      match sceRtcCheckValid (some time) with
      | .ok => do
        let returned ← sceRtcGetTick (some time) pTick1
        return (.ok, returned.pTick)
      | timeIsValid => .ok (timeIsValid, pTick1)
  | _, _ => .ok (.invalidPointer, pTick1)

def sceRtcTickAddMonths (pTick1 pTick2 : Option OrbisRtcTick) (lAdd : Int32) :
    Except Abort (Code × Option OrbisRtcTick) :=
  shiftTick pTick1 pTick2 lAdd (addMonths · lAdd)

def sceRtcTickAddYears (pTick1 pTick2 : Option OrbisRtcTick) (lAdd : Int32) :
    Except Abort (Code × Option OrbisRtcTick) :=
  shiftTick pTick1 pTick2 lAdd (addYears · lAdd)

/-! ### What is left of the caller's time -/

/-- The conversions out of a calendar time. -/
inductive Conversion where
  | getTick
  | getTime_t
  | getWin32FileTime
  | getDosTime
  deriving DecidableEq

namespace Conversion

abbrev Out : Conversion → Type
  | .getTick => OrbisRtcTick
  | .getTime_t => Int64
  | .getWin32FileTime => UInt64
  | .getDosTime => UInt32

def call : (c : Conversion) → Option OrbisRtcDateTime → Option c.Out →
    Except Abort (Converted c.Out)
  | .getTick, pTime, out => do
    let returned ← sceRtcGetTick pTime out
    return ⟨returned.code, returned.pTime, returned.pTick⟩
  | .getTime_t, pTime, out => sceRtcGetTime_t pTime out
  | .getWin32FileTime, pTime, out => sceRtcGetWin32FileTime pTime out
  | .getDosTime, pTime, out => .ok (sceRtcGetDosTime pTime out)

/-- The call only reads the time: it succeeds, leaves the time as it was, and the same call on what
it left gives the same result again. The outputs of the two calls held `old` and `old'`. -/
def Reads (c : Conversion) (time : OrbisRtcDateTime) (old old' : c.Out) : Prop :=
  ∃ returned, c.call (some time) (some old) = .ok returned ∧
    returned.code = .ok ∧ returned.pTime = some time ∧
      c.call returned.pTime (some old') = .ok returned

end Conversion

/-- The month always changes, so a shifted time is not the one given. -/
theorem marchTime_ne (time : OrbisRtcDateTime) : marchTime time ≠ time := by
  intro h
  have hmonth : (marchTime time).month.toNat = time.month.toNat := by rw [h]
  have hlt := time.month.toNat_lt
  by_cases hm : 2 < time.month.toNat
  · have hm' : 2 < time.month := UInt16.lt_iff_toNat_lt.2 hm
    have hthree : 3 ≤ time.month := UInt16.le_iff_toNat_le.2 hm
    simp only [marchTime, if_pos hm', UInt16.toNat_sub_of_le _ _ hthree] at hmonth
    simp at hmonth
    omega
  · have hm' : ¬ 2 < time.month := fun hlt => hm (UInt16.lt_iff_toNat_lt.1 hlt)
    simp only [marchTime, if_neg hm', UInt16.toNat_add] at hmonth
    simp at hmonth
    omega

section Valid

variable {time : OrbisRtcDateTime} (h : Valid time)

include h

theorem Valid.convertTick_eq {α : Type} (old : α) (ofTick : UInt64 → α) :
    convertTick (some time) (some old) ofTick =
      if time.minute.toNat < 36 then
        .ok ⟨.ok, some (marchTime time), some (ofTick (.ofNat h.tickNumber))⟩
      else .error .signedOverflow := by
  have hcheck := sceRtcCheckValid_eq_ok_iff.2 h
  simp only [convertTick, hcheck, h.sceRtcGetTick_eq]
  split_ifs <;> rfl

theorem Valid.sceRtcGetDosTime_eq (old : UInt32) : sceRtcGetDosTime (some time) (some old) =
    ⟨.ok, some time, some (packDosTime time old)⟩ := by
  have hcheck := sceRtcCheckValid_eq_ok_iff.2 h
  simp only [sceRtcGetDosTime, hcheck]

theorem Valid.marchTime_of_call {c : Conversion} (hc : c ≠ .getDosTime) {old : c.Out}
    {returned : Converted c.Out} (hcall : c.call (some time) (some old) = .ok returned) :
    returned.pTime = some (marchTime time) := by
  have hconvert {α : Type} {old : α} {ofTick : UInt64 → α} {returned : Converted α}
      (heq : convertTick (some time) (some old) ofTick = .ok returned) :
      returned.pTime = some (marchTime time) := by
    rw [h.convertTick_eq] at heq
    split_ifs at heq
    cases heq
    rfl
  cases c with
  | getTick =>
    have heq := h.sceRtcGetTick_eq old
    simp only [Conversion.call] at hcall
    rw [heq] at hcall
    split_ifs at hcall
    · cases hcall
      rfl
    · cases hcall
  | getTime_t =>
    have heq : sceRtcGetTime_t (some time) (some old) = .ok returned := hcall
    exact hconvert heq
  | getWin32FileTime =>
    have heq : sceRtcGetWin32FileTime (some time) (some old) = .ok returned := hcall
    exact hconvert heq
  | getDosTime => exact absurd rfl hc

end Valid

theorem packDosTime_eq (time : OrbisRtcDateTime) (dosTime : UInt32) :
    packDosTime time dosTime = dosTime ||| packDosTime time 0 := by
  simp only [packDosTime, UInt32.or_assoc, UInt32.zero_or]

/-- The bit `i` of a time in the DOS format: half the seconds, minute, hour, day, month and the
years from 1980 on. -/
def dosBit (time : OrbisRtcDateTime) (i : ℕ) : Bool :=
  if i < 5 then (time.second / 2).toNat.testBit i
  else if i < 11 then time.minute.toNat.testBit (i - 5)
  else if i < 16 then time.hour.toNat.testBit (i - 11)
  else if i < 21 then time.day.toNat.testBit (i - 16)
  else if i < 25 then time.month.toNat.testBit (i - 21)
  else (time.year - 1980).toNat.testBit (i - 25)

theorem testBit_year (year : UInt16) {j : ℕ} (hj : j < 7) :
    (year.toUInt32 - 1980).toBitVec.getLsbD j = (year - 1980).toNat.testBit j := by
  have hmod : (year.toUInt32 - 1980).toNat % 2 ^ 7 = (year - 1980).toNat % 2 ^ 7 := by
    rw [UInt32.toNat_sub, UInt16.toNat_sub]
    simp
    omega
  have htest := congrArg (Nat.testBit · j) hmod
  simp only [Nat.testBit_mod_two_pow, hj, decide_true, Bool.true_and] at htest
  exact htest

theorem testBit_packDosTime (time : OrbisRtcDateTime) {i : ℕ} (hi : i < 32) :
    (packDosTime time 0).toNat.testBit i = dosBit time i := by
  have hyear := fun j (hj : j < 7) => testBit_year time.year hj
  change (packDosTime time 0).toBitVec.getLsbD i = _
  unfold packDosTime dosBit
  generalize time.second / 2 = second
  generalize time.year.toUInt32 - 1980 = year at hyear ⊢
  interval_cases i <;> simp [-Nat.testBit_zero, ← hyear] <;> rfl

/-- Two words differ only in bits that the time sets. -/
def AgreeOutside (time : OrbisRtcDateTime) (old old' : UInt32) : Prop :=
  ∀ i < 32, old.toNat.testBit i ≠ old'.toNat.testBit i → dosBit time i = true

theorem packDosTime_eq_iff (time : OrbisRtcDateTime) (old old' : UInt32) :
    packDosTime time old' = packDosTime time old ↔ AgreeOutside time old old' := by
  rw [packDosTime_eq time old, packDosTime_eq time old', ← UInt32.toNat_inj, UInt32.toNat_or,
    UInt32.toNat_or]
  constructor
  · intro h i hi hne
    have htest := congrArg (Nat.testBit · i) h
    simp only [Nat.testBit_or, testBit_packDosTime time hi] at htest
    by_contra hbit
    rw [Bool.not_eq_true] at hbit
    rw [hbit, Bool.or_false, Bool.or_false] at htest
    exact hne htest.symm
  · intro h
    refine Nat.eq_of_testBit_eq fun i => ?_
    by_cases hi : i < 32
    · simp only [Nat.testBit_or, testBit_packDosTime time hi]
      by_cases hsame : old.toNat.testBit i = old'.toNat.testBit i
      · rw [hsame]
      · rw [h i hi hsame, Bool.or_true, Bool.or_true]
    · have hhigh : ∀ word : UInt32, word.toNat.testBit i = false := fun word =>
        Nat.testBit_lt_two_pow
          (word.toNat_lt.trans_le (Nat.pow_le_pow_right (by norm_num) (by omega)))
      simp only [Nat.testBit_or, hhigh]

/-- Three of the conversions change the caller's time, and the one into the DOS time gives the same
result twice exactly if the two output words held the same outside of the bits of the time. -/
theorem reads_iff (time : OrbisRtcDateTime) (hcheck : sceRtcCheckValid (some time) = .ok) :
    (∀ c ≠ .getDosTime, ∀ old old', ¬ Conversion.Reads c time old old') ∧
      ∀ old old', Conversion.Reads .getDosTime time old old' ↔ AgreeOutside time old old' := by
  have h := sceRtcCheckValid_eq_ok_iff.1 hcheck
  constructor
  · rintro c hc old old' ⟨returned, hcall, -, htime, -⟩
    rw [h.marchTime_of_call hc hcall] at htime
    exact marchTime_ne time (Option.some.inj htime)
  · intro old old'
    rw [← packDosTime_eq_iff]
    have hcall (word : UInt32) : Conversion.getDosTime.call (some time) (some word) =
        .ok ⟨.ok, some time, some (packDosTime time word)⟩ :=
      congrArg Except.ok (h.sceRtcGetDosTime_eq word)
    constructor
    · rintro ⟨returned, hfirst, -, -, hagain⟩
      cases (hcall old).symm.trans hfirst
      have hout := congrArg Converted.out (Except.ok.inj ((hcall old').symm.trans hagain))
      exact Option.some.inj hout
    · intro hsame
      exact ⟨_, hcall old, rfl, rfl, hsame ▸ hcall old'⟩

/-- The first of March is packed to the same word whether its bit of the day was set or not. -/
theorem reads_dosTime_march :
    Conversion.Reads .getDosTime ⟨2024, 3, 1, 0, 0, 0, 0⟩ (0 : UInt32) (0x10000 : UInt32) :=
  ((reads_iff ⟨2024, 3, 1, 0, 0, 0, 0⟩ (by decide)).2 0 0x10000).2 (by unfold AgreeOutside; decide)

/-- Reading the tick of the first of March leaves month zero, and the second call is refused. -/
theorem not_reads_getTick_march :
    sceRtcCheckValid (some ⟨2024, 3, 1, 0, 0, 0, 0⟩) = .ok ∧
      (∃ tick, sceRtcGetTick (some ⟨2024, 3, 1, 0, 0, 0, 0⟩) (some ⟨0⟩) =
        .ok ⟨.ok, some ⟨2024, 0, 1, 0, 0, 0, 0⟩, tick⟩) ∧
      sceRtcGetTick (some ⟨2024, 0, 1, 0, 0, 0, 0⟩) (some ⟨0⟩) =
        .ok ⟨.invalidMonth, some ⟨2024, 0, 1, 0, 0, 0, 0⟩, some ⟨0⟩⟩ ∧
      ∀ old', ¬ Conversion.Reads .getTick ⟨2024, 3, 1, 0, 0, 0, 0⟩ ⟨0⟩ old' := by
  have hfirst : sceRtcGetTick (some ⟨2024, 3, 1, 0, 0, 0, 0⟩) (some ⟨0⟩) =
      .ok ⟨.ok, some ⟨2024, 0, 1, 0, 0, 0, 0⟩, some ⟨63844848000000000⟩⟩ := by
    decide
  refine ⟨by decide, ⟨_, hfirst⟩, by decide, ?_⟩
  rintro old' ⟨returned, hcall, -, htime, -⟩
  simp only [Conversion.call] at hcall
  rw [hfirst] at hcall
  cases hcall
  cases htime

end PS4Droid.Rtc
