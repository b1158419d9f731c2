import PS4Droid.Foundations.Words
import PS4Droid.Rtc.CallerTime

/-!
# The round trip through the DOS time

The six fields fill a word of 32 bits without a gap, so a bit of the caller's word that the
packed time does not have shows in the field it lies in. The year is read back with a sign: from
2044 on its top bit is set and the time comes back before 1980.
-/

namespace PS4Droid.Rtc

open BitWords

/-- Every bit of the word lies in a field of the time that has it set. -/
structure Covered (dosTime : UInt32) (time : OrbisRtcDateTime) : Prop where
  second : field dosTime.toNat 0 5 ||| time.second.toNat / 2 = time.second.toNat / 2
  minute : field dosTime.toNat 5 6 ||| time.minute.toNat = time.minute.toNat
  hour : field dosTime.toNat 11 5 ||| time.hour.toNat = time.hour.toNat
  day : field dosTime.toNat 16 5 ||| time.day.toNat = time.day.toNat
  month : field dosTime.toNat 21 4 ||| time.month.toNat = time.month.toNat
  year : field dosTime.toNat 25 7 ||| (time.year.toNat - 1980) = time.year.toNat - 1980

/-- The times that a DOS time can hold. -/
structure DosRange (time : OrbisRtcDateTime) : Prop where
  year_ge : 1980 ≤ time.year.toNat
  year_le : time.year.toNat ≤ 2107
  second_even : time.second.toNat % 2 = 0
  microsecond_zero : time.microsecond = 0

/-! ### Unpacking -/

theorem toNat_toUInt32 (z : Int32) : z.toUInt32.toNat = (z.toInt % 2 ^ 32).toNat := by
  have hlt := z.toBitVec.isLt
  rw [Int32.toInt, BitVec.toInt_eq_toNat_bmod]
  change z.toBitVec.toNat = _
  simp only [Int.bmod_def]
  split <;> omega

/-- The upper half of a word, with the sign that an `int16_t` gives it. -/
theorem toInt_days (w : UInt32) : (w >>> 0x10).toUInt16.toInt16.toInt32.toInt =
    if w.toNat / 2 ^ 16 < 2 ^ 15 then (w.toNat / 2 ^ 16 : ℤ) else w.toNat / 2 ^ 16 - 2 ^ 16 := by
  have hlt := w.toNat_lt
  rw [Int16.toInt_toInt32, Int16.toInt, BitVec.toInt_eq_toNat_bmod]
  change ((w >>> 16).toUInt16.toNat : ℤ).bmod _ = _
  simp [Nat.shiftRight_eq_div_pow, Int.bmod_def]
  split <;> split <;> omega

theorem toInt_shiftRight (d : Int32) : (d >>> 9).toInt = d.toInt / 2 ^ 9 ∧
    (d >>> 5).toInt = d.toInt / 2 ^ 5 := by
  constructor <;>
  · rw [Int32.toInt, Int32.toBitVec_shiftRight, BitVec.toInt_sshiftRight',
      Int.shiftRight_eq_div_pow]
    rfl

/-- The fields of an unpacked word; the year has the sign of its seven bits. -/
theorem unpackDosTime_toNat (w : UInt32) : (unpackDosTime w).second.toNat = 2 * field w.toNat 0 5 ∧
      (unpackDosTime w).minute.toNat = field w.toNat 5 6 ∧
        (unpackDosTime w).hour.toNat = field w.toNat 11 5 ∧
      (unpackDosTime w).day.toNat = field w.toNat 16 5 ∧
      (unpackDosTime w).month.toNat = field w.toNat 21 4 ∧ (unpackDosTime w).year.toNat =
        if field w.toNat 25 7 < 64 then field w.toNat 25 7 + 1980
          else field w.toNat 25 7 + 1852 := by
  have hlt := w.toNat_lt
  have hdays := toInt_days w
  simp only [unpackDosTime]
  generalize (w >>> 0x10).toUInt16.toInt16.toInt32 = d at hdays ⊢
  obtain ⟨hnine, hfive⟩ := toInt_shiftRight d
  refine ⟨?_, ?_, ?_, ?_, ?_, ?_⟩
  · have hmask : w.toNat * 2 % 2 ^ 32 &&& 62 = field (w.toNat * 2 % 2 ^ 32) 1 5 * 2 :=
      and_mask _ 1 5
    rw [UInt32.toNat_toUInt16, UInt32.toNat_and, UInt32.toNat_shiftLeft, Nat.shiftLeft_eq]
    change (w.toNat * 2 % 2 ^ 32 &&& 62) % 2 ^ 16 = _
    rw [hmask]
    unfold field
    omega
  · have hmask : w.toNat / 32 &&& 63 = field (w.toNat / 32) 0 6 := by
      simpa using and_mask (w.toNat / 32) 0 6
    rw [UInt32.toNat_toUInt16, UInt32.toNat_and, UInt32.toNat_shiftRight,
      Nat.shiftRight_eq_div_pow]
    change (w.toNat / 32 &&& 63) % 2 ^ 16 = _
    rw [hmask]
    unfold field
    omega
  · have hmask : w.toNat &&& 0xf800 = field w.toNat 11 5 * 2048 := and_mask _ 11 5
    rw [UInt32.toNat_toUInt16, UInt32.toNat_shiftRight, UInt32.toNat_and,
      Nat.shiftRight_eq_div_pow]
    change (w.toNat &&& 0xf800) / 2 ^ 11 % 2 ^ 16 = _
    rw [hmask]
    unfold field
    omega
  · have hmask (n : ℕ) : n &&& 31 = field n 0 5 := by simpa using and_mask n 0 5
    rw [UInt32.toNat_toUInt16, Int32.toUInt32_and, UInt32.toNat_and, toNat_toUInt32]
    change ((d.toInt % 2 ^ 32).toNat &&& 31) % 2 ^ 16 = _
    rw [hmask]
    unfold field
    split at hdays <;> omega
  · have hmask (n : ℕ) : n &&& 15 = field n 0 4 := by simpa using and_mask n 0 4
    rw [UInt32.toNat_toUInt16, Int32.toUInt32_and, UInt32.toNat_and, toNat_toUInt32, hfive]
    change ((d.toInt / 2 ^ 5 % 2 ^ 32).toNat &&& 15) % 2 ^ 16 = _
    rw [hmask]
    unfold field
    split at hdays <;> omega
  · rw [UInt32.toNat_toUInt16, toNat_toUInt32, Int32.toInt_add, hnine]
    change ((d.toInt / 2 ^ 9 + 1980).bmod (2 ^ 32) % 2 ^ 32).toNat % 2 ^ 16 = _
    rw [Int.bmod_def]
    unfold field
    split at hdays <;> split <;> split <;> omega

/-! ### Packing -/

/-- A masked value that fits its field is moved to its offset unchanged. -/
theorem toNat_place {x m s : UInt32} (offset width : ℕ) (hm : m.toNat = 2 ^ width - 1)
    (hs : s.toNat = offset) (hoffset : offset < 32) (hfit : offset + width ≤ 32)
    (hx : x.toNat < 2 ^ width) : ((x &&& m) <<< s).toNat = x.toNat * 2 ^ offset := by
  have hmask : x.toNat &&& (2 ^ width - 1) = x.toNat := by
    have hfield := and_mask x.toNat 0 width
    rwa [field, pow_zero, mul_one, mul_one, Nat.div_one, Nat.mod_eq_of_lt hx] at hfield
  have hlt : x.toNat * 2 ^ offset < 2 ^ 32 := by
    calc x.toNat * 2 ^ offset < 2 ^ width * 2 ^ offset := by gcongr
      _ = 2 ^ (offset + width) := by ring
      _ ≤ 2 ^ 32 := Nat.pow_le_pow_right (by norm_num) hfit
  rw [UInt32.toNat_shiftLeft, UInt32.toNat_and, hm, hs, hmask, Nat.mod_eq_of_lt hoffset,
    Nat.shiftLeft_eq, Nat.mod_eq_of_lt hlt]

section Pack

variable {time : OrbisRtcDateTime} (h : Valid time) (hrange : DosRange time)

include h

theorem Valid.day_le_31 : time.day.toNat ≤ 31 := by
  refine h.day_le.trans ?_
  unfold Calendar.monthLength
  split
  · split_ifs <;> omega
  all_goals omega

include hrange

theorem Valid.packDosTime_toNat : (packDosTime time 0).toNat =
    time.second.toNat / 2 ||| time.minute.toNat * 2 ^ 5 ||| time.hour.toNat * 2 ^ 11 |||
      time.day.toNat * 2 ^ 16 ||| time.month.toNat * 2 ^ 21 |||
        (time.year.toNat - 1980) * 2 ^ 25 := by
  have hsecond : ((time.second / 2).toUInt32 &&& 0x1F).toNat = time.second.toNat / 2 := by
    have hmask : (time.second / 2).toUInt32.toNat &&& 31 =
        field (time.second / 2).toUInt32.toNat 0 5 := by
      simpa using and_mask (time.second / 2).toUInt32.toNat 0 5
    have hlt := h.second_lt
    rw [UInt32.toNat_and]
    change _ &&& 31 = _
    rw [hmask, field]
    simp
    omega
  have hminute : ((time.minute.toUInt32 &&& 0x3F) <<< 5).toNat = time.minute.toNat * 2 ^ 5 := by
    refine toNat_place 5 6 rfl rfl (by norm_num) (by norm_num) ?_
    have := h.minute_lt
    simp
    omega
  have hhour : ((time.hour.toUInt32 &&& 0x1F) <<< 11).toNat = time.hour.toNat * 2 ^ 11 := by
    refine toNat_place 11 5 rfl rfl (by norm_num) (by norm_num) ?_
    have := h.hour_lt
    simp
    omega
  have hday : ((time.day.toUInt32 &&& 0x1F) <<< 16).toNat = time.day.toNat * 2 ^ 16 := by
    refine toNat_place 16 5 rfl rfl (by norm_num) (by norm_num) ?_
    have := h.day_le_31
    simp
    omega
  have hmonth : ((time.month.toUInt32 &&& 0x0F) <<< 21).toNat = time.month.toNat * 2 ^ 21 := by
    refine toNat_place 21 4 rfl rfl (by norm_num) (by norm_num) ?_
    have := h.month_le
    simp
    omega
  have hyear : (((time.year.toUInt32 - 1980) &&& 0x7F) <<< 25).toNat =
      (time.year.toNat - 1980) * 2 ^ 25 := by
    have hsub : (time.year.toUInt32 - 1980).toNat = time.year.toNat - 1980 := by
      rw [UInt32.toNat_sub_of_le]
      · simp
      · rw [UInt32.le_iff_toNat_le]
        simpa using hrange.year_ge
    have hle := hrange.year_le
    rw [toNat_place 25 7 rfl rfl (by norm_num) (by norm_num) (by rw [hsub]; omega), hsub]
  simp only [packDosTime, UInt32.toNat_or, hsecond, hminute, hhour, hday, hmonth, hyear]
  simp

theorem Valid.field_packDosTime (old : UInt32) :
    field (packDosTime time old).toNat 0 5 = field old.toNat 0 5 ||| time.second.toNat / 2 ∧
      field (packDosTime time old).toNat 5 6 = field old.toNat 5 6 ||| time.minute.toNat ∧
      field (packDosTime time old).toNat 11 5 = field old.toNat 11 5 ||| time.hour.toNat ∧
      field (packDosTime time old).toNat 16 5 = field old.toNat 16 5 ||| time.day.toNat ∧
      field (packDosTime time old).toNat 21 4 = field old.toNat 21 4 ||| time.month.toNat ∧
      field (packDosTime time old).toNat 25 7 = field old.toNat 25 7 |||
        (time.year.toNat - 1980) := by
  have hsecond : time.second.toNat / 2 < 2 ^ 5 := by
    have := h.second_lt
    omega
  have hminute : time.minute.toNat < 2 ^ 6 := by
    have := h.minute_lt
    omega
  have hhour : time.hour.toNat < 2 ^ 5 := by
    have := h.hour_lt
    omega
  have hday : time.day.toNat < 2 ^ 5 := by
    have := h.day_le_31
    omega
  have hmonth : time.month.toNat < 2 ^ 4 := by
    have := h.month_le
    omega
  have hyear : time.year.toNat - 1980 < 2 ^ 7 := by
    have := hrange.year_le
    omega
  have hfirst (offset width) : field (time.second.toNat / 2) offset width =
      field (time.second.toNat / 2 * 2 ^ 0) offset width := by rw [pow_zero, mul_one]
  simp only [packDosTime_eq time old, UInt32.toNat_or, h.packDosTime_toNat hrange, field_or, hfirst]
  simp (disch := omega) only [field_self hsecond, field_other hsecond, field_self hminute,
    field_other hminute, field_self hhour, field_other hhour, field_self hday, field_other hday,
    field_self hmonth, field_other hmonth, field_self hyear, field_other hyear, Nat.or_zero,
    Nat.zero_or, and_self]

end Pack

/-! ### There and back -/

/-- The DOS time that `sceRtcGetDosTime` leaves in a word that held `old` is read back as the
time it was made of, whatever the output of `sceRtcSetDosTime` held. -/
def ReadsBackDosTime (time : OrbisRtcDateTime) (old : UInt32) : Prop :=
  ∃ dosTime, sceRtcGetDosTime (some time) (some old) = ⟨.ok, some time, some dosTime⟩ ∧
    ∀ other, sceRtcSetDosTime (some other) dosTime = (.ok, some time)

theorem Valid.readsBack_iff_unpack {time : OrbisRtcDateTime} (h : Valid time) (old : UInt32) :
    ReadsBackDosTime time old ↔ unpackDosTime (packDosTime time old) = time := by
  simp only [ReadsBackDosTime, h.sceRtcGetDosTime_eq, Converted.mk.injEq, Option.some.injEq,
    true_and, exists_eq_left', sceRtcSetDosTime, Prod.mk.injEq]
  exact ⟨fun heq => heq time, fun heq _ => heq⟩

/-- The round trip holds exactly up to the year 2043 and for a word that held no bit besides
those of the time. -/
theorem readsBackDosTime_iff (time : OrbisRtcDateTime) (old : UInt32)
    (hcheck : sceRtcCheckValid (some time) = .ok) (hrange : DosRange time) :
    ReadsBackDosTime time old ↔ time.year ≤ 2043 ∧ Covered old time := by
  have h := sceRtcCheckValid_eq_ok_iff.1 hcheck
  obtain ⟨hs, hmin, hh, hd, hm, hy⟩ := unpackDosTime_toNat (packDosTime time old)
  obtain ⟨hfs, hfmin, hfh, hfd, hfm, hfy⟩ := h.field_packDosTime hrange old
  rw [hfs] at hs
  rw [hfmin] at hmin
  rw [hfh] at hh
  rw [hfd] at hd
  rw [hfm] at hm
  rw [hfy] at hy
  have hlow := hrange.year_ge
  have heven := hrange.second_even
  rw [h.readsBack_iff_unpack, UInt16.le_iff_toNat_le]
  change _ ↔ time.year.toNat ≤ 2043 ∧ _
  constructor
  · intro heq
    rw [heq] at hs hmin hh hd hm hy
    have hyear : time.year.toNat ≤ 2043 ∧
        field old.toNat 25 7 ||| (time.year.toNat - 1980) = time.year.toNat - 1980 := by
      -- with the sign bit the year would lie before 1980
      split at hy
      · omega
      · have hfield : field (packDosTime time old).toNat 25 7 < 128 := Nat.mod_lt _ (by norm_num)
        omega
    exact ⟨hyear.1, by omega, hmin.symm, hh.symm, hd.symm, hm.symm, hyear.2⟩
  · rintro ⟨hyear, hcovered⟩
    rw [hcovered.second] at hs
    rw [hcovered.minute] at hmin
    rw [hcovered.hour] at hh
    rw [hcovered.day] at hd
    rw [hcovered.month] at hm
    rw [hcovered.year, if_pos (by omega)] at hy
    have hmicro : (unpackDosTime (packDosTime time old)).microsecond = time.microsecond :=
      hrange.microsecond_zero.symm
    apply fields_injective
    simp only [fields, hs, hmin, hh, hd, hm, hy, hmicro]
    simp
    omega

/-- A time of 2024 comes back from a word that held zero. -/
theorem readsBackDosTime_leapDay : ReadsBackDosTime ⟨2024, 2, 29, 12, 30, 58, 0⟩ 0 :=
  (readsBackDosTime_iff ⟨2024, 2, 29, 12, 30, 58, 0⟩ 0 (by decide)
    ⟨by decide, by decide, by decide, rfl⟩).2
    ⟨by decide, by decide, by decide, by decide, by decide, by decide, by decide⟩

/-- The first day of 2044 comes back as a day of 1916, and the first of 2024 with two seconds
more from a word that had its lowest bit set. -/
theorem not_readsBackDosTime :
    sceRtcCheckValid (some ⟨2044, 1, 1, 0, 0, 0, 0⟩) = .ok ∧
      DosRange ⟨2044, 1, 1, 0, 0, 0, 0⟩ ∧
      unpackDosTime (packDosTime ⟨2044, 1, 1, 0, 0, 0, 0⟩ 0) = ⟨1916, 1, 1, 0, 0, 0, 0⟩ ∧
      ¬ ReadsBackDosTime ⟨2044, 1, 1, 0, 0, 0, 0⟩ 0 ∧
      ¬ ReadsBackDosTime ⟨2024, 1, 1, 0, 0, 0, 0⟩ 1 := by
  have hvalid : Valid ⟨2044, 1, 1, 0, 0, 0, 0⟩ := sceRtcCheckValid_eq_ok_iff.1 (by decide)
  have hvalid' : Valid ⟨2024, 1, 1, 0, 0, 0, 0⟩ := sceRtcCheckValid_eq_ok_iff.1 (by decide)
  refine ⟨by decide, ⟨by decide, by decide, by decide, rfl⟩, by decide, ?_, ?_⟩
  · rw [hvalid.readsBack_iff_unpack]
    decide
  · rw [hvalid'.readsBack_iff_unpack]
    decide

end PS4Droid.Rtc
