import PS4Droid.Kernel.TimerRegistry

/-!
# The interval of a high-resolution timer

The nanoseconds go through a binary fraction with a sign. In the lower half of a second the way
there and back loses one nanosecond at most; in the upper half the fraction is negative and the
interval comes out about a second too short.
-/

namespace PS4Droid.Kernel.OrbisKernelTimespec

open HrTimers

variable (ts : OrbisKernelTimespec)

/-- What the caller asks for, in nanoseconds. -/
def requested : ℤ :=
  ts.tv_sec.toInt * 1000000000 + ts.tv_nsec.toInt

/-- The requests whose nanoseconds are a part of a second and which fit 63 bits. -/
structure InRange : Prop where
  sec_nonneg : 0 ≤ ts.tv_sec.toInt
  sec_lt : ts.tv_sec.toInt * 1000000000 + 1000000000 < 2 ^ 63
  nsec_nonneg : 0 ≤ ts.tv_nsec.toInt
  nsec_lt : ts.tv_nsec.toInt < 1000000000

/-- Every call with this time leaves an entry with the interval in the container it chooses. -/
def Stores (interval : ℤ) : Prop :=
  ∀ (q : TimerQueue) (id : Int32) (address udata : UInt64) (now : ℕ),
    let q' := (q.step (.add id ts address udata now)).2
    if ts.totalNs < hrTimerSpinlockThresholdNs then
      ∃ st ∈ q'.smallTimers, st.event.ident = identOf id ∧ st.interval = interval
    else ∃ e ∈ q'.events, e.key = (identOf id, .hrTimer) ∧ e.timerInterval = interval

/-- What a call stores is the way of the nanoseconds through the fraction and back. -/
theorem stores_nanoseconds : ts.Stores ts.bintime.nanoseconds := by
  intro q id address udata now
  dsimp only
  split_ifs with hsmall
  · rw [step_add_small q id ts address udata now hsmall]
    exact ⟨_, List.mem_cons_self, rfl, rfl⟩
  · rw [step_add_large q id ts address udata now hsmall]
    obtain ⟨hpending, -⟩ := addEvent_pending q (TimerQueue.hrTimerEvent id address udata)
      ts.bintime now rfl
    have hmem : ∃ timer, (ts.bintime.nanoseconds, timer, udata) ∈
        ((q.addEvent (TimerQueue.hrTimerEvent id address udata) ts.bintime now).2.events.filter
          (·.key = (identOf id, .hrTimer))).map fun e => (e.timerInterval, e.timer,
            e.event.udata) := by
      refine hpending ▸ ?_
      split_ifs with hin
      · obtain ⟨e, he, hkey⟩ := hin
        exact ⟨_, List.mem_map.2 ⟨e, List.mem_filter.2 ⟨he, decide_eq_true hkey⟩, rfl⟩⟩
      · exact ⟨_, List.mem_singleton.2 rfl⟩
    obtain ⟨timer, hmem⟩ := hmem
    obtain ⟨e, he, hentry⟩ := List.mem_map.1 hmem
    obtain ⟨he, hkey⟩ := List.mem_filter.1 he
    exact ⟨e, he, of_decide_eq_true hkey, congrArg Prod.fst hentry⟩

theorem stores_iff (interval : ℤ) : ts.Stores interval ↔ interval = ts.bintime.nanoseconds := by
  refine ⟨fun h => ?_, fun h => h ▸ ts.stores_nanoseconds⟩
  have hcreate := h .create 0 0 0 0
  dsimp only at hcreate
  split_ifs at hcreate with hsmall
  · rw [step_add_small .create 0 ts 0 0 0 hsmall] at hcreate
    obtain ⟨st, hst, -, hinterval⟩ := hcreate
    obtain rfl := List.mem_singleton.1 hst
    exact hinterval.symm
  · rw [step_add_large .create 0 ts 0 0 0 hsmall] at hcreate
    obtain ⟨e, he, -, hinterval⟩ := hcreate
    obtain rfl := List.mem_singleton.1 he
    exact hinterval.symm

/-- The interval is close to what was asked for. -/
def Survives : Prop :=
  ∃ interval, ts.Stores interval ∧ ts.requested - 2 ≤ interval ∧ interval ≤ ts.requested ∧
    0 ≤ interval

theorem survives_iff_nanoseconds : ts.Survives ↔ ts.requested - 2 ≤ ts.bintime.nanoseconds ∧
    ts.bintime.nanoseconds ≤ ts.requested ∧ 0 ≤ ts.bintime.nanoseconds := by
  simp only [Survives, stores_iff, exists_eq_left]

theorem frac_eq (h : ts.InRange) : ts.bintime.frac =
    if ts.tv_nsec.toInt ≤ 500000000 then 18446744073 * ts.tv_nsec.toInt
    else 18446744073 * ts.tv_nsec.toInt - 2 ^ 64 := by
  have hlow := h.nsec_nonneg
  have hhigh := h.nsec_lt
  rw [bintime]
  dsimp only
  rw [Int64.toInt_mul]
  change (18446744073 * ts.tv_nsec.toInt).bmod (2 ^ 64) = _
  rw [Int.bmod_def]
  split <;> split <;> omega

/-- In the lower half of a second the interval is the request or a nanosecond less. -/
theorem nanoseconds_of_le (h : ts.InRange) (hle : ts.tv_nsec.toInt ≤ 500000000) :
    ts.requested - 1 ≤ ts.bintime.nanoseconds ∧ ts.bintime.nanoseconds ≤ ts.requested ∧
      ts.tv_sec.toInt * 1000000000 ≤ ts.bintime.nanoseconds := by
  have hlow := h.nsec_nonneg
  have hfrac := ts.frac_eq h
  rw [if_pos hle] at hfrac
  have hsec : ts.bintime.sec = ts.tv_sec.toInt := rfl
  rw [OrbisKernelBintime.nanoseconds, hfrac, hsec, requested, Int.shiftRight_eq_div_pow,
    Int.shiftRight_eq_div_pow]
  omega

theorem nanoseconds_of_lt (h : ts.InRange) (hlt : 500000000 < ts.tv_nsec.toInt) :
    ts.bintime.nanoseconds < ts.tv_sec.toInt * 1000000000 := by
  have hhigh := h.nsec_lt
  have hfrac := ts.frac_eq h
  rw [if_neg (by omega)] at hfrac
  have hsec : ts.bintime.sec = ts.tv_sec.toInt := rfl
  rw [OrbisKernelBintime.nanoseconds, hfrac, hsec, Int.shiftRight_eq_div_pow,
    Int.shiftRight_eq_div_pow]
  omega

theorem nanoseconds_mono {ts ts' : OrbisKernelTimespec} (h : ts.InRange) (h' : ts'.InRange)
    (hle : ts.tv_nsec.toInt ≤ 500000000) (hle' : ts'.tv_nsec.toInt ≤ 500000000)
    (hrequested : ts.requested ≤ ts'.requested) :
    ts.bintime.nanoseconds ≤ ts'.bintime.nanoseconds := by
  have hlow := h'.nsec_nonneg
  rw [requested, requested] at hrequested
  by_cases hsec : ts.tv_sec.toInt = ts'.tv_sec.toInt
  · have hnsec : ts.tv_nsec.toInt ≤ ts'.tv_nsec.toInt := by omega
    have hfrac := ts.frac_eq h
    have hfrac' := ts'.frac_eq h'
    rw [if_pos hle] at hfrac
    rw [if_pos hle'] at hfrac'
    have hbintime : ts.bintime.sec = ts'.bintime.sec := hsec
    rw [OrbisKernelBintime.nanoseconds, OrbisKernelBintime.nanoseconds, hfrac, hfrac', hbintime,
      Int.shiftRight_eq_div_pow, Int.shiftRight_eq_div_pow, Int.shiftRight_eq_div_pow,
      Int.shiftRight_eq_div_pow]
    omega
  · -- a later second starts behind everything that is stored for an earlier one
    have hbelow := (ts.nanoseconds_of_le h hle).2.1
    have habove := (ts'.nanoseconds_of_le h' hle').2.2
    have hpos := h.nsec_nonneg
    rw [requested] at hbelow
    omega

/-- Up to half a second in the nanoseconds, and no further, the stored interval is at most two
nanoseconds below the request, never above it and never negative; such requests keep their
order. -/
theorem survives_iff (h : ts.InRange) : (ts.Survives ↔ ts.tv_nsec ≤ 500000000) ∧
    ∀ ts' : OrbisKernelTimespec, ts'.InRange → ts.tv_nsec ≤ 500000000 →
      ts'.tv_nsec ≤ 500000000 → ts.requested ≤ ts'.requested →
      ∀ interval interval', ts.Stores interval → ts'.Stores interval' → interval ≤ interval' := by
  have hhalf (x : Int64) : x ≤ 500000000 ↔ x.toInt ≤ 500000000 := Int64.le_iff_toInt_le
  constructor
  · rw [survives_iff_nanoseconds, hhalf]
    constructor
    · rintro ⟨hclose, -, -⟩
      by_contra hlt
      have hshort := ts.nanoseconds_of_lt h (by omega)
      have hlow := h.nsec_nonneg
      rw [requested] at hclose
      omega
    · intro hle
      obtain ⟨hclose, hbelow, hstart⟩ := ts.nanoseconds_of_le h hle
      have hsec := h.sec_nonneg
      exact ⟨by omega, hbelow, by omega⟩
  · intro ts' h' hle hle' hrequested interval interval' hstores hstores'
    rw [ts.stores_iff] at hstores
    rw [ts'.stores_iff] at hstores'
    rw [hstores, hstores']
    exact nanoseconds_mono h h' ((hhalf _).1 hle) ((hhalf _).1 hle') hrequested

/-- A millisecond survives. -/
theorem survives_millisecond : Survives ⟨0, 1000000⟩ :=
  (survives_iff ⟨0, 1000000⟩ ⟨by decide, by decide, by decide, by decide⟩).1.2 (by decide)

/-- Nine tenths of a second are stored as a negative interval. -/
theorem not_survives_nineTenths : InRange ⟨0, 900000000⟩ ∧
    Stores ⟨0, 900000000⟩ (-100000001) ∧ ¬ Survives ⟨0, 900000000⟩ := by
  refine ⟨⟨by decide, by decide, by decide, by decide⟩, ?_, ?_⟩
  · rw [stores_iff]
    decide
  · rw [survives_iff_nanoseconds]
    decide

end PS4Droid.Kernel.OrbisKernelTimespec
