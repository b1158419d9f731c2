import PS4Droid.Foundations.Words

/-!
# Sets of byte ranges

`range_set.h`. The interval set that the ranges are kept in comes with what its documentation says
of the addresses in it; the ranges are stated over any such set.
-/

namespace PS4Droid.VideoCore

/-- A right-open interval of addresses. -/
abbrev Interval := ℕ × ℕ

def Interval.Has (intervals : List Interval) (x : ℕ) : Prop := ∃ r ∈ intervals, r.1 ≤ x ∧ x < r.2

/-- An interval set of Boost.ICL. `overlapping` is its part from the lower to the upper bound of an
interval. An interval that ends where it begins, or before, is empty. -/
class IntervalSet (σ : Type) where
  empty : σ
  add : σ → ℕ → ℕ → σ
  subtract : σ → ℕ → ℕ → σ
  intervals : σ → List Interval
  overlapping : σ → ℕ → ℕ → List Interval
  intervals_pos (s : σ) : ∀ r ∈ intervals s, r.1 < r.2
  has_empty (x : ℕ) : ¬ Interval.Has (intervals empty) x
  has_add (s : σ) (lo hi x : ℕ) :
    Interval.Has (intervals (add s lo hi)) x ↔ Interval.Has (intervals s) x ∨ lo ≤ x ∧ x < hi
  has_subtract (s : σ) (lo hi x : ℕ) : Interval.Has (intervals (subtract s lo hi)) x ↔
    Interval.Has (intervals s) x ∧ ¬ (lo ≤ x ∧ x < hi)
  mem_overlapping (s : σ) (lo hi : ℕ) (r : Interval) :
    r ∈ overlapping s lo hi ↔ r ∈ intervals s ∧ lo < hi ∧ r.1 < hi ∧ lo < r.2

namespace Interval

variable {lo hi : ℕ} {intervals : List Interval}

@[simp] theorem has_nil (x : ℕ) : ¬ Has [] x := by
  simp [Has]

@[simp] theorem has_cons (r : Interval) (x : ℕ) :
    Has (r :: intervals) x ↔ (r.1 ≤ x ∧ x < r.2) ∨ Has intervals x := by
  simp [Has]

/-- Add an interval, joined with those that it overlaps or touches. -/
def insert : ℕ → ℕ → List Interval → List Interval
  | lo, hi, [] => [(lo, hi)]
  | lo, hi, (a, b) :: rest =>
    if b < lo then (a, b) :: insert lo hi rest
    else if hi < a then (lo, hi) :: (a, b) :: rest
    else insert (min lo a) (max hi b) rest

/-- What an interval leaves of another one. -/
def cut (lo hi : ℕ) (r : Interval) : List Interval :=
  (if r.1 < min r.2 lo then [(r.1, min r.2 lo)] else []) ++
    if max r.1 hi < r.2 then [(max r.1 hi, r.2)] else []

theorem insert_pos (hlt : lo < hi) (hpos : ∀ r ∈ intervals, r.1 < r.2) :
    ∀ r ∈ insert lo hi intervals, r.1 < r.2 := by
  induction intervals generalizing lo hi with
  | nil => simpa [insert] using hlt
  | cons head rest ih =>
    obtain ⟨a, b⟩ := head
    obtain ⟨hhead, hrest⟩ := List.forall_mem_cons.mp hpos
    unfold insert
    split_ifs
    · exact List.forall_mem_cons.mpr ⟨hhead, ih hlt hrest⟩
    · exact List.forall_mem_cons.mpr ⟨hlt, hpos⟩
    · exact ih (by simp only at hhead; omega) hrest

theorem has_insert (hlt : lo < hi) (hpos : ∀ r ∈ intervals, r.1 < r.2) (x : ℕ) :
    Has (insert lo hi intervals) x ↔ Has intervals x ∨ lo ≤ x ∧ x < hi := by
  induction intervals generalizing lo hi with
  | nil => simp [insert]
  | cons head rest ih =>
    obtain ⟨a, b⟩ := head
    obtain ⟨hhead, hrest⟩ := List.forall_mem_cons.mp hpos
    unfold insert
    split_ifs with hbefore hafter
    · rw [has_cons, has_cons, ih hlt hrest, or_assoc]
    · rw [has_cons, or_comm]
    · simp only at hhead
      rw [ih (by omega) hrest, has_cons]
      have hunion : (min lo a ≤ x ∧ x < max hi b) ↔ (a ≤ x ∧ x < b) ∨ lo ≤ x ∧ x < hi := by omega
      rw [hunion]
      tauto

theorem has_cut (hlt : lo < hi) (r : Interval) (x : ℕ) :
    Has (cut lo hi r) x ↔ (r.1 ≤ x ∧ x < r.2) ∧ ¬ (lo ≤ x ∧ x < hi) := by
  unfold cut
  split_ifs <;> simp [Has] <;> omega

theorem has_flatMap_cut (hlt : lo < hi) (x : ℕ) :
    Has (intervals.flatMap (cut lo hi)) x ↔ Has intervals x ∧ ¬ (lo ≤ x ∧ x < hi) := by
  have hcut := fun r => has_cut hlt r x
  simp only [Has, List.mem_flatMap] at hcut ⊢
  constructor
  · rintro ⟨r', ⟨r, hr, hr'⟩, hx⟩
    obtain ⟨hin, hout⟩ := (hcut r).mp ⟨r', hr', hx⟩
    exact ⟨⟨r, hr, hin⟩, hout⟩
  · rintro ⟨⟨r, hr, hin⟩, hout⟩
    obtain ⟨r', hr', hx⟩ := (hcut r).mpr ⟨hin, hout⟩
    exact ⟨r', ⟨r, hr, hr'⟩, hx⟩

theorem cut_pos {r piece : Interval} (h : piece ∈ cut lo hi r) : piece.1 < piece.2 := by
  unfold cut at h
  rcases List.mem_append.mp h with h | h <;> split_ifs at h with hif <;>
    simp only [List.mem_singleton, List.not_mem_nil] at h <;> subst h <;> exact hif

end Interval

/-- Intervals in order, joined where they meet: a set to run the program with. -/
structure JoinedIntervals where
  intervals : List Interval
  pos : ∀ r ∈ intervals, r.1 < r.2

instance : IntervalSet JoinedIntervals where
  empty := ⟨[], by simp⟩
  add s lo hi :=
    if h : lo < hi then ⟨Interval.insert lo hi s.intervals, Interval.insert_pos h s.pos⟩ else s
  subtract s lo hi :=
    if lo < hi then
      { intervals := s.intervals.flatMap (Interval.cut lo hi)
        pos := by
          intro piece hpiece
          obtain ⟨r, -, hcut⟩ := List.mem_flatMap.mp hpiece
          exact Interval.cut_pos hcut }
    else s
  intervals := JoinedIntervals.intervals
  overlapping s lo hi := s.intervals.filter fun r => lo < hi && r.1 < hi && lo < r.2
  intervals_pos := JoinedIntervals.pos
  has_empty := Interval.has_nil
  has_add s lo hi x := by
    split_ifs with h
    · exact Interval.has_insert h s.pos x
    · exact (or_iff_left (by omega)).symm
  has_subtract s lo hi x := by
    split_ifs with h
    · exact Interval.has_flatMap_cut h x
    · exact (and_iff_left (by omega)).symm
  mem_overlapping s lo hi r := by
    simp [and_assoc]

structure RangeSet (σ : Type) where
  rangesSet : σ

namespace RangeSet

variable {σ : Type} [IntervalSet σ]

def empty : RangeSet σ := ⟨IntervalSet.empty⟩

def add (s : RangeSet σ) (baseAddress size : ℕ) : RangeSet σ :=
  ⟨IntervalSet.add s.rangesSet baseAddress (add64 baseAddress size)⟩

def subtract (s : RangeSet σ) (baseAddress size : ℕ) : RangeSet σ :=
  ⟨IntervalSet.subtract s.rangesSet baseAddress (add64 baseAddress size)⟩

/-- The intervals that overlap a range, clipped to it. -/
def forEachInRange (s : RangeSet σ) (baseAddr size : ℕ) : List Interval :=
  let stop := add64 baseAddr size
  (IntervalSet.overlapping s.rangesSet baseAddr stop).map fun r =>
    (max r.1 baseAddr, min r.2 stop)

/-! ### The addresses of a set -/

instance : Membership ℕ (RangeSet σ) :=
  ⟨fun s x => Interval.Has (IntervalSet.intervals s.rangesSet) x⟩

variable {s : RangeSet σ} {base size : ℕ}

theorem not_mem_empty (x : ℕ) : x ∉ (empty : RangeSet σ) := IntervalSet.has_empty x

theorem add64_of_pos (h : 0 < size → base + size < 2 ^ 64) :
    (base < add64 base size ↔ 0 < size) ∧ (0 < size → add64 base size = base + size) := by
  rcases Nat.eq_zero_or_pos size with rfl | hpos
  · simp [add64, Nat.mod_le]
  · rw [add64_eq (h hpos)]
    omega

/-- The addresses of a range are not changed by the overflow of its end. -/
theorem in_range_iff (h : 0 < size → base + size < 2 ^ 64) (x : ℕ) :
    (base ≤ x ∧ x < add64 base size) ↔ base ≤ x ∧ x < base + size := by
  obtain ⟨hiff, heq⟩ := add64_of_pos h
  rcases Nat.eq_zero_or_pos size with hzero | hpos
  · have := hiff.not.mpr (by omega)
    omega
  · rw [heq hpos]

theorem mem_add (h : 0 < size → base + size < 2 ^ 64) (x : ℕ) :
    x ∈ s.add base size ↔ x ∈ s ∨ base ≤ x ∧ x < base + size :=
  (IntervalSet.has_add ..).trans (or_congr_right (in_range_iff h x))

theorem mem_subtract (h : 0 < size → base + size < 2 ^ 64) (x : ℕ) :
    x ∈ s.subtract base size ↔ x ∈ s ∧ ¬ (base ≤ x ∧ x < base + size) :=
  (IntervalSet.has_subtract ..).trans (and_congr_right fun _ => not_congr (in_range_iff h x))

theorem mem_forEachInRange {r : Interval} (hr : r ∈ s.forEachInRange base size) : r.1 < r.2 := by
  obtain ⟨r', hr', rfl⟩ := List.mem_map.mp hr
  obtain ⟨hmem, hover⟩ := (IntervalSet.mem_overlapping ..).mp hr'
  have := IntervalSet.intervals_pos _ r' hmem
  simp only
  omega

theorem forEachInRange_eq_nil (h : 0 < size → base + size < 2 ^ 64) :
    s.forEachInRange base size = [] ↔ ∀ x, base ≤ x → x < base + size → x ∉ s := by
  obtain ⟨hiff, heq⟩ := add64_of_pos h
  rw [forEachInRange, List.map_eq_nil_iff]
  simp only [List.eq_nil_iff_forall_not_mem, IntervalSet.mem_overlapping, hiff]
  constructor
  · rintro hnone x hle hlt ⟨r, hr, hx⟩
    have hstop := heq (by omega)
    exact hnone r ⟨hr, by omega⟩
  · rintro hnone r ⟨hr, hpos, hlt, hover⟩
    rw [heq hpos] at hlt
    have hne := IntervalSet.intervals_pos _ r hr
    exact hnone (max r.1 base) (by omega) (by omega) ⟨r, hr, by omega, by omega⟩

end RangeSet

end PS4Droid.VideoCore
