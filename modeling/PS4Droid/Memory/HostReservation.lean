import PS4Droid.Memory.Maps
import PS4Droid.Memory.System
import PS4Droid.VideoCore.RangeSet

/-!
# The address space on Android

With `ENABLE_BACHATA_RUNTIME` the constructor of `AddressSpace::Impl` finds parts of the guest's
address range in use by the process. It reserves the gaps between them and takes them out of its own
set of free regions, but the regions that `GetUsableRegions` hands to the memory manager are still
the whole range.
-/

namespace PS4Droid.Memory

open VideoCore

namespace HostReservation

def systemManagedMin : ℕ := 0x400000
def systemManagedMax : ℕ := 0x7ffffbfff
def systemReservedMin : ℕ := 0x7ffffc000
def systemReservedMax : ℕ := 0xfffffffff
def userMin : ℕ := 0x1000000000
def userMax : ℕ := 0x3fffffffff

def systemManagedSize : ℕ := systemManagedMax - systemManagedMin + 1
def systemReservedSize : ℕ := systemReservedMax - systemReservedMin + 1
def userSize : ℕ := userMax - userMin + 1

def regionBegin : ℕ := systemManagedMin
def regionEnd : ℕ := userMax + 1

/-- `std::bad_alloc`, thrown when `mmap` fails. -/
inductive BadAlloc where
  | badAlloc
  deriving DecidableEq

/-- What the constructor has after the reservation. -/
structure Impl (σ : Type) where
  systemManagedBase : ℕ
  systemReservedBase : ℕ
  userBase : ℕ
  reserved : List Interval
  freeRegions : σ

variable {σ : Type} [IntervalSet σ]

section Construct

variable (mmap : ℕ → ℕ → Bool)

/-- The call of `mmap` on `[begin, end)`, which may be empty. -/
def reserve (lo hi : ℕ) : Except BadAlloc (List Interval) :=
  if lo < hi then if mmap lo (hi - lo) then .ok [(lo, hi)] else .error .badAlloc else .ok []

/-- The loop over the occupied ranges, and the gap behind the last of them. -/
def reserveGaps : List Interval → ℕ → Except BadAlloc (List Interval)
  | [], cursor => reserve mmap cursor regionEnd
  | (mappedBegin, mappedEnd) :: rest, cursor =>
    if mappedEnd ≤ regionBegin ∨ mappedBegin ≥ regionEnd then reserveGaps rest cursor
    else do
      let gap ← reserve mmap cursor (min mappedBegin regionEnd)
      let gaps ← reserveGaps rest (max cursor (min mappedEnd regionEnd))
      return gap ++ gaps

/-- Take the occupied ranges out of the free regions. -/
def subtractOccupied : List Interval → σ → σ
  | [], freeRegions => freeRegions
  | (mappedBegin, mappedEnd) :: rest, freeRegions =>
    let lo := max mappedBegin systemManagedMin
    let hi := min mappedEnd (userMax + 1)
    subtractOccupied rest (if lo < hi then IntervalSet.subtract freeRegions lo hi else freeRegions)

/-- The three regions that are inserted; the constructor lets the second start where the first
does. -/
def insertRegions (systemManagedAddr systemReservedAddr userAddr : ℕ) : σ :=
  IntervalSet.add (IntervalSet.add
    (IntervalSet.add IntervalSet.empty systemManagedAddr (systemManagedAddr + systemManagedSize))
    systemReservedAddr (systemReservedAddr + systemReservedSize)) userAddr (userAddr + userSize)

/-- The constructor, from the ranges that it reads. -/
def construct (occupiedRanges : List Interval) : Except BadAlloc (Impl σ) := do
  let reserved ← reserveGaps mmap occupiedRanges regionBegin
  return { systemManagedBase := systemManagedMin
           systemReservedBase := systemReservedMin
           userBase := userMin
           reserved := reserved
           freeRegions := subtractOccupied occupiedRanges
             (insertRegions systemManagedMin systemManagedMin userMin) }

end Construct

def Impl.getUsableRegions (impl : Impl σ) : σ :=
  insertRegions impl.systemManagedBase impl.systemReservedBase impl.userBase

open Interval IntervalSet

variable {mmap : ℕ → ℕ → Bool} {occupied gaps : List Interval} {cursor lo hi : ℕ} {freeRegions : σ}
  {impl : Impl σ}

/-! ### The gaps -/

theorem reserve_ok (h : reserve mmap lo hi = .ok gaps) (x : ℕ) : Has gaps x ↔ lo ≤ x ∧ x < hi := by
  unfold reserve at h
  split_ifs at h with hlt <;> cases h
  · simp
  · simp only [has_nil, false_iff]
    omega

theorem reserveGaps_ok (hsorted : occupied.Pairwise fun a b => a.1 ≤ b.1)
    (hcursor : regionBegin ≤ cursor) (h : reserveGaps mmap occupied cursor = .ok gaps) (x : ℕ) :
    Has gaps x ↔ (cursor ≤ x ∧ x < regionEnd) ∧ ¬Has occupied x := by
  induction occupied generalizing cursor gaps with
  | nil => simpa using reserve_ok h x
  | cons range rest ih =>
    obtain ⟨mappedBegin, mappedEnd⟩ := range
    obtain ⟨hbehind, hrest⟩ := List.pairwise_cons.mp hsorted
    unfold reserveGaps at h
    rw [has_cons]
    split_ifs at h with hskip
    · rw [ih hrest hcursor h]
      refine and_congr_right fun hx => not_congr (or_iff_right fun hin => ?_).symm
      simp only at hin
      omega
    · obtain ⟨gap, hgap, h⟩ := bind_ok h
      obtain ⟨later, hlater, h⟩ := bind_ok h
      obtain rfl := pure_ok h
      rw [not_or, not_le, ge_iff_le, not_le] at hskip
      have hleft := reserve_ok hgap x
      have hright := ih hrest (hcursor.trans (le_max_left _ _)) hlater
      have hlow : x < mappedBegin → ¬Has rest x := by
        rintro hlt ⟨r, hr, hle, -⟩
        have := hbehind r hr
        simp only at this
        omega
      have happend : Has (gap ++ later) x ↔ Has gap x ∨ Has later x := by
        simp [Has, or_and_right, exists_or]
      rw [happend, hleft, hright]
      by_cases hr : Has rest x
      · have := mt hlow (not_not.mpr hr)
        simp only [hr, not_true, and_false, or_true, or_false, iff_false]
        omega
      · simp only [hr, not_false_iff, and_true, or_false]
        omega

/-! ### The regions -/

theorem has_subtractOccupied (x : ℕ) :
    Has (intervals (subtractOccupied occupied freeRegions)) x ↔ Has (intervals freeRegions) x ∧
      ∀ r ∈ occupied, ¬(max r.1 systemManagedMin ≤ x ∧ x < min r.2 (userMax + 1)) := by
  induction occupied generalizing freeRegions with
  | nil => simp [subtractOccupied]
  | cons range rest ih =>
    obtain ⟨mappedBegin, mappedEnd⟩ := range
    unfold subtractOccupied
    rw [ih, List.forall_mem_cons, ← and_assoc]
    refine and_congr_left fun _ => ?_
    by_cases hlt : max mappedBegin systemManagedMin < min mappedEnd (userMax + 1)
    · rw [if_pos hlt, has_subtract]
    · rw [if_neg hlt]
      exact (and_iff_left fun hx => hlt (hx.1.trans_lt hx.2)).symm

theorem has_insertRegions (managed reserved user x : ℕ) :
    Has (intervals (insertRegions managed reserved user : σ)) x ↔
      ((managed ≤ x ∧ x < managed + systemManagedSize) ∨
        (reserved ≤ x ∧ x < reserved + systemReservedSize)) ∨ user ≤ x ∧ x < user + userSize := by
  simp only [insertRegions, has_add, has_empty, false_or]

theorem sizes_eq : systemManagedSize = 0x7ffbfc000 ∧ systemReservedSize = 0x800004000 ∧
    userSize = 0x3000000000 := by
  decide

/-- The set of free regions leaves out the occupied ranges, but also a part of the reserved system
area, since the size of that area is counted from the start of the other one. -/
theorem has_freeRegions (h : construct mmap occupied = .ok impl) (x : ℕ) :
    Has (intervals impl.freeRegions) x ↔
      ((systemManagedMin ≤ x ∧ x < systemManagedMin + systemReservedSize) ∨
        (userMin ≤ x ∧ x < userMin + userSize)) ∧ ¬Has occupied x := by
  obtain ⟨gaps, -, h⟩ := bind_ok h
  obtain rfl := pure_ok h
  simp only [has_subtractOccupied, has_insertRegions, sizes_eq]
  have hwithin : ∀ a : ℕ, (a ≤ x ∧ x < a + 0x7ffbfc000) ∨ (a ≤ x ∧ x < a + 0x800004000) ↔
      a ≤ x ∧ x < a + 0x800004000 := by
    omega
  rw [hwithin]
  refine and_congr_right fun hx => ?_
  simp only [Has, not_exists, not_and]
  refine forall₂_congr fun r _ => ?_
  simp only [systemManagedMin, userMin, userMax] at hx ⊢
  omega

theorem has_freeRegions_occupied : ∃ impl : Impl JoinedIntervals,
    construct (fun _ _ => true) [(0x500000, 0x600000)] = .ok impl ∧
      ¬Has (intervals impl.freeRegions) 0x500000 ∧ Has (intervals impl.freeRegions) 0x600000 := by
  have hrun : construct (fun _ _ => true) [(0x500000, 0x600000)] =
      .ok (_ : Impl JoinedIntervals) := rfl
  refine ⟨_, hrun, fun h => ((has_freeRegions hrun _).mp h).2 ⟨_, .head _, by decide⟩,
    (has_freeRegions hrun _).mpr ⟨by decide, ?_⟩⟩
  simp

theorem has_getUsableRegions (h : construct mmap occupied = .ok impl) (x : ℕ) :
    Has (intervals impl.getUsableRegions) x ↔ systemManagedMin ≤ x ∧ x < userMax + 1 := by
  obtain ⟨gaps, -, h⟩ := bind_ok h
  obtain rfl := pure_ok h
  simp only [Impl.getUsableRegions, has_insertRegions, sizes_eq, systemManagedMin,
    systemReservedMin, userMin, userMax]
  omega

/-- The gaps are what the occupied ranges leave of the guest's addresses, and no usable region
meets such a range. -/
structure Agrees (impl : Impl σ) (occupied : List Interval) : Prop where
  gaps : ∀ x, Has impl.reserved x ↔ (systemManagedMin ≤ x ∧ x < userMax + 1) ∧ ¬Has occupied x
  usable : ∀ region ∈ intervals impl.getUsableRegions, ∀ range ∈ occupied,
    ¬∃ x, (region.1 ≤ x ∧ x < region.2) ∧ range.1 ≤ x ∧ x < range.2

/-- The reserved gaps are always right; the usable regions are apart from the occupied ranges
exactly when no range meets the guest's addresses. -/
theorem construct_agrees_iff (hsorted : occupied.Pairwise fun a b => a.1 ≤ b.1)
    (h : construct mmap occupied = .ok impl) : Agrees impl occupied ↔
      ∀ range ∈ occupied, ¬max range.1 systemManagedMin < min range.2 (userMax + 1) := by
  have husable := has_getUsableRegions h
  obtain ⟨gaps, hgaps, h⟩ := bind_ok h
  obtain rfl := pure_ok h
  constructor
  · intro hagrees range hrange hlt
    obtain ⟨region, hregion, hin⟩ := (husable (max range.1 systemManagedMin)).mpr (by omega)
    exact hagrees.usable region hregion range hrange ⟨_, hin, by omega⟩
  · intro hapart
    refine ⟨reserveGaps_ok hsorted le_rfl hgaps, ?_⟩
    rintro region hregion range hrange ⟨x, hx, hin⟩
    have husable := (husable x).mp ⟨region, hregion, hx⟩
    have hnot := hapart range hrange
    omega

/-- Ranges below and above the guest's addresses. -/
theorem construct_agrees_iff_apart : ∃ impl : Impl JoinedIntervals,
    construct (fun _ _ => true) [(0x10000, 0x20000), (0x7000000000, 0x7000100000)] = .ok impl ∧
      Agrees impl [(0x10000, 0x20000), (0x7000000000, 0x7000100000)] := by
  have hsorted : [(0x10000, 0x20000), (0x7000000000, 0x7000100000)].Pairwise
      fun a b : Interval => a.1 ≤ b.1 :=
    List.pairwise_pair.mpr (by decide)
  have hrun : construct (fun _ _ => true) [(0x10000, 0x20000), (0x7000000000, 0x7000100000)] =
      .ok (_ : Impl JoinedIntervals) := rfl
  exact ⟨_, hrun, (construct_agrees_iff hsorted hrun).mpr (by decide)⟩

/-- The heap of the runtime lies among the guest's addresses and is usable for the guest. -/
theorem construct_agrees_fails : ∃ impl : Impl JoinedIntervals,
    construct (fun _ _ => true) [(0x12c00000, 0x52c00000)] = .ok impl ∧
      ¬Agrees impl [(0x12c00000, 0x52c00000)] := by
  refine ⟨_, rfl, fun h => ?_⟩
  exact h.usable (0x400000, 0x4000000000) (by decide) (0x12c00000, 0x52c00000) (by decide)
    ⟨0x12c00000, by decide⟩

end HostReservation

end PS4Droid.Memory
