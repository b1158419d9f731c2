import PS4Droid.Foundations.FirstFit
import PS4Droid.Libc.ArenaInvariant

/-!
# First fit in an arena

`Arena::AllocateLocked` looks at the free blocks in the order of their addresses and cuts the
allocation out of the first one that holds it behind the padding. The four ways to pass over a
block, two of them guards against sums that wrap, together say that the block is too short for the
aligned allocation.
-/

namespace PS4Droid.Libc

open OrderedMap PS4Droid.Partition IntervalMap

variable {base allocSize alignment o n : ℕ}

theorem alignUp_eq {value : ℕ} (hpos : 0 < value) (hv : value < 2 ^ 64)
    (hal : isPowerOfTwo alignment) :
    alignUp value alignment =
      if roundUp value alignment < 2 ^ 64 then some (roundUp value alignment) else none := by
  unfold alignUp
  rw [if_neg (by simpa using hal)]
  obtain ⟨k, rfl⟩ := isPowerOfTwo_iff.mp hal
  have hk := Nat.two_pow_pos k
  have hlt := Nat.mod_lt value hk
  have hle := Nat.mod_le value (2 ^ k)
  simp only [Nat.and_two_pow_sub_one_eq_mod]
  by_cases hmod : value % 2 ^ k = 0
  · rw [if_pos hmod, roundUp_of_dvd hk (Nat.dvd_of_mod_eq_zero hmod), if_pos hv]
  · have hround : roundUp value (2 ^ k) = value + (2 ^ k - value % 2 ^ k) := by
      rw [roundUp_of_mod_ne hk hmod]
      omega
    rw [if_neg hmod, hround]
    by_cases hwrap : value + (2 ^ k - value % 2 ^ k) < 2 ^ 64
    · rw [if_pos hwrap, if_neg (by omega)]
    · rw [if_neg hwrap, if_pos (by omega)]

/-- A block fits exactly when the aligned allocation ends in it. -/
theorem fits_eq (hbase : 0 < base) (htop : base + o + n < 2 ^ 64) (hs : 0 < allocSize)
    (hal : isPowerOfTwo alignment) : fits base allocSize alignment (o, n) =
      if roundUp (base + o) alignment + allocSize ≤ base + o + n then
        some (roundUp (base + o) alignment - (base + o)) else none := by
  have hstart : add64 base o = base + o := add64_eq (by omega)
  have hend : add64 (base + o) n = base + o + n := add64_eq htop
  obtain ⟨k, hk⟩ := isPowerOfTwo_iff.mp hal
  have hle : base + o ≤ roundUp (base + o) alignment := le_roundUp _ (hk ▸ Nat.two_pow_pos k)
  unfold fits
  simp only [hstart, hend, alignUp_eq (by omega : 0 < base + o) (by omega) hal]
  by_cases hlt : roundUp (base + o) alignment < 2 ^ 64
  · simp only [if_pos hlt, sub64_eq hlt hle]
    split_ifs <;> first | rfl | omega
  · rw [if_neg hlt, if_neg (by omega)]

/-- The free blocks of an arena, at their addresses and in order. -/
theorem FreeList.tiling {lo hi : ℕ} {freeBlocks rest : List (ℕ × ℕ)}
    (h : FreeList base lo hi freeBlocks rest) :
    Tiling (fun n : ℕ => n) (freeBlocks.map (shift base)) := by
  refine ⟨?_, ?_⟩
  · intro e he
    exact h.partition.pos e (List.mem_append_left _ he)
  · refine List.pairwise_map.mpr (h.sorted.imp_of_mem ?_)
    intro e f he hf hlt
    have hap := apart_of_key_ne h.partition he hf hlt.ne
    have hpos := pos_of_mem h.partition hf
    simp only [shift]
    omega

/-- `p` is aligned and `[p, p + s)` lies in one of the free blocks. -/
def Holds (base alignment s : ℕ) (freeBlocks : List (ℕ × ℕ)) (p : ℕ) : Prop :=
  alignment ∣ p ∧ ∃ b ∈ freeBlocks, base + b.1 ≤ p ∧ p + s ≤ base + b.1 + b.2

section Search

variable {freeBlocks : List (ℕ × ℕ)} {p : ℕ}

theorem holds_iff : Holds base alignment allocSize freeBlocks p ↔
    Fits (fun n : ℕ => n) (fun _ => True) alignment allocSize 0
      (freeBlocks.map (shift base)) p := by
  constructor
  · rintro ⟨hdvd, b, hb, hle, hend⟩
    exact ⟨Nat.zero_le _, hdvd, shift base b, shift_mem hb, trivial, hle, hend⟩
  · rintro ⟨-, hdvd, e, he, -, hle, hend⟩
    obtain ⟨b, hb, rfl⟩ := List.mem_map.mp he
    exact ⟨hdvd, b, hb, hle, hend⟩

theorem isLeast_holds_cons (hal : 0 < alignment)
    (htiling : Tiling (fun n : ℕ => n) (((o, n) :: freeBlocks).map (shift base)))
    (hle : roundUp (base + o) alignment + allocSize ≤ base + o + n) :
    IsLeast {p | Holds base alignment allocSize ((o, n) :: freeBlocks) p}
    (roundUp (base + o) alignment) := by
  have hround : roundUp (max 0 (base + o)) alignment = roundUp (base + o) alignment := by
    rw [Nat.zero_max]
  rw [← hround] at hle ⊢
  simp only [holds_iff]
  exact isLeast_fits_cons hal htiling trivial hle

theorem holds_cons_of_not (hal : 0 < alignment)
    (hnot : ¬roundUp (base + o) alignment + allocSize ≤ base + o + n) :
    Holds base alignment allocSize ((o, n) :: freeBlocks) p ↔
      Holds base alignment allocSize freeBlocks p := by
  rw [holds_iff, holds_iff]
  refine fits_cons_of_not hal fun h => hnot ?_
  rw [← Nat.zero_max (base + o)]
  exact h.2

/-- The search finds the least address that holds the allocation, if there is one. -/
theorem firstFit_least (hbase : 0 < base) (hs : 0 < allocSize) (hal : isPowerOfTwo alignment)
    (htop : ∀ e ∈ freeBlocks, base + e.1 + e.2 < 2 ^ 64)
    (htiling : Tiling (fun n : ℕ => n) (freeBlocks.map (shift base))) :
    (firstFit base allocSize alignment freeBlocks = none ∧
      ∀ p, ¬Holds base alignment allocSize freeBlocks p) ∨
    ∃ block padding, firstFit base allocSize alignment freeBlocks = some (block, padding) ∧
      IsLeast {p | Holds base alignment allocSize freeBlocks p} (base + block.1 + padding) := by
  obtain ⟨k, hk⟩ := isPowerOfTwo_iff.mp hal
  have hpos : 0 < alignment := hk ▸ Nat.two_pow_pos k
  induction freeBlocks with
  | nil => exact .inl ⟨rfl, by rintro p ⟨-, b, hb, -⟩; cases hb⟩
  | cons e rest ih =>
    obtain ⟨o, n⟩ := e
    unfold firstFit
    rw [fits_eq hbase (htop (o, n) (.head _)) hs hal]
    by_cases hle : roundUp (base + o) alignment + allocSize ≤ base + o + n
    · rw [if_pos hle]
      refine .inr ⟨(o, n), _, rfl, ?_⟩
      rw [Nat.add_sub_cancel' (le_roundUp (base + o) hpos)]
      exact isLeast_holds_cons hpos htiling hle
    · rw [if_neg hle]
      simp only [holds_cons_of_not hpos hle]
      exact ih (fun e he => htop e (.tail _ he)) (htiling.right (l := [shift base (o, n)]))

end Search

namespace Arena

variable {a : Arena}

/-- The alignment is a power of two, and the allocation is placed first fit. -/
theorem Sound.allocate_least (h : a.Sound) (hal : isPowerOfTwo alignment) (size : ℕ) :
    (a.allocate size alignment = .ok (a, 0) ∧
      ∀ p, ¬Holds a.base alignment (max 1 size) a.freeBlocks p) ∨ ∃ f p, a.allocate size alignment =
        .ok ({ a with freeBlocks := f, allocations := assign a.allocations p (max 1 size) }, p) ∧
      0 < p ∧ IsLeast {p | Holds a.base alignment (max 1 size) a.freeBlocks p} p := by
  have htop := h.top
  have hguard : ¬(!isPowerOfTwo alignment) = true := by simpa using hal
  unfold allocate
  rw [if_neg hguard]
  have hsize : 0 < max 1 size := by omega
  have hends : ∀ e ∈ a.freeBlocks, a.base + e.1 + e.2 < 2 ^ 64 := fun e he =>
    (end_le_of_mem h.freeList.partition he).trans_lt htop
  rcases firstFit_least h.base_pos hsize hal hends h.freeList.tiling with
    ⟨hfit, hnone⟩ | ⟨⟨o, n⟩, padding, hfit, hleast⟩
  · exact .inl ⟨allocateLocked_none hfit, hnone⟩
  · obtain ⟨f, heq, -⟩ := h.allocateLocked_found hfit
    have hpos := h.base_pos
    exact .inr ⟨f, _, heq, by omega, hleast⟩

end Arena

/-- In every run an allocation with a power of two for its alignment gets the least aligned address
from which a free block has room for it. It gets the null pointer, and leaves the arena as it was,
exactly if there is none. -/
theorem Reachable.allocate_first_fit {base capacity flags : ℕ} {a : Arena}
    (haccept : acceptsRange base capacity flags) (hreach : Reachable (Arena.create base capacity) a)
    {alignment : ℕ} (hal : isPowerOfTwo alignment) (size : ℕ) :
    ∃ a' p, a.allocate size alignment = .ok (a', p) ∧
      (p = 0 ↔ ∀ x, ¬Holds a.base alignment (max 1 size) a.freeBlocks x) ∧
      (p = 0 → a' = a) ∧
      (p ≠ 0 → IsLeast {x | Holds a.base alignment (max 1 size) a.freeBlocks x} p ∧
        a'.allocations = assign a.allocations p (max 1 size)) := by
  have hsound := (hreach.kept (Arena.create_sound haccept)).sound
  rcases hsound.allocate_least hal size with ⟨heq, hnone⟩ | ⟨f, p, heq, hpos, hleast⟩
  · exact ⟨a, 0, heq, by simpa using hnone, fun _ => rfl, by simp⟩
  · refine ⟨_, p, heq, ?_, fun h => absurd h hpos.ne', fun _ => ⟨hleast, rfl⟩⟩
    exact ⟨fun h => absurd h hpos.ne', fun h => absurd hleast.1 (h p)⟩

/-- Of the two free blocks around an allocation the first, of 48 bytes, holds 16 bytes at a multiple
of 4 but not 64. -/
theorem Reachable.allocate_first_fit_memalign :
    ∃ a, Reachable (Arena.create 0x1010 0x1000) a ∧ a.freeBlocks = [(0, 48), (81, 4015)] ∧
      (∃ a' p, a.allocate 16 4 = .ok (a', p) ∧ p = 0x1010 ∧
        IsLeast {x | Holds a.base 4 16 a.freeBlocks x} p) ∧
      ∃ a' p, a.allocate 64 4 = .ok (a', p) ∧ p = 0x1064 ∧
        IsLeast {x | Holds a.base 4 64 a.freeBlocks x} p := by
  have hreach := reachable_memalign
  set a : Arena := ⟨0x1010, 0x1000, [(0, 48), (81, 4015)], [(0x1040, 33)]⟩
  have haccept : acceptsRange 0x1010 0x1000 0 := by decide
  have hal : isPowerOfTwo 4 := by decide
  obtain ⟨a₁, p₁, heq₁, -, -, hleast₁⟩ := hreach.allocate_first_fit haccept hal 16
  obtain ⟨a₂, p₂, heq₂, -, -, hleast₂⟩ := hreach.allocate_first_fit haccept hal 64
  have hp₁ : ((a.allocate 16 4).map (·.2)) = .ok 0x1010 := by decide +kernel
  have hp₂ : ((a.allocate 64 4).map (·.2)) = .ok 0x1064 := by decide +kernel
  rw [heq₁] at hp₁
  rw [heq₂] at hp₂
  obtain rfl : p₁ = 0x1010 := Except.ok.inj hp₁
  obtain rfl : p₂ = 0x1064 := Except.ok.inj hp₂
  exact ⟨a, hreach, rfl, ⟨a₁, _, heq₁, rfl, (hleast₁ (by decide)).1⟩, a₂, _, heq₂, rfl,
    (hleast₂ (by decide)).1⟩

end PS4Droid.Libc
