import PS4Droid.Memory.Search
import PS4Droid.Memory.PhysicalTypes

/-!
# What a release touches

`Free` releases the areas of its range and unmaps the direct mappings of it. Free areas in the range
do not count against the size, and a mapping that starts inside of the range is not clipped at the
range's end.
-/

namespace PS4Droid.Memory

open OrderedMap IntervalMap Segments

namespace MemoryManager

variable {s s' s₁ : MemoryManager} {c : Config} {physAddr size : ℕ}

/-! ### Bytes behind the range -/

variable {isChecked : Bool} {stop total remaining q addr : ℕ} {l : PhysMap} {pieces : List (ℕ × ℕ)}
  {e : ℕ × PhysicalMemoryArea} {type : VMAType}

/-- With more left to release than the range has room for, bytes behind the range are released as
long as some are not free. -/
theorem freeList_beyond {k : ℕ} (hwalk : Walk physAddr k l total) (hstop : physAddr ≤ stop)
    (hrem : stop < remaining + max physAddr k) (hpos : 0 < remaining)
    (h : freeList isChecked physAddr l remaining = some pieces) (hq : stop ≤ q)
    (he : e ∈ l) (hw : Within PhysicalMemoryArea.size e q)
    (hne : e.2.dmaType ≠ .free) : ∃ p, stop ≤ p ∧ InRanges pieces p := by
  induction l generalizing k remaining pieces with
  | nil => cases he
  | cons f rest ih =>
    obtain ⟨k, a⟩ := f
    obtain ⟨rfl, hsize, hb, hbase, hle, hrest⟩ := hwalk.cons
    by_cases hfree : a.dmaType = .free
    · unfold freeList at h
      rw [if_neg (by omega), if_pos hfree] at h
      split_ifs at h
      refine ih hrest (by omega) hpos h ?_
      refine (List.mem_cons.mp he).resolve_left ?_
      rintro rfl
      exact hne hfree
    · obtain ⟨sz, tail, hsz, htail, rfl⟩ := freeList_cons (by omega) hfree hwalk h
      by_cases hreach : stop < max physAddr k + sz
      · refine ⟨max physAddr k + sz - 1, by omega, (max physAddr k, sz), by simp, ?_⟩
        simp only
        omega
      · -- The area ends in front of the end of the range, so the walk goes on.
        have hmem : e ∈ rest := by
          refine (List.mem_cons.mp he).resolve_left ?_
          rintro rfl
          unfold Within at hw
          simp only at hw
          omega
        obtain ⟨p, hp, hin⟩ := ih hrest (by omega) (by omega) htail hmem
        exact ⟨p, hp, inRanges_cons.mpr (.inr hin)⟩

/-- A free byte in the range moves the release behind it, up to the next byte that is not free. -/
theorem freeList_hole {k hole : ℕ}
    (hwalk : Walk physAddr k l total) (hrem : stop ≤ remaining + max physAddr k)
    (h : freeList isChecked physAddr l remaining = some pieces)
    (hhole : physAddr ≤ hole ∧ hole < stop)
    {f : ℕ × PhysicalMemoryArea} (hf : f ∈ l) (hfw : Within PhysicalMemoryArea.size f hole)
    (hfree : f.2.dmaType = .free) (hq : stop ≤ q) (he : e ∈ l)
    (hw : Within PhysicalMemoryArea.size e q) (hne : e.2.dmaType ≠ .free) :
    ∃ p, stop ≤ p ∧ InRanges pieces p := by
  induction l generalizing k remaining pieces with
  | nil => cases he
  | cons g rest ih =>
    obtain ⟨k, a⟩ := g
    obtain ⟨rfl, hsize, hb, hbase, hle, hrest⟩ := hwalk.cons
    have hlow : k ≤ hole := (hwalk.contiguous.mem hf).1.trans hfw.1
    by_cases hafree : a.dmaType = .free
    · unfold freeList at h
      rw [if_neg (by omega), if_pos hafree] at h
      split_ifs at h
      have hmem : e ∈ rest := by
        refine (List.mem_cons.mp he).resolve_left ?_
        rintro rfl
        exact hne hafree
      by_cases hpass : physAddr < k + a.size
      · exact freeList_beyond hrest (by omega) (by omega) (by omega) h hq hmem hw hne
      · have hfmem : f ∈ rest := by
          refine (List.mem_cons.mp hf).resolve_left ?_
          rintro rfl
          unfold Within at hfw
          simp only at hfw
          omega
        exact ih hrest (by omega) h hfmem hmem
    · have hfmem : f ∈ rest := by
        refine (List.mem_cons.mp hf).resolve_left ?_
        rintro rfl
        exact hafree hfree
      have hpass := (hrest.contiguous.mem hfmem).1
      obtain ⟨sz, tail, hsz, htail, rfl⟩ := freeList_cons (by omega) hafree hwalk h
      have hmem : e ∈ rest := by
        refine (List.mem_cons.mp he).resolve_left ?_
        rintro rfl
        unfold Within at hw hfw
        simp only at hw
        omega
      obtain ⟨p, hp, hin⟩ := ih hrest (by unfold Within at hfw; omega) htail hfmem hmem
      exact ⟨p, hp, inRanges_cons.mpr (.inr hin)⟩

/-! ### Recorded bytes -/

/-- Direct and pooled addresses record bytes of the direct memory. -/
def Recorded (s : MemoryManager) : Prop :=
  ∀ x t p, s.cellAt x = some ⟨t, some p⟩ → t ≠ .flexible → p < s.totalDirectSize

theorem Recorded.of_cells (h : s.Recorded) (htotal : s'.totalDirectSize = s.totalDirectSize)
    (hcell : ∀ x t p, s'.cellAt x = some ⟨t, some p⟩ → t ≠ .flexible →
      s.cellAt x = some ⟨t, some p⟩ ∨ p < s.totalDirectSize) : s'.Recorded := by
  intro x t p hx ht
  rw [htotal]
  rcases hcell x t p hx ht with hx | hlt
  · exact h x t p hx ht
  · exact hlt

theorem Recorded.unmaps {R : ℕ → Prop} (h : s.Recorded) (hu : Unmaps s R s') : s'.Recorded := by
  refine h.of_cells hu.totalDirect fun x t p hx _ => .inl ?_
  by_cases hR : R x
  · rw [hu.cell_in x hR] at hx
    cases hx
  · rwa [hu.cell_out x hR] at hx

theorem Recorded.cleared {flags : UInt32} (h : s.Recorded)
    (hc : Cleared s addr size flags s₁) : s₁.Recorded := by
  rcases hc with ⟨-, hu⟩ | ⟨-, rfl⟩
  · exact h.unmaps hu
  · exact h

theorem Recorded.plain (h : s.Recorded) (hm : MapsPlain type s addr size s')
    (htotal : s'.totalDirectSize = s.totalDirectSize) : s'.Recorded := by
  refine h.of_cells htotal fun x t p hx _ => .inl ?_
  by_cases hin : addr ≤ x ∧ x < addr + size
  · rw [hm.cell_in x hin] at hx
    cases hx
  · rwa [hm.cell_out x hin] at hx

theorem Recorded.attached {avail : PhysicalMemoryType → Prop}
    {change : ℤ × PhysicalMemoryType → ℤ × PhysicalMemoryType} {after : PhysMap} {byte : ℕ → ℕ}
    (hr : Regular c s) (h : s.Recorded)
    (ha : Attached type avail change s.dmemMap after s addr size byte s')
    (htotal : s'.totalDirectSize = s.totalDirectSize) : s'.Recorded := by
  refine h.of_cells htotal fun x t p hx _ => ?_
  rcases ha.cell_cases hx with ⟨hin, -, rfl⟩ | hx
  · obtain ⟨t, d, hat, -⟩ := ha.available x hin
    have hcover := attributesAt_isSome_iff.mp (Option.isSome_iff_exists.mpr ⟨_, hat⟩)
    exact .inr ((hr.dmem.covers _).mp hcover).2
  · exact .inl hx

theorem Recorded.mapped {q : MapRequest} (hr : Regular c s) (h : s.Recorded)
    (hm : Mapped q s addr s') (htotal : s'.totalDirectSize = s.totalDirectSize) : s'.Recorded := by
  cases hm with
  | flexible byte hq ha hh hd hu =>
    exact h.of_cells htotal fun x t p hx ht =>
      .inl ((ha.cell_cases hx).resolve_left fun hin => ht hin.2.1)
  | direct hq hne hbound ha hh hf hu =>
      exact h.attached hr (ha (fun _ => True) fun _ _ _ _ _ => trivial) htotal
  | plain hq hp => exact h.plain hp htotal

end MemoryManager

open MemoryManager

variable {c : Config} {s s' : MemoryManager}

theorem Effect.recorded {op : Operation} (hr : Regular c s) (h : s.Recorded) (he : Effect s op s') :
    s'.Recorded := by
  cases he with
  | unchanged => exact h
  | map hm haccept hmapped =>
    refine (h.cleared hm.cleared).mapped (hr.cleared hm.cleared) hmapped ?_
    exact hm.totalDirect.trans hm.cleared.totals.1.totalDirect.symm
  | file hm hplace hp =>
    exact (h.cleared hm.cleared).plain hp
      (hm.totalDirect.trans hm.cleared.totals.1.totalDirect.symm)
  | unmap hu => exact h.unmaps hu
  | free hf =>
    intro x t p hx ht
    rw [hf.rest] at hx ⊢
    exact h.unmaps hf.unmaps x t p hx ht
  | commit hc => exact h.attached hr hc.toAttached hc.totalDirect
  | decommit haccept hd =>
    exact h.of_cells hd.totalDirect fun x t p hx _ => .inl (hd.cell_iff.mp hx).2
  | attributes ha =>
    refine h.of_cells ha.totalDirect fun x t p hx _ => .inl ?_
    rwa [ha.cell] at hx
  | allocate ht => exact h
  | expand _ ht => exact h

theorem Fresh.recorded (h : Fresh c s) : s.Recorded := by
  intro x t p hx
  cases h.cell_free hx

theorem Reachable.recorded {P : Kernel → GuestCall → Prop} {k : Kernel} (hc : c.Usable)
    (h : Reachable c P k) :
    Regular c k.memory ∧ k.memory.Recorded :=
  h.of_run hc (fun _ hfresh => hfresh.recorded) fun _ _ _ _ hr hrec hadm hrun =>
    (Operation.run_effect hr hadm hrun).recorded hr hrec

/-! ### Unmapped addresses -/

theorem add64_wrap {a b : ℕ} (ha : a < 2 ^ 64) (hb : b < 2 ^ 64) (h : 2 ^ 64 ≤ a + b) :
    add64 a b = a + b - 2 ^ 64 := by
  unfold add64
  omega

namespace MemoryManager

variable {s₁ : MemoryManager} {physAddr size : ℕ}

/-- The bytes that `Free` unmaps of a physical area are those of the range. As long as the range
ends below `2 ^ 64`, only the end of an area that starts in the range can stick out. When it wraps,
the areas at or behind the wrapped end are passed over. -/
def Clipped (physAddr size : ℕ) (area : PhysicalMemoryArea) : Prop :=
  if physAddr + size < 2 ^ 64 then
    area.base ≤ physAddr ∨ physAddr + size ≤ area.base ∨ area.base + area.size ≤ physAddr + size
  else
    area.base + area.size ≤ physAddr ∨ area.base + 2 ^ 64 < physAddr + size

/-- The direct mappings of the bytes in the range. -/
def MapsInto (s : MemoryManager) (physAddr size x : ℕ) : Prop :=
  ∃ p, s.cellAt x = some ⟨.direct, some p⟩ ∧ physAddr ≤ p ∧ p < physAddr + size

theorem DirectArea.unique {k k' off off' x : ℕ} {v v' : VirtualMemoryArea}
    {area area' : PhysicalMemoryArea}
    (hs : s.Sound) (h : DirectArea s k v off area) (h' : DirectArea s k' v' off' area')
    (hx : k + off ≤ x ∧ x < k + off + area.size)
    (hx' : k' + off' ≤ x ∧ x < k' + off' + area'.size) :
    k = k' ∧ off = off' ∧ area = area' := by
  obtain ⟨-, -, hend, -⟩ := h.extent hs
  obtain ⟨-, -, hend', -⟩ := h'.extent hs
  have hv :=
    within_unique hs.vma.tiling h.mem h'.mem (x := x) (by simp only [Within, vmaKind_size]; omega)
    (by simp only [Within, vmaKind_size]; omega)
  obtain ⟨rfl, rfl⟩ := Prod.mk.injEq .. ▸ hv
  have hb : v.hasPhysicalBacking = true := by simp [VirtualMemoryArea.hasPhysicalBacking, h.direct]
  have htiling := ((hs.vma.wf _ h.mem).backed hb).tiling
  have harea :=
    within_unique htiling h.area_mem h'.area_mem (x := x - k) (by simp only [Within]; omega)
    (by simp only [Within]; omega)
  obtain ⟨rfl, rfl⟩ := Prod.mk.injEq .. ▸ harea
  exact ⟨rfl, rfl, rfl⟩

/-- The unmapped addresses are the mappings of the range exactly when each area is clipped. -/
theorem removeList_exact (hs : s.Sound) (hpos : 0 < size) (hsize : size < 2 ^ 64) :
    (∀ x, InRanges (removeList s.vmaMap physAddr size) x ↔ s.MapsInto physAddr size x) ↔
      ∀ k v off area, DirectArea s k v off area → Clipped physAddr size area := by
  constructor
  · intro h k v off area hd
    obtain ⟨-, hsz, hend, hbound, hwf⟩ := hd.extent hs
    unfold Clipped
    by_contra hclip
    split_ifs at hclip with hwrap
    · -- The byte at the end of the range is unmapped with the area.
      have hx : InRanges (removeList s.vmaMap physAddr size)
        (k + off + (physAddr + size - area.base)) := by
        refine ⟨_, (mem_removeList hs).mpr ⟨k, v, off, area, hd, ?_, by omega, rfl⟩, ?_⟩
        · rw [add64_eq hwrap]
          omega
        · simp only
          omega
      obtain ⟨p, hcell, hp⟩ := (h _).mp hx
      rw [hd.cellAt hs (by omega)] at hcell
      simp only [Option.some.injEq, Cell.mk.injEq, true_and] at hcell
      omega
    · -- The area is passed over although it has bytes of the range.
      have hx : s.MapsInto physAddr size (k + off + (max area.base physAddr - area.base)) :=
        ⟨_, hd.cellAt hs (by omega), by omega, by omega⟩
      obtain ⟨range, hrange, hin⟩ := (h _).mpr hx
      obtain ⟨k', v', off', area', hd', hlt, hgt, rfl⟩ := (mem_removeList hs).mp hrange
      have hsz' := (hd'.extent hs).2.1
      simp only at hin
      obtain ⟨-, -, rfl⟩ :=
        DirectArea.unique hs hd hd' (x := k + off + (max area.base physAddr - area.base))
        (by omega) (by omega)
      rw [add64_wrap (by omega) (by omega) (by omega)] at hlt
      omega
  · intro hclip x
    constructor
    · rintro ⟨range, hrange, hin⟩
      obtain ⟨k, v, off, area, hd, hlt, hgt, rfl⟩ := (mem_removeList hs).mp hrange
      obtain ⟨-, hsz, hend, hbound, hwf⟩ := hd.extent hs
      have hclip := hclip k v off area hd
      unfold Clipped at hclip
      simp only at hin
      refine ⟨_, hd.cellAt hs (by omega), by omega, ?_⟩
      split_ifs at hclip with hwrap
      · rw [add64_eq hwrap] at hlt
        omega
      · omega
    · rintro ⟨p, hcell, hp⟩
      by_cases hwrap : physAddr + size < 2 ^ 64
      · exact removeList_complete hs hwrap hp hcell
      · obtain ⟨k, v, off, area, hd, hx, rfl⟩ := exists_directArea hcell
        obtain ⟨-, hsz, hend, hbound, hwf⟩ := hd.extent hs
        have hclip := hclip k v off area hd
        rw [Clipped, if_neg hwrap] at hclip
        refine ⟨_, (mem_removeList hs).mpr ⟨k, v, off, area, hd, ?_, by omega, rfl⟩, ?_⟩
        · rw [add64_wrap (by omega) (by omega) (by omega)]
          omega
        · simp only
          omega

theorem unmapMemoryImpl_zero {addr : ℕ} : s.unmapMemoryImpl addr 0 ≠ .ok s' := by
  intro h
  obtain ⟨⟨k, v⟩, -, h⟩ := bind_ok h
  obtain ⟨⟨s₁, unmapped⟩, hbytes, h⟩ := bind_ok h
  obtain ⟨u, hprogress, -⟩ := bind_ok h
  have hpos : 0 < unmapped := require_ok hprogress
  have hzero : unmapped = 0 := by
    unfold unmapBytesFromEntry at hbytes
    split_ifs at hbytes
    · cases hbytes
      exact Nat.min_eq_zero_iff.mpr (.inr rfl)
    all_goals
      obtain ⟨s₂, -, hbytes⟩ := bind_ok hbytes
      obtain ⟨m, -, hbytes⟩ := bind_ok hbytes
      cases hbytes
      exact Nat.min_eq_zero_iff.mpr (.inr rfl)
  omega

/-! ### What a release touches -/

/-- `Free` touches only its range: each byte of it is free afterwards, the other bytes keep their
types, and exactly the direct mappings of the range are unmapped. -/
structure FreesRange (s : MemoryManager) (physAddr size : ℕ) (s' : MemoryManager) : Prop where
  freed : ∀ p t, physAddr ≤ p ∧ p < physAddr + size → s.typeAt p = some t → t ≠ .free →
    s'.typeAt p = some .free
  kept : ∀ p, ¬(physAddr ≤ p ∧ p < physAddr + size) → s'.dmemAt p = s.dmemAt p
  unmapped : ∀ x, s'.cellAt x = some ⟨.free, none⟩ ∧ s.cellAt x ≠ some ⟨.free, none⟩ ↔
    s.MapsInto physAddr size x

/-- Each direct mapping of the range is clipped to it, and a free byte in the range leaves nothing
behind the range that could be released for it. -/
structure ReleaseFits (s : MemoryManager) (physAddr size : ℕ) : Prop where
  clipped : ∀ k v off area, DirectArea s k v off area → Clipped physAddr size area
  behind : s.HasHole physAddr size → ∀ q t, physAddr + size ≤ q → s.typeAt q = some t → t = .free

variable {p : ℕ} {isChecked : Bool} {F : ℕ → Prop}

theorem typeAt_lt_total (hr : Regular c s) {t : PhysicalMemoryType} (h : s.typeAt p = some t) :
    p < s.totalDirectSize := by
  obtain ⟨u, hu⟩ := typeAt_eq_some.mp h
  exact ((hr.dmem.covers p).mp
    (attributesAt_isSome_iff.mp (Option.isSome_iff_exists.mpr ⟨_, hu⟩))).2

theorem freesRange_self (hbytes : ∀ p t, physAddr ≤ p ∧ p < physAddr + size → s.typeAt p = some t →
    t = .free) (hmaps : ∀ x, ¬s.MapsInto physAddr size x) : s.FreesRange physAddr size s := by
  refine ⟨fun p t hp ht hne => absurd (hbytes p t hp ht) hne, fun _ _ => rfl, fun x => ?_⟩
  exact ⟨fun h => absurd h.1 h.2, fun h => absurd h (hmaps x)⟩

theorem releaseFits_beyond (size : ℕ) (hr : Regular c s) (hrec : s.Recorded)
    (h : s.totalDirectSize ≤ physAddr) :
    s.ReleaseFits physAddr size ∧ s.FreesRange physAddr size s := by
  have hnone : ∀ p t, physAddr ≤ p → s.typeAt p ≠ some t := by
    intro p t hp ht
    have := typeAt_lt_total hr ht
    omega
  refine ⟨⟨fun k v off area hd => ?_, fun hhole => ?_⟩,
    freesRange_self (fun p t hp ht => ?_) fun x hx => ?_⟩
  · obtain ⟨-, hpos, -, -, -⟩ := hd.extent hr.sound
    have := hrec _ _ _ (hd.cellAt hr.sound (x := k + off + area.size - 1) (by omega)) (by simp)
    unfold Clipped
    split_ifs
    · left
      omega
    · left
      omega
  · obtain ⟨p, hp, hfree⟩ := hhole
    exact absurd hfree (hnone p _ hp.1)
  · exact absurd ht (hnone p t hp.1)
  · obtain ⟨p, hcell, hp, -⟩ := hx
    have := hrec _ _ _ hcell (by simp)
    omega

theorem Frees.released_behind (hf : Frees s physAddr size isChecked s₁ F s')
    (h : s.FreesRange physAddr size s') (hp : physAddr + size ≤ p) : ¬F p := by
  intro hF
  obtain ⟨-, -, t, ht, hne⟩ := hf.released p hF
  have hkept := typeAt_congr (h.kept p (by omega))
  rw [ht, typeAt_of_dmemAt (hf.dmem_in p hF)] at hkept
  exact hne (Option.some.inj hkept).symm

/-- A release of bytes touches only its range exactly when the mappings are clipped and no byte
behind the range is freed. -/
theorem Frees.freesRange_iff (hs : s.Sound) (hpos : 0 < size)
    (hsize : size < 2 ^ 64) (hf : Frees s physAddr size isChecked s₁ F s') :
    s.FreesRange physAddr size s' ↔
      (∀ k v off area, DirectArea s k v off area → Clipped physAddr size area) ∧
        ∀ p, physAddr + size ≤ p → ¬F p := by
  have hcell : ∀ x, s'.cellAt x = s₁.cellAt x := by
    intro x
    rw [hf.rest]
    rfl
  have hunmapped : ∀ x, s'.cellAt x = some ⟨.free, none⟩ ∧ s.cellAt x ≠ some ⟨.free, none⟩ ↔
      InRanges (removeList s.vmaMap physAddr size) x := by
    intro x
    rw [hcell]
    by_cases hx : InRanges (removeList s.vmaMap physAddr size) x
    · obtain ⟨range, hrange, hin⟩ := hx
      obtain ⟨p, hp⟩ := (removeList_direct hs hpos hrange).2.2 x hin
      refine ⟨fun _ => ⟨range, hrange, hin⟩, fun hx => ⟨hf.unmaps.cell_in x hx, ?_⟩⟩
      rw [hp]
      simp
    · rw [hf.unmaps.cell_out x hx]
      exact ⟨fun h => absurd h.1 h.2, fun h => absurd h hx⟩
  rw [← removeList_exact hs hpos hsize]
  constructor
  · intro h
    exact ⟨fun x => (hunmapped x).symm.trans (h.unmapped x), fun p hp => hf.released_behind h hp⟩
  · rintro ⟨hexact, hbehind⟩
    refine ⟨fun p t hp ht hne => typeAt_of_dmemAt (hf.dmem_in p (hf.complete p t hp ht hne)),
      fun p hp => ?_, fun x => (hunmapped x).trans (hexact x)⟩
    have hF : ¬F p := fun hF => hbehind p (by have := (hf.released p hF).1; omega) hF
    rw [hf.dmem_out p hF]
    -- Only bytes of the range lose a mapping.
    refine hf.unmaps.dmem_out p ?_
    rintro ⟨x, hx, hmap⟩
    obtain ⟨q, hq, hin⟩ := (hexact x).mp hx
    rw [hmap] at hq
    simp only [Option.some.injEq, Cell.mk.injEq, true_and] at hq
    exact hp (hq ▸ hin)

/-- With a free byte in the range, something behind the range is released unless all of it is
free. -/
theorem freed_behind_iff {first : ℕ × PhysicalMemoryArea} {pieces : List (ℕ × ℕ)} (hs : s.Sound)
    (hd : Contiguous 0 s.dmemMap s.totalDirectSize) (hle : physAddr ≤ s.totalDirectSize)
    (hf : s.findDmemArea physAddr = .ok first)
    (hlist : freeList isChecked physAddr (first :: above s.dmemMap first.1) size = some pieces)
    (hreleased : ∀ p, InRanges pieces p → (p < physAddr + size ∨ s.HasHole physAddr size) ∧
      ∃ t, s.typeAt p = some t ∧ t ≠ .free) : (∀ p, physAddr + size ≤ p → ¬InRanges pieces p) ↔
      (s.HasHole physAddr size → ∀ q t, physAddr + size ≤ q → s.typeAt q = some t → t = .free) := by
  constructor
  · rintro hnone ⟨hole, hin, hfree⟩ q t hq ht
    by_contra hne
    obtain ⟨l, r, ha, hk, hwalk⟩ := findDmemArea_walk hs hd hle hf
    rw [ha.above] at hlist
    obtain ⟨f, hfmem, hfw, hffree⟩ := mem_of_typeAt hs ha hk hin.1 hfree
    obtain ⟨e, hemem, hew, rfl⟩ := mem_of_typeAt hs ha hk (by omega) ht
    obtain ⟨p, hp, hp'⟩ :=
      freeList_hole hwalk (by omega) hlist hin hfmem hfw hffree hq hemem hew hne
    exact hnone p hp hp'
  · intro h p hp hin
    obtain ⟨hcase, t, ht, hne⟩ := hreleased p hin
    exact hne (h (hcase.resolve_left (by omega)) p t hp ht)

/-- A release that succeeds touches only its range exactly when the range fits. -/
theorem free_touches_iff (hr : Regular c s) (hrec : s.Recorded) (hsize : size < 2 ^ 64)
    (h : s.free physAddr size isChecked = .ok (s', .ok)) :
    s.FreesRange physAddr size s' ↔ s.ReleaseFits physAddr size := by
  unfold free at h
  by_cases hout : physAddr > s.totalDirectSize ∨
    (isChecked ∧ add64 physAddr size > s.totalDirectSize)
  · rw [if_pos hout] at h
    cases isChecked with
    | true => cases h
    | false =>
      cases h
      have hbeyond : s.totalDirectSize ≤ physAddr := by
        simp only [Bool.false_eq_true, false_and, or_false] at hout
        omega
      obtain ⟨hfits, htouch⟩ := releaseFits_beyond size hr hrec hbeyond
      exact iff_of_true htouch hfits
  · rw [if_neg hout] at h
    have hle : physAddr ≤ s.totalDirectSize := not_lt.mp (not_or.mp hout).1
    obtain ⟨first, hf, h⟩ := bind_ok h
    cases hlist : freeList isChecked physAddr (first :: above s.dmemMap first.1) size with
    | none =>
      simp only [hlist] at h
      cases h
    | some pieces =>
      simp only [hlist] at h
      obtain ⟨s₁, hall, h⟩ := bind_ok h
      obtain ⟨m, hfree, h⟩ := bind_ok h
      cases h
      by_cases hpos : 0 < size
      · have hfrees := frees_of_lists hr.sound hr.dmem hpos hsize hout hf hlist hall hfree
        rw [hfrees.freesRange_iff hr.sound hpos hsize,
          freed_behind_iff hr.sound hr.dmem hle hf hlist
          fun p hp => (hfrees.released p hp).2]
        exact ⟨fun h => ⟨h.1, h.2⟩, fun h => ⟨h.clipped, h.behind⟩⟩
      · -- An empty release ends without a step.
        obtain rfl : size = 0 := by omega
        rw [freeList_zero] at hlist
        cases hlist
        cases hfree
        cases hranges : removeList s.vmaMap physAddr 0 with
        | nil =>
          rw [hranges] at hall
          cases hall
          refine iff_of_true (freesRange_self (fun p t hp => by omega) ?_)
            ⟨fun k v off area hd => ?_, ?_⟩
          · rintro x ⟨p, -, hp⟩
            omega
          · have := hr.direct_le
            have := c.directSize_lt
            rw [Clipped, if_pos (by omega)]
            omega
          · rintro ⟨p, hp, -⟩
            omega
        | cons range ranges =>
          rw [hranges] at hall
          obtain ⟨s₂, hfirst, -⟩ := bind_ok hall
          obtain ⟨k, v, off, area, -, -, -, rfl⟩ := (mem_removeList hr.sound).mp
            (hranges ▸ List.mem_cons_self : range ∈ removeList s.vmaMap physAddr 0)
          simp only [Nat.min_zero] at hfirst
          exact absurd hfirst unmapMemoryImpl_zero

end MemoryManager

section Guest

variable {P : Kernel → GuestCall → Prop} {k : Kernel}

/-- `Free` touches only its range exactly when each mapping of the range is clipped to it, and a
free byte in the range leaves no other byte behind it to release. -/
theorem free_range_iff (hc : c.Usable) (h : Reachable c P k) (physAddr size : UInt64)
    {isChecked : Bool} (hok : k.memory.free physAddr.toNat size.toNat isChecked = .ok (s', .ok)) :
    k.memory.FreesRange physAddr.toNat size.toNat s' ↔
      k.memory.ReleaseFits physAddr.toNat size.toNat := by
  obtain ⟨hr, hrec⟩ := h.recorded hc
  exact free_touches_iff hr hrec size.toNat_lt hok

theorem free_range_iff_mapped :
    ∃ k s', Reachable Config.oneRegion (fun _ _ => True) k ∧
      k.memory.free 0 0x4000 true = .ok (s', .ok) ∧
      (k.memory.FreesRange 0 0x4000 s' ↔ k.memory.ReleaseFits 0 0x4000) := by
  obtain ⟨k, hcalls, hok⟩ := Kernel.exists_callAll
    [.allocateDirectMemory 0 0x10000000 0x4000 0 3 true,
      .mapNamedDirectMemory 0x200000000 0x4000 3 0x10 0 0 "buffer"]
    startedKernel (fun k => (k.memory.free 0 0x4000 true).toOption.map Prod.snd = some .ok)
      (by decide)
  have hk : Reachable Config.oneRegion (fun _ _ => True) k :=
    startedKernel_reachable.callAll (fun _ _ _ => trivial) hcalls
  cases hfree : k.memory.free 0 0x4000 true with
  | error fault =>
    rw [hfree] at hok
    cases hok
  | ok result =>
    rw [hfree] at hok
    obtain ⟨s', status⟩ := result
    obtain rfl : status = .ok := Option.some.inj hok
    exact ⟨k, s', hk, hfree, free_range_iff Config.oneRegion_usable hk 0 0x4000 hfree⟩

/-- A mapping starts in the middle of the released range and runs past its end: as many of its bytes
are unmapped as the whole range has. -/
theorem free_range_fails :
    ∃ k s', Reachable Config.oneRegion (fun _ _ => True) k ∧
      k.memory.free 0 0x8000 true = .ok (s', .ok) ∧ ¬k.memory.FreesRange 0 0x8000 s' := by
  obtain ⟨k, hcalls, hok, e, he, hdirect, a, ha, hbase, hsize⟩ := Kernel.exists_callAll
    [.allocateDirectMemory 0 0x10000000 0x10000 0 3 true,
      .mapNamedDirectMemory 0x200000000 0xc000 3 0x10 0x4000 0 "buffer"]
    startedKernel (fun k => (k.memory.free 0 0x8000 true).toOption.map Prod.snd = some .ok ∧
      ∃ e ∈ k.memory.vmaMap, e.2.type = .direct ∧ ∃ a ∈ e.2.physAreas, a.2.base = 0x4000 ∧
        a.2.size = 0xc000)
    (by decide)
  have hk : Reachable Config.oneRegion (fun _ _ => True) k :=
    startedKernel_reachable.callAll (fun _ _ _ => trivial) hcalls
  cases hfree : k.memory.free 0 0x8000 true with
  | error fault =>
    rw [hfree] at hok
    cases hok
  | ok result =>
    rw [hfree] at hok
    obtain ⟨s', status⟩ := result
    obtain rfl : status = .ok := Option.some.inj hok
    refine ⟨k, s', hk, hfree, fun h => ?_⟩
    obtain ⟨hr, hrec⟩ := hk.recorded Config.oneRegion_usable
    have hclip :=
      ((free_touches_iff hr hrec (by decide) hfree).mp h).clipped _ _ _ _ ⟨he, hdirect, ha⟩
    unfold Clipped at hclip
    rw [if_pos (by decide)] at hclip
    omega

end Guest

end PS4Droid.Memory
