import PS4Droid.Memory.Pools

/-!
# What allocation and release do to direct memory

`Allocate` and `PoolExpand` take a part of a free area; `Free` unmaps every direct
mapping that references the released range and then frees its areas. The search
loops and the two lists that `Free` collects first are described by the bytes they
find.
-/

namespace PS4Droid.Memory

open OrderedMap IntervalMap Segments

/-! ### The search for a free area -/

/-- The alignment that a search uses: the requested one, or the page size. -/
theorem alignment_bounds {alignment page : ℕ} (ha : alignment < 2 ^ 64)
    (hp : 0 < page ∧ page < 2 ^ 64) : 0 < (if alignment > 0 then alignment else page) ∧
      (if alignment > 0 then alignment else page) < 2 ^ 64 := by
  split_ifs with h
  · exact ⟨h, ha⟩
  · exact hp

namespace MemoryManager

variable {s s' s₁ : MemoryManager} {addr size : ℕ}
  {alignment key searchStart searchEnd x k off p physAddr total remaining : ℕ}
  {l m m' r rest : PhysMap} {t : ℤ × PhysicalMemoryType} {e first : ℕ × PhysicalMemoryArea}
  {range : ℕ × ℕ} {ranges pieces : List (ℕ × ℕ)} {v : VirtualMemoryArea}
  {area a : PhysicalMemoryArea} {isChecked : Bool}

/-- The area that the search ends on is free and ends behind the candidate. -/
theorem findFreeArea_spec {start : ℕ} {found : ℕ}
    (h : findFreeArea size alignment l start = some (key, found)) :
    ∃ area, (key, area) ∈ l ∧ area.dmaType = .free ∧ add64 found size ≤ area.getEnd ∧
      (found = start ∧ l.head? = some (key, area) ∨ found = alignUp area.base alignment) := by
  induction l generalizing start with
  | nil => cases h
  | cons e rest ih =>
    obtain ⟨k, a⟩ := e
    unfold findFreeArea at h
    split_ifs at h with hskip
    · obtain ⟨area, hmem, hfree, hend, hcase⟩ := ih h
      refine ⟨area, by simp [hmem], hfree, hend, .inr ?_⟩
      rcases hcase with ⟨rfl, hhead⟩ | hcase
      · simp [hhead]
      · exact hcase
    · simp only [Option.some.injEq, Prod.mk.injEq] at h
      obtain ⟨rfl, rfl⟩ := h
      rw [not_or, not_not, not_lt] at hskip
      exact ⟨a, by simp, hskip.1, hskip.2, .inl ⟨rfl, rfl⟩⟩

/-- The free bytes `[addr, addr + size)` got the attributes `t`. -/
structure TakesFree (t : ℤ × PhysicalMemoryType) (s : MemoryManager) (addr size : ℕ) (m : PhysMap) :
    Prop where
  changed : PhysMap.Changed s.dmemMap addr size (fun _ => t) m
  free : ∀ p, addr ≤ p ∧ p < addr + size → ∃ u, s.dmemAt p = some (u, .free)

theorem TakesFree.merge {h h' : ℕ}
    (ht : TakesFree t s addr size m) (hm : PhysMap.mergeAdjacent m h = .ok (m', h')) :
    TakesFree t s addr size m' := by
  obtain ⟨hv, hattr⟩ := PhysMap.merge_attributes ht.changed.valid hm
  exact ⟨⟨hv, ht.changed.pos, ht.changed.uniform,
    fun p => (hattr p).trans (ht.changed.attributes p)⟩, ht.free⟩

/-- Direct memory lies in the lower half of the address range. -/
def LowDirect (s : MemoryManager) : Prop := ∀ e ∈ s.dmemMap, e.2.base < 2 ^ 63

/-- A range carved at a candidate of the search lies in the free area of that candidate. -/
theorem carve_takesFree {f : PhysicalMemoryArea → PhysicalMemoryArea}
    {h al first : ℕ} {b : PhysicalMemoryArea} (hs : s.Sound)
    (hsize : size < 2 ^ 64) (hc : PhysMap.carveWith s.dmemMap addr size f = .ok (m, h, b))
    (hf : PhysMap.Reattributes f) (hg : ∀ a, (f a).attributes 0 = t) (hlow : s.LowDirect)
    (halign : 0 < al ∧ al < 2 ^ 64) (haround : Around s.dmemMap l e r) (hfirst : e.2.base ≤ first)
    (hfind : findFreeArea size al (e :: r) first = some (key, addr)) :
    TakesFree t s addr size m := by
  obtain ⟨area, hmem', hfree, hend, hcase⟩ := findFreeArea_spec hfind
  have hmem : (key, area) ∈ s.dmemMap := by
    rw [haround.eq]
    exact List.mem_append_right _ hmem'
  have hle : area.base ≤ addr := by
    rcases hcase with ⟨rfl, hhead⟩ | rfl
    · obtain rfl : e = (key, area) := Option.some.inj hhead
      exact hfirst
    · exact le_alignUp (hlow _ hmem) halign
  refine ⟨PhysMap.carveWith_changed hs.dmem hsize hc hf hg, fun p hp => ⟨area.memoryType, ?_⟩⟩
  obtain ⟨-, l, k, a, r, ha, hpart, -⟩ := PhysMap.carveWith_shape hs.dmem hsize hc
  have hstop := hpart.stop
  have hkey : a.base = k := hs.dmem.keyed _ ha.mem
  have hwf : a.base + a.size < 2 ^ 64 := hs.dmem.wf _ ha.mem
  have hkey' : area.base = key := hs.dmem.keyed _ hmem
  have hwf' : area.base + area.size < 2 ^ 64 := hs.dmem.wf _ hmem
  rw [add64_eq (by omega), PhysicalMemoryArea.getEnd, add64_eq hwf'] at hend
  have hview := viewAt_eq PhysicalMemoryArea.attributes hs.dmem.tiling hmem (x := p)
    (by simp only [Within, physKind_size]; omega)
  rw [dmemAt, PhysMap.attributesAt, hview, PhysicalMemoryArea.attributes, hfree]

theorem allocate_spec {memoryType : ℤ} (hs : s.Sound)
    (hlow : s.LowDirect) (hstart : searchStart < 2 ^ 63) (hsize : size < 2 ^ 64)
    (halign : alignment < 2 ^ 64)
    (h : s.allocate searchStart searchEnd size alignment memoryType = .ok (s', addr)) :
    s' = s ∨ ∃ m, s' = { s with dmemMap := m } ∧
      TakesFree (memoryType, .allocated) s addr size m := by
  unfold allocate at h
  obtain ⟨⟨k, area⟩, hf, h⟩ := bind_ok h
  obtain ⟨l, r, ha, hk, -⟩ := findEntry_around hs.dmem.sorted hf
  have habove := ha.above
  dsimp only at h habove
  rw [habove] at h
  have halign' := alignment_bounds halign (show 0 < kiB 16 ∧ kiB 16 < 2 ^ 64 by norm_num [kiB])
  generalize (if alignment > 0 then alignment else kiB 16) = al at h halign'
  cases hfind : findFreeArea size al ((k, area) :: r) (alignUp (max searchStart area.base) al) with
  | none =>
    simp only [hfind] at h
    cases h
    exact .inl rfl
  | some found =>
    obtain ⟨key, start⟩ := found
    simp only [hfind] at h
    split_ifs at h
    · cases h
      exact .inl rfl
    · obtain ⟨⟨m, h₁, b⟩, hc, h⟩ := bind_ok h
      obtain ⟨⟨m₂, h₂⟩, hm, h⟩ := bind_ok h
      cases h
      have := hlow _ ha.mem
      have hfirst := (le_max_right searchStart area.base).trans
        (le_alignUp (by simp only at this; omega) halign')
      exact .inr ⟨m₂, rfl,
        (carve_takesFree hs hsize hc ⟨fun _ => rfl, fun _ => rfl⟩ (fun _ => rfl) hlow halign' ha
        hfirst hfind).merge hm⟩

/-- Aligning the search address of `PoolExpand` does not wrap around. -/
def PoolSearchFits (searchStart alignment : ℕ) : Prop :=
  searchStart ≤ alignUp searchStart (if alignment > 0 then alignment else kiB 64)

/-- The pool search starts at the aligned search address when that lies inside the first area;
an address that wrapped around could lie anywhere. -/
theorem poolExpand_spec (hs : s.Sound) (hlow : s.LowDirect)
    (hsize : size < 2 ^ 64) (halign : alignment < 2 ^ 64)
    (h : s.poolExpand searchStart searchEnd size alignment = .ok (s', addr)) :
    s' = s ∨ ∃ m, s' = { s with dmemMap := m, poolBudget := add64 s.poolBudget size } ∧
      PhysMap.Changed s.dmemMap addr size (fun _ => (3, .pooled)) m ∧
      (PoolSearchFits searchStart alignment → TakesFree (3, .pooled) s addr size m) := by
  unfold poolExpand at h
  obtain ⟨⟨k, area⟩, hf, h⟩ := bind_ok h
  obtain ⟨l, r, ha, hk, -⟩ := findEntry_around hs.dmem.sorted hf
  have habove := ha.above
  dsimp only at h habove
  rw [habove] at h
  have halign' := alignment_bounds halign (show 0 < kiB 64 ∧ kiB 64 < 2 ^ 64 by norm_num [kiB])
  unfold PoolSearchFits
  generalize (if alignment > 0 then alignment else kiB 64) = al at h halign' ⊢
  have hfirst : searchStart ≤ alignUp searchStart al → area.base ≤
      if searchStart > area.base then alignUp searchStart al else alignUp area.base al := by
    intro hwrap
    split_ifs with hgt
    · omega
    · exact le_alignUp (hlow _ ha.mem) halign'
  generalize (if searchStart > area.base then alignUp searchStart al else alignUp area.base al) =
    first at h hfirst
  cases hfind : findFreeArea size al ((k, area) :: r) first with
  | none =>
    simp only [hfind] at h
    cases h
    exact .inl rfl
  | some found =>
    obtain ⟨key, start⟩ := found
    simp only [hfind] at h
    obtain ⟨⟨m, h₁, b⟩, hc, h⟩ := bind_ok h
    cases h
    have hchanged := PhysMap.carveWith_changed (g := fun _ => (3, .pooled)) hs.dmem hsize hc
      ⟨fun _ => rfl, fun _ => rfl⟩ fun _ => rfl
    exact .inr ⟨m, rfl, hchanged,
      fun hwrap => carve_takesFree hs hsize hc ⟨fun _ => rfl, fun _ => rfl⟩
      (fun _ => rfl) hlow halign' ha (hfirst hwrap) hfind⟩

/-! ### Releasing -/

/-- The point lies in one of the ranges. -/
def InRanges (ranges : List (ℕ × ℕ)) (x : ℕ) : Prop :=
  ∃ range ∈ ranges, range.1 ≤ x ∧ x < range.1 + range.2

theorem inRanges_cons :
    InRanges (range :: ranges) x ↔ (range.1 ≤ x ∧ x < range.1 + range.2) ∨ InRanges ranges x := by
  simp [InRanges]

theorem unmapAll_spec (hs : s.Sound)
    (hr : ∀ range ∈ ranges, 0 < range.2 ∧ range.1 + range.2 < 2 ^ 64 ∧ s.Covered range.1 range.2)
    (h : unmapAll ranges s = .ok s') :
    Unmaps s (fun x => InRanges ranges x ∧ s.Releasable x) s' := by
  induction ranges generalizing s with
  | nil =>
    cases h
    refine (Unmaps.refl hs).congr fun x => ?_
    simp [InRanges]
  | cons range ranges ih =>
    obtain ⟨addr, size⟩ := range
    obtain ⟨s₁, h₁, h⟩ := bind_ok h
    obtain ⟨hpos, hend, hcov⟩ := hr (addr, size) (by simp)
    have hu₁ : UnmapsRange s addr size s₁ :=
      unmapMemoryLoop_range (n := 0) hs hpos (by simpa using hcov) hend h₁
    have hu₂ := ih hu₁.sound (fun range' hrange => by
      obtain ⟨hpos', hend', hcov'⟩ := hr range' (by simp [hrange])
      exact ⟨hpos', hend', hu₁.covered hcov'⟩) h
    refine (Unmaps.trans hu₁ hu₂).congr fun x => ?_
    rw [inRanges_cons]
    constructor
    · rintro (⟨hx, hrel⟩ | ⟨hx, hrel⟩)
      · exact ⟨.inl hx, hrel⟩
      · refine ⟨.inr hx, ?_⟩
        obtain ⟨c, hc, hfree, hpool⟩ := hrel
        by_cases hin : (addr ≤ x ∧ x < addr + size) ∧ s.Releasable x
        · exact hin.2
        · exact ⟨c, (hu₁.cell_out x hin).symm.trans hc, hfree, hpool⟩
    · rintro ⟨hx, hrel⟩
      by_cases hin : addr ≤ x ∧ x < addr + size
      · exact .inl ⟨hin, hrel⟩
      · refine .inr ⟨hx.resolve_left hin, ?_⟩
        obtain ⟨c, hc, hne⟩ := hrel
        exact ⟨c, (hu₁.cell_out x fun h => hin h.1).trans hc, hne⟩

/-- The bytes of the pieces became free. -/
structure FreesBytes (m : PhysMap) (pieces : List (ℕ × ℕ)) (m' : PhysMap) : Prop where
  valid : PhysMap.Valid m'
  present : ∀ p, InRanges pieces p → (m.attributesAt p).isSome
  attributes_in : ∀ p, InRanges pieces p → m'.attributesAt p = some (0, .free)
  attributes_out : ∀ p, ¬ InRanges pieces p → m'.attributesAt p = m.attributesAt p

theorem freeAll_spec (hv : PhysMap.Valid m)
    (hp : ∀ piece ∈ pieces, piece.2 < 2 ^ 64) (h : freeAll pieces m = .ok m') :
    FreesBytes m pieces m' := by
  induction pieces generalizing m with
  | nil =>
    cases h
    exact ⟨hv, by simp [InRanges], by simp [InRanges], fun _ _ => rfl⟩
  | cons piece pieces ih =>
    obtain ⟨addr, size⟩ := piece
    obtain ⟨⟨m₁, h₁, a⟩, hr, h⟩ := bind_ok h
    have hchanged := (PhysMap.retype_changed (g := fun _ => (0, .free)) hv
      (hp (addr, size) (by simp)) hr ⟨fun _ => rfl, fun _ => rfl⟩ fun _ => rfl).1
    have hrest := ih hchanged.valid (fun piece hpiece => hp piece (by simp [hpiece])) h
    have hattr := hchanged.attributes
    obtain ⟨b, hb⟩ := hchanged.uniform
    refine ⟨hrest.valid, ?_, ?_, ?_⟩
    · intro p hp
      by_cases hin : addr ≤ p ∧ p < addr + size
      · rw [hb p hin]
        rfl
      · have := hrest.present p ((inRanges_cons.mp hp).resolve_left hin)
        rwa [hattr, if_neg hin] at this
    · intro p hp
      by_cases hin : InRanges pieces p
      · exact hrest.attributes_in p hin
      · have hfirst := (inRanges_cons.mp hp).resolve_right hin
        simp only at hfirst
        rw [hrest.attributes_out p hin, hattr, if_pos hfirst, hb p hfirst]
        rfl
    · intro p hp
      rw [inRanges_cons, not_or] at hp
      rw [hrest.attributes_out p hp.2, hattr, if_neg hp.1]

/-- One physical area of a direct mapping, with the addresses it backs. -/
structure DirectArea (s : MemoryManager) (k : ℕ) (v : VirtualMemoryArea) (off : ℕ)
    (area : PhysicalMemoryArea) : Prop where
  mem : (k, v) ∈ s.vmaMap
  direct : v.type = .direct
  area_mem : (off, area) ∈ v.physAreas

theorem DirectArea.extent (hs : s.Sound) (h : DirectArea s k v off area) :
    v.base = k ∧ 0 < area.size ∧ off + area.size ≤ v.size ∧ k + v.size < 2 ^ 64 ∧
      area.base + area.size < 2 ^ 64 := by
  have hsound : v.Sound := hs.vma.wf _ h.mem
  have hbase : v.base = k := hs.vma.keyed _ h.mem
  have hbound : v.base + v.size < 2 ^ 64 := hsound.bounded
  have hb : v.hasPhysicalBacking = true := by simp [VirtualMemoryArea.hasPhysicalBacking, h.direct]
  obtain ⟨-, hpos, hend, hwf⟩ := (hsound.backed hb).mem h.area_mem
  exact ⟨hbase, hpos, hend, by omega, hwf⟩

theorem DirectArea.cellAt
    (hs : s.Sound) (h : DirectArea s k v off area) (hx : k + off ≤ x ∧ x < k + off + area.size) :
    s.cellAt x = some ⟨.direct, some (area.base + (x - (k + off)))⟩ := by
  obtain ⟨hbase, hpos, hend, hbound, -⟩ := h.extent hs
  have hsound : v.Sound := hs.vma.wf _ h.mem
  have hb : v.hasPhysicalBacking = true := by simp [VirtualMemoryArea.hasPhysicalBacking, h.direct]
  have hbyte : byteAt v.physAreas (x - k) = some (area.base + (x - (k + off))) := by
    have := viewAt_eq PhysicalMemoryArea.byte (hsound.backed hb).tiling h.area_mem
      (x := x - k) (by simp only [Within]; omega)
    rw [byteAt, this, PhysicalMemoryArea.byte]
    simp only [Option.some.injEq]
    omega
  have hcell := VMAMap.cellAt_mem hs.vma h.mem (x := x) (by simp only; omega)
  simp only [VirtualMemoryArea.cell, hb, ↓reduceIte, hbyte, h.direct] at hcell
  exact hcell

/-- Every direct cell belongs to one physical area of its mapping. -/
theorem exists_directArea (hc : s.cellAt x = some ⟨.direct, some p⟩) :
    ∃ k v off area, DirectArea s k v off area ∧ (k + off ≤ x ∧ x < k + off + area.size) ∧
      p = area.base + (x - (k + off)) := by
  obtain ⟨⟨k, v⟩, hmem, hx, hcell⟩ := VMAMap.cellAt_some hc
  simp only [VirtualMemoryArea.cell, Cell.mk.injEq] at hcell hx
  obtain ⟨htype, hbyte⟩ := hcell
  split_ifs at hbyte
  obtain ⟨⟨off, area⟩, harea, ho, hp⟩ := viewAt_eq_some hbyte
  simp only [Within, PhysicalMemoryArea.byte] at ho hp
  exact ⟨k, v, off, area, ⟨hmem, htype, harea⟩, by omega, by omega⟩

theorem mem_removeList (hs : s.Sound) :
    range ∈ removeList s.vmaMap physAddr size ↔ ∃ k v off area, DirectArea s k v off area ∧
      area.base < add64 physAddr size ∧ physAddr < area.base + area.size ∧
      range = (k + off + (max area.base physAddr - area.base),
        min (area.size - (max area.base physAddr - area.base)) size) := by
  have hitem : ∀ k v off area, DirectArea s k v off area → physAddr < area.base + area.size →
      (add64 (add64 v.base off) (sub64 (max area.base physAddr) area.base),
        min (sub64 area.size (sub64 (max area.base physAddr) area.base)) size) =
      (k + off + (max area.base physAddr - area.base),
        min (area.size - (max area.base physAddr - area.base)) size) := by
    intro k v off area h hlt
    obtain ⟨hbase, hpos, hend, hbound, hwf⟩ := h.extent hs
    have hsub : sub64 (max area.base physAddr) area.base = max area.base physAddr - area.base :=
      sub64_eq (by omega) (by omega)
    rw [hsub, add64_eq (show v.base + off < 2 ^ 64 by omega), hbase, add64_eq (by omega),
      sub64_eq (by omega) (by omega)]
  have hsum : ∀ k v off area, DirectArea s k v off area →
      add64 area.base area.size = area.base + area.size := fun k v off area h =>
    add64_eq (h.extent hs).2.2.2.2
  unfold removeList
  simp only [List.mem_flatMap]
  constructor
  · rintro ⟨⟨k, v⟩, hmem, hrange⟩
    dsimp only at hrange
    split_ifs at hrange with htype
    · obtain ⟨⟨off, area⟩, harea, hrange⟩ := List.mem_filterMap.mp hrange
      dsimp only at hrange
      have hd : DirectArea s k v off area := ⟨hmem, htype, harea⟩
      split_ifs at hrange with hover
      rw [hsum k v off area hd] at hover
      exact ⟨k, v, off, area, hd, hover.1, hover.2,
        (Option.some.inj hrange).symm.trans (hitem k v off area hd hover.2)⟩
    · cases hrange
  · rintro ⟨k, v, off, area, hd, hlt, hgt, rfl⟩
    refine ⟨(k, v), hd.mem, ?_⟩
    dsimp only
    rw [if_pos hd.direct, List.mem_filterMap]
    refine ⟨(off, area), hd.area_mem, ?_⟩
    dsimp only
    rw [if_pos ⟨hlt, by rw [hsum k v off area hd]; exact hgt⟩, hitem k v off area hd hgt]

/-- The ranges that a release unmaps are direct mappings of bytes from `physAddr` on. -/
theorem removeList_direct (hs : s.Sound) (hpos : 0 < size)
    (h : range ∈ removeList s.vmaMap physAddr size) : 0 < range.2 ∧ range.1 + range.2 < 2 ^ 64 ∧
      ∀ x, range.1 ≤ x ∧ x < range.1 + range.2 → ∃ p, s.cellAt x = some ⟨.direct, some p⟩ := by
  obtain ⟨k, v, off, area, hd, hlt, hgt, rfl⟩ := (mem_removeList hs).mp h
  obtain ⟨hbase, hsz, hend, hbound, hwf⟩ := hd.extent hs
  refine ⟨by simp only; omega, by simp only; omega, fun x hx => ?_⟩
  simp only at hx
  exact ⟨_, hd.cellAt hs (by omega)⟩

/-- A release without wrap-around unmaps every direct mapping of its range. -/
theorem removeList_complete (hs : s.Sound) (hwrap : physAddr + size < 2 ^ 64)
    (hp : physAddr ≤ p ∧ p < physAddr + size) (hc : s.cellAt x = some ⟨.direct, some p⟩) :
    InRanges (removeList s.vmaMap physAddr size) x := by
  obtain ⟨k, v, off, area, hd, hx, rfl⟩ := exists_directArea hc
  refine ⟨_, (mem_removeList hs).mpr ⟨k, v, off, area, hd, ?_, by omega, rfl⟩, ?_⟩
  · rw [add64_eq hwrap]
    omega
  · simp only
    omega

/-- The bytes of `[physAddr, physAddr + size)` include a free one. -/
def HasHole (s : MemoryManager) (physAddr size : ℕ) : Prop :=
  ∃ p, (physAddr ≤ p ∧ p < physAddr + size) ∧ s.typeAt p = some .free

theorem freeList_zero (isChecked : Bool) (physAddr : ℕ) (l : PhysMap) :
    freeList isChecked physAddr l 0 = some [] := by
  cases l <;> rfl

theorem not_inRanges_nil : ¬ InRanges [] x := by
  rintro ⟨range, hrange, -⟩
  cases hrange

/-- The areas that a release walks over. The first one does not end in front of `physAddr`. -/
structure Walk (physAddr k : ℕ) (l : PhysMap) (total : ℕ) : Prop where
  contiguous : Contiguous k l total
  keyed : ∀ e ∈ l, e.2.base = e.1
  head : ∀ e ∈ l.head?, physAddr ≤ e.1 + e.2.size

theorem Walk.cons {k' : ℕ}
    (h : Walk physAddr k ((k', a) :: rest) total) : k' = k ∧ 0 < a.size ∧ a.base + a.size < 2 ^ 64 ∧
      a.base = k' ∧ physAddr ≤ k' + a.size ∧ Walk physAddr (k + a.size) rest total := by
  obtain ⟨rfl, hpos, hb, hrest⟩ := h.contiguous
  have hle : physAddr ≤ k' + a.size := h.head (k', a) (by simp)
  refine ⟨rfl, hpos, hb, h.keyed (k', a) (by simp), hle, hrest,
    fun e he => h.keyed e (by simp [he]), ?_⟩
  intro e he
  have := hrest.mem (List.mem_of_mem_head? he)
  omega

theorem freeList_cons (hrem : remaining ≠ 0) (hfree : a.dmaType ≠ .free)
    (hw : Walk physAddr k ((k, a) :: rest) total)
    (h : freeList isChecked physAddr ((k, a) :: rest) remaining = some pieces) :
    ∃ sz tail, sz = min remaining (k + a.size - max physAddr k) ∧
      freeList isChecked physAddr rest (remaining - sz) = some tail ∧
      pieces = (max physAddr k, sz) :: tail := by
  obtain ⟨-, -, ha, hk, hle, -⟩ := hw.cons
  unfold freeList at h
  rw [if_neg hrem, if_neg hfree] at h
  have hsub : sub64 a.size (sub64 (max physAddr k) k) = k + a.size - max physAddr k := by
    rw [sub64_eq (a := max physAddr k) (by omega) (by omega), sub64_eq (by omega) (by omega)]
    omega
  dsimp only at h
  rw [hsub] at h
  obtain ⟨tail, htail, hcons⟩ := Option.map_eq_some_iff.mp h
  exact ⟨_, tail, rfl, htail, hcons.symm⟩

/-- Released bytes were not free, and those behind the range are released only when the range
has a free byte. -/
theorem freeList_sound (stop : ℕ) (hole : Prop) (hw : Walk physAddr k l total)
    (hhole : ∀ e ∈ l, e.2.dmaType = .free → physAddr < e.1 + e.2.size → max physAddr e.1 < stop →
      hole)
    (hrem : remaining + max physAddr k ≤ stop ∨ hole)
    (h : freeList isChecked physAddr l remaining = some pieces) (hp : InRanges pieces p) :
    physAddr ≤ p ∧ (p < stop ∨ hole) ∧ ∃ e ∈ l, Within PhysicalMemoryArea.size e p ∧
      e.2.dmaType ≠ .free := by
  induction l generalizing k remaining pieces with
  | nil =>
    cases h
    exact absurd hp not_inRanges_nil
  | cons e rest ih =>
    obtain ⟨k, a⟩ := e
    obtain ⟨rfl, hpos, hb, hbase, hle, hrest⟩ := hw.cons
    have hlift : (∃ e ∈ rest, Within PhysicalMemoryArea.size e p ∧ e.2.dmaType ≠ .free) →
        ∃ e ∈ (k, a) :: rest, Within PhysicalMemoryArea.size e p ∧ e.2.dmaType ≠ .free := by
      rintro ⟨e, he, hw⟩
      exact ⟨e, by simp [he], hw⟩
    by_cases h0 : remaining = 0
    · rw [h0, freeList_zero] at h
      cases h
      exact absurd hp not_inRanges_nil
    by_cases hfree : a.dmaType = .free
    · unfold freeList at h
      rw [if_neg h0, if_pos hfree] at h
      split_ifs at h
      -- A free area in the range is a hole; behind the range nothing is left to release.
      have hrem' : remaining + max physAddr (k + a.size) ≤ stop ∨ hole := by
        by_cases hin : physAddr < k + a.size ∧ max physAddr k < stop
        · exact .inr (hhole (k, a) (by simp) hfree hin.1 hin.2)
        · rcases hrem with hrem | hrem
          · left
            omega
          · exact .inr hrem
      obtain ⟨h₁, h₂, h₃⟩ := ih hrest (fun e he => hhole e (by simp [he])) hrem' h hp
      exact ⟨h₁, h₂, hlift h₃⟩
    · obtain ⟨sz, tail, hsz, htail, rfl⟩ := freeList_cons h0 hfree hw h
      rw [inRanges_cons] at hp
      rcases hp with hp | hp
      · simp only at hp
        refine ⟨by omega, ?_, (k, a), by simp, by simp only [Within]; omega, hfree⟩
        rcases hrem with hrem | hrem
        · left
          omega
        · exact .inr hrem
      · by_cases hdone : remaining - sz = 0
        · rw [hdone, freeList_zero] at htail
          cases htail
          exact absurd hp not_inRanges_nil
        have hrem' : remaining - sz + max physAddr (k + a.size) ≤ stop ∨ hole := by
          rcases hrem with hrem | hrem
          · left
            omega
          · exact .inr hrem
        obtain ⟨h₁, h₂, h₃⟩ := ih hrest (fun e he => hhole e (by simp [he])) hrem' htail hp
        exact ⟨h₁, h₂, hlift h₃⟩

/-- Every byte of the range is released or free, and free only for an unchecked release. -/
theorem freeList_complete {stop : ℕ} (hwalk : Walk physAddr k l total)
    (hrem : stop ≤ remaining + max physAddr k)
    (h : freeList isChecked physAddr l remaining = some pieces)
    (hp : physAddr ≤ p ∧ p < stop) (he : e ∈ l)
    (hw : Within PhysicalMemoryArea.size e p) :
    InRanges pieces p ∨ isChecked = false ∧ e.2.dmaType = .free := by
  induction l generalizing k remaining pieces with
  | nil => cases he
  | cons f rest ih =>
    obtain ⟨k, a⟩ := f
    obtain ⟨rfl, hpos, hb, hbase, hle, hrest⟩ := hwalk.cons
    have hlow : k ≤ p := (hwalk.contiguous.mem he).1.trans hw.1
    have h0 : remaining ≠ 0 := by omega
    by_cases hfree : a.dmaType = .free
    · unfold freeList at h
      rw [if_neg h0, if_pos hfree] at h
      split_ifs at h with hchecked
      rcases List.mem_cons.mp he with rfl | he
      · exact .inr ⟨by simpa using hchecked, hfree⟩
      · exact ih hrest (by omega) h he
    · obtain ⟨sz, tail, hsz, htail, rfl⟩ := freeList_cons h0 hfree hwalk h
      rw [inRanges_cons, or_assoc]
      by_cases hin : p < max physAddr k + sz
      · left
        simp only
        omega
      · right
        unfold Within at hw
        rcases List.mem_cons.mp he with rfl | he
        · simp only at hw
          omega
        · exact ih hrest (by omega) htail he

theorem freeList_sizes (h : freeList isChecked physAddr l remaining = some pieces) :
    ∀ piece ∈ pieces, piece.2 ≤ remaining := by
  induction l generalizing remaining pieces with
  | nil =>
    simp only [freeList, Option.some.injEq] at h
    simp [← h]
  | cons e rest ih =>
    obtain ⟨k, a⟩ := e
    unfold freeList at h
    split_ifs at h
    · simp only [Option.some.injEq] at h
      simp [← h]
    · exact ih h
    · obtain ⟨tail, htail, rfl⟩ := Option.map_eq_some_iff.mp h
      intro piece hpiece
      rcases List.mem_cons.mp hpiece with rfl | hpiece
      · exact min_le_left _ _
      · exact (ih htail piece hpiece).trans (Nat.sub_le _ _)

/-- The code's checks of a release: it starts inside the direct memory, and a checked one also
ends there and meets no free byte. -/
structure ReleaseAccepted (s : MemoryManager) (physAddr size : ℕ) (isChecked : Bool) : Prop where
  start : physAddr ≤ s.totalDirectSize
  stop : isChecked = true → add64 physAddr size ≤ s.totalDirectSize
  full : isChecked = true → ¬ s.HasHole physAddr size

/-- What a release of `[physAddr, physAddr + size)` does: the direct mappings of the range are
unmapped, which leads to `s₁`, and the bytes `F` become free. -/
structure Frees (s : MemoryManager) (physAddr size : ℕ) (isChecked : Bool) (s₁ : MemoryManager)
    (F : ℕ → Prop) (s' : MemoryManager) : Prop where
  accepted : s.ReleaseAccepted physAddr size isChecked
  unmaps : Unmaps s (InRanges (removeList s.vmaMap physAddr size)) s₁
  released : ∀ p, F p → physAddr ≤ p ∧ (p < physAddr + size ∨ s.HasHole physAddr size) ∧
    ∃ t, s.typeAt p = some t ∧ t ≠ .free
  complete : ∀ p t, physAddr ≤ p ∧ p < physAddr + size → s.typeAt p = some t → t ≠ .free → F p
  dmem_in : ∀ p, F p → s'.dmemAt p = some (0, .free)
  dmem_out : ∀ p, ¬ F p → s'.dmemAt p = s₁.dmemAt p
  valid : PhysMap.Valid s'.dmemMap
  rest : s' = { s₁ with dmemMap := s'.dmemMap }

theorem Frees.sound {F : ℕ → Prop} (h : Frees s physAddr size isChecked s₁ F s') : s'.Sound := by
  rw [h.rest]
  exact ⟨h.unmaps.sound.vma, h.valid, h.unmaps.sound.fmem, h.unmaps.sound.usage_lt,
    h.unmaps.sound.budget_lt⟩

/-- The area found for an address of the direct memory ends behind it, so a release walks from
there. -/
theorem findDmemArea_walk (hs : s.Sound)
    (hd : Contiguous 0 s.dmemMap s.totalDirectSize) (hle : physAddr ≤ s.totalDirectSize)
    (hf : s.findDmemArea physAddr = .ok first) :
    ∃ l r, Around s.dmemMap l first r ∧ first.1 ≤ physAddr ∧
      Walk physAddr first.1 (first :: r) s.totalDirectSize := by
  obtain ⟨l, r, ha, hk, hlater⟩ := findEntry_around hs.dmem.sorted hf
  obtain ⟨mid, -, hr⟩ := (ha.eq ▸ hd : Contiguous 0 (l ++ first :: r) _).of_append
  obtain ⟨k, a⟩ := first
  obtain rfl : k = mid := hr.1
  refine ⟨l, r, ha, hk, hr,
    fun e he => hs.dmem.keyed e (by rw [ha.eq]; exact List.mem_append_right _ he), ?_⟩
  obtain ⟨-, -, -, hr'⟩ := hr
  rintro _ ⟨⟩
  cases r with
  | nil =>
    have hlast : k + a.size = s.totalDirectSize := hr'
    simp only
    omega
  | cons f r =>
    obtain ⟨hf, -⟩ := hr'
    have := hlater f (by simp)
    simp only at this ⊢
    omega

theorem typeAt_of_mem (hs : s.Sound) (he : e ∈ s.dmemMap)
    (hp : Within PhysicalMemoryArea.size e p) : s.typeAt p = some e.2.dmaType := by
  have hview := viewAt_eq PhysicalMemoryArea.attributes hs.dmem.tiling he (x := p) hp
  rw [typeAt, dmemAt, PhysMap.attributesAt, hview]
  rfl

/-- A byte from `physAddr` on lies in the area found for `physAddr` or behind it. -/
theorem mem_of_typeAt {d : PhysicalMemoryType}
    (hs : s.Sound) (ha : Around s.dmemMap l first r) (hk : first.1 ≤ physAddr) (hp : physAddr ≤ p)
    (hd : s.typeAt p = some d) :
    ∃ e ∈ first :: r, Within PhysicalMemoryArea.size e p ∧ e.2.dmaType = d := by
  obtain ⟨a, hattr, rfl⟩ := Option.map_eq_some_iff.mp hd
  obtain ⟨e, he, hw, rfl⟩ := viewAt_eq_some hattr
  refine ⟨e, ?_, hw, rfl⟩
  rw [ha.eq] at he
  refine (List.mem_append.mp he).resolve_left fun hl => ?_
  have := (ha.eq ▸ hs.dmem : PhysMap.Valid (l ++ first :: r)).tiling.mem_left_lt hl
    (by simp : first ∈ first :: r)
  unfold Within at hw
  omega

theorem frees_of_lists (hs : s.Sound) (hd : Contiguous 0 s.dmemMap s.totalDirectSize)
    (hpos : 0 < size) (hsize : size < 2 ^ 64)
    (hout : ¬(physAddr > s.totalDirectSize ∨ (isChecked ∧ add64 physAddr size > s.totalDirectSize)))
    (hf : s.findDmemArea physAddr = .ok first)
    (hlist : freeList isChecked physAddr (first :: above s.dmemMap first.1) size = some pieces)
    (hall : unmapAll (removeList s.vmaMap physAddr size) s = .ok s₁)
    (hfree : freeAll pieces s₁.dmemMap = .ok m) :
    Frees s physAddr size isChecked s₁ (InRanges pieces) { s₁ with dmemMap := m } := by
  have hle : physAddr ≤ s.totalDirectSize := not_lt.mp (not_or.mp hout).1
  obtain ⟨l, r, ha, hk, hwalk⟩ := findDmemArea_walk hs hd hle hf
  rw [ha.above] at hlist
  have hdirect : ∀ range ∈ removeList s.vmaMap physAddr size, _ := fun _ hrange =>
    removeList_direct hs hpos hrange
  have hunmaps := unmapAll_spec hs (fun range hrange => by
    obtain ⟨h₁, h₂, h₃⟩ := hdirect range hrange
    refine ⟨h₁, h₂, fun x hx => ?_⟩
    obtain ⟨p, hp⟩ := h₃ x hx
    rw [hp]
    rfl) hall
  have hfrees := freeAll_spec hunmaps.sound.dmem
    (fun piece hpiece => (freeList_sizes hlist piece hpiece).trans_lt hsize) hfree
  -- What a byte of the remaining areas is typed is what the map says about it.
  have htype : ∀ e ∈ first :: r, ∀ p, Within PhysicalMemoryArea.size e p →
      s.typeAt p = some e.2.dmaType :=
    fun e he p hw => typeAt_of_mem hs (by rw [ha.eq]; exact List.mem_append_right _ he) hw
  have hcomplete : ∀ p t, physAddr ≤ p ∧ p < physAddr + size → s.typeAt p = some t →
      InRanges pieces p ∨ isChecked = false ∧ t = .free := by
    intro p t hp ht
    obtain ⟨e, he, hw, rfl⟩ := mem_of_typeAt hs ha hk hp.1 ht
    exact freeList_complete hwalk (by omega) hlist hp he hw
  have hreleased : ∀ p, InRanges pieces p →
      physAddr ≤ p ∧ (p < physAddr + size ∨ s.HasHole physAddr size) ∧
        ∃ t, s.typeAt p = some t ∧ t ≠ .free := by
    intro p hp
    obtain ⟨h₁, h₂, e, he, hw, hne⟩ := freeList_sound (physAddr + size)
      (s.HasHole physAddr size) hwalk (fun e he hfree hlt hin =>
        ⟨max physAddr e.1, by omega, by
          rw [htype e he _ ⟨by omega, by
            have := (hwalk.contiguous.mem he).2.1
            omega⟩, hfree]⟩) (by omega) hlist hp
    exact ⟨h₁, h₂, _, htype e he p hw, hne⟩
  refine ⟨⟨hle, ?_, ?_⟩, hunmaps.congr ?_, hreleased, ?_,
    hfrees.attributes_in, hfrees.attributes_out, hfrees.valid, rfl⟩
  · intro hchecked
    exact not_lt.mp fun hlt => (not_or.mp hout).2 ⟨hchecked, hlt⟩
  · rintro hchecked ⟨p, hp, ht⟩
    rcases hcomplete p _ hp ht with hin | ⟨hunchecked, -⟩
    · obtain ⟨-, -, t, ht', hne⟩ := hreleased p hin
      rw [ht] at ht'
      cases ht'
      exact hne rfl
    · rw [hchecked] at hunchecked
      cases hunchecked
  · intro x
    refine ⟨fun hx => hx.1, fun hx => ⟨hx, ?_⟩⟩
    obtain ⟨range, hrange, hx⟩ := hx
    obtain ⟨p, hp⟩ := (hdirect range hrange).2.2 x hx
    exact ⟨_, hp, by simp, by simp⟩
  · intro p t hp ht hne
    exact (hcomplete p t hp ht).resolve_right fun h => hne h.2

theorem free_spec {status : Status} (hs : s.Sound)
    (hd : Contiguous 0 s.dmemMap s.totalDirectSize) (hpos : 0 < size) (hsize : size < 2 ^ 64)
    (h : s.free physAddr size isChecked = .ok (s', status)) :
    s' = s ∨ ∃ s₁ F, Frees s physAddr size isChecked s₁ F s' := by
  unfold free at h
  by_cases hout : physAddr > s.totalDirectSize ∨
    (isChecked ∧ add64 physAddr size > s.totalDirectSize)
  · rw [if_pos hout] at h
    cases h
    exact .inl rfl
  · rw [if_neg hout] at h
    obtain ⟨first, hf, h⟩ := bind_ok h
    cases hlist : freeList isChecked physAddr (first :: above s.dmemMap first.1) size with
    | none =>
      simp only [hlist] at h
      cases h
      exact .inl rfl
    | some pieces =>
      simp only [hlist] at h
      obtain ⟨s₁, hall, h⟩ := bind_ok h
      obtain ⟨m, hfree, h⟩ := bind_ok h
      cases h
      exact .inr ⟨s₁, _, frees_of_lists hs hd hpos hsize hout hf hlist hall hfree⟩

end MemoryManager

end PS4Droid.Memory
