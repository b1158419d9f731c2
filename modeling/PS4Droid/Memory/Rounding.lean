import PS4Droid.Memory.Labels
import PS4Droid.Memory.Search

/-!
# Which pages unmapping and naming reach

`UnmapMemory` and `NameVirtualRange` round the address down and the size up, each for itself. From
an address in the middle of a page the rounded range can end one page early.
-/

namespace PS4Droid.Memory

open OrderedMap IntervalMap Segments MemoryManager

/-- The name of an address that is not free. -/
def rename (name : String) (label : Label) : Label :=
  if label.type = .free then label else { label with name }

/-- The 16KB pages of the range. -/
def InPages (addr size x : ℕ) : Prop :=
  alignDown addr (kiB 16) ≤ x ∧ x < roundUp (addr + size) (kiB 16)

/-- The bytes of the range that the rounded range does not reach. -/
def Missed (addr size x : ℕ) : Prop :=
  (addr ≤ x ∧ x < addr + size) ∧ alignDown addr (kiB 16) + alignUp size (kiB 16) ≤ x

namespace MemoryManager

variable {s s' s₁ : MemoryManager} {addr size n : ℕ} {name : String}

/-! ### Naming -/

variable {v : VirtualMemoryArea} {fuel : ℕ}

theorem namePiece_relabels {m₁ : VMAMap} {h h₁ : ℕ} (hs : s.Sound) (hmem : (h, v) ∈ s.vmaMap)
    (hin : h ≤ addr ∧ addr + n ≤ h + v.size) (hpos : 0 < n)
    (hname : namePiece s.vmaMap name h v addr n = .ok (m₁, h₁)) :
    VMAMap.Relabels s.vmaMap addr n (rename name) m₁ ∧
      ∃ w, (h₁, w) ∈ m₁ ∧ h₁ ≤ addr ∧ addr + n ≤ h₁ + w.size := by
  have hbase : v.base = h := hs.vma.keyed _ hmem
  have hsound : v.Sound := hs.vma.wf _ hmem
  have hbound : v.base + v.size < 2 ^ 64 := hsound.bounded
  have htype : v.isFree = true ↔ (v.label 0).type = .free := by
    rw [VirtualMemoryArea.isFree, beq_iff_eq]
    rfl
  unfold namePiece at hname
  by_cases hfree : v.isFree = true
  · -- A free area keeps its label.
    rw [if_pos hfree] at hname
    cases hname
    refine ⟨⟨hs.vma, fun x => ?_⟩, v, hmem, hin⟩
    by_cases hx : addr ≤ x ∧ x < addr + n
    · rw [if_pos hx, VMAMap.labelAt_mem hs.vma hmem (by simp only; omega), Option.map_some, rename,
        if_pos (htype.mp hfree)]
    · rw [if_neg hx]
  · rw [if_neg hfree] at hname
    have hkeeps : VMAMap.KeepsCells ({ · with name }) :=
      ⟨⟨fun _ => rfl, fun _ => rfl⟩, fun _ => rfl, fun _ => rfl⟩
    have hlabel : ∀ a : VirtualMemoryArea, a.label 0 = v.label 0 →
        ({ a with name } : VirtualMemoryArea).label 0 = rename name (a.label 0) := by
      intro a ha
      rw [ha, rename, if_neg fun h => hfree (htype.mpr h)]
      exact congrArg (fun label : Label => { label with name }) ha
    split_ifs at hname with hpart
    · obtain ⟨rfl, hrel, w, hw, hmem'⟩ :=
        VMAMap.carveWith_relabels hs.vma (by omega) (by omega) hname
        hkeeps.toReattributes (fun _ => hkeeps.sound) fun k' v' a hmem' hp ha => hlabel a <| by
          cases VMAMap.part_unique hs.vma hmem hmem' hp (by omega)
          exact ha
      exact ⟨hrel, w, hmem', le_rfl, by omega⟩
    · -- The piece is the whole area.
      cases hname
      have hrel :=
        VMAMap.assign_relabels hs.vma (VMAMap.deref_get? hs.vma hmem) hkeeps.toReattributes
        (hkeeps.sound hsound)
        (hlabel v rfl)
      obtain ⟨rfl, rfl⟩ : addr = h ∧ n = v.size := by omega
      refine ⟨hrel, { v with name }, ?_, le_rfl, le_rfl⟩
      obtain ⟨l, r, ha⟩ := hs.vma.sorted.around hmem
      have hassign := ha.assign { v with name }
      simp only at hassign
      rw [hassign]
      simp

theorem nameVirtualRangeLoop_relabels {remaining : ℕ} {handle : Option ℕ} (hs : s.Sound)
    (hcov : ∀ x, addr ≤ x ∧ x < addr + remaining → (s.vmaMap.labelAt x).isSome)
    (hend : addr + remaining < 2 ^ 64)
    (hhandle : 0 < remaining → ∃ h v, handle = some h ∧ (h, v) ∈ s.vmaMap ∧ h ≤ addr ∧
      addr < h + v.size)
    (hname : nameVirtualRangeLoop name fuel s handle addr remaining = .ok s') :
    VMAMap.Relabels s.vmaMap addr remaining (rename name) s'.vmaMap := by
  induction fuel generalizing s handle addr remaining with
  | zero => cases handle <;> cases hname
  | succ fuel ih =>
    by_cases h0 : remaining = 0
    · subst h0
      have hsame : s' = s := by
        cases handle <;> cases hname
        · rfl
        · rfl
      rw [hsame]
      exact .nil hs.vma addr _
    · obtain ⟨h, v, rfl, hmem, hle, hlt⟩ := hhandle (by omega)
      have hbase : v.base = h := hs.vma.keyed _ hmem
      have hbound : v.base + v.size < 2 ^ 64 := (hs.vma.wf _ hmem).bounded
      unfold nameVirtualRangeLoop at hname
      rw [if_neg h0] at hname
      obtain ⟨w, hd, hname⟩ := bind_ok hname
      rw [VMAMap.deref_get? hs.vma hmem] at hd
      cases hd
      dsimp only at hname
      have hsub : sub64 v.size (sub64 addr v.base) = h + v.size - addr := by
        rw [hbase, sub64_eq (a := addr) (by omega) (by omega), sub64_eq (by omega) (by omega)]
        omega
      rw [hsub] at hname
      have hn : min remaining (h + v.size - addr) ≤ remaining ∧
        0 < min remaining (h + v.size - addr) ∧
          addr + min remaining (h + v.size - addr) ≤ h + v.size := by omega
      have hfull : min remaining (h + v.size - addr) < remaining →
          addr + min remaining (h + v.size - addr) = h + v.size := by omega
      generalize min remaining (h + v.size - addr) = n at hname hn hfull
      obtain ⟨hn, hpos, hin⟩ := hn
      obtain ⟨⟨m₁, h₁⟩, hpiece, hname⟩ := bind_ok hname
      obtain ⟨⟨m₂, h₂⟩, hmerge, hname⟩ := bind_ok hname
      obtain ⟨handle', hstep, hname⟩ := bind_ok hname
      obtain ⟨hrel₁, w, hmem₁, hle₁, hend₁⟩ := namePiece_relabels hs hmem ⟨hle, hin⟩ hpos hpiece
      have hrel₂ := hrel₁.merge hmerge
      obtain ⟨b, hmem₂, hle₂, hend₂⟩ := VMAMap.merge_extent hrel₁.sound hmem₁ hmerge
      rw [add64_eq (by omega)] at hstep hname
      have hs₂ : Sound { s with vmaMap := m₂ } :=
        ⟨hrel₂.sound, hs.dmem, hs.fmem, hs.usage_lt, hs.budget_lt⟩
      have hcov₂ : ∀ x, addr + n ≤ x ∧ x < addr + n + (remaining - n) → (m₂.labelAt x).isSome := by
        intro x hx
        rw [hrel₂.covers]
        exact hcov x (by omega)
      have hrest := ih hs₂ hcov₂ (by omega) (fun hmore => by
        obtain ⟨k, w, hk, hkmem, hkle, hklt⟩ :=
          stepHandle_spec hrel₂.sound hmem₂ (by omega) (by omega)
          (hcov₂ _ (by omega)) hstep
        exact ⟨k, w, hk, hkmem, hkle, hklt⟩) hname
      have := hrel₂.append hrest
      rwa [show n + (remaining - n) = remaining by omega] at this

/-! ### Labels outside of an unmapped range -/

/-- Unmapping changes labels in its range only. -/
def LabelsOutside (s : MemoryManager) (addr size : ℕ) (s' : MemoryManager) : Prop :=
  ∀ x, ¬(addr ≤ x ∧ x < addr + size) → s'.vmaMap.labelAt x = s.vmaMap.labelAt x

theorem unmapBytesFromEntry_labels (hs : s.Sound) (haddr : addr < 2 ^ 64)
    (hsize : size < 2 ^ 64) (h : s.unmapBytesFromEntry addr v size = .ok (s', n)) :
    s.LabelsOutside addr n s' ∧ n ≤ size := by
  unfold unmapBytesFromEntry at h
  by_cases hskip : v.type = .free ∨ v.type = .pooled
  · rw [if_pos hskip] at h
    cases h
    exact ⟨fun _ _ => rfl, min_le_right _ _⟩
  · rw [if_neg hskip] at h
    obtain ⟨s₁, hback, h⟩ := bind_ok h
    obtain ⟨m, hr, h⟩ := bind_ok h
    cases h
    have hsame : s₁.vmaMap = s.vmaMap := releaseBacking_vmaMap hback
    rw [hsame] at hr
    refine ⟨fun x hx => ?_, min_le_right _ _⟩
    have hrel :=
      VMAMap.retype_relabels (g := fun _ => ⟨.free, MemoryProt.noAccess, ""⟩) hs.vma haddr
      (by omega) hr
      ⟨fun _ => rfl, fun _ => rfl⟩ (fun _ => freed_sound) fun _ _ _ _ _ _ => rfl
    rw [hrel.labels, if_neg hx]

theorem unmapMemoryLoop_labels (hs : s.Sound) (hn : n < size)
    (hcov : s.Covered (addr + n) (size - n)) (hsize : addr + size < 2 ^ 64)
    (h : unmapMemoryLoop fuel s addr size n = .ok s') : s.LabelsOutside addr size s' := by
  induction fuel generalizing s n with
  | zero => cases h
  | succ fuel ih =>
    unfold unmapMemoryLoop at h
    obtain ⟨⟨k, vma⟩, hf, h⟩ := bind_ok h
    obtain ⟨⟨s₁, n₁⟩, hu, h⟩ := bind_ok h
    obtain ⟨_, -, h⟩ := bind_ok h
    rw [add64_eq (by omega)] at hf hu
    rw [sub64_eq (by omega) (by omega)] at hu
    obtain ⟨hpos, hle, hrange⟩ := unmapBytesFromEntry_range hs (by omega) hcov (by omega) hf hu
    obtain ⟨hlabels, -⟩ := unmapBytesFromEntry_labels hs (by omega) (by omega) hu
    simp only [add64_eq (show n + n₁ < 2 ^ 64 by omega)] at h
    have hstep : s.LabelsOutside addr size s₁ := fun x hx => hlabels x (by omega)
    split_ifs at h with hmore
    · have hcov' : s₁.Covered (addr + (n + n₁)) (size - (n + n₁)) :=
        hrange.covered fun x hx => hcov x (by omega)
      intro x hx
      rw [ih hrange.sound hmore hcov' h x hx, hstep x hx]
    · cases h
      exact hstep

/-! ### The rounded range -/

/-- The rounded range starts with the first page and ends within the pages. -/
structure RoundsInPages (addr size : ℕ) : Prop where
  start : alignDown addr (kiB 16) ≤ addr
  pos : 0 < alignUp size (kiB 16)
  stop : alignDown addr (kiB 16) + alignUp size (kiB 16) ≤ roundUp (addr + size) (kiB 16)
  reach : addr + size ≤ roundUp (addr + size) (kiB 16)
  low : roundUp (addr + size) (kiB 16) ≤ 2 ^ 63

theorem roundsInPages {c : Config} (hr : Regular c s) (hpos : 0 < size)
    (hcov : ∀ x, InPages addr size x → (s.cellAt x).isSome) : RoundsInPages addr size := by
  have hreach : addr + size ≤ roundUp (addr + size) (kiB 16) := le_roundUp _ (by decide)
  have hstart : alignDown addr (kiB 16) ≤ addr := Nat.sub_le _ _
  have hlow := hr.low _ (hcov (roundUp (addr + size) (kiB 16) - 1) (by unfold InPages; omega))
  refine ⟨hstart, ?_, ?_, hreach, by omega⟩
  all_goals
    unfold alignUp kiB
    unfold roundUp kiB at hreach hlow
    split_ifs with hmod
    · first | omega | (unfold alignDown roundUp; omega)
    · rw [add64_eq (by omega)]
      first | omega | (unfold alignDown roundUp; omega)

/-- `UnmapMemory` covers the range: each byte of it is free afterwards, and outside of the pages
nothing changes. -/
structure UnmapsRequested (s : MemoryManager) (addr size : ℕ) (s' : MemoryManager) : Prop where
  freed : ∀ x, addr ≤ x ∧ x < addr + size → s'.cellAt x = some ⟨.free, none⟩
  kept : ∀ x, ¬InPages addr size x →
    s'.cellAt x = s.cellAt x ∧ s'.vmaMap.labelAt x = s.vmaMap.labelAt x ∧ s'.host x = s.host x

/-- `NameVirtualRange` covers the range: each byte of it has the name or is free, and outside of the
pages nothing changes. -/
structure NamesRequested (s : MemoryManager) (addr size : ℕ) (name : String) (s' : MemoryManager) :
    Prop where
  named : ∀ x label, addr ≤ x ∧ x < addr + size → s'.vmaMap.labelAt x = some label →
    label.type ≠ .free → label.name = name
  kept : ∀ x, ¬InPages addr size x →
    s'.cellAt x = s.cellAt x ∧ s'.vmaMap.labelAt x = s.vmaMap.labelAt x ∧ s'.host x = s.host x

/-- The bytes that the unmapped range misses are free already. -/
def UnmapReaches (s : MemoryManager) (addr size : ℕ) : Prop :=
  ∀ x, Missed addr size x → s.cellAt x = some ⟨.free, none⟩

/-- The bytes that the named range misses are free or have the name already. -/
def NameReaches (s : MemoryManager) (addr size : ℕ) (name : String) : Prop :=
  ∀ x label, Missed addr size x → s.vmaMap.labelAt x = some label → label.type ≠ .free →
    label.name = name

theorem free_cell {x : ℕ} {b : Option ℕ} (h : s.cellAt x = some ⟨.free, b⟩) :
    s.cellAt x = some ⟨.free, none⟩ := by
  obtain ⟨e, -, -, hcell⟩ := VMAMap.cellAt_some h
  have htype := congrArg Cell.type hcell
  have hbacking := congrArg Cell.backing hcell
  simp only [VirtualMemoryArea.cell] at htype hbacking
  rw [h, ← hbacking, VirtualMemoryArea.hasPhysicalBacking, htype]
  rfl

/-- Pages that an unmap may have to release. -/
structure Pages (s : MemoryManager) (addr size : ℕ) : Prop where
  covered : ∀ x, InPages addr size x → (s.cellAt x).isSome
  unpooled : ∀ x b, InPages addr size x → s.cellAt x ≠ some ⟨.pooled, b⟩

theorem unmapMemory_requested {c : Config} {status : Status} (hr : Regular c s) (hpos : 0 < size)
    (hpages : s.Pages addr size) (h : s.unmapMemory addr size = .ok (s', status)) :
    s.UnmapsRequested addr size s' ↔ s.UnmapReaches addr size := by
  obtain ⟨hstart, hrounded, hstop, hreach, hlow⟩ := roundsInPages hr hpos hpages.covered
  unfold unmapMemory at h
  rw [if_neg (by omega)] at h
  obtain ⟨_, -, h⟩ := bind_ok h
  obtain ⟨s₁, hloop, h⟩ := bind_ok h
  cases h
  have hcov : s.Covered (alignDown addr (kiB 16)) (alignUp size (kiB 16)) := fun x hx =>
    hpages.covered x ⟨hx.1, by omega⟩
  have hend : alignDown addr (kiB 16) + alignUp size (kiB 16) < 2 ^ 64 := by omega
  have hrange : UnmapsRange s (alignDown addr (kiB 16)) (alignUp size (kiB 16)) s' := by
    simpa using unmapMemoryLoop_range (n := 0) hr.sound hrounded (by simpa using hcov) hend hloop
  have hlabels := unmapMemoryLoop_labels (n := 0) hr.sound hrounded (by simpa using hcov) hend hloop
  constructor
  · intro hreq x hx
    rw [← hrange.cell_out x fun h => by have := hx.2; omega]
    exact hreq.freed x hx.1
  · intro hreaches
    refine ⟨fun x hx => ?_, fun x hx => ?_⟩
    · by_cases hin : x < alignDown addr (kiB 16) + alignUp size (kiB 16)
      · have hpage : InPages addr size x := ⟨by omega, by omega⟩
        obtain ⟨cell, hcell⟩ := Option.isSome_iff_exists.mp (hpages.covered x hpage)
        by_cases hrel : s.Releasable x
        · exact hrange.cell_in x ⟨⟨by omega, hin⟩, hrel⟩
        · rw [hrange.cell_out x fun h => hrel h.2]
          obtain ⟨type, byte⟩ := cell
          have hfree : type = .free := by
            by_contra hfree
            refine hrel ⟨_, hcell, hfree, ?_⟩
            rintro rfl
            exact hpages.unpooled x _ hpage hcell
          subst hfree
          exact free_cell hcell
      · rw [hrange.cell_out x fun h => by omega]
        exact hreaches x ⟨hx, by omega⟩
    · have hout : ¬(alignDown addr (kiB 16) ≤ x ∧
        x < alignDown addr (kiB 16) + alignUp size (kiB 16)) := fun h =>
        hx ⟨h.1, by omega⟩
      exact ⟨hrange.cell_out x fun h => hout h.1, hlabels x hout,
        hrange.host_out x fun h => hout h.1⟩

theorem nameVirtualRange_requested {c : Config} (hr : Regular c s) (hpos : 0 < size)
    (hpages : s.Pages addr size) (h : s.nameVirtualRange addr size name = .ok s') :
    s.NamesRequested addr size name s' ↔ s.NameReaches addr size name := by
  obtain ⟨hstart, hrounded, hstop, hreach, hlow⟩ := roundsInPages hr hpos hpages.covered
  have hsame := nameVirtualRange_same hr.sound (by omega) (by omega) h
  unfold nameVirtualRange at h
  obtain ⟨_, -, h⟩ := bind_ok h
  obtain ⟨⟨k, v⟩, hf, h⟩ := bind_ok h
  have hcov : ∀ x, alignDown addr (kiB 16) ≤ x ∧
    x < alignDown addr (kiB 16) + alignUp size (kiB 16) →
      (s.vmaMap.labelAt x).isSome := fun x hx => by
    rw [VMAMap.labelAt_isSome]
    exact hpages.covered x ⟨hx.1, by omega⟩
  have hrel := nameVirtualRangeLoop_relabels hr.sound hcov (by omega) (fun _ => by
    obtain ⟨hmem, -, hle, hlt, -⟩ :=
      findVMA_covered hr.sound (hpages.covered _ ⟨le_rfl, by omega⟩) hf
    exact ⟨k, v, rfl, hmem, hle, hlt⟩) h
  constructor
  · intro hreq x label hx hlabel hne
    refine hreq.named x label hx.1 ?_ hne
    rw [hrel.labels, if_neg (by have := hx.2; omega)]
    exact hlabel
  · intro hreaches
    refine ⟨fun x label hx hlabel hne => ?_, fun x hx => ?_⟩
    · rw [hrel.labels] at hlabel
      split_ifs at hlabel with hin
      · obtain ⟨old, -, rfl⟩ := Option.map_eq_some_iff.mp hlabel
        unfold rename at hne ⊢
        split_ifs at hne ⊢ with hfree
        · exact absurd hfree hne
        · rfl
      · exact hreaches x label ⟨hx, by omega⟩ hlabel hne
    · refine ⟨hsame.cell x, ?_, by rw [hsame.host]⟩
      rw [hrel.labels, if_neg fun h => hx ⟨h.1, by omega⟩]

theorem pages_of_area (hs : s.Sound) {e : ℕ × VirtualMemoryArea} (he : e ∈ s.vmaMap)
    (hin : e.1 ≤ alignDown addr (kiB 16) ∧ roundUp (addr + size) (kiB 16) ≤ e.1 + e.2.size)
    (htype : e.2.type ≠ .pooled) : s.Pages addr size := by
  have hcell : ∀ x, InPages addr size x → s.cellAt x = some (e.2.cell (x - e.1)) := fun x hx =>
    VMAMap.cellAt_mem hs.vma he ⟨hin.1.trans hx.1, hx.2.trans_le hin.2⟩
  refine ⟨fun x hx => ?_, fun x b hx hpooled => ?_⟩
  · rw [hcell x hx]
    rfl
  · rw [hcell x hx] at hpooled
    exact htype (congrArg Cell.type (Option.some.inj hpooled))

end MemoryManager

section Guest

variable {c : Config} {P : Kernel → GuestCall → Prop} {k : Kernel}

/-- Unmapping and naming cover the requested bytes exactly when the bytes that the rounded range
misses need no change. -/
theorem unmap_name_cover_iff (hc : c.Usable) (h : Reachable c P k) (addr size : UInt64)
    (name : String) (hpos : 0 < size.toNat) (hpages : k.memory.Pages addr.toNat size.toNat) :
    (∀ s' status, k.memory.unmapMemory addr.toNat size.toNat = .ok (s', status) →
      (k.memory.UnmapsRequested addr.toNat size.toNat s' ↔
        k.memory.UnmapReaches addr.toNat size.toNat)) ∧
    ∀ s', k.memory.nameVirtualRange addr.toNat size.toNat name = .ok s' →
      (k.memory.NamesRequested addr.toNat size.toNat name s' ↔
        k.memory.NameReaches addr.toNat size.toNat name) := by
  have hr := (h.direct_pos hc).1
  exact ⟨fun _ _ hunmap => MemoryManager.unmapMemory_requested hr hpos hpages hunmap,
    fun _ hname => MemoryManager.nameVirtualRange_requested hr hpos hpages hname⟩

/-- A heap of two pages, from which an unmap in the middle of the first page returns. -/
theorem exists_heap : ∃ k, Reachable Config.oneRegion (fun _ _ => True) k ∧
    (∃ e ∈ k.memory.vmaMap, e.1 = 0x200000000 ∧ e.2.size = 0x8000 ∧ e.2.type = .flexible) ∧
    ∃ s' status, k.memory.unmapMemory 0x200002000 0x4000 = .ok (s', status) := by
  obtain ⟨k, hcalls, hheap, hok⟩ := Kernel.exists_callAll
    [.mapNamedFlexibleMemory 0x200000000 0x8000 3 0x10 (some "heap")] startedKernel
    (fun k => (∃ e ∈ k.memory.vmaMap, e.1 = 0x200000000 ∧ e.2.size = 0x8000 ∧
      e.2.type = .flexible) ∧
      ((k.memory.unmapMemory 0x200002000 0x4000).toOption.any fun _ => True) = true) (by decide)
  obtain ⟨⟨s', status⟩, hunmap, -⟩ := ok_of_any hok
  exact ⟨k, startedKernel_reachable.callAll (fun _ _ _ => trivial) hcalls, hheap, s', status,
    hunmap⟩

theorem heap_pages {addr size : ℕ} (hs : k.memory.Sound)
    (hin : 0x200000000 ≤ alignDown addr (kiB 16) ∧ roundUp (addr + size) (kiB 16) ≤ 0x200008000)
    (h : ∃ e ∈ k.memory.vmaMap, e.1 = 0x200000000 ∧ e.2.size = 0x8000 ∧ e.2.type = .flexible) :
    k.memory.Pages addr size := by
  obtain ⟨e, he, hstart, hsize, htype⟩ := h
  refine pages_of_area hs he ?_ (by simp [htype])
  rw [hstart, hsize]
  exact hin

theorem unmap_name_cover_iff_heap :
    ∃ k : Kernel, (∀ s' status, k.memory.unmapMemory 0x200004000 0x4000 = .ok (s', status) →
        k.memory.UnmapsRequested 0x200004000 0x4000 s') ∧
      ∀ s', k.memory.nameVirtualRange 0x200004000 0x4000 "stack" = .ok s' →
        k.memory.NamesRequested 0x200004000 0x4000 "stack" s' := by
  obtain ⟨k, hk, hheap, -⟩ := exists_heap
  obtain ⟨hunmaps, hnames⟩ :=
    unmap_name_cover_iff Config.oneRegion_usable hk 0x200004000 0x4000 "stack" (by decide)
      (heap_pages (hk.direct_pos Config.oneRegion_usable).1.sound (by decide) hheap)
  -- The second page of the heap begins and ends on pages, so nothing of it is missed.
  have hnone : ∀ x, ¬Missed 0x200004000 0x4000 x := fun x hmissed =>
    absurd hmissed.1.2 (not_lt.mpr hmissed.2)
  exact ⟨k, fun s' status hunmap => (hunmaps s' status hunmap).mpr fun x hx => absurd hx (hnone x),
    fun s' hname => (hnames s' hname).mpr fun x _ hx => absurd hx (hnone x)⟩

/-- Of a range over two pages only the first page is unmapped. -/
theorem unmap_name_cover_fails :
    ∃ k s' status, Reachable Config.oneRegion (fun _ _ => True) k ∧
      k.memory.Pages 0x200002000 0x4000 ∧
      k.memory.unmapMemory 0x200002000 0x4000 = .ok (s', status) ∧
      ¬k.memory.UnmapsRequested 0x200002000 0x4000 s' := by
  obtain ⟨k, hk, hheap, s', status, hunmap⟩ := exists_heap
  have hr := (hk.direct_pos Config.oneRegion_usable).1
  have hpages : k.memory.Pages 0x200002000 0x4000 := heap_pages hr.sound (by decide) hheap
  refine ⟨k, s', status, hk, hpages, hunmap, fun h => ?_⟩
  have hfree :=
    (unmapMemory_requested hr (by decide) hpages hunmap).mp h 0x200004000 (by unfold Missed; decide)
  obtain ⟨e, he, hstart, hsize, htype⟩ := hheap
  have hcell := VMAMap.cellAt_mem hr.sound.vma he (x := 0x200004000) (by omega)
  rw [cellAt, hcell] at hfree
  have := congrArg Cell.type (Option.some.inj hfree)
  simp only [VirtualMemoryArea.cell, htype] at this
  cases this

end Guest

end PS4Droid.Memory
