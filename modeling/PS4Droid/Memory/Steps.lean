import PS4Droid.Memory.Atomicity
import PS4Droid.Memory.DirectMemory
import PS4Droid.Memory.Kernel
import PS4Droid.Memory.ValidRanges

/-!
# What one operation does

Every operation of the memory manager is described once by its effect on the
cells, the host, the physical bytes and the counters. Invariants of reachable
states are derived from these effects. The guest's calls reach the manager only
with arguments that the kernel library admits.
-/

namespace PS4Droid.Memory

open OrderedMap IntervalMap Segments

namespace MemoryManager

variable {s s' s₁ : MemoryManager} {addr size : ℕ}

/-! ### Valid ranges -/

variable {m l : VMAMap} {k : ℕ} {vma : VirtualMemoryArea}

theorem sound_ends (h : VMAMap.SoundMap m) : ∀ e ∈ m, e.1 + e.2.size < 2 ^ 64 := by
  intro e he
  have hbase : e.2.base = e.1 := h.keyed e he
  exact hbase ▸ (h.wf e he).bounded

theorem regions_of_sound (h : VMAMap.SoundMap m) : m.Regions where
  tiling := h.tiling
  keyed := h.keyed
  sized e he := (Nat.le_add_left _ _).trans_lt (sound_ends h e he)
  bounded e he := (sound_ends h e he).le

/-- A range that passes the check of `IsValidMapping` from inside its first area is covered. -/
theorem rangeContained_covered (hv : VMAMap.SoundMap l)
    (hin : ∃ e ∈ l.head?, e.1 ≤ addr ∧ addr < e.1 + e.2.size)
    (h : rangeContained l addr size = true) :
    addr + size < 2 ^ 64 ∧ ∀ x, addr ≤ x ∧ x < addr + size → (l.cellAt x).isSome := by
  obtain ⟨e, he, hin⟩ := hin
  obtain ⟨r, rfl⟩ := List.head?_eq_some_iff.mp he
  have hends := sound_ends hv
  by_cases h0 : size = 0
  · have := hends e (by simp)
    exact ⟨by omega, by omega⟩
  have hcov := (rangeContained_iff (regions_of_sound hv) hends hin (by omega)).mp h
  refine ⟨?_, fun x hx => (covers_iff_viewAt _).mp (hcov x hx)⟩
  obtain ⟨e', he', -, hlt⟩ := hcov (addr + size - 1) (by omega)
  have hend := hends e' he'
  omega

theorem isValidMapping_covered (hs : s.Sound) (h : s.isValidMapping addr size = .ok true)
    (hc : (s.cellAt addr).isSome) : addr + size < 2 ^ 64 ∧ s.Covered addr size := by
  unfold isValidMapping at h
  obtain ⟨last, -, h⟩ := bind_ok h
  obtain ⟨first, -, h⟩ := bind_ok h
  split_ifs at h with hout h0
  · cases h
  · have := add64_lt last.1 last.2.size
    refine ⟨by omega, fun x hx => ?_⟩
    omega
  · obtain ⟨⟨k, v⟩, hf, h⟩ := bind_ok h
    have hcontained := pure_ok h
    obtain ⟨hmem, hbase, hle, hlt, hend⟩ := findVMA_covered hs hc hf
    obtain ⟨l, r, ha, -, -⟩ := findEntry_around hs.vma.sorted hf
    have habove := ha.above
    simp only at habove
    rw [habove] at hcontained
    have hv : VMAMap.SoundMap (l ++ (k, v) :: r) := ha.eq ▸ hs.vma
    obtain ⟨hsum, hcov⟩ := rangeContained_covered hv.right ⟨(k, v), rfl, hle, hlt⟩
      hcontained
    refine ⟨hsum, fun x hx => ?_⟩
    obtain ⟨c, hc'⟩ := Option.isSome_iff_exists.mp (hcov x hx)
    obtain ⟨e, he, hx', rfl⟩ := VMAMap.cellAt_some hc'
    rw [cellAt,
      VMAMap.cellAt_mem hs.vma (e := e) (by rw [ha.eq]; exact List.mem_append_right _ he) hx']
    rfl

/-- The search for a valid address finds an area at or below it. -/
theorem exists_findVMA (hs : s.Sound) (h : s.isValidMapping addr size = .ok true) :
    ∃ e, s.findVMA addr = .ok e := by
  unfold isValidMapping at h
  obtain ⟨last, -, h⟩ := bind_ok h
  obtain ⟨first, hfirst, h⟩ := bind_ok h
  have hmem : first ∈ s.vmaMap := List.mem_of_mem_head? (deref_ok hfirst)
  rw [findVMA, findEntry]
  cases hfloor : floor s.vmaMap addr with
  | some e => exact ⟨e, rfl⟩
  | none =>
    have := floor_eq_none hs.vma.sorted hfloor first hmem
    rw [if_pos (.inl (by omega))] at h
    cases h

theorem requireValidMapping_of_valid (h : s.isValidMapping addr size = .ok true) :
    s.requireValidMapping addr size = .ok () := by
  rw [requireValidMapping, h, ok_bind, require_pos rfl]

theorem requireValidMapping_ok {u : Unit} (h : s.requireValidMapping addr size = .ok u) :
    s.isValidMapping addr size = .ok true := by
  unfold requireValidMapping at h
  obtain ⟨valid, hvalid, h⟩ := bind_ok h
  rw [hvalid, require_ok h]

/-! ### Unmapping -/

/-- An address that belongs to no area lies behind the area found for it. -/
theorem findVMA_uncovered (hs : s.Sound)
    (hc : s.cellAt addr = none) (hf : s.findVMA addr = .ok (k, vma)) :
    vma.base = k ∧ k + vma.size ≤ addr ∧ k + vma.size < 2 ^ 64 := by
  obtain ⟨l, r, ha, hk, -⟩ := findEntry_around hs.vma.sorted hf
  have hbase : vma.base = k := hs.vma.keyed _ ha.mem
  have hbound : vma.base + vma.size < 2 ^ 64 := (hs.vma.wf _ ha.mem).bounded
  refine ⟨hbase, not_lt.mp fun hlt => ?_, by omega⟩
  rw [cellAt, VMAMap.cellAt_mem hs.vma ha.mem (x := addr) ⟨hk, hlt⟩] at hc
  cases hc

/-- Unmapping from an area that does not contain the address skips it. -/
theorem unmapBytesFromEntry_uncovered (hs : s.Sound) {n : ℕ}
    (haddr : addr < 2 ^ 64) (hsize : size < 2 ^ 64) (hc : s.cellAt addr = none)
    (hf : s.findVMA addr = .ok (k, vma)) (h : s.unmapBytesFromEntry addr vma size = .ok (s', n)) :
    s' = s ∧ n = min (sub64 vma.size (addr - k)) size := by
  obtain ⟨hbase, hend, -⟩ := findVMA_uncovered hs hc hf
  obtain ⟨hn, hcase⟩ := unmapBytesFromEntry_spec hs haddr hsize hf h
  rw [hbase, sub64_eq haddr (by omega)] at hn
  rcases hcase with ⟨-, rfl⟩ | ⟨-, -, hp, -⟩
  · exact ⟨rfl, hn⟩
  · have hstop := hp.stop
    have hpos := hp.pos
    omega

/-- The loop over a range that starts outside of every area changes nothing. -/
theorem unmapMemoryLoop_uncovered {fuel : ℕ} (hs : s.Sound) (haddr : addr < 2 ^ 64)
    (hsize : size < 2 ^ 64) (hc : s.cellAt addr = none)
    (h : unmapMemoryLoop fuel s addr size 0 = .ok s') : s' = s := by
  cases fuel with
  | zero => cases h
  | succ fuel =>
    unfold unmapMemoryLoop at h
    have hadd : add64 addr 0 = addr := add64_eq haddr
    have hsub : sub64 size 0 = size := sub64_eq hsize (by omega)
    simp only [hadd, hsub] at h
    obtain ⟨⟨k, vma⟩, hf, h₁⟩ := bind_ok h
    obtain ⟨⟨s₁, n⟩, hu, h₂⟩ := bind_ok h₁
    obtain ⟨_, hreq, h₃⟩ := bind_ok h₂
    have hpos : 0 < n := require_ok hreq
    obtain ⟨rfl, hn⟩ := unmapBytesFromEntry_uncovered hs haddr hsize hc hf hu
    obtain ⟨hbase, hend, hlt⟩ := findVMA_uncovered hs hc hf
    have hn' : add64 0 n = n := by
      rw [add64_eq (by omega), Nat.zero_add]
    dsimp only at h₃
    rw [hn'] at h₃
    split_ifs at h₃ with hmore
    · -- The next address is the end of the area, where no progress is possible.
      exfalso
      have hnext : add64 addr n = k + vma.size := by
        unfold add64
        unfold sub64 at hn
        omega
      cases fuel with
      | zero => cases h₃
      | succ fuel =>
        unfold unmapMemoryLoop at h₃
        simp only [hnext] at h₃
        obtain ⟨entry, hf', h₄⟩ := bind_ok h₃
        obtain ⟨⟨s₂, n'⟩, hu', h₅⟩ := bind_ok h₄
        obtain ⟨_, hreq', -⟩ := bind_ok h₅
        have hpos' : 0 < n' := require_ok hreq'
        obtain ⟨l, r, ha, -, hlater⟩ := findEntry_around hs.vma.sorted hf
        have hfloor := floor_eq_of_around ha (show k ≤ k + vma.size by omega) fun f hf => by
          have := hlater f hf
          omega
        have hentry : s₁.findVMA (k + vma.size) = .ok (k, vma) := by
          rw [findVMA, findEntry, hfloor]
          rfl
        rw [hentry] at hf'
        cases hf'
        have hn'' := (unmapBytesFromEntry_spec hs hlt (sub64_lt _ _) hentry hu').1
        have hzero : sub64 vma.size (sub64 (k + vma.size) vma.base) = 0 := by
          unfold sub64
          omega
        rw [hzero] at hn''
        omega
    · cases h₃
      rfl

/-- `UnmapMemory` unmaps the pages of a covered range, or nothing. -/
theorem unmapMemory_spec {status : Status} (hs : s.Sound) (haddr : addr < 2 ^ 64)
    (hsize : size < 2 ^ 64) (h : s.unmapMemory addr size = .ok (s', status)) :
    s' = s ∨ UnmapsRange s (alignDown addr (kiB 16)) (alignUp size (kiB 16)) s' := by
  unfold unmapMemory at h
  by_cases h0 : size = 0
  · rw [if_pos h0] at h
    cases h
    exact .inl rfl
  rw [if_neg h0] at h
  obtain ⟨_, hvalid, h⟩ := bind_ok h
  obtain ⟨s₁, hloop, h⟩ := bind_ok h
  cases h
  have haddr' : alignDown addr (kiB 16) < 2 ^ 64 := (alignDown_le _ _).trans_lt haddr
  have hsize' : alignUp size (kiB 16) < 2 ^ 64 := alignUp_lt _ hsize
  generalize alignDown addr (kiB 16) = a at *
  generalize alignUp size (kiB 16) = n at *
  cases hc : s.cellAt a with
  | none => exact .inl (unmapMemoryLoop_uncovered hs haddr' hsize' hc hloop)
  | some c =>
    right
    obtain ⟨hend, hcov⟩ := isValidMapping_covered hs (requireValidMapping_ok hvalid) (by simp [hc])
    have hpos : 0 < n := by
      -- Without bytes to unmap the loop makes no progress.
      by_contra hn
      obtain rfl : n = 0 := by omega
      unfold unmapMemoryImpl loopBound at hloop
      rw [show (2 : ℕ) ^ 64 = (2 ^ 64 - 1) + 1 by norm_num, unmapMemoryLoop] at hloop
      obtain ⟨⟨k, vma⟩, hf, h₁⟩ := bind_ok hloop
      obtain ⟨⟨s₂, n⟩, hu, h₂⟩ := bind_ok h₁
      obtain ⟨_, hreq, -⟩ := bind_ok h₂
      have hpos : 0 < n := require_ok hreq
      have hn := (unmapBytesFromEntry_spec hs (add64_lt _ _) (sub64_lt _ _) hf hu).1
      have hzero : sub64 0 0 = 0 := rfl
      rw [hzero] at hn
      omega
    exact unmapMemoryLoop_range (n := 0) hs hpos hcov hend hloop

/-! ### The effect of an operation -/

/-- Where a mapping was made: its range was cleared, which led to `s₁`, and is free there. -/
structure MapsAt (s : MemoryManager) (addr size : ℕ) (flags : UInt32) (s₁ s' : MemoryManager) : Prop
    extends SameTotals s s' where
  cleared : Cleared s addr size flags s₁
  bound : 0 < size ∧ addr + size < 2 ^ 64
  free : ∀ x, addr ≤ x ∧ x < addr + size → s₁.cellAt x = some ⟨.free, none⟩
  mid : s₁.Sound
  sound : s'.Sound
  budget : s'.poolBudget = s.poolBudget

theorem Placed.mapsAt {flags : UInt32} {r : VMAMap} {v : VirtualMemoryArea}
    (h : Placed s addr size flags s₁ l k v r) (ht : SameTotals s s') (hs : s'.Sound)
    (hb : s'.poolBudget = s.poolBudget) : MapsAt s addr size flags s₁ s' :=
  { ht with cleared := h.cleared, bound := h.bound, free := fun _ hx => h.cell hx, mid := h.sound
            sound := hs, budget := hb }

/-- The code's checks of a mapping, which place it at `addr`. -/
structure MapAccepted (s : MemoryManager) (q : MapRequest) (addr : ℕ) : Prop where
  usage : ¬ (q.type = .flexible ∧ add64 s.flexibleUsage q.size > s.totalFlexibleSize)
  range : s.checkPhysicalRange q.validateDmem q.physAddr q.size = .ok none
  place : s.placeMapping q.virtualAddr q.size q.flags
    (if q.alignment > 0 then q.alignment else kiB 16) = .ok (some addr)

/-- The code's check of a decommit: every area that ends inside the range is of a pool. -/
def DecommitAccepted (s : MemoryManager) (addr size : ℕ) : Prop :=
  ∃ first, s.findVMA addr = .ok first ∧
    decommitAllowed (add64 addr size) (first :: above s.vmaMap first.1) = true

end MemoryManager

open MemoryManager

/-- What an operation does when it returns; error returns leave the state unchanged. -/
inductive Effect (s : MemoryManager) : Operation → MemoryManager → Prop
  | unchanged {op : Operation} : Effect s op s
  | map {virtualAddr size physAddr alignment : UInt64} {prot flags : UInt32} {type : VMAType}
      {name : String} {validateDmem : Bool} {addr : ℕ} {s₁ s' : MemoryManager}
      (hm : MapsAt s addr size.toNat flags s₁ s')
      (haccept : s.MapAccepted
        { virtualAddr := virtualAddr.toNat, size := size.toNat, prot, flags, type, name,
          validateDmem, physAddr := physAddr.toNat, alignment := alignment.toNat } addr)
      (h : Mapped { virtualAddr := virtualAddr.toNat, size := size.toNat, prot, flags, type, name,
                    validateDmem, physAddr := physAddr.toNat, alignment := alignment.toNat }
        s₁ addr s') :
      Effect s (.mapMemory virtualAddr size prot flags type name validateDmem physAddr alignment) s'
  | file {virtualAddr size physAddr : UInt64} {prot flags : UInt32} {fd : ℤ}
      {file : Option OpenFile}
      {addr : ℕ} {s₁ s' : MemoryManager} (hm : MapsAt s addr size.toNat flags s₁ s')
      (hplace : s.placeMapping virtualAddr.toNat size.toNat flags (kiB 16) = .ok (some addr))
      (h : MapsPlain .file s₁ addr size.toNat s') :
      Effect s (.mapFile virtualAddr size prot flags fd file physAddr) s'
  | unmap {virtualAddr size : UInt64} {s' : MemoryManager}
      (h : UnmapsRange s (alignDown virtualAddr.toNat (kiB 16)) (alignUp size.toNat (kiB 16)) s') :
      Effect s (.unmapMemory virtualAddr size) s'
  | free {physAddr size : UInt64} {isChecked : Bool} {s₁ s' : MemoryManager} {F : ℕ → Prop}
      (h : Frees s physAddr.toNat size.toNat isChecked s₁ F s') :
        Effect s (.free physAddr size isChecked) s'
  | commit {virtualAddr size : UInt64} {prot : UInt32} {mtype : ℤ} {byte : ℕ → ℕ}
      {s' : MemoryManager}
      (h : Commits mtype s virtualAddr.toNat
        (alignUp virtualAddr.toNat (kiB 64)) size.toNat byte s') :
      Effect s (.poolCommit virtualAddr size prot mtype) s'
  | decommit {virtualAddr size : UInt64} {s' : MemoryManager}
      (haccept : DecommitAccepted s virtualAddr.toNat size.toNat)
      (h : Decommits s virtualAddr.toNat size.toNat s') :
      Effect s (.poolDecommit virtualAddr size) s'
  | attributes {op : Operation} {s' : MemoryManager} (h : SameBytes s s') : Effect s op s'
  | allocate {searchStart searchEnd size alignment : UInt64} {memoryType : ℤ} {addr : ℕ}
      {m : PhysMap}
      (h : TakesFree (memoryType, .allocated) s addr size.toNat m) :
      Effect s (.allocate searchStart searchEnd size alignment memoryType) { s with dmemMap := m }
  | expand {searchStart searchEnd size alignment : UInt64} {addr : ℕ} {m : PhysMap}
      (h : PhysMap.Changed s.dmemMap addr size.toNat (fun _ => (3, .pooled)) m)
      (hfree : PoolSearchFits searchStart.toNat alignment.toNat →
        TakesFree (3, .pooled) s addr size.toNat m) :
      Effect s (.poolExpand searchStart searchEnd size alignment)
        { s with dmemMap := m, poolBudget := add64 s.poolBudget size.toNat }

/-- The arguments with which the kernel library calls the memory manager. -/
def Operation.Admitted : Operation → Prop
  | mapMemory _ _ _ _ type _ _ physAddr _ =>
    type ≠ .pooled ∧ (type = .direct → physAddr.toNat ≠ noAddress)
  | free _ size _ => 0 < size.toNat
  | poolCommit _ size _ _ => kiB 64 ∣ size.toNat
  | allocate searchStart _ _ _ _ => searchStart.toNat < 2 ^ 63
  | _ => True

/-- What holds of the layout of every state: the maps are sound, the direct and the flexible map
tile their memory, and all addresses lie in the lower half. -/
structure Regular (c : Config) (s : MemoryManager) : Prop where
  sound : s.Sound
  dmem : Contiguous 0 s.dmemMap s.totalDirectSize
  direct_le : s.totalDirectSize ≤ c.directSize
  fmem : Contiguous c.directSize s.fmemMap (c.directSize + flexibleMemorySize)
  low : s.LowAddresses

theorem Config.directSize_lt (c : Config) : c.directSize < 2 ^ 63 := by
  have := c.extra_lt
  simp only [directSize, totalMemDevPro, miB]
  omega

variable {c : Config}

theorem Regular.lowDirect {s : MemoryManager} (h : Regular c s) : s.LowDirect := by
  intro e he
  have hmem := h.dmem.mem he
  have hkey : e.2.base = e.1 := h.sound.dmem.keyed e he
  have hle := h.direct_le
  have hlt := c.directSize_lt
  omega

theorem Operation.run_effect {s s' : MemoryManager} {op : Operation} {reply : Reply}
    (hr : Regular c s) (hop : op.Admitted) (h : op.run s = .ok (s', reply)) : Effect s op s' := by
  have hs := hr.sound
  cases op <;> obtain ⟨p, hp, h⟩ := bind_ok h <;> cases h
  case mapMemory virtualAddr size prot flags type name validateDmem physAddr alignment =>
    obtain ⟨s', status, addr⟩ := p
    by_cases hst : status = .ok
    · subst hst
      obtain ⟨hsound, hbudget, htotals, hcheck, hplace, husage, s₁, l, k, v, r, hplaced, hmapped⟩ :=
        mapMemory_spec hs virtualAddr.toNat_lt size.toNat_lt physAddr.toNat_lt hop.1 hp
      exact .map (hplaced.mapsAt htotals hsound hbudget) ⟨husage, hcheck, hplace⟩ hmapped
    · rw [mapMemory_failed hp hst]
      exact .unchanged
  case mapFile virtualAddr size prot flags fd file physAddr =>
    obtain ⟨s', status, addr⟩ := p
    by_cases hst : status = .ok
    · subst hst
      obtain ⟨hsound, hbudget, htotals, hplace, s₁, l, k, v, r, hplaced, hmapped⟩ :=
        mapFile_spec hs virtualAddr.toNat_lt size.toNat_lt hp
      exact .file (hplaced.mapsAt htotals hsound hbudget) hplace hmapped
    · rw [mapFile_failed hp hst]
      exact .unchanged
  case unmapMemory virtualAddr size =>
    rcases unmapMemory_spec hs virtualAddr.toNat_lt size.toNat_lt hp with rfl | hu
    · exact .unchanged
    · exact .unmap hu
  case free physAddr size isChecked =>
    rcases free_spec hs hr.dmem hop size.toNat_lt hp with rfl | ⟨s₁, F, hf⟩
    · exact .unchanged
    · exact .free hf
  case poolCommit virtualAddr size prot mtype =>
    obtain ⟨s', status⟩ := p
    by_cases hst : status = .ok
    · subst hst
      obtain ⟨byte, hc⟩ := poolCommit_spec hs hr.low virtualAddr.toNat_lt size.toNat_lt hop hp
      exact .commit hc
    · rw [poolCommit_failed hp hst]
      exact .unchanged
  case poolDecommit virtualAddr size =>
    rcases poolDecommit_spec hs virtualAddr.toNat_lt size.toNat_lt hp with ⟨f, hf, ha, hd⟩ | rfl
    · exact .decommit ⟨f, hf, ha⟩ hd
    · exact .unchanged
  case protect => exact .attributes (protect_same hs hp)
  case setDirectMemoryType addr size memoryType =>
    exact .attributes (setDirectMemoryType_same hs addr.toNat_lt size.toNat_lt hp)
  case nameVirtualRange addr size name =>
    exact .attributes (nameVirtualRange_same hs addr.toNat_lt size.toNat_lt hp)
  case allocate searchStart searchEnd size alignment memoryType =>
    obtain ⟨s', addr⟩ := p
    rcases allocate_spec hs hr.lowDirect hop size.toNat_lt alignment.toNat_lt hp with rfl | ⟨m, rfl,
      ht⟩
    · exact .unchanged
    · exact .allocate ht
  case poolExpand searchStart searchEnd size alignment =>
    obtain ⟨s', addr⟩ := p
    rcases poolExpand_spec hs hr.lowDirect size.toNat_lt alignment.toNat_lt hp with
      rfl | ⟨m, rfl, hm, ht⟩
    · exact .unchanged
    · exact .expand hm ht

end PS4Droid.Memory
