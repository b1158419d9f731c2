import PS4Droid.Memory.HostMapping
import PS4Droid.Memory.Search

/-!
# Unmapping takes a mapping back

A mapping turns a free range into one area, attaches physical bytes to it and retags
them. `UnmapMemory` over the same range frees the area and retags the bytes again, so
the two together change nothing but the tags of direct bytes, which stay allocated.
-/

namespace PS4Droid.Memory

open OrderedMap IntervalMap Segments

namespace MemoryManager

/-- The state is `s` again outside the host range, with the bytes `direct` tagged as allocated. -/
structure Restored (s : MemoryManager) (addr size : ℕ) (direct : ℕ → Prop) (s' : MemoryManager) :
    Prop where
  cell : ∀ x, s'.cellAt x = s.cellAt x
  host : ∀ x, ¬ (addr ≤ x ∧ x < addr + size) → s'.host x = s.host x
  direct_in : ∀ p, direct p → s'.dmemAt p = (s.dmemAt p).map (retag .allocated)
  direct_out : ∀ p, ¬ direct p → s'.dmemAt p = s.dmemAt p
  flexible : ∀ p, s'.fmemAt p = s.fmemAt p
  usage : s'.flexibleUsage = s.flexibleUsage
  budget : s'.poolBudget = s.poolBudget

variable {s s' s₁ s₂ : MemoryManager} {addr size : ℕ}

/-- Bytes that a mapping attached and changed, after the unmapping of its range changed them
back. -/
theorem Attached.unmapped {type : VMAType} {avail : PhysicalMemoryType → Prop}
    {change back : ℤ × PhysicalMemoryType → ℤ × PhysicalMemoryType} {m m' m'' : PhysMap}
    {byte : ℕ → ℕ}
    (h : Attached type avail change m m' s addr size byte s')
    (hin : ∀ p, s'.Backs (fun x => addr ≤ x ∧ x < addr + size) type p →
      m''.attributesAt p = (m'.attributesAt p).map back)
    (hout : ∀ p, ¬ s'.Backs (fun x => addr ≤ x ∧ x < addr + size) type p →
      m''.attributesAt p = m'.attributesAt p) :
    (∀ x, addr ≤ x ∧ x < addr + size → ∃ t d, avail d ∧ m.attributesAt (byte x) = some (t, d) ∧
      m''.attributesAt (byte x) = some (back (change (t, d)))) ∧
    ∀ p, (∀ x, addr ≤ x ∧ x < addr + size → byte x ≠ p) →
      m''.attributesAt p = m.attributesAt p := by
  constructor
  · intro x hx
    obtain ⟨t, d, hattr, hd⟩ := h.available x hx
    refine ⟨t, d, hd, hattr, ?_⟩
    rw [hin _ ⟨x, hx, h.cell_in x hx⟩, h.attributes_in x hx, hattr]
    rfl
  · intro p hp
    rw [hout, h.attributes_out p hp]
    rintro ⟨x, hx, hc⟩
    rw [h.cell_in x hx] at hc
    cases hc
    exact hp x hx rfl

variable {q : MapRequest} {x : ℕ}

theorem Mapped.cell_in (h : Mapped q s addr s')
    (hx : addr ≤ x ∧ x < addr + q.size) : ∃ b, s'.cellAt x = some ⟨q.type, b⟩ := by
  cases h with
  | flexible byte ht h => exact ⟨_, ht ▸ h.cell_in x hx⟩
  | direct ht _ _ h => exact ⟨_, ht ▸ (h (fun _ => True) fun _ _ _ _ _ => trivial).cell_in x hx⟩
  | plain _ h => exact ⟨_, h.cell_in x hx⟩

theorem Mapped.out (h : Mapped q s addr s')
    (hx : ¬ (addr ≤ x ∧ x < addr + q.size)) : s'.cellAt x = s.cellAt x ∧ s'.host x = s.host x := by
  cases h with
  | flexible _ _ h hh => exact ⟨h.cell_out x hx, hh.host_out x hx⟩
  | direct _ _ _ h hh =>
      exact ⟨(h (fun _ => True) fun _ _ _ _ _ => trivial).cell_out x hx, hh.host_out x hx⟩
  | plain _ h => exact ⟨h.cell_out x hx, h.host_out x hx⟩

theorem Mapped.restored (hm : MapsAt s addr q.size q.flags s₁ s') (h : Mapped q s₁ addr s')
    (ht : q.type ≠ .free ∧ q.type ≠ .pooled) (hu : UnmapsRange s' addr q.size s₂) :
    Restored s₁ addr q.size (fun p => q.type = .direct ∧ q.physAddr ≤ p ∧
      p < q.physAddr + q.size) s₂ := by
  -- Every address of the new area can be released.
  have hall : Unmaps s' (fun x => addr ≤ x ∧ x < addr + q.size) s₂ := hu.congr fun x => by
    refine ⟨fun hx => hx.1, fun hx => ⟨hx, ?_⟩⟩
    obtain ⟨b, hb⟩ := h.cell_in hx
    exact ⟨_, hb, ht⟩
  have hother : ∀ t p, q.type ≠ t → ¬ s'.Backs (fun x => addr ≤ x ∧ x < addr + q.size) t p := by
    rintro t p hne ⟨x, hx, hc⟩
    obtain ⟨b, hb⟩ := h.cell_in hx
    rw [hb] at hc
    cases hc
    exact hne rfl
  have hcell : ∀ x, s₂.cellAt x = s₁.cellAt x := by
    intro x
    by_cases hx : addr ≤ x ∧ x < addr + q.size
    · rw [hall.cell_in x hx, hm.free x hx]
    · exact (hall.cell_out x hx).trans (h.out hx).1
  have hhost := fun x hx => (hall.host_out x hx).trans (h.out hx).2
  have hbudget := hall.budget.trans (hm.budget.trans hm.cleared.totals.2.symm)
  have husage := hall.usage
  rw [countIn_type fun x hx => h.cell_in hx] at husage
  have hlt := hm.mid.usage_lt
  obtain ⟨hpos, hbound⟩ := hm.bound
  cases h with
  | flexible byte htype h _ hd hu =>
    obtain ⟨hin, hout⟩ := h.unmapped hall.fmem_in hall.fmem_out
    refine ⟨hcell, hhost, fun p hp => ?_, fun p _ => ?_, fun p => ?_, ?_, hbudget⟩
    · exact absurd (hp.1.symm.trans htype) (by decide)
    · rw [hall.dmem_out p (hother _ _ (by simp [htype])), dmemAt, hd]
      rfl
    · by_cases hp : ∃ x, (addr ≤ x ∧ x < addr + q.size) ∧ byte x = p
      · obtain ⟨x, hx, rfl⟩ := hp
        obtain ⟨t, d, rfl, hattr, hback⟩ := hin x hx
        exact hback.trans hattr.symm
      · exact hout p fun x hx heq => hp ⟨x, hx, heq⟩
    · rw [husage, hu, if_pos htype]
      unfold add64 sub64
      omega
  | direct htype _ _ h _ hf hu =>
    obtain ⟨hin, hout⟩ :=
      (h (fun _ => True) fun _ _ _ _ _ => trivial).unmapped hall.dmem_in hall.dmem_out
    refine ⟨hcell, hhost, fun p hp => ?_, fun p hp => ?_, fun p => ?_, ?_, hbudget⟩
    · obtain ⟨t, d, -, hattr, hback⟩ := hin (addr + (p - q.physAddr)) (by omega)
      rw [show q.physAddr + (addr + (p - q.physAddr) - addr) = p by omega] at hattr hback
      rw [dmemAt, dmemAt, hback, hattr]
      rfl
    · exact hout p fun x hx heq => hp ⟨htype, by omega, by omega⟩
    · rw [hall.fmem_out p (hother _ _ (by simp [htype])), fmemAt, hf]
      rfl
    · rw [husage, hu, if_neg (by simp [htype]), sub64_eq hlt (Nat.zero_le _), Nat.sub_zero]
  | plain htype h =>
    refine ⟨hcell, hhost, fun p hp => absurd hp.1 htype.1, fun p _ => ?_, fun p => ?_, ?_, hbudget⟩
    · rw [hall.dmem_out p (hother _ _ htype.1), dmemAt, h.dmemMap]
      rfl
    · rw [hall.fmem_out p (hother _ _ htype.2), fmemAt, h.fmemMap]
      rfl
    · rw [husage, h.usage, if_neg htype.2, sub64_eq hlt (Nat.zero_le _), Nat.sub_zero]

end MemoryManager

open MemoryManager

variable {c : Config} {P : Kernel → GuestCall → Prop} {k k₁ k₂ : Kernel}

/-- What a call of the guest maps at a page boundary, `munmap` takes back: the address space, the
flexible memory and the counters are as they were after the range was cleared, and mapped direct
bytes stay allocated. -/
theorem Reachable.munmap_undoes_map (hc : c.Usable) (h : Reachable c P k) {call : GuestCall}
    {virtualAddr size physAddr alignment : UInt64} {prot flags : UInt32} {type : VMAType}
    {name : String}
    {validateDmem : Bool} (hrequest : k.request call =
      .perform (.mapMemory virtualAddr size prot flags type name validateDmem physAddr alignment))
    {addr : ℕ} {reply : Reply} (hmap : k.call call = .ok (k₁, .status .ok addr))
    (hpage : kiB 16 ∣ addr)
    (hunmap : k₁.call (.munmap (.ofNat addr) size) = .ok (k₂, reply)) :
    reply = .status .ok 0 ∧ ∃ s, Cleared k.memory addr size.toNat flags s ∧
      Restored s addr size.toNat (fun p => type = .direct ∧ physAddr.toNat ≤ p ∧
        p < physAddr.toNat + size.toNat)
        k₂.memory := by
  obtain ⟨⟨hnpool, -⟩, hsize, hnfree⟩ := Kernel.request_admitted (congrArg Request.first hrequest)
  have hs := (h.direct_pos hc).1.sound
  unfold Kernel.call at hmap
  rw [hrequest] at hmap
  obtain ⟨⟨s', _⟩, hserve, hret⟩ := bind_ok hmap
  cases hret
  obtain ⟨⟨s', status, addr⟩, hmapped, hret⟩ := bind_ok hserve
  cases hret
  obtain ⟨hsound, hbudget, htotals, -, -, -, s₁, l, i, v, r, hplaced, hmapped⟩ :=
    mapMemory_spec hs virtualAddr.toNat_lt size.toNat_lt physAddr.toNat_lt hnpool hmapped
  have hm := hplaced.mapsAt htotals hsound hbudget
  obtain ⟨hpos, hbound⟩ : 0 < size.toNat ∧ addr + size.toNat < 2 ^ 64 := hm.bound
  have haddr : addr < 2 ^ 64 := by omega
  have hne : size ≠ 0 := by
    rintro rfl
    exact absurd hpos (by decide)
  unfold Kernel.call at hunmap
  obtain ⟨⟨s₂, _⟩, hserve, hret⟩ := bind_ok hunmap
  cases hret
  simp only [Kernel.request, Kernel.munmap, if_neg hne, Kernel.serve] at hserve
  obtain ⟨⟨s₂, status⟩, hrun, hret⟩ := bind_ok hserve
  cases hret
  unfold unmapMemory at hrun
  rw [if_neg (by omega), UInt64.toNat_ofNat_of_lt' haddr, alignUp_of_dvd hsize, alignDown,
    Nat.mod_eq_zero_of_dvd hpage, Nat.sub_zero] at hrun
  obtain ⟨_, -, hrun⟩ := bind_ok hrun
  obtain ⟨s₃, hloop, hrun⟩ := bind_ok hrun
  cases hrun
  have hcov : s'.Covered addr size.toNat := fun x hx => by
    obtain ⟨b, hb⟩ := hmapped.cell_in hx
    rw [hb]
    rfl
  have hrange : UnmapsRange s' addr size.toNat s₂ := by
    simpa using unmapMemoryLoop_range (n := 0) hsound hpos (by simpa using hcov) hbound hloop
  exact ⟨rfl, s₁, hplaced.cleared, hmapped.restored hm ⟨hnfree, hnpool⟩ hrange⟩

theorem munmap_undoes_map_heap : ∃ (k₁ k₂ : Kernel) (reply : Reply),
    startedKernel.call (.mapNamedFlexibleMemory 0x200000000 0x8000 3 0 (some "heap")) =
      .ok (k₁, .status .ok 0x200000000) ∧ k₁.call (.munmap 0x200000000 0x8000) = .ok (k₂, reply) ∧
    reply = .status .ok 0 ∧ ∃ s, Cleared startedKernel.memory 0x200000000 0x8000 0 s ∧
      Restored s 0x200000000 0x8000 (fun p => VMAType.flexible = .direct ∧ noAddress ≤ p ∧
        p < noAddress + 0x8000)
        k₂.memory := by
  have hrequest :
    startedKernel.request (.mapNamedFlexibleMemory 0x200000000 0x8000 3 0 (some "heap")) =
      .perform (.mapMemory 0x200000000 0x8000 3 0 .flexible "heap" false (.ofNat noAddress) 0) :=
        rfl
  obtain ⟨⟨k₁, reply⟩, hmap, rfl, hok⟩ := ok_of_any
    (x := startedKernel.call (.mapNamedFlexibleMemory 0x200000000 0x8000 3 0 (some "heap")))
    (p := fun r => r.2 = .status .ok 0x200000000 ∧
      ((r.1.call (.munmap 0x200000000 0x8000)).toOption.any fun _ => True) = true) (by decide)
  obtain ⟨⟨k₂, reply⟩, hunmap, -⟩ := ok_of_any hok
  exact ⟨k₁, k₂, reply, hmap, hunmap, Reachable.munmap_undoes_map Config.oneRegion_usable
    (startedKernel_reachable (P := fun _ _ => True)) hrequest hmap (by decide) hunmap⟩

end PS4Droid.Memory
