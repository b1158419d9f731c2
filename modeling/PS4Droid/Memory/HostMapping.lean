import PS4Droid.Memory.Runs

/-!
# The host mapping agrees with the recorded backing

Every backed area records which physical byte stands behind each of its
addresses, and the host address space maps the address to that byte. `PoolCommit`
is the exception: it records the bytes from the given address on but maps them from
the next multiple of 64 KiB on, so the two agree only when the address is one.
-/

namespace PS4Droid.Memory

open MemoryManager

namespace MemoryManager

/-- Every backed area has physical areas that tile its offsets, and the host maps each of its
addresses to the byte that they record. -/
def BackedExactly (s : MemoryManager) : Prop :=
  ∀ e ∈ s.vmaMap, e.2.hasPhysicalBacking = true → Contiguous 0 e.2.physAreas e.2.size ∧
    ∀ off < e.2.size, ∃ p, byteAt e.2.physAreas off = some p ∧ s.host (e.2.base + off) = .backing p

/-- The host agrees with every cell that has a backing byte. -/
def HostAgrees (s : MemoryManager) : Prop :=
  ∀ x t p, s.cellAt x = some ⟨t, some p⟩ → s.host x = .backing p

variable {s s' : MemoryManager}

theorem HostAgrees.backed (hs : s.Sound) (h : s.HostAgrees) : s.BackedExactly := by
  rintro ⟨k, v⟩ he hb
  have hbase : v.base = k := hs.vma.keyed _ he
  have hc := (hs.vma.wf _ he).backed hb
  refine ⟨hc, fun off hoff => ?_⟩
  obtain ⟨p, hp⟩ := Option.isSome_iff_exists.mp ((hc.byteAt_isSome off).mpr ⟨Nat.zero_le _, hoff⟩)
  simp only at hoff
  refine ⟨p, hp, h _ v.type p ?_⟩
  rw [cellAt, VMAMap.cellAt_mem hs.vma he (x := v.base + off) (by simp only; omega)]
  simp only at hp ⊢
  rw [VirtualMemoryArea.cell, if_pos hb, hbase, Nat.add_sub_cancel_left, hp]

/-! ### What keeps the agreement -/

variable {R : ℕ → Prop} {addr size : ℕ} {type : VMAType}

/-- Outside of a range nothing changed, and inside of it the host agrees. -/
theorem HostAgrees.frame (h : s.HostAgrees)
    (hcell : ∀ x, ¬ R x → s'.cellAt x = s.cellAt x) (hhost : ∀ x, ¬ R x → s'.host x = s.host x)
    (hin : ∀ x t p, R x → s'.cellAt x = some ⟨t, some p⟩ → s'.host x = .backing p) :
    s'.HostAgrees := by
  intro x t p hc
  by_cases hx : R x
  · exact hin x t p hx hc
  · rw [hcell x hx] at hc
    rw [hhost x hx]
    exact h x t p hc

theorem HostAgrees.unmaps (h : s.HostAgrees) (hu : Unmaps s R s') : s'.HostAgrees := by
  refine h.frame hu.cell_out hu.host_out fun x t p hx hc => ?_
  rw [hu.cell_in x hx] at hc
  cases hc

theorem HostAgrees.cleared {flags : UInt32} (h : s.HostAgrees)
    (hc : Cleared s addr size flags s') : s'.HostAgrees := by
  rcases hc with ⟨-, hu⟩ | ⟨-, rfl⟩
  · exact h.unmaps hu
  · exact h

theorem HostAgrees.plain (h : s.HostAgrees)
    (hm : MapsPlain type s addr size s') : s'.HostAgrees := by
  refine h.frame hm.cell_out hm.host_out fun x t p hx hc => ?_
  rw [hm.cell_in x hx] at hc
  cases hc

theorem HostAgrees.attached {avail : PhysicalMemoryType → Prop}
    {change : ℤ × PhysicalMemoryType → ℤ × PhysicalMemoryType} {before after : PhysMap}
    {byte : ℕ → ℕ} (h : s.HostAgrees)
    (ha : Attached type avail change before after s addr size byte s')
    (hh : Hosted s addr addr size byte s') : s'.HostAgrees := by
  refine h.frame ha.cell_out hh.host_out fun x t p hx hc => ?_
  rw [ha.cell_in x hx] at hc
  cases hc
  have := hh.host_in x hx
  rwa [Nat.add_sub_cancel' hx.1] at this

theorem HostAgrees.mapped {q : MapRequest} (h : s.HostAgrees)
    (hm : Mapped q s addr s') : s'.HostAgrees := by
  cases hm with
  | flexible byte _ ha hh => exact h.attached ha hh
  | direct _ _ _ ha hh => exact h.attached (ha (fun _ => True) fun _ _ _ _ _ => trivial) hh
  | plain _ hp => exact h.plain hp

end MemoryManager

/-- An accepted `PoolCommit` has an address that is a multiple of 64 KiB. -/
def AlignedCommit (s : MemoryManager) : Operation → Prop
  | .poolCommit virtualAddr size _ _ =>
    s.CommitAccepted (alignUp virtualAddr.toNat (kiB 64)) size.toNat → kiB 64 ∣ virtualAddr.toNat
  | _ => True

theorem alignUp_of_dvd {value alignment : ℕ} (h : alignment ∣ value) :
    alignUp value alignment = value := if_pos (Nat.mod_eq_zero_of_dvd h)

theorem Effect.hostAgrees {s s' : MemoryManager} {op : Operation} (h : s.HostAgrees)
    (hop : AlignedCommit s op) (he : Effect s op s') : s'.HostAgrees := by
  cases he with
  | unchanged => exact h
  | map hm _ hmapped => exact (h.cleared hm.cleared).mapped hmapped
  | file hm _ hmapped => exact (h.cleared hm.cleared).plain hmapped
  | unmap hu => exact h.unmaps hu
  | free hf =>
    have hu : HostAgrees _ := h.unmaps hf.unmaps
    rw [hf.rest]
    exact hu
  | commit hc =>
    have hh := hc.toHosted
    rw [alignUp_of_dvd (hop hc.accepted)] at hh
    exact h.attached hc.toAttached hh
  | decommit _ hd =>
    refine h.frame hd.cell_out hd.host_out fun x t p hx hc => ?_
    rw [hd.cell_in x hx] at hc
    cases hc
  | attributes ha =>
    intro x t p hc
    rw [ha.cell x] at hc
    rw [ha.host]
    exact h x t p hc
  | allocate => exact h
  | expand => exact h

variable {c : Config}

theorem Fresh.hostAgrees {s : MemoryManager} (h : Fresh c s) : s.HostAgrees := by
  intro x t p hc
  cases h.cell_free hc

/-- Whatever the guest calls, every address of a backed area is mapped to the byte that is
recorded for it, as long as pool memory is committed at multiples of 64 KiB. -/
theorem Reachable.backedExactly (hc : c.Usable) {k : Kernel}
    (h : Reachable c (Kernel.Meets AlignedCommit) k) : k.memory.BackedExactly := by
  obtain ⟨hr, hi⟩ := Reachable.invariant hc (fun _ h => h.hostAgrees) (fun _ _ _ _ => trivial)
    (fun _ _ _ _ _ hi _ hop he => he.hostAgrees hi hop) h
  exact hi.backed hr.sound

/-- A pool area of 2 MiB, 128 KiB of pool memory, and 64 KiB of it committed at `addr`. -/
def commitRun (addr : UInt64) : List GuestCall :=
  [.memoryPoolReserve 0x200000000 0x200000 0 0x10,
    .memoryPoolExpand 0 0x10000000 0x20000 0 true,
    .memoryPoolCommit addr 0x10000 0 3]

theorem Reachable.backedExactly_commitRun :
    ∃ k, Reachable Config.oneRegion (Kernel.Meets AlignedCommit) k ∧
      (∃ e ∈ k.memory.vmaMap, e.2.type = .pooled) ∧ k.memory.BackedExactly := by
  obtain ⟨k, hcalls, hpooled⟩ := Kernel.exists_callAll (commitRun 0x200010000)
    ⟨Config.oneRegion.construct, false⟩ (fun k => ∃ e ∈ k.memory.vmaMap, e.2.type = .pooled)
    (by decide)
  have hk : Reachable Config.oneRegion (Kernel.Meets AlignedCommit) k := by
    refine (Reachable.boot .fresh).callAll ?_ hcalls
    intro call hcall k op hop
    fin_cases hcall <;> cases hop
    · trivial
    · trivial
    · intro _
      decide
  exact ⟨k, hk, hpooled, hk.backedExactly Config.oneRegion_usable⟩

/-- Committed at 16 KiB behind a multiple of 64 KiB, the first bytes are recorded and not
mapped. -/
theorem Reachable.not_backedExactly :
    ¬ ∀ c : Config, c.Usable → ∀ k, Reachable c (fun _ _ => True) k → k.memory.BackedExactly := by
  intro hall
  obtain ⟨k, hcalls, e, he, hb, hpos, hhost⟩ := Kernel.exists_callAll (commitRun 0x200004000)
    ⟨Config.oneRegion.construct, false⟩ (fun k => ∃ e ∈ k.memory.vmaMap,
      e.2.hasPhysicalBacking = true ∧ 0 < e.2.size ∧ k.memory.host e.2.base = .unmapped)
    (by decide)
  have hk : Reachable Config.oneRegion (fun _ _ => True) k :=
    (Reachable.boot .fresh).callAll (fun _ _ _ => trivial) hcalls
  obtain ⟨p, -, hp⟩ := (hall _ Config.oneRegion_usable k hk e he hb).2 0 hpos
  rw [Nat.add_zero, hhost] at hp
  cases hp

end PS4Droid.Memory
