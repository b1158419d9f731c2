import PS4Droid.Memory.Attributes

/-!
# What the pool operations do to every byte

`PoolCommit` attaches uncommitted pool memory to a part of a reserved pool area,
and `PoolDecommit` turns a range into reserved pool area and returns the memory
behind its pooled addresses. As for unmapping, one specification per operation
says what happens to the cells, the direct bytes, the host and the budget.
-/

namespace PS4Droid.Memory

open OrderedMap IntervalMap Segments

variable {value alignment : ℕ}

/-- Below half of the address range aligning up does not wrap around. -/
theorem le_alignUp (hv : value < 2 ^ 63)
    (ha : 0 < alignment ∧ alignment < 2 ^ 64) : value ≤ alignUp value alignment := by
  unfold alignUp
  split_ifs with h0
  · exact le_rfl
  · have hmod : value % alignment ≤ value := Nat.mod_le _ _
    have hlt : value - value % alignment + alignment < 2 ^ 64 := by
      by_cases hle : alignment ≤ value
      · omega
      · rw [Nat.mod_eq_of_lt (by omega)]
        omega
    rw [add64_eq hlt]
    have := Nat.mod_lt value ha.1
    omega

theorem alignUp_lt_add (ha : 0 < alignment) :
    alignUp value alignment < value + alignment := by
  unfold alignUp
  split_ifs with h0
  · omega
  · have hmod : value % alignment ≤ value := Nat.mod_le _ _
    have hle : add64 (value - value % alignment) alignment ≤
      value - value % alignment + alignment :=
      Nat.mod_le _ _
    omega

namespace MemoryManager

/-- The guest's addresses lie in the lower half of the address range. -/
def LowAddresses (s : MemoryManager) : Prop := ∀ x, (s.cellAt x).isSome → x < 2 ^ 63

variable {s s' s₁ s₂ : MemoryManager} {addr mapped size : ℕ} {vma : VirtualMemoryArea}

/-! ### Committing -/

/-- The code's checks of a commit: the area found at `mapped` is reserved for the pool and contains
the bytes, and the budget exceeds the size. -/
structure CommitAccepted (s : MemoryManager) (mapped size : ℕ) : Prop where
  area : ∃ k v, s.findVMA mapped = .ok (k, v) ∧ v.type = .poolReserved ∧
    v.contains mapped size = true
  budget : size < s.poolBudget

/-- Pool memory was attached to `[addr, addr + size)`, and the host maps it from `mapped` on. -/
structure Commits (mtype : ℤ) (s : MemoryManager) (addr mapped size : ℕ) (byte : ℕ → ℕ)
    (s' : MemoryManager) : Prop extends SameTotals s s', Hosted s addr mapped size byte s',
    Attached .pooled (· = .pooled) (fun _ => (mtype, .committed)) s.dmemMap s'.dmemMap s addr size
      byte s' where
  sound : s'.Sound
  accepted : s.CommitAccepted mapped size
  reserved : ∀ x, addr ≤ x ∧ x < addr + size → s.cellAt x = some ⟨.poolReserved, none⟩
  fmemMap : s'.fmemMap = s.fmemMap
  usage : s'.flexibleUsage = s.flexibleUsage
  budget : s'.poolBudget = s.poolBudget - size

/-- The aligned address lies in the range, so the area found there is the one that is carved. -/
theorem poolCommit_spec {prot : UInt32} {mtype : ℤ} (hs : s.Sound) (hlow : s.LowAddresses)
    (haddr : addr < 2 ^ 64) (hsize : size < 2 ^ 64) (hdvd : kiB 64 ∣ size)
    (h : s.poolCommit addr size prot mtype = .ok (s', .ok)) :
    ∃ byte, Commits mtype s addr (alignUp addr (kiB 64)) size byte s' := by
  unfold poolCommit at h
  obtain ⟨_, -, h⟩ := bind_ok h
  obtain ⟨⟨k₀, v₀⟩, hf, h⟩ := bind_ok h
  dsimp only at h
  generalize hm : alignUp addr (kiB 64) = mapped at h hf ⊢
  by_cases htype : v₀.type ≠ .poolReserved
  · rw [if_pos htype] at h
    cases h
  rw [if_neg htype] at h
  by_cases hcontains : v₀.contains mapped size = false
  · rw [if_pos hcontains] at h
    cases h
  rw [if_neg hcontains] at h
  by_cases hbudget : s.poolBudget ≤ size
  · rw [if_pos hbudget] at h
    cases h
  rw [if_neg hbudget] at h
  have haccept : s.CommitAccepted mapped size :=
    ⟨⟨k₀, v₀, hf, not_not.mp htype, by simpa using hcontains⟩, not_le.mp hbudget⟩
  obtain ⟨⟨m, handle⟩, hcarve, h⟩ := bind_ok h
  obtain ⟨⟨g, left⟩, htake, h⟩ := bind_ok h
  obtain ⟨_, hleft, h⟩ := bind_ok h
  obtain ⟨new, hd, h⟩ := bind_ok h
  obtain ⟨⟨m₂, h₂⟩, hmerge, hret⟩ := bind_ok h
  obtain rfl : left = 0 := require_ok hleft
  obtain ⟨rfl, l, k, v, r, ha, hp, rfl⟩ := VMAMap.carveWith_shape vmaKind_sound
    (fun _ h => h.bounded) hs.vma haddr hsize hcarve
  have hstart := hp.start
  have hstop := hp.stop
  have hpos := hp.pos
  have hlast := hlow (handle + size - 1) (by
    rw [cellAt_part hs ha.mem hp (by omega)]
    rfl)
  have hpage : 0 < kiB 64 ∧ kiB 64 < 2 ^ 64 := by norm_num [kiB]
  have hmin : kiB 64 ≤ size := Nat.le_of_dvd hpos hdvd
  have hge : handle ≤ mapped := hm ▸ le_alignUp (by omega) hpage
  have hlt : mapped < handle + kiB 64 := hm ▸ alignUp_lt_add hpage.1
  obtain ⟨rfl, rfl⟩ := findVMA_part hs ha.mem hp ⟨hge, by omega⟩ hf
  rw [changed_node hs ha hp] at hd
  simp only [Except.ok.injEq] at hd
  subst hd
  obtain ⟨hbase, hsz, hsound⟩ := VMAMap.carved_extent vmaKind_sound hs.vma ha hp
  rw [changed_assign hs ha hp] at hmerge
  set area := newArea prot 0 .pooled "anon" (VMAMap.carved k v handle size)
  obtain ⟨n, hn, ht⟩ := takeAreas_takes htake (fun _ => (mtype, .committed)) (fun _ => rfl)
    (fun _ => by simp) ⟨fun _ => rfl, fun _ => rfl⟩ (by omega) hs.dmem rfl
  obtain rfl : n = size := by omega
  have hc : Contiguous 0 g.areas n := by
    have := ht.contiguous
    rwa [Nat.zero_add] at this
  have hback : area.hasPhysicalBacking = true := rfl
  have hw := backed_sound (v := area) hsound.bounded hback hpos hsz hc
  obtain ⟨hmap, hcells⟩ := changed_cells hs ha hp hw hbase hsz
  obtain ⟨hsound', hcells'⟩ := VMAMap.merge_cells hmap hmerge
  cases hret
  obtain ⟨byte, hatt, hhost⟩ := ht.attached { s with
    vmaMap := m₂, dmemMap := g.map, host := g.host, poolBudget :=
      s.poolBudget - n } .pooled handle (by
      intro x
      have hx := (hcells' x).trans (hcells x)
      rw [backed_cell hback] at hx
      exact hx) rfl
  have hbound := hs.budget_lt
  refine ⟨byte, { hatt, hhost with
    totalDirect := rfl, totalFlexible := rfl, fmemMap := rfl, usage := rfl
    sound := ⟨hsound', ht.valid, hs.fmem, hs.usage_lt, by simp only; omega⟩
    accepted := haccept, reserved := ?_, budget := rfl }⟩
  intro x hx
  rw [cellAt_part hs ha.mem hp hx]
  simp [VirtualMemoryArea.cell, VirtualMemoryArea.hasPhysicalBacking, not_not.mp htype]

/-! ### Decommitting -/

/-- The range became reserved pool area and the memory behind its pooled addresses returned to
the pool. -/
structure Decommits (s : MemoryManager) (addr size : ℕ) (s' : MemoryManager) : Prop
    extends SameTotals s s' where
  sound : s'.Sound
  covered : s.Covered addr size
  cell_in : ∀ x, addr ≤ x ∧ x < addr + size → s'.cellAt x = some ⟨.poolReserved, none⟩
  cell_out : ∀ x, ¬ (addr ≤ x ∧ x < addr + size) → s'.cellAt x = s.cellAt x
  host_out : ∀ x, ¬ (addr ≤ x ∧ x < addr + size) → s'.host x = s.host x
  dmem_in : ∀ p, s.Backs (fun x => addr ≤ x ∧ x < addr + size) .pooled p →
    s'.dmemAt p = (s.dmemAt p).map (retag .pooled)
  dmem_out : ∀ p, ¬ s.Backs (fun x => addr ≤ x ∧ x < addr + size) .pooled p →
    s'.dmemAt p = s.dmemAt p
  fmemMap : s'.fmemMap = s.fmemMap
  usage : s'.flexibleUsage = s.flexibleUsage
  budget : s'.poolBudget =
    add64 s.poolBudget (s.countIn (fun x => addr ≤ x ∧ x < addr + size) .pooled)

namespace Decommits

theorem nil (hs : s.Sound) (addr : ℕ) : Decommits s addr 0 s where
  totalDirect := rfl
  totalFlexible := rfl
  sound := hs
  covered := by
    intro x hx
    omega
  cell_in := by omega
  cell_out := fun _ _ => rfl
  host_out := fun _ _ => rfl
  dmem_in := by
    rintro p ⟨x, hx, -⟩
    omega
  dmem_out := fun _ _ => rfl
  fmemMap := rfl
  usage := rfl
  budget := by
    have hlt := hs.budget_lt
    have hempty : {x | (addr ≤ x ∧ x < addr + 0) ∧ ∃ b, s.cellAt x = some ⟨.pooled, b⟩} = ∅ := by
      rw [Set.eq_empty_iff_forall_notMem]
      rintro x ⟨hx, -⟩
      omega
    rw [countIn, hempty, Set.ncard_empty, add64_eq (by omega), Nat.add_zero]

theorem append {n n' : ℕ} (h₁ : Decommits s addr n s₁) (h₂ : Decommits s₁ (addr + n) n' s₂) :
    Decommits s addr (n + n') s₂ := by
  have hcell : ∀ x, addr + n ≤ x → s₁.cellAt x = s.cellAt x := fun x hx =>
    h₁.cell_out x (by omega)
  have hR : ∀ x, (addr ≤ x ∧ x < addr + (n + n')) ↔
      (addr ≤ x ∧ x < addr + n) ∨ (addr + n ≤ x ∧ x < addr + n + n') := by omega
  have hdmem := retag_or (backs_or hR (fun x hx => hcell x hx.1) .pooled) h₁.dmem_in h₁.dmem_out
    h₂.dmem_in h₂.dmem_out
  have hcount :=
    countIn_or hR (fun x hx => hcell x hx.1) (by omega) (finite_interval _ _) (finite_interval _ _)
    .pooled
  refine
    { totalDirect := h₂.totalDirect.trans h₁.totalDirect
      totalFlexible := h₂.totalFlexible.trans h₁.totalFlexible
      sound := h₂.sound
      fmemMap := h₂.fmemMap.trans h₁.fmemMap
      usage := h₂.usage.trans h₁.usage
      dmem_in := hdmem.1, dmem_out := hdmem.2
      covered := ?_, cell_in := ?_, cell_out := ?_, host_out := ?_, budget := ?_ }
  · intro x hx
    by_cases hlt : x < addr + n
    · exact h₁.covered x (by omega)
    · rw [← hcell x (by omega)]
      exact h₂.covered x (by omega)
  · intro x hx
    by_cases hlt : x < addr + n
    · rw [h₂.cell_out x (by omega), h₁.cell_in x (by omega)]
    · exact h₂.cell_in x (by omega)
  · intro x hx
    rw [h₂.cell_out x (by omega), h₁.cell_out x (by omega)]
  · intro x hx
    rw [h₂.host_out x (by omega), h₁.host_out x (by omega)]
  · rw [h₂.budget, h₁.budget, hcount]
    unfold add64
    omega

/-- No address of the range has a byte any more. -/
theorem cell_iff {x p : ℕ} {t : VMAType} (h : Decommits s addr size s') :
    s'.cellAt x = some ⟨t, some p⟩ ↔ ¬ (addr ≤ x ∧ x < addr + size) ∧
      s.cellAt x = some ⟨t, some p⟩ := by
  by_cases hin : addr ≤ x ∧ x < addr + size
  · simp [h.cell_in x hin, hin]
  · simp [h.cell_out x hin, hin]

end Decommits

theorem decommitted_sound (hv : vma.Sound) : (decommitted vma).Sound :=
  ⟨hv.bounded, hv.pos, fun h => by simp [decommitted, VirtualMemoryArea.hasPhysicalBacking] at h,
    fun _ => rfl⟩

variable {k n : ℕ}

theorem decommitBacking_spec (hs : s.Sound) (hmem : (k, vma) ∈ s.vmaMap)
    (hp : Part k vma.size addr n) (h : s.decommitBacking vma (addr - k) n = .ok s') :
    (vma.type = .pooled ∧ s' = { s with
        dmemMap := s'.dmemMap, poolBudget := add64 s.poolBudget n } ∧
      BackingRetyped .pooled vma.physAreas (addr - k) n s.dmemMap s'.dmemMap) ∨
    (vma.type ≠ .pooled ∧ s' = s) := by
  have hsound : vma.Sound := hs.vma.wf _ hmem
  have hbound : vma.base + vma.size < 2 ^ 64 := hsound.bounded
  have hstart := hp.start
  have hstop := hp.stop
  have hpos := hp.pos
  unfold decommitBacking at h
  by_cases htype : vma.type = .pooled
  · rw [if_pos htype] at h
    obtain ⟨⟨m, done⟩, hr, h⟩ := bind_ok h
    obtain ⟨_, hdone, h⟩ := bind_ok h
    obtain rfl : done = true := require_ok hdone
    cases h
    have hb : vma.hasPhysicalBacking = true := by simp [VirtualMemoryArea.hasPhysicalBacking, htype]
    exact .inl ⟨htype, rfl,
      retypeBacking_spec (by omega) hs.dmem (hsound.backed hb) (by omega) hr⟩
  · rw [if_neg htype] at h
    cases h
    exact .inr ⟨htype, rfl⟩

/-- One step of the loop: the memory of a part is returned and the part is reserved. -/
theorem decommitStep_spec {m : VMAMap} (hs : s.Sound) (haddr : addr < 2 ^ 64)
    (hn : n < 2 ^ 64) (hf : s.findVMA addr = .ok (k, vma))
    (hback : s.decommitBacking vma (sub64 addr vma.base) n = .ok s₁)
    (hr : VMAMap.retype s₁.vmaMap addr n decommitted = .ok m) :
    0 < n ∧ addr + n < 2 ^ 64 ∧ Decommits s addr n { s₁ with vmaMap := m } := by
  have hsame : s₁.vmaMap = s.vmaMap := by
    unfold decommitBacking at hback
    split_ifs at hback
    · obtain ⟨_, -, hback⟩ := bind_ok hback
      obtain ⟨_, -, hback⟩ := bind_ok hback
      cases hback
      rfl
    · cases hback
      rfl
  obtain ⟨l, r, ha, hk, -⟩ := findEntry_around hs.vma.sorted hf
  have hmem := ha.mem
  have hbase : vma.base = k := hs.vma.keyed _ hmem
  have hbound : vma.base + vma.size < 2 ^ 64 := (hs.vma.wf _ hmem).bounded
  rw [hsame] at hr
  obtain ⟨hsound', k', v', hmem', hp, hcells⟩ := VMAMap.retype_cells hs.vma haddr hn hr
    ⟨fun _ => rfl, fun _ => rfl⟩ fun v hv => decommitted_sound hv
  have hstart := hp.start
  have hstop := hp.stop
  have hpos := hp.pos
  obtain ⟨rfl, rfl⟩ := findVMA_part hs hmem' hp ⟨le_rfl, by omega⟩ hf
  have hsub : sub64 addr v'.base = addr - k' := by
    rw [sub64_eq haddr (by omega), hbase]
  rw [hsub] at hback
  have hcov : s.Covered addr n := by
    intro x hx
    rw [cellAt_part hs hmem hp hx]
    rfl
  have hin : ∀ x, addr ≤ x ∧ x < addr + n → m.cellAt x = some ⟨.poolReserved, none⟩ := by
    intro x hx
    rw [hcells x, if_pos hx]
    rfl
  have hout : ∀ x, ¬ (addr ≤ x ∧ x < addr + n) → m.cellAt x = s.cellAt x := by
    intro x hx
    rw [hcells x, if_neg hx]
    rfl
  have hcount := countIn_part hs hmem hp .pooled
  have hlt := hs.budget_lt
  refine ⟨hpos, by omega, ?_⟩
  rcases decommitBacking_spec hs hmem hp hback with ⟨htype, heq, hret⟩ | ⟨htype, rfl⟩
  · have hb : v'.hasPhysicalBacking = true := by simp [VirtualMemoryArea.hasPhysicalBacking, htype]
    have hrec := records_iff_backs hs hmem hp hb
    rw [htype] at hrec
    rw [if_pos htype] at hcount
    rw [heq]
    exact
      { totalDirect := rfl, totalFlexible := rfl, fmemMap := rfl, usage := rfl, covered := hcov
        sound := ⟨hsound', hret.valid, hs.fmem, hs.usage_lt, add64_lt _ _⟩
        cell_in := hin, cell_out := hout, host_out := fun _ _ => rfl
        dmem_in := fun p hp => hret.recorded p ((hrec p).mpr hp)
        dmem_out := fun p hp => hret.other p fun h => hp ((hrec p).mp h)
        budget := by rw [hcount] }
  · have hnot := not_backs_of_type hs hmem hp htype
    rw [if_neg htype] at hcount
    exact
      { totalDirect := rfl, totalFlexible := rfl, fmemMap := rfl, usage := rfl, covered := hcov
        sound := ⟨hsound', hs.dmem, hs.fmem, hs.usage_lt, hlt⟩
        cell_in := hin, cell_out := hout, host_out := fun _ _ => rfl
        dmem_in := fun p hp => absurd hp (hnot p)
        dmem_out := fun _ _ => rfl
        budget := by rw [hcount, add64_eq (by omega), Nat.add_zero] }

theorem decommitLoop_spec {fuel remaining : ℕ} (hs : s.Sound) (haddr : addr < 2 ^ 64)
    (hrem : remaining < 2 ^ 64) (h : decommitLoop fuel s addr remaining = .ok s') :
    Decommits s addr remaining s' := by
  induction fuel generalizing s addr remaining with
  | zero => cases h
  | succ fuel ih =>
    unfold decommitLoop at h
    by_cases h0 : remaining = 0
    · rw [if_pos h0] at h
      cases h
      rw [h0]
      exact .nil hs addr
    · rw [if_neg h0] at h
      obtain ⟨⟨k, vma⟩, hf, h⟩ := bind_ok h
      obtain ⟨s₁, hback, h⟩ := bind_ok h
      obtain ⟨m, hr, h⟩ := bind_ok h
      have hle : min remaining (sub64 vma.size (sub64 addr vma.base)) ≤ remaining := min_le_left _ _
      generalize min remaining (sub64 vma.size (sub64 addr vma.base)) = n at hback hr h hle
      obtain ⟨hpos, hend, h₁⟩ := decommitStep_spec hs haddr (by omega) hf hback hr
      rw [add64_eq hend] at h
      have h₂ := ih h₁.sound hend (by omega) h
      have := h₁.append h₂
      rwa [show n + (remaining - n) = remaining by omega] at this

theorem Decommits.unmap_host (h : Decommits s addr size s') :
    Decommits s addr size { s' with host := AddressSpace.unmap s'.host addr size } := by
  refine { h with sound := ?_, host_out := ?_ }
  · exact ⟨h.sound.vma, h.sound.dmem, h.sound.fmem, h.sound.usage_lt, h.sound.budget_lt⟩
  · intro x hx
    simp only [AddressSpace.unmap, if_neg hx, h.host_out x hx]

theorem poolDecommit_spec {status : Status} (hs : s.Sound) (haddr : addr < 2 ^ 64)
    (hsize : size < 2 ^ 64) (h : s.poolDecommit addr size = .ok (s', status)) :
    (∃ first, s.findVMA addr = .ok first ∧
      decommitAllowed (add64 addr size) (first :: above s.vmaMap first.1) = true ∧
      Decommits s addr size s') ∨ s' = s := by
  unfold poolDecommit at h
  obtain ⟨_, -, h⟩ := bind_ok h
  obtain ⟨first, hf, h⟩ := bind_ok h
  split_ifs at h with hallowed
  · obtain ⟨s₁, hl, h⟩ := bind_ok h
    cases h
    exact .inl ⟨first, hf, hallowed, (decommitLoop_spec hs haddr hsize hl).unmap_host⟩
  · cases h
    exact .inr rfl

end MemoryManager

end PS4Droid.Memory
