import PS4Droid.Memory.Mapping

/-!
# Operations that change attributes only

`Protect`, `SetDirectMemoryType` and `NameVirtualRange` carve, change and merge
areas over a whole range. Whatever the layout of the range, the bytes behind the
virtual addresses, the host mapping, the types of the physical memory and the
counters stay as they are.
-/

namespace PS4Droid.Memory

open OrderedMap IntervalMap Segments

namespace MemoryManager

/-- The type of the direct byte `p`, without its memory type. -/
def typeAt (s : MemoryManager) (p : ℕ) : Option PhysicalMemoryType := (s.dmemAt p).map Prod.snd

/-- No byte, type or counter changed. -/
structure SameBytes (s s' : MemoryManager) : Prop extends SameTotals s s' where
  sound : s'.Sound
  cell : ∀ x, s'.cellAt x = s.cellAt x
  host : s'.host = s.host
  types : ∀ p, s'.typeAt p = s.typeAt p
  fmemMap : s'.fmemMap = s.fmemMap
  usage : s'.flexibleUsage = s.flexibleUsage
  budget : s'.poolBudget = s.poolBudget

variable {s s' s₁ s₂ : MemoryManager} {addr size : ℕ} {vma : VirtualMemoryArea}

namespace SameBytes

theorem refl (h : s.Sound) : SameBytes s s :=
  ⟨⟨rfl, rfl⟩, h, fun _ => rfl, rfl, fun _ => rfl, rfl, rfl, rfl⟩

theorem trans (h : SameBytes s s₁) (h' : SameBytes s₁ s₂) : SameBytes s s₂ where
  totalDirect := h'.totalDirect.trans h.totalDirect
  totalFlexible := h'.totalFlexible.trans h.totalFlexible
  sound := h'.sound
  cell := fun x => (h'.cell x).trans (h.cell x)
  host := h'.host.trans h.host
  types := fun p => (h'.types p).trans (h.types p)
  fmemMap := h'.fmemMap.trans h.fmemMap
  usage := h'.usage.trans h.usage
  budget := h'.budget.trans h.budget

theorem of_vma (hs : s.Sound) {m : VMAMap}
    (hm : VMAMap.SoundMap m ∧ ∀ x, m.cellAt x = s.cellAt x) : SameBytes s { s with vmaMap := m } :=
  ⟨⟨rfl, rfl⟩, ⟨hm.1, hs.dmem, hs.fmem, hs.usage_lt, hs.budget_lt⟩, hm.2, rfl, fun _ => rfl, rfl,
    rfl, rfl⟩

end SameBytes

/-! ### Protection -/

variable {n fuel remaining : ℕ} {prot : UInt32} {status : Status} {memoryType : ℤ} {areas : PhysMap}
  {name : String}

theorem protectBytes_same (hs : s.Sound) (haddr : addr < 2 ^ 64)
    (hsize : size < 2 ^ 64) (h : s.protectBytes addr vma size prot = .ok (s', n)) :
    SameBytes s s' := by
  unfold protectBytes at h
  dsimp only at h
  split_ifs at h
  · cases h
    exact .refl hs
  · obtain ⟨m, hr, h⟩ := bind_ok h
    cases h
    exact .of_vma hs (VMAMap.retype_same_cells hs.vma haddr (by omega) hr
      ⟨⟨fun _ => rfl, fun _ => rfl⟩, fun _ => rfl, fun _ => rfl⟩)

theorem protectLoop_same (hs : s.Sound)
    (h : protectLoop addr size prot fuel s n = .ok (s', status)) : SameBytes s s' := by
  induction fuel generalizing s n with
  | zero => cases h
  | succ fuel ih =>
    unfold protectLoop at h
    by_cases hn : n < size
    · rw [if_pos hn] at h
      obtain ⟨⟨k, vma⟩, -, h⟩ := bind_ok h
      obtain ⟨⟨s₁, result⟩, hp, h⟩ := bind_ok h
      have hsame := protectBytes_same hs (add64_lt _ _) (sub64_lt _ _) hp
      dsimp only at h
      by_cases hneg : result ≥ 2 ^ 63
      · rw [if_pos hneg] at h
        cases h
        exact hsame
      · rw [if_neg hneg] at h
        exact hsame.trans (ih hsame.sound h)
    · rw [if_neg hn] at h
      cases h
      exact .refl hs

theorem protect_same (hs : s.Sound)
    (h : s.protect addr size prot = .ok (s', status)) : SameBytes s s' := by
  unfold protect at h
  split_ifs at h
  · cases h
    exact .refl hs
  · obtain ⟨_, -, h⟩ := bind_ok h
    exact protectLoop_same hs h

/-! ### Memory types -/

/-- The physical areas with another memory type. -/
def retyped (memoryType : ℤ) (areas : PhysMap) : PhysMap :=
  areas.map fun area => (area.1, { area.2 with memoryType })

theorem retyped_contiguous {start stop : ℕ}
    (h : Contiguous start areas stop) : Contiguous start (retyped memoryType areas) stop := by
  induction areas generalizing start with
  | nil => exact h
  | cons e rest ih =>
    obtain ⟨hk, hpos, hb, hrest⟩ := h
    exact ⟨hk, hpos, hb, ih hrest⟩

theorem byteAt_retyped (areas : PhysMap) (off : ℕ) :
    byteAt (retyped memoryType areas) off = byteAt areas off := by
  induction areas with
  | nil => rfl
  | cons e rest ih =>
    obtain ⟨k, a⟩ := e
    have hcons : retyped memoryType ((k, a) :: rest) =
        (k, { a with memoryType }) :: retyped memoryType rest := rfl
    rw [hcons, byteAt_cons, byteAt_cons, ih]

theorem setAreaTypes_types {m m' : PhysMap} (hv : PhysMap.Valid m)
    (ha : ∀ e ∈ areas, e.2.Bounded) (h : setAreaTypes memoryType areas m = .ok m') :
    PhysMap.Valid m' ∧ ∀ p, (m'.attributesAt p).map Prod.snd = (m.attributesAt p).map Prod.snd := by
  induction areas generalizing m with
  | nil =>
    cases h
    exact ⟨hv, fun _ => rfl⟩
  | cons e rest ih =>
    obtain ⟨⟨m₁, h₁, a⟩, hc, h⟩ := bind_ok h
    have hbound : e.2.base + e.2.size < 2 ^ 64 := ha e (by simp)
    have hchanged := PhysMap.carveWith_changed (g := fun a => (memoryType, a.2)) hv (by omega) hc
      ⟨fun _ => rfl, fun _ => rfl⟩ fun _ => rfl
    obtain ⟨hv', htypes⟩ := ih hchanged.valid (fun f hf => ha f (by simp [hf])) h
    refine ⟨hv', fun p => ?_⟩
    rw [htypes, hchanged.attributes]
    split_ifs
    · rw [Option.map_map]
      rfl
    · rfl

theorem setPieceType_same {handle h' : ℕ} (hs : s.Sound) (haddr : addr < 2 ^ 64)
    (hsize : size < 2 ^ 64)
    (h : s.setPieceType memoryType handle vma addr size = .ok (s', h')) : SameBytes s s' := by
  unfold setPieceType at h
  by_cases htype : vma.type = .direct ∨ vma.type = .pooled
  · rw [if_pos htype] at h
    obtain ⟨⟨m, h₁⟩, hcarve, h⟩ := bind_ok h
    obtain ⟨carved, hd, h⟩ := bind_ok h
    obtain ⟨dm, hset, h⟩ := bind_ok h
    obtain ⟨rfl, l, k, v, r, ha, hp, rfl⟩ := VMAMap.carveVMA_shape vmaKind_sound
      (fun _ h => h.bounded) hs.vma haddr hsize hcarve
    simp only [changed_node hs ha hp, Except.ok.injEq, id] at hd
    subst hd
    obtain ⟨hbase, hsz, hsound⟩ := VMAMap.carved_extent vmaKind_sound hs.vma ha hp
    set c := VMAMap.carved k v h₁ size
    have hw : ({ c with physAreas := retyped memoryType c.physAreas } : VirtualMemoryArea).Sound :=
      ⟨hsound.bounded, hsound.pos, fun hb => retyped_contiguous (hsound.backed hb),
        fun hb => by simp [retyped, hsound.unbacked hb]⟩
    have hcells := VMAMap.rewritten_same_cells hs.vma ha hp (changed_by hs ha hp hw hbase hsz)
      fun x _ => cell_eq rfl fun _ => byteAt_retyped _ _
    have hbounded : ∀ e ∈ c.physAreas, e.2.Bounded := by
      intro e he
      cases hb : c.hasPhysicalBacking with
      | true => exact ((hsound.backed hb).mem he).2.2.2
      | false =>
        rw [hsound.unbacked hb] at he
        cases he
    obtain ⟨hdmem, htypes⟩ := setAreaTypes_types hs.dmem hbounded hset
    dsimp only at h
    rw [changed_assign hs ha hp] at h
    cases h
    exact ⟨⟨rfl, rfl⟩, ⟨hcells.1, hdmem, hs.fmem, hs.usage_lt, hs.budget_lt⟩, hcells.2, rfl, htypes,
      rfl, rfl, rfl⟩
  · rw [if_neg htype] at h
    cases h
    exact .refl hs

theorem setDirectMemoryTypeLoop_same {handle : Option ℕ}
    (hs : s.Sound) (haddr : addr < 2 ^ 64) (hrem : remaining < 2 ^ 64)
    (h : setDirectMemoryTypeLoop memoryType fuel s handle addr remaining = .ok s') :
    SameBytes s s' := by
  induction fuel generalizing s handle addr remaining with
  | zero => cases handle <;> cases h
  | succ fuel ih =>
    cases handle with
    | none =>
      cases h
      exact .refl hs
    | some handle =>
      unfold setDirectMemoryTypeLoop at h
      by_cases h0 : remaining = 0
      · rw [if_pos h0] at h
        cases h
        exact .refl hs
      · rw [if_neg h0] at h
        obtain ⟨vma, -, h⟩ := bind_ok h
        obtain ⟨⟨s₁, h₁⟩, hset, h⟩ := bind_ok h
        obtain ⟨⟨m, h₂⟩, hmerge, h⟩ := bind_ok h
        obtain ⟨h₃, -, h⟩ := bind_ok h
        have hsame₁ := setPieceType_same hs haddr (by omega) hset
        have hsame₂ :=
          hsame₁.trans (.of_vma hsame₁.sound (VMAMap.merge_cells hsame₁.sound.vma hmerge))
        exact hsame₂.trans (ih hsame₂.sound (add64_lt _ _) (by omega) h)

theorem setDirectMemoryType_same (hs : s.Sound) (haddr : addr < 2 ^ 64) (hsize : size < 2 ^ 64)
    (h : s.setDirectMemoryType addr size memoryType = .ok (s', status)) : SameBytes s s' := by
  unfold setDirectMemoryType at h
  obtain ⟨_, -, h⟩ := bind_ok h
  obtain ⟨⟨k, vma⟩, -, h⟩ := bind_ok h
  obtain ⟨s₁, hl, h⟩ := bind_ok h
  cases h
  exact setDirectMemoryTypeLoop_same hs haddr hsize hl

/-! ### Names -/

theorem namePiece_same {m : VMAMap} {handle h' : ℕ} (hs : s.Sound)
    (haddr : addr < 2 ^ 64) (hsize : size < 2 ^ 64) (hd : deref (get? s.vmaMap handle) = .ok vma)
    (h : namePiece s.vmaMap name handle vma addr size = .ok (m, h')) :
    VMAMap.SoundMap m ∧ ∀ x, m.cellAt x = s.cellAt x := by
  have hf : VMAMap.KeepsCells ({ · with name }) :=
    ⟨⟨fun _ => rfl, fun _ => rfl⟩, fun _ => rfl, fun _ => rfl⟩
  unfold namePiece at h
  split_ifs at h
  · cases h
    exact ⟨hs.vma, fun _ => rfl⟩
  · exact VMAMap.carveWith_same_cells hs.vma haddr hsize h hf
  · cases h
    exact VMAMap.assign_same_cells hs.vma hd hf

theorem nameVirtualRangeLoop_same {handle : Option ℕ}
    (hs : s.Sound) (haddr : addr < 2 ^ 64) (hrem : remaining < 2 ^ 64)
    (h : nameVirtualRangeLoop name fuel s handle addr remaining = .ok s') : SameBytes s s' := by
  induction fuel generalizing s handle addr remaining with
  | zero => cases handle <;> cases h
  | succ fuel ih =>
    cases handle with
    | none =>
      cases h
      exact .refl hs
    | some handle =>
      unfold nameVirtualRangeLoop at h
      by_cases h0 : remaining = 0
      · rw [if_pos h0] at h
        cases h
        exact .refl hs
      · rw [if_neg h0] at h
        obtain ⟨vma, hd, h⟩ := bind_ok h
        obtain ⟨⟨m₁, h₁⟩, hname, h⟩ := bind_ok h
        obtain ⟨⟨m₂, h₂⟩, hmerge, h⟩ := bind_ok h
        obtain ⟨h₃, -, h⟩ := bind_ok h
        have hpiece := namePiece_same hs haddr (by omega) hd hname
        have hmerged := VMAMap.merge_cells hpiece.1 hmerge
        have hsame : SameBytes s { s with vmaMap := m₂ } :=
          .of_vma hs ⟨hmerged.1, fun x => (hmerged.2 x).trans (hpiece.2 x)⟩
        exact hsame.trans (ih hsame.sound (add64_lt _ _) (by omega) h)

theorem alignDown_le (value alignment : ℕ) : alignDown value alignment ≤ value := Nat.sub_le _ _

theorem nameVirtualRange_same (hs : s.Sound) (haddr : addr < 2 ^ 64)
    (hsize : size < 2 ^ 64) (h : s.nameVirtualRange addr size name = .ok s') : SameBytes s s' := by
  unfold nameVirtualRange at h
  obtain ⟨_, -, h⟩ := bind_ok h
  obtain ⟨⟨k, vma⟩, -, h⟩ := bind_ok h
  exact nameVirtualRangeLoop_same hs ((alignDown_le _ _).trans_lt haddr) (alignUp_lt _ hsize) h

end MemoryManager

end PS4Droid.Memory
