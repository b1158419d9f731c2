import PS4Droid.Memory.Effects

/-!
# What mapping does to every byte

The loops that find physical memory for a new area, and the mapping operations
built on them. `Takes` describes the loop over free flexible or uncommitted pool
memory: which bytes it records, that they are distinct and were available, and
that the host maps exactly the recorded bytes.
-/

namespace PS4Droid.Memory

open OrderedMap IntervalMap Segments

namespace MemoryManager

/-! ### Gathering memory of one type -/

/-- The loop recorded `n` bytes at the offsets from `offset` on. -/
structure Takes (source : PhysicalMemoryType)
    (change : ℤ × PhysicalMemoryType → ℤ × PhysicalMemoryType) (mapped : ℕ) (g : Gathered)
    (offset n : ℕ) (g' : Gathered) : Prop where
  valid : PhysMap.Valid g'.map
  contiguous : Contiguous 0 g'.areas (offset + n)
  before : ∀ off < offset, byteAt g'.areas off = byteAt g.areas off
  recorded : ∀ off, offset ≤ off ∧ off < offset + n → ∃ p, byteAt g'.areas off = some p ∧
    g'.host (mapped + off) = .backing p ∧ ∃ t, g.map.attributesAt p = some (t, source)
  distinct : ∀ off off', offset ≤ off ∧ off < offset + n → offset ≤ off' ∧ off' < offset + n →
    byteAt g'.areas off = byteAt g'.areas off' → off = off'
  attributes_in : ∀ p, Records g'.areas offset n p →
    g'.map.attributesAt p = (g.map.attributesAt p).map change
  attributes_out : ∀ p, ¬ Records g'.areas offset n p →
    g'.map.attributesAt p = g.map.attributesAt p
  host_out : ∀ x, ¬ (mapped + offset ≤ x ∧ x < mapped + offset + n) → g'.host x = g.host x

section Takes

variable {source : PhysicalMemoryType} {change : ℤ × PhysicalMemoryType → ℤ × PhysicalMemoryType}
  {mapped offset n : ℕ} {g g₁ g' : Gathered}

theorem Takes.nil (hv : PhysMap.Valid g.map) (hc : Contiguous 0 g.areas offset) :
    Takes source change mapped g offset 0 g where
  valid := hv
  contiguous := hc
  before := fun _ _ => rfl
  recorded := by omega
  distinct := by omega
  attributes_in := by
    rintro p ⟨off, ho, -⟩
    omega
  attributes_out := fun _ _ => rfl
  host_out := fun _ _ => rfl

theorem Takes.cons (base : ℕ) {sz : ℕ} (hsource : ∀ a, (change a).2 ≠ source)
    (hmap : PhysMap.Changed g.map base sz change g₁.map)
    (hold : ∀ p, base ≤ p ∧ p < base + sz → ∃ t, g.map.attributesAt p = some (t, source))
    (hbyte : ∀ off, byteAt g₁.areas off =
      if offset ≤ off ∧ off < offset + sz then some (base + (off - offset)) else byteAt g.areas off)
    (hhost : ∀ x, g₁.host x = if mapped + offset ≤ x ∧ x < mapped + offset + sz then
      .backing (base + (x - (mapped + offset))) else g.host x)
    (h : Takes source change mapped g₁ (offset + sz) n g') :
    Takes source change mapped g offset (sz + n) g' := by
  have hfirst : ∀ off, offset ≤ off ∧ off < offset + sz →
      byteAt g'.areas off = some (base + (off - offset)) := by
    intro off ho
    rw [h.before off ho.2, hbyte, if_pos ho]
  -- Bytes recorded later were still available after the first piece, so they are not in it.
  have hlater : ∀ off p, offset + sz ≤ off ∧ off < offset + sz + n → byteAt g'.areas off = some p →
      ¬ (base ≤ p ∧ p < base + sz) ∧ g₁.map.attributesAt p = g.map.attributesAt p := by
    intro off p ho hb
    obtain ⟨p', hb', -, t, ht⟩ := h.recorded off ho
    obtain rfl : p' = p := Option.some.inj (hb'.symm.trans hb)
    have hattr := hmap.attributes p'
    by_cases hp : base ≤ p' ∧ p' < base + sz
    · exfalso
      obtain ⟨t', ht'⟩ := hold p' hp
      rw [if_pos hp, ht', Option.map_some, ht] at hattr
      exact hsource _ (congrArg Prod.snd (Option.some.inj hattr)).symm
    · rw [if_neg hp] at hattr
      exact ⟨hp, hattr⟩
  have hrec : ∀ p, Records g'.areas offset (sz + n) p ↔
      (base ≤ p ∧ p < base + sz) ∨ Records g'.areas (offset + sz) n p := by
    intro p
    constructor
    · rintro ⟨off, ho, hb⟩
      by_cases hlt : off < offset + sz
      · rw [hfirst off (by omega)] at hb
        cases hb
        left
        omega
      · exact .inr ⟨off, by omega, hb⟩
    · rintro (hp | ⟨off, ho, hb⟩)
      · refine ⟨offset + (p - base), by omega, ?_⟩
        rw [hfirst _ (by omega)]
        simp only [Option.some.injEq]
        omega
      · exact ⟨off, by omega, hb⟩
  refine ⟨h.valid, ?_, ?_, ?_, ?_, ?_, ?_, ?_⟩
  · rw [← Nat.add_assoc]
    exact h.contiguous
  · intro off ho
    rw [h.before off (by omega), hbyte, if_neg (by omega)]
  · intro off ho
    by_cases hlt : off < offset + sz
    · refine ⟨base + (off - offset), hfirst off (by omega), ?_, hold _ (by omega)⟩
      rw [h.host_out _ (by omega), hhost, if_pos (by omega)]
      congr 1
      omega
    · obtain ⟨p, hb, hx, t, ht⟩ := h.recorded off (by omega)
      rw [(hlater off p (by omega) hb).2] at ht
      exact ⟨p, hb, hx, t, ht⟩
  · intro off off' ho ho' heq
    by_cases hlt : off < offset + sz
    · rw [hfirst off (by omega)] at heq
      by_cases hlt' : off' < offset + sz
      · rw [hfirst off' (by omega)] at heq
        simp only [Option.some.injEq] at heq
        omega
      · have := (hlater off' _ (by omega) heq.symm).1
        omega
    · by_cases hlt' : off' < offset + sz
      · rw [hfirst off' (by omega)] at heq
        have := (hlater off _ (by omega) heq).1
        omega
      · exact h.distinct off off' (by omega) (by omega) heq
  · intro p hp
    by_cases hr : Records g'.areas (offset + sz) n p
    · obtain ⟨off, ho, hb⟩ := hr
      rw [h.attributes_in p ⟨off, ho, hb⟩, (hlater off p ho hb).2]
    · have hin := ((hrec p).mp hp).resolve_right hr
      rw [h.attributes_out p hr, hmap.attributes p, if_pos hin]
  · intro p hp
    rw [hrec] at hp
    rw [h.attributes_out p fun hr => hp (.inr hr), hmap.attributes p,
      if_neg fun hin => hp (.inl hin)]
  · intro x hx
    rw [h.host_out x (by omega), hhost, if_neg (by omega)]

end Takes

variable {fuel remaining left physAddr x alignment found : ℕ} {m areas m' areas' : PhysMap}
  {flags prot : UInt32} {name : String} {validate : Bool} {q : MapRequest}

theorem takeAreas_takes {source : PhysicalMemoryType}
    {f : PhysicalMemoryArea → PhysicalMemoryArea} {mapped : ℕ} {handle : Option ℕ}
    {g g' : Gathered} {offset : ℕ}
    (h : takeAreas source f mapped fuel handle g offset remaining = .ok (g', left))
    (change : ℤ × PhysicalMemoryType → ℤ × PhysicalMemoryType)
    (hchange : ∀ a : PhysicalMemoryArea, (f a).attributes 0 = change (a.attributes 0))
    (hsource : ∀ a, (change a).2 ≠ source) (hf : PhysMap.Reattributes f)
    (hbound : mapped + offset + remaining < 2 ^ 64) (hv : PhysMap.Valid g.map)
    (hc : Contiguous 0 g.areas offset) :
    ∃ n, n + left = remaining ∧ Takes source change mapped g offset n g' := by
  induction fuel generalizing handle g offset remaining with
  | zero => cases handle <;> cases h
  | succ fuel ih =>
    cases handle with
    | none =>
      cases h
      exact ⟨0, by omega, .nil hv hc⟩
    | some handle =>
      unfold takeAreas at h
      by_cases h0 : remaining = 0
      · rw [if_pos h0] at h
        cases h
        exact ⟨0, by omega, .nil hv hc⟩
      · rw [if_neg h0] at h
        obtain ⟨area, hd, h⟩ := bind_ok h
        by_cases hs : area.dmaType ≠ source
        · rw [if_pos hs] at h
          exact ih h hbound hv hc
        · rw [if_neg hs] at h
          obtain ⟨⟨m, h₁, taken⟩, hr, h⟩ := bind_ok h
          obtain ⟨⟨areas, h₂⟩, hmerge, h⟩ := bind_ok h
          obtain ⟨l, r, ha⟩ := deref_get?_around hv.sorted hd
          have hkey : area.base = handle := hv.keyed _ ha.mem
          have hwf : area.base + area.size < 2 ^ 64 := hv.wf _ ha.mem
          obtain ⟨hmap, hbase, hsize, hb, -⟩ := PhysMap.retype_changed hv (by omega) hr hf hchange
          have hpos := hmap.pos
          have hmerged := append_merge hc (by omega) hb
          obtain ⟨areas', k', hmerge', hc', hbyte⟩ := hmerged
          rw [hmerge'] at hmerge
          cases hmerge
          have hoff : add64 offset (min remaining area.size) = offset + min remaining area.size :=
            add64_eq (by omega)
          have haddr : add64 mapped offset = mapped + offset := add64_eq (by omega)
          simp only [hoff, haddr] at h
          rw [hsize] at hc' hbyte
          obtain ⟨n, hn, ht⟩ := ih h (by omega) hmap.valid hc'
          refine ⟨min remaining area.size + n, by omega, ?_⟩
          refine Takes.cons area.base hsource hmap ?_ ?_ ?_ ht
          · intro p hp
            refine ⟨area.memoryType, ?_⟩
            have hview := viewAt_eq PhysicalMemoryArea.attributes hv.tiling ha.mem
              (x := p) (by simp only [Within, physKind_size]; omega)
            rw [PhysMap.attributesAt, hview, PhysicalMemoryArea.attributes, not_not.mp hs]
          · intro off
            simp only [hbyte, hbase]
          · intro x
            have hne : area.base ≠ noAddress := by
              unfold noAddress
              omega
            simp only [AddressSpace.map, hbase, if_neg hne]

/-! ### Direct memory -/

/-- The direct bytes `[physAddr + offset, physAddr + offset + n)` were mapped and recorded. -/
structure MapsDirect (physAddr : ℕ) (m areas : PhysMap) (offset n : ℕ) (m' areas' : PhysMap) :
    Prop where
  valid : PhysMap.Valid m'
  contiguous : Contiguous 0 areas' (offset + n)
  bytes : ∀ off, byteAt areas' off =
    if offset ≤ off ∧ off < offset + n then some (physAddr + off) else byteAt areas off
  present : ∀ p, physAddr + offset ≤ p ∧ p < physAddr + offset + n → (m.attributesAt p).isSome
  attributes : ∀ p, m'.attributesAt p =
    if physAddr + offset ≤ p ∧ p < physAddr + offset + n then
      (m.attributesAt p).map (retag .mapped)
    else
      m.attributesAt p

theorem MapsDirect.nil {offset : ℕ} (hv : PhysMap.Valid m)
    (hc : Contiguous 0 areas offset) : MapsDirect physAddr m areas offset 0 m areas := by
  refine ⟨hv, hc, ?_, by omega, ?_⟩
  · intro off
    rw [if_neg (by omega)]
  · intro p
    rw [if_neg (by omega)]

theorem MapsDirect.cons {offset sz n : ℕ} {m₁ areas₁ : PhysMap}
    (hmap : PhysMap.Changed m (physAddr + offset) sz (retag .mapped) m₁)
    (hbyte : ∀ off, byteAt areas₁ off =
      if offset ≤ off ∧ off < offset + sz then some (physAddr + offset + (off - offset))
      else byteAt areas off) (hd : MapsDirect physAddr m₁ areas₁ (offset + sz) n m' areas') :
    MapsDirect physAddr m areas offset (sz + n) m' areas' := by
  refine ⟨hd.valid, ?_, ?_, ?_, ?_⟩
  · rw [← Nat.add_assoc]
    exact hd.contiguous
  · intro off
    rw [hd.bytes, hbyte]
    by_cases h₁ : offset + sz ≤ off ∧ off < offset + sz + n
    · rw [if_pos h₁, if_pos (by omega)]
    · rw [if_neg h₁]
      by_cases h₂ : offset ≤ off ∧ off < offset + sz
      · rw [if_pos h₂, if_pos (by omega)]
        simp only [Option.some.injEq]
        omega
      · rw [if_neg h₂, if_neg (by omega)]
  · intro p hp
    by_cases hlt : p < physAddr + offset + sz
    · obtain ⟨b, hb⟩ := hmap.uniform
      rw [hb p (by omega)]
      rfl
    · have := hd.present p (by omega)
      rwa [hmap.attributes, if_neg (by omega)] at this
  · intro p
    rw [hd.attributes, hmap.attributes]
    by_cases h₁ : physAddr + offset ≤ p ∧ p < physAddr + offset + sz
    · rw [if_neg (by omega), if_pos h₁, if_pos (by omega)]
    · rw [if_neg h₁]
      by_cases h₂ : physAddr + (offset + sz) ≤ p ∧ p < physAddr + (offset + sz) + n
      · rw [if_pos h₂, if_pos (by omega)]
      · rw [if_neg h₂, if_neg (by omega)]

/-- A range that can be carved lies behind its first byte inside the area found there. -/
theorem retype_in_range {addr size h : ℕ} {b : PhysicalMemoryArea}
    {f : PhysicalMemoryArea → PhysicalMemoryArea} (hv : PhysMap.Valid m) (hsize : size < 2 ^ 64)
    (hr : PhysMap.retype m addr size f = .ok (m', h, b)) (hf : PhysMap.Reattributes f) :
    addr + size < 2 ^ 64 := by
  obtain ⟨l, k, a, r, ha, hp, -⟩ := PhysMap.retype_shape hv hsize hf hr
  have hkey : a.base = k := hv.keyed _ ha.mem
  have hwf : a.base + a.size < 2 ^ 64 := hv.wf _ ha.mem
  have hstop := hp.stop
  omega

/-- The loop only advances inside the direct map: past its end the carve fails. -/
theorem mapDirectAreas_spec {offset : ℕ}
    (h : mapDirectAreas physAddr fuel m areas (physAddr + offset) remaining = .ok (m', areas',
      left))
    (hrem : remaining < 2 ^ 64) (hoffset : physAddr + offset < 2 ^ 64) (hv : PhysMap.Valid m)
    (hc : Contiguous 0 areas offset) : ∃ n, n + left = remaining ∧ physAddr + offset + n < 2 ^ 64 ∧
      MapsDirect physAddr m areas offset n m' areas' := by
  induction fuel generalizing m areas offset remaining with
  | zero => cases h
  | succ fuel ih =>
    unfold mapDirectAreas at h
    by_cases h0 : remaining = 0
    · rw [if_pos h0] at h
      cases h
      exact ⟨0, by omega, by omega, .nil hv hc⟩
    · rw [if_neg h0] at h
      obtain ⟨⟨k, area⟩, hf, h⟩ := bind_ok h
      obtain ⟨l, r, ha, hk, -⟩ := findEntry_around hv.sorted hf
      have hkey : area.base = k := hv.keyed _ ha.mem
      have hmax : max (physAddr + offset) area.base = physAddr + offset := by
        simp only at hk
        omega
      have hoff : sub64 (physAddr + offset) physAddr = offset := by
        rw [sub64_eq (by omega) (by omega)]
        omega
      have hsz : min (sub64 area.size (sub64 (physAddr + offset) area.base)) remaining ≤
        remaining :=
        min_le_right _ _
      simp only [hmax, hoff] at h
      generalize min (sub64 area.size (sub64 (physAddr + offset) area.base)) remaining = sz at h hsz
      obtain ⟨⟨m₁, h₁, taken⟩, hr, h⟩ := bind_ok h
      obtain ⟨⟨areas₁, h₂⟩, hmerge, h⟩ := bind_ok h
      obtain ⟨hmap, hbase, hsize, hb, -⟩ :=
        PhysMap.retype_changed (g := retag .mapped) hv (by omega)
        hr ⟨fun _ => rfl, fun _ => rfl⟩ fun _ => rfl
      have hend := retype_in_range hv (by omega) hr ⟨fun _ => rfl, fun _ => rfl⟩
      have hpos := hmap.pos
      obtain ⟨areas₂, k₂, hmerge', hc', hbyte⟩ := append_merge hc (by omega) hb
      rw [hmerge'] at hmerge
      cases hmerge
      rw [hsize] at hc' hbyte
      rw [hbase] at hbyte
      have hcur : add64 (physAddr + offset) sz = physAddr + (offset + sz) := by
        rw [add64_eq hend]
        omega
      simp only [hcur] at h
      obtain ⟨n, hn, hlt, hd⟩ := ih h (by omega) (by omega) hmap.valid hc'
      exact ⟨sz + n, by omega, by omega, .cons hmap hbyte hd⟩

/-! ### New areas -/

variable {s s' s₁ : MemoryManager} {addr size k : ℕ} {l r : VMAMap} {v w : VirtualMemoryArea}
  {f : VirtualMemoryArea → VirtualMemoryArea}

theorem changed_around (hs : s.Sound) (ha : Around s.vmaMap l (k, v) r)
    (hp : Part k v.size addr size) (f : VirtualMemoryArea → VirtualMemoryArea) :
    Around (VMAMap.changed l k v r addr size f)
      (l ++ vmaKind.leading k v (addr - k) (addr - k + size)) (addr,
        f (VMAMap.carved k v addr size))
      (vmaKind.trailing k v (addr - k + size) ++ r) := by
  have hsorted :=
    ((VMAMap.carve_around vmaKind_sound hs.vma ha hp).valid vmaKind_sound hs.vma).sorted
  exact (hsorted.update (f (VMAMap.carved k v addr size))).around_of_eq

theorem changed_node (hs : s.Sound) (ha : Around s.vmaMap l (k, v) r)
    (hp : Part k v.size addr size) : deref (get? (VMAMap.changed l k v r addr size f) addr) =
      .ok (f (VMAMap.carved k v addr size)) := by
  have hget := (changed_around hs ha hp f).get?
  simp only at hget
  rw [hget]
  rfl

theorem changed_assign (hs : s.Sound) (ha : Around s.vmaMap l (k, v) r)
    (hp : Part k v.size addr size) (w : VirtualMemoryArea) :
    assign (VMAMap.changed l k v r addr size f) addr w = VMAMap.changed l k v r addr size fun _ =>
      w := by
  have hassign := (changed_around hs ha hp f).assign w
  simp only at hassign
  exact hassign

theorem changed_by (hs : s.Sound) (ha : Around s.vmaMap l (k, v) r)
    (hp : Part k v.size addr size) (hw : w.Sound) (hbase : w.base = addr) (hsize : w.size = size) :
    Rewritten vmaKind VirtualMemoryArea.Sound s.vmaMap addr size (VMAMap.carved k v addr size) w
      (VMAMap.changed l k v r addr size fun _ => w) := by
  obtain ⟨hb, hsz, hwf⟩ := VMAMap.carved_extent vmaKind_sound hs.vma ha hp
  exact { size_eq := hsz, base_eq := hb, wf := hwf, size_new := hsize, base_new := hbase
          wf_new := hw
          steps := ⟨_, _, VMAMap.carve_around vmaKind_sound hs.vma ha hp, .refl _⟩ }

theorem changed_cells (hs : s.Sound) (ha : Around s.vmaMap l (k, v) r)
    (hp : Part k v.size addr size) (hw : w.Sound) (hbase : w.base = addr) (hsize : w.size = size) :
    VMAMap.SoundMap (VMAMap.changed l k v r addr size fun _ => w) ∧
      ∀ x, (VMAMap.changed l k v r addr size fun _ => w).cellAt x =
        if addr ≤ x ∧ x < addr + size then some (w.cell (x - addr)) else s.cellAt x := by
  have hrw := changed_by hs ha hp hw hbase hsize
  exact ⟨hrw.valid vmaKind_sound hs.vma, VMAMap.rewritten_cellAt hs.vma hrw⟩

/-- A fixed mapping has unmapped its range, any other one has changed nothing yet. -/
def Cleared (s : MemoryManager) (addr size : ℕ) (flags : UInt32) (s₁ : MemoryManager) : Prop :=
  hasFlag flags MemoryMapFlags.fixed = true ∧ UnmapsRange s addr size s₁ ∨
    hasFlag flags MemoryMapFlags.fixed = false ∧ s₁ = s

/-- The free part in which a new area is created, and the state after clearing the range. -/
structure Placed (s : MemoryManager) (addr size : ℕ) (flags : UInt32) (s₁ : MemoryManager)
    (l : VMAMap) (k : ℕ) (v : VirtualMemoryArea) (r : VMAMap) : Prop where
  cleared : Cleared s addr size flags s₁
  sound : s₁.Sound
  around : Around s₁.vmaMap l (k, v) r
  part : Part k v.size addr size
  free : v.type = .free

theorem Placed.bound (h : Placed s addr size flags s₁ l k v r) :
    0 < size ∧ addr + size < 2 ^ 64 := by
  have hstop := h.part.stop
  have hkey : v.base = k := h.sound.vma.keyed _ h.around.mem
  have hwf : v.base + v.size < 2 ^ 64 := (h.sound.vma.wf _ h.around.mem).bounded
  exact ⟨h.part.pos, by omega⟩

theorem Placed.cell (h : Placed s addr size flags s₁ l k v r)
    (hx : addr ≤ x ∧ x < addr + size) : s₁.cellAt x = some ⟨.free, none⟩ := by
  rw [cellAt_part h.sound h.around.mem h.part hx]
  simp [VirtualMemoryArea.cell, VirtualMemoryArea.hasPhysicalBacking, h.free]

theorem createArea_spec (hs : s.Sound) {type : VMAType}
    {handle : ℕ} (haddr : addr < 2 ^ 64) (hsize : size < 2 ^ 64)
    (h : s.createArea addr size prot flags type name = .ok (s', handle)) :
    handle = addr ∧ ∃ s₁ l k v r, Placed s addr size flags s₁ l k v r ∧
      s' = { s₁ with
        vmaMap := VMAMap.changed l k v r addr size (newArea prot flags type name) } := by
  unfold createArea at h
  obtain ⟨s₁, hclear, h⟩ := bind_ok h
  obtain ⟨⟨k₀, v₀⟩, hf, h⟩ := bind_ok h
  obtain ⟨_, hfree, h⟩ := bind_ok h
  obtain ⟨⟨m, h₁⟩, hcarve, h⟩ := bind_ok h
  have hfree : v₀.isFree = true := require_ok hfree
  have hsome : UnmapsSome s s₁ := by
    unfold clearRange at hclear
    split_ifs at hclear
    · exact unmapRange_some hs haddr hsize hclear
    · cases hclear
      exact .refl hs
  have hs₁ := hsome.sound
  obtain ⟨rfl, l, k, v, r, ha, hp, rfl⟩ := VMAMap.carveWith_shape vmaKind_sound
    (fun _ h => h.bounded) hs₁.vma haddr hsize hcarve
  have hstart := hp.start
  have hstop := hp.stop
  have hpos := hp.pos
  cases h
  -- The area whose type was checked is the one that was carved.
  obtain ⟨rfl, rfl⟩ := findVMA_part hs₁ ha.mem hp ⟨le_rfl, by omega⟩ hf
  have hkey : v.base = k := hs₁.vma.keyed _ ha.mem
  have hwf : v.base + v.size < 2 ^ 64 := (hs₁.vma.wf _ ha.mem).bounded
  refine ⟨rfl, s₁, l, k, v, r, ⟨?_, hs₁, ha, hp, by simpa [VirtualMemoryArea.isFree] using hfree⟩,
    rfl⟩
  unfold clearRange at hclear
  split_ifs at hclear with hfixed
  · left
    refine ⟨hfixed, unmapRange_range hs ?_ (by omega) hclear⟩
    obtain ⟨R, hu⟩ := hsome
    intro x hx
    rw [← hu.isSome, cellAt_part hs₁ ha.mem hp hx]
    rfl
  · right
    cases hclear
    exact ⟨by simpa using hfixed, rfl⟩

/-- The addresses `[addr, addr + size)` got the type `type` and the backing bytes `byte`, which
had an available type before, are attached once each and were changed by `change`. -/
structure Attached (type : VMAType) (avail : PhysicalMemoryType → Prop)
    (change : ℤ × PhysicalMemoryType → ℤ × PhysicalMemoryType) (before after : PhysMap)
    (s : MemoryManager) (addr size : ℕ) (byte : ℕ → ℕ) (s' : MemoryManager) : Prop where
  cell_in : ∀ x, addr ≤ x ∧ x < addr + size → s'.cellAt x = some ⟨type, some (byte x)⟩
  cell_out : ∀ x, ¬ (addr ≤ x ∧ x < addr + size) → s'.cellAt x = s.cellAt x
  available : ∀ x, addr ≤ x ∧ x < addr + size →
    ∃ t d, before.attributesAt (byte x) = some (t, d) ∧ avail d
  distinct : ∀ x y, addr ≤ x ∧ x < addr + size → addr ≤ y ∧ y < addr + size →
    byte x = byte y → x = y
  attributes_in : ∀ x, addr ≤ x ∧ x < addr + size →
    after.attributesAt (byte x) = (before.attributesAt (byte x)).map change
  attributes_out : ∀ p, (∀ x, addr ≤ x ∧ x < addr + size → byte x ≠ p) →
    after.attributesAt p = before.attributesAt p

section Attached

variable {type : VMAType} {avail : PhysicalMemoryType → Prop} {before after : PhysMap}
  {byte : ℕ → ℕ}
  {change : ℤ × PhysicalMemoryType → ℤ × PhysicalMemoryType} {x p : ℕ}

/-- A byte behind an address was attached there, or was behind it before. -/
theorem Attached.cell_cases {t : VMAType}
    (h : Attached type avail change before after s addr size byte s')
    (hx : s'.cellAt x = some ⟨t, some p⟩) :
    (addr ≤ x ∧ x < addr + size) ∧ t = type ∧ byte x = p ∨ s.cellAt x = some ⟨t, some p⟩ := by
  by_cases hr : addr ≤ x ∧ x < addr + size
  · rw [h.cell_in x hr] at hx
    cases hx
    exact .inl ⟨hr, rfl, rfl⟩
  · exact .inr ((h.cell_out x hr).symm.trans hx)

/-- No byte is attached twice when the new ones were behind no address. -/
theorem Attached.once {y : ℕ} (h : Attached type avail change before after s addr size byte s')
    (hnew : ∀ x y, addr ≤ x ∧ x < addr + size → s.cellAt y ≠ some ⟨type, some (byte x)⟩)
    (honce : ∀ x y p, s.cellAt x = some ⟨type, some p⟩ → s.cellAt y = some ⟨type, some p⟩ → x = y)
    (hx : s'.cellAt x = some ⟨type, some p⟩) (hy : s'.cellAt y = some ⟨type, some p⟩) : x = y := by
  rcases h.cell_cases hx with ⟨hxr, -, rfl⟩ | hx <;> rcases h.cell_cases hy with ⟨hyr, -, heq⟩ | hy
  · exact h.distinct x y hxr hyr heq.symm
  · exact absurd hy (hnew x y hxr)
  · exact absurd (heq ▸ hx) (hnew y x hyr)
  · exact honce x y _ hx hy

end Attached

/-- The host maps the bytes of `[addr, addr + size)` from `mapped` on, and nothing else changed. -/
structure Hosted (s : MemoryManager) (addr mapped size : ℕ) (byte : ℕ → ℕ) (s' : MemoryManager) :
    Prop where
  host_in : ∀ x, addr ≤ x ∧ x < addr + size → s'.host (mapped + (x - addr)) = .backing (byte x)
  host_out : ∀ y, ¬ (mapped ≤ y ∧ y < mapped + size) → s'.host y = s.host y

/-- Fields that a mapping does not touch. -/
structure SameTotals (s s' : MemoryManager) : Prop where
  totalDirect : s'.totalDirectSize = s.totalDirectSize
  totalFlexible : s'.totalFlexibleSize = s.totalFlexibleSize

/-- The gathered bytes, as a function of the address they are attached to. -/
theorem Takes.attached {source : PhysicalMemoryType}
    {change : ℤ × PhysicalMemoryType → ℤ × PhysicalMemoryType} {g' : Gathered}
    {mapped : ℕ} (h : Takes source change mapped ⟨m, [], s.host⟩ 0 size g')
    (s' : MemoryManager) (type : VMAType) (addr : ℕ)
    (hcell : ∀ x, s'.cellAt x = if addr ≤ x ∧ x < addr + size then
      some ⟨type, byteAt g'.areas (x - addr)⟩ else s.cellAt x) (hhost : s'.host = g'.host) :
    ∃ byte, Attached type (· = source) change m g'.map s addr size byte s' ∧
      Hosted s addr mapped size byte s' := by
  have hrec : ∀ x, addr ≤ x ∧ x < addr + size → ∃ p, byteAt g'.areas (x - addr) = some p ∧
      g'.host (mapped + (x - addr)) = .backing p ∧ ∃ t, m.attributesAt p = some (t, source) :=
    fun x hx => h.recorded (x - addr) (by omega)
  refine ⟨fun x => (byteAt g'.areas (x - addr)).getD 0, ⟨?_, ?_, ?_, ?_, ?_, ?_⟩, ⟨?_, ?_⟩⟩
  · intro x hx
    obtain ⟨p, hp, -⟩ := hrec x hx
    rw [hcell, if_pos hx, hp]
    rfl
  · intro x hx
    rw [hcell, if_neg hx]
  · intro x hx
    obtain ⟨p, hp, -, t, ht⟩ := hrec x hx
    refine ⟨t, source, ?_, rfl⟩
    rw [hp]
    exact ht
  · intro x y hx hy heq
    obtain ⟨p, hp, -⟩ := hrec x hx
    obtain ⟨p', hp', -⟩ := hrec y hy
    simp only [hp, hp', Option.getD_some] at heq
    have := h.distinct (x - addr) (y - addr) (by omega) (by omega) (by rw [hp, hp', heq])
    omega
  · intro x hx
    obtain ⟨p, hp, -⟩ := hrec x hx
    simp only [hp, Option.getD_some]
    exact h.attributes_in p ⟨x - addr, by omega, hp⟩
  · intro p hp
    refine h.attributes_out p ?_
    rintro ⟨off, ho, hb⟩
    refine hp (addr + off) (by omega) ?_
    simp only [Nat.add_sub_cancel_left, hb, Option.getD_some]
  · intro x hx
    obtain ⟨p, hp, hh, -⟩ := hrec x hx
    rw [hhost, hp, hh]
    rfl
  · intro y hy
    rw [hhost, h.host_out y (by omega)]

theorem MapsDirect.attached (h : MapsDirect physAddr m [] 0 size m' areas') (s' : MemoryManager)
    (hne : physAddr ≠ noAddress)
    (avail : PhysicalMemoryType → Prop)
    (havail : ∀ p t d, physAddr ≤ p ∧ p < physAddr + size → m.attributesAt p = some (t, d) →
      avail d)
    (hcell : ∀ x, s'.cellAt x = if addr ≤ x ∧ x < addr + size then
      some ⟨.direct, byteAt areas' (x - addr)⟩ else s.cellAt x)
    (hhost : s'.host = AddressSpace.map s.host addr size physAddr) :
    Attached .direct avail (retag .mapped) m m' s addr size (fun x => physAddr + (x - addr)) s' ∧
      Hosted s addr addr size (fun x => physAddr + (x - addr)) s' := by
  refine ⟨⟨?_, ?_, ?_, ?_, ?_, ?_⟩, ⟨?_, ?_⟩⟩
  · intro x hx
    rw [hcell, if_pos hx, h.bytes, if_pos (by omega)]
  · intro x hx
    rw [hcell, if_neg hx]
  · intro x hx
    obtain ⟨⟨t, d⟩, hattr⟩ :=
      Option.isSome_iff_exists.mp (h.present (physAddr + (x - addr)) (by omega))
    exact ⟨t, d, hattr, havail _ t d (by omega) hattr⟩
  · intro x y hx hy heq
    omega
  · intro x hx
    simp only [h.attributes, if_pos (show physAddr + 0 ≤ physAddr + (x - addr) ∧
      physAddr + (x - addr) < physAddr + 0 + size by omega)]
  · intro p hp
    rw [h.attributes, if_neg]
    intro hin
    exact hp (addr + (p - physAddr)) (by omega) (by omega)
  · intro x hx
    rw [show addr + (x - addr) = x by omega]
    simp only [hhost, AddressSpace.map, if_pos hx, if_neg hne]
  · intro y hy
    simp only [hhost, AddressSpace.map, if_neg hy]

/-! ### The mapping operations -/

theorem checkDirectAreas_types {stop : ℕ} (hv : PhysMap.Valid m)
    (h : checkDirectAreas validate stop m = none) {e : ℕ × PhysicalMemoryArea} (he : e ∈ m)
    (hlt : e.1 < stop) : (e.2.dmaType = .allocated ∨ e.2.dmaType = .mapped) ∧
      (validate = true → e.2.dmaType ≠ .mapped) := by
  induction m with
  | nil => cases he
  | cons f rest ih =>
    obtain ⟨k, a⟩ := f
    have hk : a.base = k := hv.keyed (k, a) (by simp)
    have hapart := List.pairwise_cons.mp hv.sorted
    have hle : k ≤ e.1 := by
      rcases List.mem_cons.mp he with rfl | he
      · exact le_rfl
      · exact (hapart.1 e he).le
    unfold checkDirectAreas at h
    rw [if_pos (by omega)] at h
    split_ifs at h with h₁ h₂
    rcases List.mem_cons.mp he with rfl | he
    · exact ⟨by tauto, fun hval hm => h₂ ⟨hval, hm⟩⟩
    · exact ih (hv.right (l := [(k, a)])) h he

/-- A physical range that passes the checks of `MapMemory` has been allocated. -/
theorem checkPhysicalRange_types (hs : s.Sound)
    (hne : physAddr ≠ noAddress) (hb : physAddr + size < 2 ^ 64)
    (h : s.checkPhysicalRange validate physAddr size = .ok none) {p : ℕ} {t : ℤ}
    {d : PhysicalMemoryType} (hp : physAddr ≤ p ∧ p < physAddr + size)
    (hattr : s.dmemAt p = some (t, d)) :
    (d = .allocated ∨ d = .mapped) ∧ (validate = true → d ≠ .mapped) := by
  unfold checkPhysicalRange at h
  rw [if_neg hne, add64_eq hb] at h
  split_ifs at h
  · cases h
  · obtain ⟨first, hf, h⟩ := bind_ok h
    have hcheck := pure_ok h
    obtain ⟨e, he, hx, hview⟩ := viewAt_eq_some hattr
    simp only [PhysicalMemoryArea.attributes, Prod.mk.injEq] at hview
    obtain ⟨l, r, ha, hk, -⟩ := findEntry_around hs.dmem.sorted hf
    rw [ha.above] at hcheck
    have hdmem : PhysMap.Valid (l ++ first :: r) := ha.eq ▸ hs.dmem
    have hmem : e ∈ first :: r := by
      rw [ha.eq] at he
      refine (List.mem_append.mp he).resolve_left fun hl => ?_
      have := hdmem.tiling.mem_left_lt hl (by simp : first ∈ first :: r)
      unfold Within at hx
      omega
    unfold Within at hx
    have := checkDirectAreas_types hdmem.right hcheck hmem (by omega)
    rwa [hview.2] at this

theorem newArea_sound (prot flags : UInt32) {type : VMAType} (name : String) (hv : v.Sound)
    (ht : type ≠ .direct ∧ type ≠ .flexible ∧ type ≠ .pooled) :
    (newArea prot flags type name v).Sound := by
  refine ⟨hv.bounded, hv.pos, fun hb => ?_, fun _ => rfl⟩
  simp [newArea, VirtualMemoryArea.hasPhysicalBacking, ht.1, ht.2.1, ht.2.2] at hb

theorem newArea_cell {type : VMAType}
    (ht : type ≠ .direct ∧ type ≠ .flexible ∧ type ≠ .pooled) (off : ℕ) :
    (newArea prot flags type name v).cell off = ⟨type, none⟩ := by
  simp [newArea, VirtualMemoryArea.cell, VirtualMemoryArea.hasPhysicalBacking, ht.1, ht.2.1, ht.2.2]

theorem backed_sound (hv : v.Bounded) (hb : v.hasPhysicalBacking = true)
    (hpos : 0 < size) (hsize : v.size = size) (hc : Contiguous 0 areas size) :
    ({ v with physAreas := areas } : VirtualMemoryArea).Sound := by
  subst hsize
  refine ⟨hv, hpos, fun _ => hc, fun hn => ?_⟩
  have hn' : v.hasPhysicalBacking = false := hn
  rw [hb] at hn'
  cases hn'

theorem backed_cell (hb : v.hasPhysicalBacking = true) (off : ℕ) :
    ({ v with physAreas := areas } : VirtualMemoryArea).cell off = ⟨v.type, byteAt areas off⟩ := by
  have hb' : ({ v with physAreas := areas } : VirtualMemoryArea).hasPhysicalBacking = true := by
    rw [← hb]
    exact hasPhysicalBacking_congr rfl
  simp [VirtualMemoryArea.cell, hb']

theorem coalesce_cells (hv : VMAMap.SoundMap s.vmaMap) {type : VMAType} {handle : ℕ} {m : VMAMap}
    (h : s.coalesce type handle = .ok m) : VMAMap.SoundMap m ∧ ∀ x, m.cellAt x = s.cellAt x := by
  unfold coalesce at h
  split_ifs at h
  · obtain ⟨⟨m', h'⟩, hm, rfl⟩ := map_ok h
    exact VMAMap.merge_cells hv hm
  · cases h
    exact ⟨hv, fun _ => rfl⟩

/-- What a mapping without physical memory does. -/
structure MapsPlain (type : VMAType) (s : MemoryManager) (addr size : ℕ) (s' : MemoryManager) :
    Prop where
  cell_in : ∀ x, addr ≤ x ∧ x < addr + size → s'.cellAt x = some ⟨type, none⟩
  cell_out : ∀ x, ¬ (addr ≤ x ∧ x < addr + size) → s'.cellAt x = s.cellAt x
  host_out : ∀ x, ¬ (addr ≤ x ∧ x < addr + size) → s'.host x = s.host x
  dmemMap : s'.dmemMap = s.dmemMap
  fmemMap : s'.fmemMap = s.fmemMap
  usage : s'.flexibleUsage = s.flexibleUsage

/-- The effect of a successful `MapMemory` at `addr`, after its range has been cleared. -/
inductive Mapped (q : MapRequest) (s : MemoryManager) (addr : ℕ) (s' : MemoryManager) : Prop
  | flexible (byte : ℕ → ℕ) (ht : q.type = .flexible)
      (h : Attached .flexible (· = .free) (retag .flexible) s.fmemMap s'.fmemMap s addr q.size byte
        s')
      (hh : Hosted s addr addr q.size byte s')
      (hd : s'.dmemMap = s.dmemMap) (hu : s'.flexibleUsage = add64 s.flexibleUsage q.size)
  | direct (ht : q.type = .direct) (hne : q.physAddr ≠ noAddress)
      (hb : q.physAddr + q.size < 2 ^ 64)
      (h : ∀ avail : PhysicalMemoryType → Prop,
        (∀ p t d, q.physAddr ≤ p ∧ p < q.physAddr + q.size → s.dmemAt p = some (t, d) → avail d) →
        Attached .direct avail (retag .mapped) s.dmemMap s'.dmemMap s addr q.size
          (fun x => q.physAddr + (x - addr)) s')
      (hh : Hosted s addr addr q.size (fun x => q.physAddr + (x - addr)) s')
      (hf : s'.fmemMap = s.fmemMap) (hu : s'.flexibleUsage = s.flexibleUsage)
  | plain (ht : q.type ≠ .direct ∧ q.type ≠ .flexible) (h : MapsPlain q.type s addr q.size s')

theorem alignUp_lt {value : ℕ} (alignment : ℕ) (h : value < 2 ^ 64) :
    alignUp value alignment < 2 ^ 64 := by
  unfold alignUp
  split_ifs
  · exact h
  · exact add64_lt _ _

theorem searchAbove_lt {limit : ℕ} {m : VMAMap} (hm : ∀ e ∈ m, e.2.base < 2 ^ 64) :
    searchAbove size alignment limit m < 2 ^ 64 := by
  induction m with
  | nil => norm_num [searchAbove, noAddress]
  | cons e rest ih =>
    have hrest := ih fun f hf => hm f (by simp [hf])
    have hbase := alignUp_lt alignment (hm e (by simp))
    unfold searchAbove
    dsimp only
    split_ifs
    · exact hrest
    · norm_num [noAddress]
    · exact hbase
    · exact hrest
    · exact hrest

theorem isValidMapping_lt (h : s.isValidMapping addr size = .ok true) : addr < 2 ^ 64 := by
  unfold isValidMapping at h
  obtain ⟨last, -, h⟩ := bind_ok h
  obtain ⟨first, -, h⟩ := bind_ok h
  split_ifs at h with hout
  · cases h
  all_goals
    have := add64_lt last.1 last.2.size
    omega

theorem searchFree_lt (hs : s.Sound)
    (h : s.searchFree addr size alignment = .ok found) : found < 2 ^ 64 := by
  unfold searchFree at h
  obtain ⟨valid, hvalid, h⟩ := bind_ok h
  obtain ⟨_, hr, h⟩ := bind_ok h
  have hlt := isValidMapping_lt (require_ok hr ▸ hvalid)
  by_cases ha : alignment % 2 ^ 32 = 0
  · rw [if_pos ha] at h
    cases h
  · rw [if_neg ha] at h
    obtain ⟨⟨k, vma⟩, -, h⟩ := bind_ok h
    dsimp only at h
    split_ifs at h
    · cases h
      exact alignUp_lt _ hlt
    · cases h
      refine searchAbove_lt ?_
      intro e he
      have hmem : e ∈ s.vmaMap := List.dropWhile_subset _ he
      have : e.2.base + e.2.size < 2 ^ 64 := (hs.vma.wf e hmem).bounded
      omega

theorem placeMapping_spec (hs : s.Sound)
    (haddr : addr < 2 ^ 64) (h : s.placeMapping addr size flags alignment = .ok (some found)) :
    found < 2 ^ 64 ∧ (hasFlag flags MemoryMapFlags.fixed = true → found = addr) := by
  unfold placeMapping at h
  by_cases hf : hasFlag flags MemoryMapFlags.fixed = true
  · rw [if_pos hf] at h
    split_ifs at h
    · obtain ⟨_, -, h⟩ := bind_ok h
      obtain ⟨⟨k, vma⟩, -, h⟩ := bind_ok h
      dsimp only at h
      split_ifs at h <;> cases h
      exact ⟨haddr, fun _ => rfl⟩
    · cases h
      exact ⟨haddr, fun _ => rfl⟩
  · rw [if_neg hf] at h
    obtain ⟨found', hsearch, h⟩ := bind_ok h
    split_ifs at h <;> cases h
    exact ⟨searchFree_lt hs hsearch, fun h => absurd h hf⟩

/-- The new area after its creation, with what the operation adds to it. -/
theorem Placed.newArea (h : Placed s addr size flags s₁ l k v r) (prot : UInt32)
    (type : VMAType) (name : String) :
    (MemoryManager.newArea prot flags type name (VMAMap.carved k v addr size)).base = addr ∧
      (MemoryManager.newArea prot flags type name (VMAMap.carved k v addr size)).size = size ∧
      (VMAMap.carved k v addr size).Sound :=
  VMAMap.carved_extent vmaKind_sound h.sound.vma h.around h.part

/-- The new area with physical memory of its whole size. -/
theorem Placed.backed (h : Placed s addr size flags s₁ l k v r) {type t : VMAType}
    (htype : type = t) (ht : t = .flexible ∨ t = .direct) (prot : UInt32) (name : String)
    {areas : PhysMap} (hc : Contiguous 0 areas size) :
    let area := MemoryManager.newArea prot flags type name (VMAMap.carved k v addr size)
    let map := VMAMap.changed l k v r addr size fun _ => { area with physAreas := areas }
    VMAMap.SoundMap map ∧ ∀ x, map.cellAt x =
      if addr ≤ x ∧ x < addr + size then some ⟨t, byteAt areas (x - addr)⟩ else s₁.cellAt x := by
  intro area map
  obtain ⟨hbase, hsize, hsound⟩ := h.newArea prot type name
  have hback : area.hasPhysicalBacking = true := by
    rcases ht with rfl | rfl
    all_goals simp [area, MemoryManager.newArea, VirtualMemoryArea.hasPhysicalBacking, htype]
  have hw := backed_sound (v := area) hsound.bounded hback h.bound.1 hsize hc
  obtain ⟨hmap, hcells⟩ := changed_cells h.sound h.around h.part hw hbase hsize
  refine ⟨hmap, fun x => (hcells x).trans ?_⟩
  rw [backed_cell hback, ← htype]
  rfl

theorem Cleared.totals (h : Cleared s addr size flags s₁) :
    SameTotals s s₁ ∧ s₁.poolBudget = s.poolBudget := by
  rcases h with ⟨-, h⟩ | ⟨-, rfl⟩
  · exact ⟨⟨h.totalDirect, h.totalFlexible⟩, h.budget⟩
  · exact ⟨⟨rfl, rfl⟩, rfl⟩

/-- Attaching physical memory to the new area, whatever it is mapped to on the host. -/
theorem backArea_spec (hsize : q.size < 2 ^ 64) (hphys : q.physAddr < 2 ^ 64)
    (hpool : q.type ≠ .pooled) (hp : Placed s addr q.size q.flags s₁ l k v r)
    {host : AddressSpace} {m : VMAMap} {s₂ : MemoryManager} (h : ({ s₁ with
      vmaMap := VMAMap.changed l k v r addr q.size (newArea q.prot q.flags q.type q.name) } :
        MemoryManager).backArea q addr = .ok s₂)
    (hm : VMAMap.SoundMap s₂.vmaMap → VMAMap.SoundMap m ∧ ∀ x, m.cellAt x = s₂.cellAt x)
    (hhost : host = if q.type ≠ .reserved ∧ q.type ≠ .poolReserved ∧ q.type ≠ .flexible then
      AddressSpace.map s₂.host addr q.size q.physAddr else s₂.host) :
    ({ s₂ with vmaMap := m, host } : MemoryManager).Sound ∧ s₂.poolBudget = s₁.poolBudget ∧
      SameTotals s₁ s₂ ∧ Mapped q s₁ addr { s₂ with vmaMap := m, host } := by
  obtain ⟨hbase, hsz, hsound⟩ := hp.newArea q.prot q.type q.name
  have hnode := changed_node (f := MemoryManager.newArea q.prot q.flags q.type q.name) hp.sound
    hp.around hp.part
  have hassign := changed_assign (f := MemoryManager.newArea q.prot q.flags q.type q.name) hp.sound
    hp.around hp.part
  obtain ⟨hpos, hbound⟩ := hp.bound
  set area := MemoryManager.newArea q.prot q.flags q.type q.name (VMAMap.carved k v addr q.size)
  have hplain : (VMAMap.changed l k v r addr q.size fun _ => area) =
      VMAMap.changed l k v r addr q.size (MemoryManager.newArea q.prot q.flags q.type q.name) := rfl
  generalize VMAMap.changed l k v r addr q.size
    (MemoryManager.newArea q.prot q.flags q.type q.name) = map at h hnode hassign hplain
  unfold backArea at h
  simp only [hnode, ok_bind] at h
  cases htype : q.type <;> simp only [htype] at h
  case flexible =>
    obtain ⟨⟨g, left⟩, htake, h⟩ := bind_ok h
    obtain ⟨_, hleft, h⟩ := bind_ok h
    obtain rfl : left = 0 := require_ok hleft
    simp only [hassign] at h
    cases h
    rw [hbase] at htake
    obtain ⟨n, hn, ht⟩ := takeAreas_takes htake (retag .flexible) (fun _ => rfl)
      (fun _ => by simp [retag]) ⟨fun _ => rfl, fun _ => rfl⟩ (by omega) hp.sound.fmem rfl
    obtain rfl : n = q.size := by omega
    have hc : Contiguous 0 g.areas q.size := by
      have := ht.contiguous
      rwa [Nat.zero_add] at this
    obtain ⟨hmap, hcells⟩ := hp.backed htype (.inl rfl) q.prot q.name hc
    obtain ⟨hsound', hcells'⟩ := hm hmap
    have hh : host = g.host := by
      rw [hhost, if_neg (by simp [htype])]
    obtain ⟨byte, hatt, hhosted⟩ := ht.attached
      { s₁ with
        vmaMap := m, fmemMap := g.map, host
        flexibleUsage := add64 s₁.flexibleUsage q.size }
      .flexible addr (fun x => (hcells' x).trans (hcells x)) hh
    refine ⟨⟨hsound', hp.sound.dmem, ht.valid, add64_lt _ _, hp.sound.budget_lt⟩, rfl, ⟨rfl, rfl⟩,
      .flexible byte htype hatt hhosted rfl rfl⟩
  case direct =>
    obtain ⟨⟨dm, areas, left⟩, hdirect, h⟩ := bind_ok h
    obtain ⟨_, hleft, h⟩ := bind_ok h
    obtain rfl : left = 0 := require_ok hleft
    simp only [hassign] at h
    cases h
    rw [← Nat.add_zero q.physAddr] at hdirect
    obtain ⟨n, hn, hend, hd⟩ := mapDirectAreas_spec hdirect hsize (by omega) hp.sound.dmem rfl
    obtain rfl : n = q.size := by omega
    have hc : Contiguous 0 areas q.size := by
      have := hd.contiguous
      rwa [Nat.zero_add] at this
    have hne : q.physAddr ≠ noAddress := by
      unfold noAddress
      omega
    obtain ⟨hmap, hcells⟩ := hp.backed htype (.inr rfl) q.prot q.name hc
    obtain ⟨hsound', hcells'⟩ := hm hmap
    have hh : host = AddressSpace.map s₁.host addr q.size q.physAddr := by
      rw [hhost, if_pos (by simp [htype])]
    have hattached := fun avail havail => hd.attached
      { s₁ with vmaMap := m, dmemMap := dm, host } hne avail havail
      (fun x => (hcells' x).trans (hcells x)) hh
    exact ⟨⟨hsound', hd.valid, hp.sound.fmem, hp.sound.usage_lt, hp.sound.budget_lt⟩, rfl,
      ⟨rfl, rfl⟩, .direct htype hne (by omega) (fun avail havail => (hattached avail havail).1)
        (hattached (fun _ => True) fun _ _ _ _ _ => trivial).2 rfl rfl⟩
  case pooled => exact absurd htype hpool
  all_goals
    cases h
    have ht : q.type ≠ .direct ∧ q.type ≠ .flexible ∧ q.type ≠ .pooled := by simp [htype]
    obtain ⟨hmap, hcells⟩ := changed_cells hp.sound hp.around hp.part
      (newArea_sound q.prot q.flags q.name hsound ht) hbase hsz
    rw [hplain] at hmap hcells
    obtain ⟨hsound', hcells'⟩ := hm hmap
    refine ⟨⟨hsound', hp.sound.dmem, hp.sound.fmem, hp.sound.usage_lt, hp.sound.budget_lt⟩, rfl,
      ⟨rfl, rfl⟩, .plain ⟨ht.1, ht.2.1⟩ ⟨?_, ?_, ?_, rfl, rfl, rfl⟩⟩
    · intro x hx
      rw [cellAt, hcells']
      refine (hcells x).trans ?_
      rw [if_pos hx, newArea_cell ht]
    · intro x hx
      rw [cellAt, hcells']
      refine (hcells x).trans ?_
      rw [if_neg hx]
    · intro x hx
      simp only [hhost]
      split_ifs
      · simp only [AddressSpace.map, if_neg hx]
      · rfl

theorem mapMemory_spec (hs : s.Sound) (haddr : q.virtualAddr < 2 ^ 64)
    (hsize : q.size < 2 ^ 64) (hphys : q.physAddr < 2 ^ 64) (hpool : q.type ≠ .pooled)
    (h : s.mapMemory q = .ok (s', .ok, addr)) :
    s'.Sound ∧ s'.poolBudget = s.poolBudget ∧ SameTotals s s' ∧
      s.checkPhysicalRange q.validateDmem q.physAddr q.size = .ok none ∧
      s.placeMapping q.virtualAddr q.size q.flags
        (if q.alignment > 0 then q.alignment else kiB 16) = .ok (some addr) ∧
      ¬ (q.type = .flexible ∧ add64 s.flexibleUsage q.size > s.totalFlexibleSize) ∧
      ∃ s₁ l k v r, Placed s addr q.size q.flags s₁ l k v r ∧ Mapped q s₁ addr s' := by
  unfold mapMemory at h
  by_cases husage : q.type = .flexible ∧ add64 s.flexibleUsage q.size > s.totalFlexibleSize
  · rw [if_pos husage] at h
    cases h
  · rw [if_neg husage] at h
    obtain ⟨check, hcheck, h⟩ := bind_ok h
    cases check with
    | some code => cases h
    | none =>
      obtain ⟨place, hplace, h⟩ := bind_ok h
      cases place with
      | none => cases h
      | some found =>
        obtain ⟨⟨s₀, handle⟩, hcreate, h⟩ := bind_ok h
        obtain ⟨vma, hd, h⟩ := bind_ok h
        obtain ⟨s₂, hback, h⟩ := bind_ok h
        obtain ⟨m, hmerge, hret⟩ := bind_ok h
        obtain ⟨hfound, -⟩ := placeMapping_spec hs haddr hplace
        obtain ⟨rfl, s₁, l, k, v, r, hp, rfl⟩ := createArea_spec hs hfound hsize hcreate
        rw [changed_node hp.sound hp.around hp.part] at hd
        cases hd
        have hbase := (hp.newArea q.prot q.type q.name).1
        simp only [hbase] at hret
        cases hret
        obtain ⟨hsound, hbudget, htotals, hmapped⟩ := backArea_spec hsize hphys hpool hp hback
          (fun hv => coalesce_cells hv hmerge) rfl
        obtain ⟨ht, hb⟩ := hp.cleared.totals
        exact ⟨hsound, hbudget.trans hb, ⟨htotals.totalDirect.trans ht.totalDirect,
          htotals.totalFlexible.trans ht.totalFlexible⟩, hcheck, hplace, husage, s₁, l, k, v, r, hp,
          hmapped⟩

/-- The host mapping of a file changes nothing outside the mapped range. -/
theorem mapFile_host_out {host : AddressSpace} {validSize handle : ℕ}
    (hb : addr + size < 2 ^ 64) (hx : ¬ (addr ≤ x ∧ x < addr + size)) :
    (if validSize < size then
      AddressSpace.map (AddressSpace.mapFile host addr size physAddr handle) (add64 addr validSize)
        (size - validSize) noAddress
    else AddressSpace.mapFile host addr size physAddr handle) x = host x := by
  have hfile : AddressSpace.mapFile host addr size physAddr handle x = host x := by
    simp only [AddressSpace.mapFile, if_neg hx]
  split_ifs
  · rw [add64_eq (by omega), AddressSpace.map, if_neg (by omega), hfile]
  · exact hfile

theorem mapFile_spec (hs : s.Sound) {request : ℕ} {fd : ℤ}
    {file : Option OpenFile} (haddr : request < 2 ^ 64) (hsize : size < 2 ^ 64)
    (h : s.mapFile request size prot flags fd file physAddr = .ok (s', .ok, addr)) :
    s'.Sound ∧ s'.poolBudget = s.poolBudget ∧ SameTotals s s' ∧
      s.placeMapping request size flags (kiB 16) = .ok (some addr) ∧
      ∃ s₁ l k v r, Placed s addr size flags s₁ l k v r ∧ MapsPlain .file s₁ addr size s' := by
  unfold mapFile at h
  cases file with
  | none => cases h
  | some file =>
    dsimp only at h
    by_cases hregular : file.isRegular = false
    · rw [if_pos hregular] at h
      cases h
    · rw [if_neg hregular] at h
      obtain ⟨_, -, h⟩ := bind_ok h
      obtain ⟨place, hplace, h⟩ := bind_ok h
      cases place with
      | none => cases h
      | some found =>
        obtain ⟨⟨s₀, handle⟩, hcreate, h⟩ := bind_ok h
        obtain ⟨vma, hd, hret⟩ := bind_ok h
        obtain ⟨hfound, -⟩ := placeMapping_spec hs haddr hplace
        obtain ⟨rfl, s₁, l, k, v, r, hp, rfl⟩ := createArea_spec hs hfound hsize hcreate
        rw [changed_node hp.sound hp.around hp.part] at hd
        simp only [Except.ok.injEq] at hd
        subst hd
        obtain ⟨hpos, hbound⟩ := hp.bound
        obtain ⟨hbase, hsz, hsound⟩ :=
          VMAMap.carved_extent vmaKind_sound hp.sound.vma hp.around hp.part
        dsimp only at hret
        rw [changed_assign hp.sound hp.around hp.part] at hret
        set area : VirtualMemoryArea := newArea _ flags .file "anon" (VMAMap.carved k v handle size)
          with harea
        have hplain : VMAType.file ≠ .direct ∧ VMAType.file ≠ .flexible ∧
          VMAType.file ≠ .pooled := by
          decide
        have hw : ({ area with fd } : VirtualMemoryArea).Sound :=
          ⟨hsound.bounded, hsound.pos, fun hb => by
            simp [harea, newArea, VirtualMemoryArea.hasPhysicalBacking] at hb, fun _ => rfl⟩
        have harea_base : area.base = handle := hbase
        obtain ⟨hmap, hcells⟩ := changed_cells hp.sound hp.around hp.part hw hbase hsz
        simp only [harea_base] at hmap hcells hret
        cases hret
        obtain ⟨ht, hbudget⟩ := hp.cleared.totals
        refine ⟨⟨hmap, hp.sound.dmem, hp.sound.fmem, hp.sound.usage_lt, hp.sound.budget_lt⟩,
          hbudget,
          ⟨ht.totalDirect, ht.totalFlexible⟩, hplace, s₁, l, k, v, r, hp,
            ⟨?_, ?_, ?_, rfl, rfl, rfl⟩⟩
        · intro x hx
          refine (hcells x).trans ?_
          rw [if_pos hx]
          rfl
        · intro x hx
          refine (hcells x).trans ?_
          rw [if_neg hx]
        · intro x hx
          exact mapFile_host_out hbound hx

end MemoryManager

end PS4Droid.Memory
