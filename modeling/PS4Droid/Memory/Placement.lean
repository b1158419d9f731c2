import PS4Droid.Memory.Search

/-!
# Where a mapping is placed

`SearchFree` tries the aligned start address in its area and then the least aligned address of every
free area behind it. Its alignment is a `u32`, so that a larger one is searched for by its low bits.
-/

namespace PS4Droid.Memory

open OrderedMap IntervalMap Segments MemoryManager

section Search

variable {alignment size start maxAddress : ℕ} {l rest : VMAMap} {e : ℕ × VirtualMemoryArea}

/-- A free area that the search looks at: that of the aligned start, or one whose aligned base is in
bounds. -/
def Searched (alignment start maxAddress : ℕ) (v : VirtualMemoryArea) : Prop :=
  v.isFree = true ∧ (v.base ≤ roundUp start alignment ∨ roundUp v.base alignment < maxAddress)

/-- An aligned block at or behind the start, in an area that the search looks at. -/
def Place (alignment size start maxAddress : ℕ) (areas : VMAMap) (addr : ℕ) : Prop :=
  Fits VirtualMemoryArea.size (Searched alignment start maxAddress) alignment size start areas addr

/-- The search finds the first place, or `-1` if there is none. -/
inductive FindsFirst (alignment size start maxAddress : ℕ) (areas : VMAMap) : ℕ → Prop
  | found {addr : ℕ} (hleast : IsLeast {a | Place alignment size start maxAddress areas a} addr)
      (hlt : addr < noAddress) : FindsFirst alignment size start maxAddress areas addr
  | none (hnone : ∀ a, ¬Place alignment size start maxAddress areas a) :
      FindsFirst alignment size start maxAddress areas noAddress

theorem FindsFirst.congr {addr : ℕ} (h : FindsFirst alignment size start maxAddress rest addr)
    (hsame : ∀ a, Place alignment size start maxAddress l a ↔
      Place alignment size start maxAddress rest a) :
    FindsFirst alignment size start maxAddress l addr := by
  cases h with
  | found hleast hlt =>
    refine .found ?_ hlt
    simpa only [hsame] using hleast
  | none hnone => exact .none fun a ha => hnone a ((hsame a).mp ha)

/-- Areas behind the aligned start are tried one after the other. -/
theorem searchAbove_finds (ha : 0 < alignment ∧ alignment < 2 ^ 32) (hsize : 0 < size)
    (hv : VMAMap.SoundMap l)
    (hlow : ∀ e ∈ l, e.1 + e.2.size ≤ 2 ^ 63)
    (hbehind : ∀ e ∈ l, start ≤ e.1 ∧ roundUp start alignment < e.1) :
    FindsFirst alignment size start maxAddress l (searchAbove size alignment maxAddress l) := by
  induction l with
  | nil => exact .none fun a => not_fits_nil
  | cons e rest ih =>
    obtain ⟨k, v⟩ := e
    have hbase : v.base = k := hv.keyed (k, v) (by simp)
    have hpos : 0 < v.size := hv.tiling.pos (k, v) (by simp)
    have hend := hlow (k, v) (by simp)
    obtain ⟨hstart, hk⟩ := hbehind (k, v) (by simp)
    simp only at hend hstart hk
    have hrest := ih (hv.right (l := [(k, v)])) (fun e he => hlow e (by simp [he])) fun e he =>
      hbehind e (by simp [he])
    have halign : alignUp v.base alignment = roundUp v.base alignment :=
      alignUp_eq_roundUp ⟨ha.1, by omega⟩ (by omega) (le_alignUp (by omega) ⟨ha.1, by omega⟩)
    have hmax : max start k = k := max_eq_right hstart
    have hpass : ¬(Searched alignment start maxAddress v ∧
      roundUp k alignment + size ≤ k + v.size) →
        ∀ a, Place alignment size start maxAddress ((k, v) :: rest) a ↔
          Place alignment size start maxAddress rest a := fun hnot a => by
      refine fits_cons_of_not ha.1 ?_
      simpa only [hmax] using hnot
    have hle := le_roundUp k ha.1
    unfold searchAbove
    dsimp only
    rw [halign, hbase, add64_eq (by omega)]
    by_cases hfree : v.isFree = true
    · rw [if_pos hfree]
      by_cases hskip : roundUp k alignment > k + v.size
      · rw [if_pos hskip]
        exact hrest.congr (hpass fun h => by omega)
      · rw [if_neg hskip]
        by_cases hbound : roundUp k alignment ≥ maxAddress
        · -- The areas behind start out of bounds, too.
          rw [if_pos hbound]
          refine .none ?_
          rintro a ⟨-, -, f, hf, ⟨-, hin⟩, -⟩
          have hkey : f.2.base = f.1 := hv.keyed f hf
          have hf' := hbehind f hf
          have hmono : k ≤ f.1 := by
            rcases List.mem_cons.mp hf with rfl | hf
            · exact le_rfl
            · have : k + v.size ≤ f.1 := (List.pairwise_cons.mp hv.tiling.apart).1 f hf
              omega
          have := roundUp_mono ha.1 hmono
          rw [hkey] at hin
          omega
        · rw [if_neg hbound, sub64_eq (by omega) (by omega)]
          have hsearched : Searched alignment start maxAddress v :=
            ⟨hfree, .inr (by rw [hbase]; omega)⟩
          by_cases hfits : k + v.size - roundUp k alignment ≥ size
          · rw [if_pos hfits]
            have hleast : IsLeast {a | Place alignment size start maxAddress ((k, v) :: rest) a}
                (roundUp (max start k) alignment) :=
              isLeast_fits_cons ha.1 hv.tiling hsearched (by rw [hmax]; simp only; omega)
            rw [hmax] at hleast
            exact .found hleast (by unfold noAddress; omega)
          · rw [if_neg hfits]
            exact hrest.congr (hpass fun h => by omega)
    · rw [if_neg hfree]
      exact hrest.congr (hpass fun h => hfree h.1.1)

/-- The least aligned address behind the start and a base below it. -/
theorem roundUp_max {k : ℕ} (ha : 0 < alignment) (hk : k ≤ roundUp start alignment) :
    roundUp (max start k) alignment = roundUp start alignment :=
  le_antisymm (roundUp_le ha (max_le (le_roundUp start ha) hk) (dvd_roundUp start alignment))
    (roundUp_mono ha (le_max_left start k))

theorem place_right {r : VMAMap} (ha : 0 < alignment) (hsize : 0 < size)
    (hv : VMAMap.SoundMap (l ++ e :: r)) (hk : e.1 ≤ roundUp start alignment) (a : ℕ) :
    Place alignment size start maxAddress (l ++ e :: r) a ↔
      Place alignment size start maxAddress (e :: r) a := by
  constructor
  · rintro ⟨habove, haligned, f, hf, hfree, hle, hend⟩
    refine ⟨habove, haligned, f, (List.mem_append.mp hf).resolve_left fun hl => ?_, hfree, hle,
      hend⟩
    have hbefore : f.1 + f.2.size ≤ e.1 := hv.tiling.mem_left_lt hl (by simp : e ∈ e :: r)
    have := roundUp_le ha habove haligned
    omega
  · exact fun h => h.of_mem fun _ he => List.mem_append_right _ he

end Search

namespace MemoryManager

variable {s : MemoryManager} {alignment size start : ℕ} {c : Config}

/-- The addresses that the search is given, clamped to the managed ones. -/
def clampedStart (s : MemoryManager) (virtualAddr : ℕ) : ℕ :=
  max virtualAddr s.layout.systemManagedBase

def maxSearchAddress (s : MemoryManager) : ℕ := add64 s.layout.userBase s.layout.userSize

/-- The end of the block at the aligned start wraps around to before the end of the free area found
for it. -/
def StartWraps (s : MemoryManager) (alignment size start : ℕ) : Prop :=
  ∃ k v, s.findVMA (roundUp start alignment) = .ok (k, v) ∧ v.isFree = true ∧
    2 ^ 64 ≤ roundUp start alignment + size ∧ roundUp start alignment + size - 2 ^ 64 ≤ k + v.size

theorem area_low (hr : Regular c s) {e : ℕ × VirtualMemoryArea} (he : e ∈ s.vmaMap) :
    e.1 + e.2.size ≤ 2 ^ 63 := by
  have hpos : 0 < e.2.size := hr.sound.vma.tiling.pos e he
  have := hr.low (e.1 + e.2.size - 1) (by
    rw [cellAt, VMAMap.cellAt_mem hr.sound.vma he (by omega)]
    rfl)
  omega

theorem valid_low (hr : Regular c s) (hvalid : s.isValidMapping start 0 = .ok true) :
    start < 2 ^ 63 := by
  unfold isValidMapping at hvalid
  obtain ⟨last, hlast, hvalid⟩ := bind_ok hvalid
  obtain ⟨first, -, hvalid⟩ := bind_ok hvalid
  by_contra hlow
  have hend := area_low hr (List.mem_of_mem_getLast? (deref_ok hlast))
  rw [if_pos (.inr (by rw [add64_eq (by omega)]; omega))] at hvalid
  cases hvalid

/-- From a valid address on, the search for an address finds an area. -/
theorem exists_findVMA_above (hs : s.Sound) {addr : ℕ}
    (hvalid : s.isValidMapping start 0 = .ok true)
    (hle : start ≤ addr) : ∃ e, s.findVMA addr = .ok e := by
  obtain ⟨e, he⟩ := exists_findVMA hs hvalid
  obtain ⟨l, r, ha, hk, -⟩ := findEntry_around hs.vma.sorted he
  rw [findVMA, findEntry]
  cases hfloor : floor s.vmaMap addr with
  | some e => exact ⟨e, rfl⟩
  | none =>
    have := floor_eq_none hs.vma.sorted hfloor e ha.mem
    omega

variable {virtualAddr : ℕ}

/-- Unless the block at the start wraps around, the search finds the first place. -/
theorem searchFree_finds (hr : Regular c s) (hsize : 0 < size ∧ size < 2 ^ 64)
    (ha : 0 < alignment % 2 ^ 32)
    (hvalid : s.isValidMapping (s.clampedStart virtualAddr) 0 = .ok true) :
    ∃ addr, s.searchFree virtualAddr size alignment = .ok addr ∧
      (s.StartWraps (alignment % 2 ^ 32) size (s.clampedStart virtualAddr) →
        addr = roundUp (s.clampedStart virtualAddr) (alignment % 2 ^ 32)) ∧
      (¬s.StartWraps (alignment % 2 ^ 32) size (s.clampedStart virtualAddr) →
        FindsFirst (alignment % 2 ^ 32) size
          (s.clampedStart virtualAddr) s.maxSearchAddress s.vmaMap addr) := by
  have hlow : s.clampedStart virtualAddr < 2 ^ 63 := valid_low hr hvalid
  have hsearch : s.searchFree virtualAddr size alignment = (do
      let found ← s.findVMA (alignUp (s.clampedStart virtualAddr) (alignment % 2 ^ 32))
      if found.2.isFree && found.2.contains
        (alignUp (s.clampedStart virtualAddr) (alignment % 2 ^ 32)) size then
        return alignUp (s.clampedStart virtualAddr) (alignment % 2 ^ 32)
      else
        return searchAbove size (alignment % 2 ^ 32) s.maxSearchAddress
          (above s.vmaMap found.1)) := by
    unfold searchFree
    rw [← clampedStart]
    dsimp only
    rw [hvalid, ok_bind, require_pos rfl, ok_bind, if_neg (by omega)]
    rfl
  have hlt32 : alignment % 2 ^ 32 < 2 ^ 32 := Nat.mod_lt _ (by norm_num)
  generalize alignment % 2 ^ 32 = alignment at ha hsearch hlt32 ⊢
  rw [hsearch]
  generalize s.clampedStart virtualAddr = start at hlow hvalid ⊢
  rw [alignUp_eq_roundUp ⟨ha, by omega⟩ (by omega) (le_alignUp hlow ⟨ha, by omega⟩)]
  have hstart := le_roundUp start ha
  have hlt := roundUp_lt start ha
  obtain ⟨⟨k, v⟩, hf⟩ := exists_findVMA_above hr.sound hvalid hstart
  obtain ⟨l, r, hsplit, hk, hlater⟩ := findEntry_around hr.sound.vma.sorted hf
  have hbase : v.base = k := hr.sound.vma.keyed _ hsplit.mem
  have hend : k + v.size ≤ 2 ^ 63 := area_low hr hsplit.mem
  have hv : VMAMap.SoundMap (l ++ (k, v) :: r) := hsplit.eq ▸ hr.sound.vma
  have hcontains : v.contains (roundUp start alignment) size = true ↔
      add64 (roundUp start alignment) size ≤ k + v.size := by
    rw [VirtualMemoryArea.contains, hbase, add64_eq (a := k) (by omega)]
    simp only [Bool.and_eq_true, decide_eq_true_eq, ge_iff_le]
    exact ⟨And.right, And.intro hk⟩
  have hmax : roundUp (max start k) alignment = roundUp start alignment := roundUp_max ha hk
  have hplaces := @place_right alignment size start s.maxSearchAddress l (k, v) r ha hsize.1 hv hk
  rw [← hsplit.eq] at hplaces
  rw [hf, ok_bind]
  dsimp only
  by_cases hhit : (v.isFree && v.contains (roundUp start alignment) size) = true
  · rw [if_pos hhit]
    obtain ⟨hfree, hcont⟩ := Bool.and_eq_true_iff.mp hhit
    rw [hcontains] at hcont
    refine ⟨_, rfl, fun _ => rfl, fun hwraps => .found ?_ (by unfold noAddress; omega)⟩
    have hnowrap : roundUp start alignment + size < 2 ^ 64 := by
      by_contra hover
      refine hwraps ⟨k, v, hf, hfree, by omega, ?_⟩
      unfold add64 at hcont
      omega
    rw [add64_eq hnowrap] at hcont
    have hleast : IsLeast {a | Place alignment size start s.maxSearchAddress ((k, v) :: r) a}
        (roundUp (max start k) alignment) :=
      isLeast_fits_cons ha hv.right.tiling ⟨hfree, .inl (by rwa [hbase])⟩
        (by rw [hmax]; exact hcont)
    rw [hmax] at hleast
    simpa only [hplaces] using hleast
  · rw [if_neg hhit]
    refine ⟨_, rfl, ?_, fun _ => ?_⟩
    · rintro ⟨k', v', hf', hfree, hover, hle⟩
      rw [hf] at hf'
      cases hf'
      refine absurd (Bool.and_eq_true_iff.mpr ⟨hfree, hcontains.mpr ?_⟩) hhit
      unfold add64
      omega
    · have habove := hsplit.above
      simp only at habove
      rw [habove]
      have hbehind : ∀ e ∈ r, start ≤ e.1 ∧ roundUp start alignment < e.1 := fun e he => by
        have := hlater e he
        omega
      have hrest : FindsFirst alignment size start s.maxSearchAddress r
          (searchAbove size alignment s.maxSearchAddress r) :=
        searchAbove_finds ⟨ha, hlt32⟩ hsize.1 (hv.right.right (l := [(k, v)]))
          (fun e he => area_low hr (by rw [hsplit.eq]; simp [he])) hbehind
      have hnot : ∀ a, Place alignment size start s.maxSearchAddress ((k, v) :: r) a ↔
          Place alignment size start s.maxSearchAddress r a := fun a => by
        refine fits_cons_of_not ha ?_
        rintro ⟨hsearched, hroom⟩
        refine hhit (Bool.and_eq_true_iff.mpr ⟨hsearched.1, ?_⟩)
        simp only [hmax] at hroom
        rw [hcontains, add64_eq (by omega)]
        exact hroom
      exact (hrest.congr hnot).congr hplaces

/-! ### Sound and complete searches -/

/-- `[addr, addr + size)` lies in one free area. -/
def FreeRange (s : MemoryManager) (addr size : ℕ) : Prop :=
  ∃ e ∈ s.vmaMap, e.2.isFree = true ∧ e.1 ≤ addr ∧ addr + size ≤ e.1 + e.2.size

/-- An aligned block at or behind the start in a free area that starts below the maximum search
address. -/
def Room (s : MemoryManager) (alignment size start : ℕ) (addr : ℕ) : Prop :=
  (start ≤ addr ∧ alignment ∣ addr) ∧
    ∃ e ∈ s.vmaMap, (e.2.isFree = true ∧ e.1 < s.maxSearchAddress) ∧ e.1 ≤ addr ∧
      addr + size ≤ e.1 + e.2.size

/-- The search returns an aligned address of free memory, or `-1` if there is no room. -/
def SearchesFree (s : MemoryManager) (alignment size start : ℕ) (result : Except Fault ℕ) : Prop :=
  ∃ addr, result = .ok addr ∧
    if addr = noAddress then ∀ a, ¬s.Room alignment size start a
    else alignment ∣ addr ∧ s.FreeRange addr size

/-- The low bits of the alignment are not zero, the block at the start does not wrap around, and the
first place for the low bits of a larger alignment is aligned; if there is none, then there is no
room for an aligned block. -/
structure SearchFits (s : MemoryManager) (alignment size start : ℕ) : Prop where
  divisor : alignment % 2 ^ 32 ≠ 0
  straight : ¬s.StartWraps (alignment % 2 ^ 32) size start
  aligned : 2 ^ 32 ≤ alignment →
    ∀ a, IsLeast {a | Place (alignment % 2 ^ 32) size start s.maxSearchAddress s.vmaMap a} a →
      alignment ∣ a
  complete : (∀ a, ¬Place (alignment % 2 ^ 32) size start s.maxSearchAddress s.vmaMap a) →
    ∀ a, ¬s.Room alignment size start a

theorem searchFree_sound_iff (hr : Regular c s) (hsize : 0 < size ∧ size < 2 ^ 64)
    (hvalid : s.isValidMapping (s.clampedStart virtualAddr) 0 = .ok true) :
    s.SearchesFree alignment size (s.clampedStart virtualAddr)
    (s.searchFree virtualAddr size alignment) ↔
      s.SearchFits alignment size (s.clampedStart virtualAddr) := by
  by_cases h0 : alignment % 2 ^ 32 = 0
  · -- The division by zero.
    refine iff_of_false ?_ fun h => h.divisor h0
    rintro ⟨addr, hres, -⟩
    unfold searchFree at hres
    rw [← clampedStart] at hres
    dsimp only at hres
    rw [hvalid, ok_bind, require_pos rfl, ok_bind, if_pos h0] at hres
    cases hres
  have ha : 0 < alignment % 2 ^ 32 := by omega
  obtain ⟨addr, hres, hwrapped, hfinds⟩ := searchFree_finds hr hsize ha hvalid
  rw [hres]
  have hlow := valid_low hr hvalid
  have hlt := roundUp_lt (s.clampedStart virtualAddr) ha
  have hlt32 : alignment % 2 ^ 32 < 2 ^ 32 := Nat.mod_lt _ (by norm_num)
  by_cases hwraps : s.StartWraps (alignment % 2 ^ 32) size (s.clampedStart virtualAddr)
  · -- The block would end behind every area.
    refine iff_of_false ?_ fun h => h.straight hwraps
    rintro ⟨addr', heq, hok⟩
    cases heq
    obtain rfl := hwrapped hwraps
    obtain ⟨k, v, -, -, hover, -⟩ := hwraps
    rw [if_neg (by unfold noAddress; omega)] at hok
    obtain ⟨-, e, he, -, -, hend⟩ := hok
    have := area_low hr he
    omega
  · cases hfinds hwraps with
    | found hleast hne =>
      constructor
      · rintro ⟨addr', heq, hok⟩
        cases heq
        rw [if_neg (by omega)] at hok
        refine ⟨h0, hwraps, fun _ a ha' => ?_, fun hnone => absurd hleast.1 (hnone _)⟩
        rw [ha'.unique hleast]
        exact hok.1
      · intro h
        refine ⟨addr, rfl, ?_⟩
        rw [if_neg (by omega)]
        obtain ⟨-, hdvd, e, he, hsearched, hin⟩ := hleast.1
        refine ⟨?_, e, he, hsearched.1, hin⟩
        by_cases hwide : 2 ^ 32 ≤ alignment
        · exact h.aligned hwide addr hleast
        · rwa [Nat.mod_eq_of_lt (by omega)] at hdvd
    | none hnone =>
      constructor
      · rintro ⟨addr', heq, hok⟩
        cases heq
        rw [if_pos rfl] at hok
        exact ⟨h0, hwraps, fun _ a ha' => absurd ha'.1 (hnone _), fun _ => hok⟩
      · intro h
        refine ⟨noAddress, rfl, ?_⟩
        rw [if_pos rfl]
        exact h.complete hnone

end MemoryManager

section Guest

variable {c : Config} {P : Kernel → GuestCall → Prop} {k : Kernel}

/-- From a start that passes the assertion, `SearchFree` is sound and complete for the alignment
that `MapMemory` hands to it exactly when its low bits find the same. -/
theorem search_free_iff (hc : c.Usable) (h : Reachable c P k) (virtualAddr size alignment : UInt64)
    (hpos : 0 < size.toNat)
    (hvalid : k.memory.isValidMapping (k.memory.clampedStart virtualAddr.toNat) 0 = .ok true) :
    k.memory.SearchesFree (usedAlignment alignment.toNat (kiB 16)) size.toNat
        (k.memory.clampedStart virtualAddr.toNat)
        (k.memory.searchFree virtualAddr.toNat size.toNat
          (usedAlignment alignment.toNat (kiB 16))) ↔
      k.memory.SearchFits (usedAlignment alignment.toNat (kiB 16)) size.toNat
        (k.memory.clampedStart virtualAddr.toNat) :=
  MemoryManager.searchFree_sound_iff (h.direct_pos hc).1 ⟨hpos, size.toNat_lt⟩ hvalid

theorem search_free_iff_started :
    startedKernel.memory.SearchesFree 0x4000 0x8000 0x200000000
        (startedKernel.memory.searchFree 0x200000000 0x8000 0x4000) ↔
      startedKernel.memory.SearchFits 0x4000 0x8000 0x200000000 :=
  search_free_iff Config.oneRegion_usable (P := fun _ _ =>
    True) startedKernel_reachable 0x200000000 0x8000 0 (by decide)
    (by decide)

/-- A multiple of the page size above 4 GiB passes the check of the mapping calls, but the address
that is found is aligned to its low bits only. -/
theorem search_free_fails :
    badAlignment 0x100010000 (kiB 16) = false ∧
      Reachable Config.oneRegion (fun _ _ => True) startedKernel ∧
      ¬startedKernel.memory.SearchesFree 0x100010000 0x4000 0x200000000
        (startedKernel.memory.searchFree 0x200000000 0x4000 0x100010000) := by
  refine ⟨by decide, startedKernel_reachable, ?_⟩
  rintro ⟨addr, hres, hok⟩
  have hfound : startedKernel.memory.searchFree 0x200000000 0x4000 0x100010000 =
    .ok 0x200000000 := by decide
  rw [hfound] at hres
  cases hres
  rw [if_neg (by decide)] at hok
  exact absurd hok.1 (by decide)

end Guest

end PS4Droid.Memory
