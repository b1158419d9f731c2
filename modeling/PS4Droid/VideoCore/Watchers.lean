import PS4Droid.VideoCore.MemoryTracker

/-!
# The watchers of a region

A region and the page manager agree when every page has as many watchers as the shadow bits of the
region say. An update of the protection keeps the agreement if all the pages whose bit differs from
its shadow are to be changed in the direction that the update is told.
-/

namespace PS4Droid.VideoCore

/-! ### Counting -/

namespace PageState

def watchers (isRead : Bool) (state : PageState) : ℕ :=
  if isRead then state.numReadWatchers else state.numWriteWatchers

def withWatchers (isRead : Bool) (count : ℕ) (state : PageState) : PageState :=
  if isRead then { state with numReadWatchers := count }
  else { state with numWriteWatchers := count }

@[simp] theorem watchers_withWatchers (isRead : Bool) (count : ℕ) (state : PageState) :
    (state.withWatchers isRead count).watchers isRead = count := by
  cases isRead <;> rfl

@[simp] theorem watchers_withWatchers_not (isRead : Bool) (count : ℕ) (state : PageState) :
    (state.withWatchers isRead count).watchers (!isRead) = state.watchers (!isRead) := by
  cases isRead <;> rfl

/-- A page that has no watcher gets one, and one that has one loses it. -/
theorem addDelta_ok {track isRead : Bool} {state : PageState}
    (h : state.watchers isRead = if track then 0 else 1) :
    state.addDelta track isRead = .ok (state.withWatchers isRead (if track then 1 else 0)) := by
  obtain ⟨write, read⟩ := state
  cases isRead <;> cases track <;>
    simp only [watchers, if_true, Bool.false_eq_true, if_false] at h <;> subst h <;> rfl

end PageState

section Loops

variable {track isRead : Bool} {pages : Pages}

theorem watchLoop_ok {update : ℕ → Bool} {count page : ℕ}
    (h : ∀ q, page ≤ q → q < page + count → update q →
      (pages q).watchers isRead = if track then 0 else 1) :
    ∃ pages', watchLoop track isRead update count page pages = .ok pages' ∧
      ∀ q, pages' q = if (page ≤ q ∧ q < page + count) ∧ update q
        then (pages q).withWatchers isRead (if track then 1 else 0) else pages q := by
  induction count generalizing page pages with
  | zero =>
    refine ⟨pages, rfl, fun q => ?_⟩
    rw [if_neg (by omega)]
  | succ count ih =>
    unfold watchLoop
    by_cases hup : update page
    · rw [if_pos hup, PageState.addDelta_ok (h page le_rfl (by omega) hup)]
      obtain ⟨pages', heq, hpages⟩ := @ih (Function.update pages page
        ((pages page).withWatchers isRead (if track then 1 else 0))) (page + 1) (by
          intro q hq hlt hupq
          rw [Function.update_of_ne (by omega)]
          exact h q (by omega) (by omega) hupq)
      refine ⟨pages', heq, fun q => ?_⟩
      rw [hpages q]
      by_cases hq : q = page
      · subst hq
        have hin : (q ≤ q ∧ q < q + (count + 1)) ∧ update q := ⟨by omega, hup⟩
        rw [if_neg (by omega), Function.update_self, if_pos hin]
      · rw [Function.update_of_ne hq]
        exact if_congr (and_congr_left fun _ => by omega) rfl rfl
    · rw [if_neg hup]
      obtain ⟨pages', heq, hpages⟩ := @ih pages (page + 1)
        fun q hq hlt hupq => h q (by omega) (by omega) hupq
      refine ⟨pages', heq, fun q => ?_⟩
      rw [hpages q]
      by_cases hq : q = page
      · subst hq
        rw [if_neg (by omega), if_neg (by tauto)]
      · exact if_congr (and_congr_left fun _ => by omega) rfl rfl

end Loops

section Masks

open BitRanges

variable {track isRead : Bool} {pages : Pages} {index : ℕ} {mask : ℕ → Bool} {q : ℕ}

/-- The page of the region whose bit is set. -/
def InMask (index : ℕ) (mask : ℕ → Bool) (q : ℕ) : Prop :=
  q / numPagesPerRegion = index ∧ mask (q % numPagesPerRegion)

instance : Decidable (InMask index mask q) := inferInstanceAs (Decidable (_ ∧ _))

theorem inMask_iff : InMask index mask q ↔
    (index * numPagesPerRegion ≤ q ∧ q < index * numPagesPerRegion + numPagesPerRegion) ∧
      mask (q - index * numPagesPerRegion) := by
  unfold InMask
  have hpage : q / numPagesPerRegion = index ↔
      index * numPagesPerRegion ≤ q ∧ q < index * numPagesPerRegion + numPagesPerRegion := by
    simp only [numPagesPerRegion]
    omega
  rw [hpage]
  refine and_congr_right fun hin => ?_
  have hmod : q % numPagesPerRegion = q - index * numPagesPerRegion := by
    simp only [numPagesPerRegion] at *
    omega
  rw [hmod]

/-- The pages between the first and the last bit, of which the set ones are taken. -/
theorem mem_ranges : ((index * numPagesPerRegion + (firstRangeFrom numPagesPerRegion mask 0).1 ≤ q ∧
      q < index * numPagesPerRegion + (firstRangeFrom numPagesPerRegion mask 0).1 +
        (lastRangeEnd mask numPagesPerRegion - (firstRangeFrom numPagesPerRegion mask 0).1)) ∧
      mask (q - index * numPagesPerRegion)) ↔ InMask index mask q := by
  obtain ⟨-, hmid, hub, hbelow, -⟩ := firstRangeFrom_spec mask (Nat.zero_le numPagesPerRegion)
  obtain ⟨hlast, habove⟩ := lastRangeEnd_spec mask numPagesPerRegion
  rw [inMask_iff]
  refine and_congr_left fun hbit => ⟨fun h => by omega, fun h => ⟨?_, ?_⟩⟩
  · by_contra hlt
    rw [hbelow _ (by omega) (by omega)] at hbit
    exact absurd hbit (by simp)
  · by_contra hge
    rw [habove _ (by omega) (by omega)] at hbit
    exact absurd hbit (by simp)

/-- If the first range is the last one, a bit is set exactly inside it. -/
theorem mem_oneRange
    (hone : (firstRangeFrom numPagesPerRegion mask 0).2 = lastRangeEnd mask numPagesPerRegion) :
    (index * numPagesPerRegion + (firstRangeFrom numPagesPerRegion mask 0).1 ≤ q ∧
      q < index * numPagesPerRegion + (firstRangeFrom numPagesPerRegion mask 0).1 +
        ((firstRangeFrom numPagesPerRegion mask 0).2 -
          (firstRangeFrom numPagesPerRegion mask 0).1)) ↔
      InMask index mask q := by
  obtain ⟨-, hmid, hub, -, hin, -⟩ := firstRangeFrom_spec mask (Nat.zero_le numPagesPerRegion)
  rw [← mem_ranges, ← hone]
  refine ⟨fun h => ⟨h, hin _ (by omega) (by omega)⟩, fun h => h.1⟩

/-- The page of an address in a region, and the page behind a range of whole pages. -/
theorem regionPage (index first : ℕ) :
    (index * trackerHigherPageSize + first * trackerBytesPerPage) / trackerBytesPerPage =
      index * numPagesPerRegion + first := by
  simp only [trackerHigherPageSize, trackerBytesPerPage, numPagesPerRegion]
  omega

theorem regionPageEnd (index first count : ℕ) :
    (index * trackerHigherPageSize + first * trackerBytesPerPage + count * trackerBytesPerPage +
      (trackerBytesPerPage - 1)) / trackerBytesPerPage = index * numPagesPerRegion + first +
        count := by
  simp only [trackerHigherPageSize, trackerBytesPerPage, numPagesPerRegion]
  omega

theorem regionBase (index : ℕ) :
    index * trackerHigherPageSize / trackerBytesPerPage = index * numPagesPerRegion := by
  simp only [trackerHigherPageSize, trackerBytesPerPage, numPagesPerRegion]
  omega

/-- Both paths of the function change exactly the pages of the mask. -/
theorem updatePageWatchersForRegion_ok (h : ∀ i, i < numPagesPerRegion → mask i →
      (pages (index * numPagesPerRegion + i)).watchers isRead = if track then 0 else 1) :
    ∃ pages', updatePageWatchersForRegion track isRead pages (index * trackerHigherPageSize) mask =
        .ok pages' ∧ ∀ q, pages' q = if q / numPagesPerRegion = index ∧ mask (q % numPagesPerRegion)
        then (pages q).withWatchers isRead (if track then 1 else 0) else pages q := by
  have hcount : ∀ q, InMask index mask q → (pages q).watchers isRead = if track then 0 else 1 := by
    intro q hq
    obtain ⟨hin, hbit⟩ := inMask_iff.mp hq
    have := h (q - index * numPagesPerRegion) (by omega) hbit
    rwa [Nat.add_sub_cancel' hin.1] at this
  unfold updatePageWatchersForRegion
  by_cases hone : (firstRangeFrom numPagesPerRegion mask 0).2 = lastRangeEnd mask numPagesPerRegion
  · rw [if_pos hone]
    unfold updatePageWatchers
    simp only [regionPage, regionPageEnd, Nat.add_sub_cancel_left]
    obtain ⟨pages', heq, hpages⟩ := @watchLoop_ok track isRead pages (fun _ => true)
      ((firstRangeFrom numPagesPerRegion mask 0).2 - (firstRangeFrom numPagesPerRegion mask 0).1)
      (index * numPagesPerRegion + (firstRangeFrom numPagesPerRegion mask 0).1)
      fun q hq hlt _ => hcount q ((mem_oneRange hone).mp ⟨hq, hlt⟩)
    refine ⟨pages', heq, fun q => (hpages q).trans (if_congr ?_ rfl rfl)⟩
    exact (and_iff_left rfl).trans (mem_oneRange hone)
  · rw [if_neg hone, regionBase]
    obtain ⟨pages', heq, hpages⟩ := @watchLoop_ok track isRead pages
      (fun page => mask (page - index * numPagesPerRegion))
      (lastRangeEnd mask numPagesPerRegion - (firstRangeFrom numPagesPerRegion mask 0).1)
      (index * numPagesPerRegion + (firstRangeFrom numPagesPerRegion mask 0).1)
      fun q hq hlt hbit => hcount q (mem_ranges.mp ⟨⟨hq, hlt⟩, hbit⟩)
    exact ⟨pages', heq, fun q => (hpages q).trans (if_congr mem_ranges rfl rfl)⟩

end Masks

/-! ### One region -/

namespace RegionManager

variable {mode : GpuReadbacksMode} {index : ℕ} {m m' : RegionManager} {pages pages' : Pages}

/-- The page manager has the watchers that the shadow bits of the region say. -/
def Agrees (isRead : Bool) (index : ℕ) (m : RegionManager) (pages : Pages) : Prop :=
  ∀ i, i < numPagesPerRegion →
    (pages (index * numPagesPerRegion + i)).watchers isRead = if m.shadow isRead i then 0 else 1

/-- Only pages of the region have changed. -/
def OnlyIn (index : ℕ) (pages pages' : Pages) : Prop :=
  ∀ q, q / numPagesPerRegion ≠ index → pages' q = pages q

theorem reconciled_shadow (isRead : Bool) :
    (m.reconciled isRead).shadow isRead = m.wanted isRead := by
  cases isRead <;> rfl

/-- What an update of the protection does when its direction is right. -/
structure Reconciled (isRead : Bool) (index : ℕ) (m : RegionManager) (pages : Pages)
    (m' : RegionManager) (pages' : Pages) : Prop where
  same : m' = m ∨ m' = m.reconciled isRead
  shadow : ∀ i, i < numPagesPerRegion → m'.shadow isRead i = m.wanted isRead i
  agrees : Agrees isRead index m' pages'
  others : ∀ q, (pages' q).watchers (!isRead) = (pages q).watchers (!isRead)
  onlyIn : OnlyIn index pages pages'

theorem updateProtection_ok {track isRead : Bool}
    (haddr : m.cpuAddr = index * trackerHigherPageSize) (hagrees : Agrees isRead index m pages)
    (hdir : ∀ i, i < numPagesPerRegion → m.wanted isRead i ≠ m.shadow isRead i →
      m.wanted isRead i = !track) :
    ∃ m' pages', m.updateProtection track isRead pages = .ok (m', pages') ∧
      Reconciled isRead index m pages m' pages' := by
  unfold updateProtection
  by_cases hnone : BitRanges.none numPagesPerRegion fun i => m.wanted isRead i ^^ m.shadow isRead i
  · refine ⟨m, pages, if_pos hnone, .inl rfl, fun i hi => ?_, hagrees, fun _ => rfl, fun _ _ => rfl⟩
    have := BitRanges.none_iff.mp hnone i hi
    simpa using (bne_eq_false_iff_eq.mp this).symm
  · obtain ⟨pages', heq, hpages⟩ := @updatePageWatchersForRegion_ok track isRead
      pages index (fun i => m.wanted isRead i ^^ m.shadow isRead i) (by
        intro i hi hbit
        have hne : m.wanted isRead i ≠ m.shadow isRead i := by simpa using hbit
        have hwanted := hdir i hi hne
        rw [hagrees i hi]
        cases track <;> simp_all)
    refine ⟨m.reconciled isRead, pages', ?_, .inr rfl, fun i _ => ?_, fun i hi => ?_, fun q => ?_,
      fun q hq => ?_⟩
    · rw [haddr]
      simp only [hnone, Bool.false_eq_true, if_false]
      rw [heq]
      rfl
    · rw [reconciled_shadow]
    · have hdiv : (index * numPagesPerRegion + i) / numPagesPerRegion = index := by
        simp only [numPagesPerRegion] at *
        omega
      have hmod : (index * numPagesPerRegion + i) % numPagesPerRegion = i := by
        simp only [numPagesPerRegion] at *
        omega
      rw [hpages, hdiv, hmod, reconciled_shadow]
      have hold := hagrees i hi
      have hwanted := hdir i hi
      split_ifs with h <;> simp_all
    · rw [hpages q]
      split_ifs <;> simp
    · rw [hpages q, if_neg fun h => hq h.1]

/-! ### Changing the bits of a region -/

/-- The bits of a region, its shadow bits and the page manager fit together. -/
structure Consistent (mode : GpuReadbacksMode) (index : ℕ) (m : RegionManager) (pages : Pages) :
    Prop where
  cpuAddr : m.cpuAddr = index * trackerHigherPageSize
  index_lt : index < numHighPages
  writeable : ∀ i, i < numPagesPerRegion → m.writeable i = m.cpu i
  readable : ∀ i, i < numPagesPerRegion →
    m.readable i = if mode = .precise then !m.gpu i else true
  write : Agrees false index m pages
  read : Agrees true index m pages

theorem create_consistent (hlt : index < numHighPages)
    (h : ∀ i, i < numPagesPerRegion → pages (index * numPagesPerRegion + i) = ⟨0, 0⟩) :
    Consistent mode index (create (index * trackerHigherPageSize)) pages := by
  refine ⟨rfl, hlt, fun _ _ => rfl, fun i _ => ?_, fun i hi => ?_, fun i hi => ?_⟩
  · cases mode <;> rfl
  · rw [h i hi]
    rfl
  · rw [h i hi]
    rfl

theorem Consistent.congr (h : Consistent mode index m pages) (hpages : ∀ i, i < numPagesPerRegion →
      pages' (index * numPagesPerRegion + i) = pages (index * numPagesPerRegion + i)) :
    Consistent mode index m pages' :=
  { h with
    write := fun i hi => (congrArg _ (hpages i hi)).trans (h.write i hi)
    read := fun i hi => (congrArg _ (hpages i hi)).trans (h.read i hi) }

/-- What an operation on a region leaves: consistent again, and the other pages untouched. -/
structure Kept (mode : GpuReadbacksMode) (index : ℕ) (pages : Pages) (m' : RegionManager)
    (pages' : Pages) : Prop where
  consistent : Consistent mode index m' pages'
  onlyIn : OnlyIn index pages pages'

theorem Consistent.kept (h : Consistent mode index m pages) : Kept mode index pages m pages :=
  ⟨h, fun _ _ => rfl⟩

theorem Consistent.changeCpu (h : Consistent mode index m pages) (cpu : ℕ → Bool) (track : Bool)
    (hdir : ∀ i, i < numPagesPerRegion → cpu i ≠ m.cpu i → cpu i = !track) :
    ∃ m' pages', updateProtection track false { m with cpu := cpu } pages = .ok (m', pages') ∧
      Kept mode index pages m' pages' ∧ m'.cpu = cpu ∧ m'.gpu = m.gpu := by
  obtain ⟨m', pages', heq, hrec⟩ := @updateProtection_ok index { m with cpu := cpu } pages
    track false h.cpuAddr h.write
    fun i hi hne => hdir i hi (h.writeable i hi ▸ hne)
  have hsame : m'.cpuAddr = m.cpuAddr ∧ m'.cpu = cpu ∧ m'.gpu = m.gpu ∧
      m'.readable = m.readable := by
    rcases hrec.same with rfl | rfl <;> exact ⟨rfl, rfl, rfl, rfl⟩
  obtain ⟨haddr, hcpu, hgpu, hreadable⟩ := hsame
  refine ⟨m', pages', heq, ⟨⟨haddr.trans h.cpuAddr, h.index_lt, ?_, ?_, hrec.agrees, ?_⟩,
    hrec.onlyIn⟩, hcpu, hgpu⟩
  · intro i hi
    rw [hcpu]
    exact hrec.shadow i hi
  · intro i hi
    rw [hreadable, hgpu]
    exact h.readable i hi
  · intro i hi
    have hshadow : m'.shadow true = m.shadow true := hreadable
    rw [hshadow]
    exact (hrec.others _).trans (h.read i hi)

theorem Consistent.changeGpu (h : Consistent mode index m pages) (gpu : ℕ → Bool) (track : Bool)
    (hdir : ∀ i, i < numPagesPerRegion → (!gpu i) ≠ m.readable i → gpu i = track)
    (hafter : ∀ i, i < numPagesPerRegion → mode = .precise ∨ gpu i = false) :
    ∃ m' pages', updateProtection track true { m with gpu := gpu } pages = .ok (m', pages') ∧
      Kept mode index pages m' pages' ∧ m'.cpu = m.cpu ∧ m'.gpu = gpu := by
  obtain ⟨m', pages', heq, hrec⟩ := @updateProtection_ok index { m with gpu := gpu } pages
    track true h.cpuAddr h.read
    fun i hi hne => congrArg not (hdir i hi hne)
  have hsame : m'.cpuAddr = m.cpuAddr ∧ m'.cpu = m.cpu ∧ m'.gpu = gpu ∧
      m'.writeable = m.writeable := by
    rcases hrec.same with rfl | rfl <;> exact ⟨rfl, rfl, rfl, rfl⟩
  obtain ⟨haddr, hcpu, hgpu, hwriteable⟩ := hsame
  refine ⟨m', pages', heq, ⟨⟨haddr.trans h.cpuAddr, h.index_lt, ?_, ?_, ?_, hrec.agrees⟩,
    hrec.onlyIn⟩, hcpu, hgpu⟩
  · intro i hi
    rw [hwriteable, hcpu]
    exact h.writeable i hi
  · intro i hi
    have hshadow : m'.readable i = !gpu i := hrec.shadow i hi
    rw [hshadow, hgpu]
    split_ifs with hmode
    · rfl
    · rw [(hafter i hi).resolve_left hmode]
      rfl
  · intro i hi
    have hshadow : m'.shadow false = m.shadow false := hwriteable
    rw [hshadow]
    exact (hrec.others _).trans (h.write i hi)

theorem Consistent.withGpu (h : Consistent mode index m pages) (hmode : mode ≠ .precise)
    (gpu : ℕ → Bool) : Kept mode index pages { m with gpu := gpu } pages := by
  refine ⟨{ h with readable := fun i hi => ?_ }, fun _ _ => rfl⟩
  rw [if_neg hmode]
  exact (h.readable i hi).trans (if_neg hmode)

end RegionManager

/-! ### The pages of a slice -/

namespace Slice

variable {slice : Slice}

structure Valid (slice : Slice) : Prop where
  index_lt : slice.pageIndex < numHighPages
  pos : 0 < slice.copyAmount
  le : slice.pageOffset + slice.copyAmount ≤ trackerHigherPageSize

def first (slice : Slice) : ℕ := slice.pageOffset / trackerBytesPerPage

def stop (slice : Slice) : ℕ :=
  (slice.pageOffset + slice.copyAmount + (trackerBytesPerPage - 1)) / trackerBytesPerPage

/-- The page `i` of the region has a byte of the slice. -/
def Touches (slice : Slice) (i : ℕ) : Prop := slice.first ≤ i ∧ i < slice.stop

instance (i : ℕ) : Decidable (slice.Touches i) := inferInstanceAs (Decidable (_ ∧ _))

theorem Valid.pages (h : slice.Valid) : RegionManager.startPage slice.pageOffset = slice.first ∧
      RegionManager.endPage slice.pageOffset slice.copyAmount = slice.stop ∧
      slice.first < slice.stop ∧ slice.stop ≤ numPagesPerRegion := by
  obtain ⟨-, hpos, hle⟩ := h
  simp only [RegionManager.startPage, RegionManager.endPage, RegionManager.sanitizeAddress, first,
    stop, trackerBytesPerPage, trackerHigherPageSize, numPagesPerRegion] at *
  rw [add64_eq (by omega), if_pos (by omega), if_pos (by omega)]
  omega

theorem Valid.offset (h : slice.Valid) {m : RegionManager}
    (haddr : m.cpuAddr = slice.pageIndex * trackerHigherPageSize) :
    sub64 (add64 m.cpuAddr slice.pageOffset) m.cpuAddr = slice.pageOffset := by
  obtain ⟨hlt, hpos, hle⟩ := h
  simp only [trackerHigherPageSize, numHighPages] at *
  rw [add64_eq (by omega), sub64_eq (by omega) (by omega)]
  omega

end Slice

/-! ### Operations on a slice -/

namespace RegionManager

variable {mode : GpuReadbacksMode} {slice : Slice} {m : RegionManager} {pages : Pages}

/-- The bits of one kind are changed on the pages of the slice. -/
structure Changed (type : ModifiedBy) (enable : Bool) (slice : Slice) (m m' : RegionManager) :
    Prop where
  bits : ∀ i, m'.bits type i = if slice.Touches i then enable else m.bits type i
  others : ∀ type', type' ≠ type → m'.bits type' = m.bits type'

variable {enable : Bool} {type : ModifiedBy}

theorem Changed.of_cpu {m' : RegionManager}
    (hcpu : ∀ i, m'.cpu i = if slice.Touches i then enable else m.cpu i) (hgpu : m'.gpu = m.gpu) :
    Changed .cpu enable slice m m' := by
  refine ⟨hcpu, fun type' htype => ?_⟩
  cases type' with
  | cpu => exact absurd rfl htype
  | gpu => exact hgpu

theorem Changed.of_gpu {m' : RegionManager} (hcpu : m'.cpu = m.cpu)
    (hgpu : ∀ i, m'.gpu i = if slice.Touches i then enable else m.gpu i) :
    Changed .gpu enable slice m m' := by
  refine ⟨hgpu, fun type' htype => ?_⟩
  cases type' with
  | cpu => exact hcpu
  | gpu => exact absurd rfl htype

theorem changeRegionState_ok (h : Consistent mode slice.pageIndex m pages) (hs : slice.Valid)
    (type : ModifiedBy) (enable : Bool) : ∃ m' pages',
      m.changeRegionState mode type enable pages (add64 m.cpuAddr slice.pageOffset)
        slice.copyAmount = .ok (m', pages') ∧
      Kept mode slice.pageIndex pages m' pages' ∧ Changed type enable slice m m' := by
  obtain ⟨hstart, hend, hlt, hle⟩ := hs.pages
  unfold changeRegionState
  simp only [hs.offset h.cpuAddr, hstart, hend,
    if_neg (show ¬ (numPagesPerRegion ≤ slice.first ∨ slice.stop ≤ slice.first) by omega)]
  generalize hbits : (if enable then
    BitRanges.setRange numPagesPerRegion (m.bits type) slice.first slice.stop
    else BitRanges.unsetRange numPagesPerRegion (m.bits type) slice.first slice.stop) = bits
  have happly : ∀ i, bits i = if slice.Touches i then enable else m.bits type i := by
    intro i
    rw [← hbits]
    exact BitRanges.changeRange_apply hlt hle enable i
  cases type with
  | cpu =>
    obtain ⟨m', pages', heq, hkept, hcpu, hgpu⟩ := h.changeCpu bits (!enable) (by
      intro i hi hne
      rw [happly i] at hne ⊢
      split_ifs at hne ⊢
      · simp
      · exact absurd rfl hne)
    exact ⟨m', pages', heq, hkept, .of_cpu (fun i => (congrFun hcpu i).trans (happly i)) hgpu⟩
  | gpu =>
    by_cases hmode : mode = .precise
    · obtain ⟨m', pages', heq, hkept, hcpu, hgpu⟩ := h.changeGpu bits enable (by
        intro i hi hne
        rw [h.readable i hi, if_pos hmode, happly i] at hne
        rw [happly i]
        split_ifs at hne ⊢
        · rfl
        · exact absurd rfl hne) fun i _ => .inl hmode
      refine ⟨m', pages', ?_, hkept, .of_gpu hcpu fun i => (congrFun hgpu i).trans (happly i)⟩
      simp only [if_pos hmode]
      exact heq
    · refine ⟨{ m with gpu := bits }, pages, ?_, h.withGpu hmode bits, .of_gpu rfl happly⟩
      simp only [if_neg hmode]
      rfl

/-- In relaxed mode the page manager does not know the GPU modified pages, and a slice can be
cleared only together with all of them. -/
def Clearable (mode : GpuReadbacksMode) (slice : Slice) (m : RegionManager) : Prop :=
  mode = .relaxed → ∀ i, i < numPagesPerRegion → m.gpu i → slice.Touches i

theorem clearRange_ok (h : Consistent mode slice.pageIndex m pages) (hs : slice.Valid)
    (hclear : type = .gpu → m.Clearable mode slice) : ∃ m' pages',
      m.clearRange mode type pages slice.first slice.stop = .ok (m', pages') ∧
      Kept mode slice.pageIndex pages m' pages' ∧ Changed type false slice m m' := by
  obtain ⟨-, -, hlt, hle⟩ := hs.pages
  unfold clearRange
  generalize hbits : BitRanges.unsetRange numPagesPerRegion (m.bits type) slice.first slice.stop =
    bits
  have happly : ∀ i, bits i = if slice.Touches i then false else m.bits type i := by
    intro i
    rw [← hbits]
    exact BitRanges.changeRange_apply hlt hle false i
  cases type with
  | cpu =>
    obtain ⟨m', pages', heq, hkept, hcpu, hgpu⟩ := h.changeCpu bits true (by
      intro i hi hne
      rw [happly i] at hne ⊢
      split_ifs at hne ⊢
      · rfl
      · exact absurd rfl hne)
    exact ⟨m', pages', heq, hkept, .of_cpu (fun i => (congrFun hcpu i).trans (happly i)) hgpu⟩
  | gpu =>
    have hrest : mode = .relaxed → ∀ i, i < numPagesPerRegion → bits i = false := by
      intro hmode i hi
      rw [happly i]
      split_ifs with htouch
      · rfl
      · exact Bool.eq_false_iff.mpr (mt (hclear rfl hmode i hi) htouch)
    by_cases hmode : mode = .disabled
    · refine ⟨{ m with gpu := bits }, pages, ?_, h.withGpu (by simp [hmode]) bits,
        .of_gpu rfl happly⟩
      simp only [hmode]
      rfl
    · have hmode' : mode = .precise ∨ mode = .relaxed := by
        cases mode <;> simp_all
      obtain ⟨m', pages', heq, hkept, hcpu, hgpu⟩ := h.changeGpu bits false (by
        intro i hi hne
        rcases hmode' with hprecise | hrelaxed
        · rw [h.readable i hi, if_pos hprecise, happly i] at hne
          rw [happly i]
          split_ifs at hne ⊢
          · rfl
          · exact absurd rfl hne
        · exact hrest hrelaxed i hi) fun i hi => hmode'.imp_right fun hrelaxed =>
            hrest hrelaxed i hi
      refine ⟨m', pages', ?_, hkept, .of_gpu hcpu fun i => (congrFun hgpu i).trans (happly i)⟩
      simp only [ne_eq, hmode, not_false_eq_true, if_true]
      exact heq

/-- The callback is called with the modified pages of the slice, and clearing turns them off. -/
theorem forEachModifiedRange_ok (h : Consistent mode slice.pageIndex m pages) (hs : slice.Valid)
    (type : ModifiedBy) (clear : Bool) (hclear : clear → type = .gpu → m.Clearable mode slice) :
    ∃ m' pages' ranges,
      m.forEachModifiedRange mode type clear pages (add64 m.cpuAddr slice.pageOffset)
        slice.copyAmount = .ok (m', pages', ranges) ∧
      Kept mode slice.pageIndex pages m' pages' ∧
      (if clear then Changed type false slice m m' else m' = m) ∧
      ranges = (BitRanges.ranges numPagesPerRegion (BitRanges.cutRange numPagesPerRegion
        (m.bits type) slice.first slice.stop)).map fun range =>
          (slice.pageIndex * trackerHigherPageSize + range.1 * trackerBytesPerPage,
            (range.2 - range.1) * trackerBytesPerPage) := by
  obtain ⟨hstart, hend, hlt, hle⟩ := hs.pages
  unfold forEachModifiedRange
  simp only [hs.offset h.cpuAddr, hstart, hend,
    if_neg (show ¬ (numPagesPerRegion ≤ slice.first ∨ slice.stop ≤ slice.first) by omega)]
  cases clear with
  | false => exact ⟨m, pages, _, rfl, h.kept, rfl, by rw [h.cpuAddr]⟩
  | true =>
    obtain ⟨m', pages', heq, hkept, hchanged⟩ := clearRange_ok h hs (hclear rfl)
    refine ⟨m', pages', _, ?_, hkept, hchanged, by rw [← h.cpuAddr]⟩
    simp only [if_true]
    rw [heq]
    rfl

theorem isRegionModified_iff (hs : slice.Valid) :
    m.isRegionModified type slice.pageOffset slice.copyAmount ↔
      ∃ i, slice.Touches i ∧ m.bits type i = true := by
  obtain ⟨hstart, hend, hlt, hle⟩ := hs.pages
  unfold isRegionModified
  simp only [hstart, hend,
    if_neg (show ¬ (numPagesPerRegion ≤ slice.first ∨ slice.stop ≤ slice.first) by omega),
    Bool.not_eq_true', Bool.eq_false_iff, ne_eq, BitRanges.none_iff, not_forall, not_not,
    BitRanges.cutRange_apply hlt hle]
  constructor
  · rintro ⟨i, -, htouch, hbit⟩
    exact ⟨i, htouch, hbit⟩
  · rintro ⟨i, htouch, hbit⟩
    exact ⟨i, htouch.2.trans_le hle, htouch, hbit⟩

end RegionManager

end PS4Droid.VideoCore
