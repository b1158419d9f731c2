import PS4Droid.VideoCore.BufferCache
import PS4Droid.VideoCore.RangeSet
import PS4Droid.VideoCore.TrackerCalls

/-!
# GPU modified bytes and pages

The part of `buffer_cache.cpp` that keeps the set of bytes written by the GPU beside the GPU bits of
the memory tracker. Finding buffers does not change either and is not part of the model; whether a
range is registered and whether there is an image at an address are given by the caller.
-/

namespace PS4Droid.VideoCore

/-- The memory tracker and `gpu_modified_ranges`. -/
abbrev DirtyState (σ : Type) := MemoryTracker × RangeSet σ

variable {σ : Type} [IntervalSet σ]

namespace DirtyState

def init : DirtyState σ := (MemoryTracker.init, .empty)

def synchronizeBuffer (mode : GpuReadbacksMode) (s : DirtyState σ) (deviceAddr size : ℕ)
    (isWritten : Bool) : Except TrackerFault (DirtyState σ) := do
  let (t, _) ← s.1.forEachUploadRange mode deviceAddr size isWritten
  pure (t, s.2)

/-- A small range that is only read and only on the CPU goes through the stream buffer. -/
def usesStream (t : MemoryTracker) (deviceAddr size : ℕ) (isWritten : Bool) :
    Except TrackerFault (MemoryTracker × Bool) :=
  if !isWritten && size ≤ cachingPageSize then do
    let (t, gpuModified) ← t.isRegionGpuModified deviceAddr size
    if gpuModified then pure (t, false) else t.isRegionCpuModified deviceAddr size
  else pure (t, false)

def obtainBuffer (mode : GpuReadbacksMode) (s : DirtyState σ) (deviceAddr size : ℕ)
    (isWritten : Bool) : Except TrackerFault (DirtyState σ) := do
  let (t, stream) ← usesStream s.1 deviceAddr size isWritten
  if stream then pure (t, s.2)
  else do
    let (t, ranges) ← synchronizeBuffer mode (t, s.2) deviceAddr size isWritten
    pure (t, if isWritten then ranges.add deviceAddr size else ranges)

/-- Neither side of a copy is on the GPU. -/
def copiesOnHost (t : MemoryTracker) (dst src numBytes : ℕ) (dstGds srcGds foundImage : Bool) :
    Except TrackerFault (MemoryTracker × Bool) :=
  if dstGds then pure (t, false)
  else do
    let (t, dstModified) ← t.isRegionGpuModified dst numBytes
    if dstModified || srcGds then pure (t, false)
    else do
      let (t, srcModified) ← t.isRegionGpuModified src numBytes
      pure (t, !srcModified && !foundImage)

def copyBuffer (mode : GpuReadbacksMode) (s : DirtyState σ) (dst src numBytes : ℕ)
    (dstGds srcGds foundImage : Bool) : Except TrackerFault (DirtyState σ) := do
  let (t, onHost) ← copiesOnHost s.1 dst src numBytes dstGds srcGds foundImage
  if onHost then pure (t, s.2)
  else do
    let s ← if srcGds then pure (t, s.2) else synchronizeBuffer mode (t, s.2) src numBytes false
    if dstGds then pure s
    else do
      let (t, ranges) ← synchronizeBuffer mode s dst numBytes true
      pure (t, ranges.add dst numBytes)

/-- The callback for a range of GPU modified pages: what to copy is counted with every copy aligned
to 64 bytes. -/
def addDownload (acc : RangeSet σ × ℕ) (range : ℕ × ℕ) : RangeSet σ × ℕ :=
  let copies := acc.1.forEachInRange range.1 range.2
  (acc.1.subtract range.1 range.2,
    acc.2 + (copies.map fun copy => (copy.2 - copy.1 + 63) / 64 * 64).sum)

/-- The synchronous variant. Also returns the number of bytes downloaded; with none the function
returns early. -/
def downloadBufferMemory (mode : GpuReadbacksMode) (s : DirtyState σ) (deviceAddr size : ℕ)
    (isWrite : Bool) : Except TrackerFault (DirtyState σ × ℕ) := do
  let (t, downloads) ← s.1.forEachDownloadRange mode false deviceAddr size
  let (ranges, totalSizeBytes) := downloads.foldl addDownload (s.2, 0)
  if totalSizeBytes = 0 then pure ((t, ranges), 0)
  else do
    let t ← t.unmarkRegionAsGpuModified mode deviceAddr size
    let t ← if isWrite then t.markRegionAsCpuModified mode deviceAddr size else pure t
    pure ((t, ranges), totalSizeBytes)

def invalidateMemory (mode : GpuReadbacksMode) (s : DirtyState σ) (deviceAddr size : ℕ)
    (isRegistered : Bool) : Except TrackerFault (DirtyState σ) :=
  if isRegistered then
    MemoryTracker.invalidateRegion mode (fun (s : DirtyState σ) => do
      pure (← downloadBufferMemory mode s deviceAddr size true).1) s deviceAddr size
  else pure s

/-! ### Bytes and pages agree -/

open MemoryTracker

variable {mode : GpuReadbacksMode} {s : DirtyState σ} {t : MemoryTracker} {addr size : ℕ}

/-- The set has a byte of the page. -/
def HasByte (ranges : RangeSet σ) (page : ℕ) : Prop := ∃ x ∈ ranges, x / trackerBytesPerPage = page

/-- A page is GPU modified exactly if there are bytes of it to download. -/
structure Agrees (mode : GpuReadbacksMode) (s : DirtyState σ) : Prop where
  tracked : Tracked mode s.1
  pages : ∀ page, s.1.bit .gpu page = true ↔ HasByte s.2 page

theorem init_agrees : Agrees mode (init : DirtyState σ) := by
  refine ⟨init_tracked, fun page => ⟨fun h => absurd h (by simp [init, bit, MemoryTracker.init,
    RegionManager.create, RegionManager.bits]), ?_⟩⟩
  rintro ⟨x, hx, -⟩
  exact absurd hx (RangeSet.not_mem_empty x)

theorem Agrees.sameBits (h : Agrees mode s) (ht : Tracked mode t) (hsame : SameBits s.1 t) :
    Agrees mode (t, s.2) :=
  ⟨ht, fun page => by rw [hsame .gpu page]; exact h.pages page⟩

variable {page dst src numBytes : ℕ} {ranges : RangeSet σ}
  {isWritten dstGds srcGds foundImage : Bool}
  {downloads : List (ℕ × ℕ)}

theorem gpu_bit_lt (h : Tracked mode t) (hbit : t.bit .gpu page = true) :
    page / numPagesPerRegion < numHighPages := by
  unfold bit at hbit
  cases hm : t.topTier (page / numPagesPerRegion) with
  | none =>
    rw [hm] at hbit
    exact absurd hbit (by simp [RegionManager.create, RegionManager.bits])
  | some m => exact (h.regions _ m hm).index_lt

/-! ### Uploads -/

theorem hasByte_add (h : 0 < size → addr + size ≤ 2 ^ 40) (page : ℕ) :
    HasByte (ranges.add addr size) page ↔ HasByte ranges page ∨ InPages addr size page := by
  simp only [HasByte, RangeSet.mem_add (fun hpos => (h hpos).trans_lt (by decide)), or_and_right,
    exists_or]
  refine or_congr Iff.rfl ⟨?_, fun hpage => ?_⟩
  · rintro ⟨x, hx, rfl⟩
    simp only [InPages, trackerBytesPerPage]
    omega
  · refine ⟨max addr (page * trackerBytesPerPage), ?_⟩
    simp only [InPages, trackerBytesPerPage] at *
    omega

theorem synchronizeBuffer_outcome (h : Agrees mode s) :
    Outcome (TableFault False) (synchronizeBuffer mode s addr size isWritten) fun (s' :
      DirtyState σ) =>
      Agrees mode (s'.1, if isWritten then s'.2.add addr size else s'.2) := by
  unfold synchronizeBuffer
  have hupload := (forEachUploadRange_outcome h.tracked addr size isWritten).errors
    fun _ => TableFault.forget
  refine hupload.bind fun r hr => ?_
  obtain ⟨⟨htracked, hle⟩, hbits⟩ := hr
  cases isWritten with
  | false => exact ⟨htracked, fun page => by simpa [hbits page] using h.pages page⟩
  | true =>
    refine ⟨htracked, fun page => ?_⟩
    simp only [if_true]
    rw [hbits page, hasByte_add hle, ← h.pages page]
    simp only [true_and]
    split_ifs with hpage <;> simp [hpage]

theorem isRegionGpuModified_outcome (h : Agrees mode s) :
    Outcome (TableFault False) (s.1.isRegionGpuModified addr size) fun r =>
      Agrees mode (r.1, s.2) :=
  ((isRegionModified_outcome h.tracked).errors fun _ => TableFault.forget).mono fun _ hr =>
    h.sameBits hr.1 hr.2

theorem usesStream_outcome (h : Agrees mode s) :
    Outcome (TableFault False) (usesStream s.1 addr size isWritten) fun r =>
      Agrees mode (r.1, s.2) := by
  unfold usesStream
  split_ifs
  · refine (isRegionGpuModified_outcome h).bind fun r hr => ?_
    obtain ⟨t, gpuModified⟩ := r
    cases gpuModified with
    | true => exact hr
    | false =>
      exact ((isRegionModified_outcome hr.tracked).errors fun _ => TableFault.forget).mono
        fun _ hr' => hr.sameBits hr'.1 hr'.2
  · exact h

theorem obtainBuffer_outcome (h : Agrees mode s) :
    Outcome (TableFault False) (obtainBuffer mode s addr size isWritten) (Agrees mode) := by
  unfold obtainBuffer
  refine (usesStream_outcome h).bind fun r hr => ?_
  obtain ⟨t, stream⟩ := r
  cases stream with
  | true => exact hr
  | false => exact (synchronizeBuffer_outcome hr).bind fun r hr => hr

theorem copiesOnHost_outcome (h : Agrees mode s) :
    Outcome (TableFault False) (copiesOnHost s.1 dst src numBytes dstGds srcGds foundImage) fun r =>
      Agrees mode (r.1, s.2) := by
  unfold copiesOnHost
  split_ifs
  · exact h
  · refine (isRegionGpuModified_outcome h).bind fun r hr => ?_
    obtain ⟨t, dstModified⟩ := r
    simp only
    split_ifs
    · exact hr
    · exact (isRegionGpuModified_outcome hr).bind fun r hr' => hr'

theorem copyBuffer_outcome (h : Agrees mode s) : Outcome (TableFault False)
      (copyBuffer mode s dst src numBytes dstGds srcGds foundImage) (Agrees mode) := by
  unfold copyBuffer
  refine (copiesOnHost_outcome h).bind fun r hr => ?_
  obtain ⟨t, onHost⟩ := r
  cases onHost with
  | true => exact hr
  | false =>
    have hdst : ∀ s₁ : DirtyState σ, Agrees mode s₁ → Outcome (TableFault False) (do
        if dstGds then pure s₁
        else do
          let (t, ranges) ← synchronizeBuffer mode s₁ dst numBytes true
          pure (t, ranges.add dst numBytes)) (Agrees mode) := by
      intro s₁ hs₁
      cases dstGds with
      | true => exact hs₁
      | false => exact (synchronizeBuffer_outcome hs₁).bind fun r hr => hr
    cases srcGds with
    | true => exact hdst _ hr
    | false => exact (synchronizeBuffer_outcome hr).bind fun s₁ hs₁ => hdst s₁ hs₁

/-! ### Downloads -/

/-- The set loses the bytes of the ranges, and nothing is counted only if it had none of them. -/
theorem foldl_addDownload
    (hle : ∀ range ∈ downloads, 0 < range.2 → range.1 + range.2 < 2 ^ 64) (acc : RangeSet σ × ℕ) :
    (∀ x, x ∈ (downloads.foldl addDownload acc).1 ↔
      x ∈ acc.1 ∧ ¬ ∃ range ∈ downloads, range.1 ≤ x ∧ x < range.1 + range.2) ∧
    ((downloads.foldl addDownload acc).2 = 0 ↔
      acc.2 = 0 ∧ ∀ x ∈ acc.1, ¬ ∃ range ∈ downloads, range.1 ≤ x ∧ x < range.1 + range.2) := by
  induction downloads generalizing acc with
  | nil => simp
  | cons range rest ih =>
    obtain ⟨hrange, hrest⟩ := List.forall_mem_cons.mp hle
    obtain ⟨hmem, htotal⟩ := ih hrest (addDownload acc range)
    have hsub : ∀ x, x ∈ (addDownload acc range).1 ↔
        x ∈ acc.1 ∧ ¬ (range.1 ≤ x ∧ x < range.1 + range.2) := RangeSet.mem_subtract hrange
    have hzero : (addDownload acc range).2 = 0 ↔
        acc.2 = 0 ∧ ∀ x, range.1 ≤ x → x < range.1 + range.2 → x ∉ acc.1 := by
      rw [← RangeSet.forEachInRange_eq_nil hrange]
      simp only [addDownload, Nat.add_eq_zero_iff, List.sum_eq_zero_iff, List.mem_map,
        List.eq_nil_iff_forall_not_mem]
      refine and_congr_right fun _ => ⟨fun h copy hcopy => ?_, fun h n => ?_⟩
      · have := h _ ⟨copy, hcopy, rfl⟩
        have := RangeSet.mem_forEachInRange hcopy
        omega
      · rintro ⟨copy, hcopy, -⟩
        exact absurd hcopy (h copy)
    rw [List.foldl_cons]
    refine ⟨fun x => ?_, ?_⟩
    · rw [hmem x, hsub x, and_assoc, List.exists_mem_cons_iff, not_or]
    · rw [htotal, hzero, and_assoc]
      refine and_congr_right fun _ => ⟨?_, fun h => ⟨fun x hge hlt hx => ?_, fun x hx => ?_⟩⟩
      · rintro ⟨hfirst, hlater⟩ x hx hex
        rcases (List.exists_mem_cons_iff ..).mp hex with hin | hin
        · exact hfirst x hin.1 hin.2 hx
        · exact hlater x ((hsub x).mpr ⟨hx, fun hin' => hfirst x hin'.1 hin'.2 hx⟩) hin
      · exact h x hx ((List.exists_mem_cons_iff ..).mpr (.inl ⟨hge, hlt⟩))
      · exact fun hin => h x ((hsub x).mp hx).1 ((List.exists_mem_cons_iff ..).mpr (.inr hin))

/-- What a download leaves. -/
structure Downloaded (mode : GpuReadbacksMode) (addr size : ℕ) (isWrite : Bool)
    (s s' : DirtyState σ) (total : ℕ) : Prop where
  agrees : Agrees mode s'
  early : total = 0 → ∀ page, InPages addr size page → s.1.bit .gpu page = false
  gpu : ∀ page, InPages addr size page → s'.1.bit .gpu page = false
  cpu : isWrite → total ≠ 0 → ∀ page, InPages addr size page → s'.1.bit .cpu page = true

theorem bit_of_not_created (h : ¬ t.Created page) :
    t.bit .gpu page = false ∧ t.bit .cpu page = true := by
  have hnone : t.topTier (page / numPagesPerRegion) = none := by simpa [Created] using h
  simp [bit, hnone, RegionManager.create, RegionManager.bits]

/-- The bytes of the set that a download visits are those of the pages of the range. -/
theorem hasByte_downloads (h : Agrees mode s)
    (hranges : RangesOf downloads fun x => s.1.bit .gpu (x / trackerBytesPerPage) = true ∧
      InPages addr size (x / trackerBytesPerPage)) (hmem : ∀ x, x ∈ ranges ↔
      x ∈ s.2 ∧ ¬ ∃ range ∈ downloads, range.1 ≤ x ∧ x < range.1 + range.2) (page : ℕ) :
    HasByte ranges page ↔ s.1.bit .gpu page = true ∧ ¬ InPages addr size page := by
  have hvisit : ∀ x ∈ s.2, (∃ range ∈ downloads, range.1 ≤ x ∧ x < range.1 + range.2) ↔
      InPages addr size (x / trackerBytesPerPage) := fun x hx =>
    (hranges x).trans (and_iff_right ((h.pages _).mpr ⟨x, hx, rfl⟩))
  rw [h.pages page]
  constructor
  · rintro ⟨x, hx, rfl⟩
    obtain ⟨hx, hout⟩ := (hmem x).mp hx
    exact ⟨⟨x, hx, rfl⟩, mt (hvisit x hx).mpr hout⟩
  · rintro ⟨⟨x, hx, rfl⟩, hout⟩
    exact ⟨x, (hmem x).mpr ⟨hx, mt (hvisit x hx).mp hout⟩, rfl⟩

theorem downloadBufferMemory_outcome (h : Agrees mode s) {isWrite : Bool} :
    Outcome (TableFault False) (downloadBufferMemory mode s addr size isWrite) fun r =>
      Downloaded mode addr size isWrite s r.1 r.2 := by
  unfold downloadBufferMemory
  refine ((forEachDownloadRange_outcome h.tracked).errors fun _ => TableFault.forget).bind
    fun r hr => ?_
  obtain ⟨t₁, downloads⟩ := r
  obtain ⟨⟨htracked, hsame⟩, hranges⟩ := hr
  have hle : ∀ range ∈ downloads, 0 < range.2 → range.1 + range.2 < 2 ^ 64 := by
    intro range hrange hpos
    have hlast := gpu_bit_lt h.tracked
      ((hranges (range.1 + range.2 - 1)).mp ⟨range, hrange, by omega, by omega⟩).1
    simp only [trackerBytesPerPage, numPagesPerRegion, numHighPages] at hlast
    omega
  obtain ⟨hmem, htotal⟩ := foldl_addDownload hle (s.2, 0)
  simp only at htracked hsame ⊢
  generalize downloads.foldl addDownload (s.2, 0) = acc at *
  obtain ⟨ranges, total⟩ := acc
  have hafter := hasByte_downloads h hranges hmem
  by_cases hzero : total = 0
  · -- No byte of the set was visited, so no page of the range is modified.
    have hearly : ∀ page, InPages addr size page → s.1.bit .gpu page = false := by
      intro page hpage
      refine Bool.eq_false_iff.mpr fun hbit => ?_
      obtain ⟨x, hx, rfl⟩ := (h.pages page).mp hbit
      exact (htotal.mp hzero).2 x hx ((hranges x).mpr ⟨hbit, hpage⟩)
    rw [if_pos hzero]
    refine ⟨⟨htracked, fun page => ?_⟩, fun _ => hearly, fun page hpage => ?_, fun _ hne => ?_⟩
    · rw [hafter page, hsame .gpu page]
      refine ⟨fun hbit => ⟨hbit, fun hpage => ?_⟩, And.left⟩
      exact absurd hbit (by simp [hearly page hpage])
    · exact (hsame .gpu page).trans (hearly page hpage)
    · exact absurd rfl hne
  · rw [if_neg hzero]
    refine ((unmarkRegionAsGpuModified_outcome htracked).errors fun _ => TableFault.forget).bind
      fun t₂ ht₂ => ?_
    have hgpu : ∀ page, t₂.bit .gpu page = true ↔
        s.1.bit .gpu page = true ∧ ¬ InPages addr size page := by
      intro page
      rw [ht₂.bit_range page, hsame .gpu page]
      by_cases hcreated : t₂.Created page
      · split_ifs with hif <;> simp_all
      · have hold : s.1.bit .gpu page = false := by
          rw [← hsame .gpu page]
          exact (bit_of_not_created fun hc => hcreated (ht₂.grows page hc)).1
        simp [hcreated, hold]
    cases isWrite with
    | false =>
      refine ⟨⟨ht₂.tracked, fun page => (hgpu page).trans (hafter page).symm⟩,
        fun hz => absurd hz hzero, fun page hpage => ?_, by simp⟩
      exact Bool.eq_false_iff.mpr fun hbit => ((hgpu page).mp hbit).2 hpage
    | true =>
      refine ((markRegionAsCpuModified_outcome ht₂.tracked).errors fun _ => TableFault.forget).bind
        fun t₃ ht₃ => ?_
      have hsame₃ := ht₃.others .gpu (by decide)
      refine ⟨⟨ht₃.tracked, fun page => ?_⟩, fun hz => absurd hz hzero, fun page hpage => ?_,
        fun _ _ page hpage => ?_⟩
      · exact (by rw [hsame₃ page] : _ ↔ _).trans ((hgpu page).trans (hafter page).symm)
      · rw [hsame₃ page]
        exact Bool.eq_false_iff.mpr fun hbit => ((hgpu page).mp hbit).2 hpage
      · by_cases hcreated : t₃.Created page
        · rw [ht₃.bit_range page, if_pos ⟨hcreated, hpage⟩]
        · exact (bit_of_not_created hcreated).2

/-! ### Write faults -/

/-- The pages of a write fault were downloaded and given back to the CPU. -/
def Released (mode : GpuReadbacksMode) (done : List Slice) (s : DirtyState σ) : Prop :=
  mode ≠ .disabled → ∀ page, TouchedBy done page →
    s.1.bit .gpu page = false ∧ s.1.bit .cpu page = true

theorem invalidateRegion_released (h : Agrees mode s) :
    Outcome (TableFault False)
      (MemoryTracker.invalidateRegion mode (fun (s : DirtyState σ) => do
        pure (← downloadBufferMemory mode s addr size true).1) s addr size)
      fun s' => Agrees mode s' ∧ Released mode (slices addr size) s' := by
  refine invalidateRegion_outcome (fun done s => Agrees mode s ∧ Released mode done s)
    (fun _ s hs => hs.1.tracked) ?_ ?_ ?_ False.elim ⟨h, fun _ page => by simp [TouchedBy]⟩
  · -- The flush gets here because of a modified page, so the download does not return early.
    rintro done slice rest s m hall ⟨hagrees, -⟩ hm hvalid ⟨i, htouch, hbit⟩
    have hmem : slice ∈ slices addr size := by simp [hall]
    have hlt : i < numPagesPerRegion := htouch.2.trans_le hvalid.pages.2.2.2
    have hpage : (slice.pageIndex * numPagesPerRegion + i) / numPagesPerRegion = slice.pageIndex ∧
        (slice.pageIndex * numPagesPerRegion + i) % numPagesPerRegion = i := by
      simp only [numPagesPerRegion] at *
      omega
    refine (downloadBufferMemory_outcome hagrees).bind fun r hr => ?_
    have hne : r.2 ≠ 0 := by
      intro hzero
      have hfalse := hr.early hzero (slice.pageIndex * numPagesPerRegion + i)
        ((slices_touches _).mp ⟨slice, hmem, hpage.1.symm, by rwa [hpage.2]⟩)
      rw [bit, hpage.1, hpage.2, hm] at hfalse
      exact absurd hbit (by simp [hfalse])
    refine ⟨hr.agrees, fun _ page htouched => ?_⟩
    have hin : InPages addr size page := by
      obtain ⟨slice', hmem', htouch'⟩ := htouched
      refine (slices_touches page).mp ⟨slice', ?_, htouch'⟩
      rw [hall]
      rcases List.mem_append.mp hmem' with hmem' | hmem'
      · exact List.mem_append_left _ hmem'
      · exact List.mem_append_right _ (List.mem_singleton.mp hmem' ▸ .head _)
    exact ⟨hr.gpu page hin, hr.cpu rfl hne page hin⟩
  · rintro done slice s m m' pages' ⟨hagrees, hreleased⟩ hm hclean hkept hchanged
    have hgpu : ∀ page, (s.1.store slice.pageIndex m' pages').bit .gpu page = s.1.bit .gpu page :=
      bit_store_others hm (hchanged.others .gpu (by decide))
    refine ⟨⟨hagrees.tracked.store hkept, fun page => ?_⟩, fun hmode page htouched => ?_⟩
    · rw [← hagrees.pages page]
      simp only [hgpu page]
    · simp only [hgpu page, bit_store hm hchanged page]
      rcases touchedBy_append_singleton.mp htouched with htouched | htouched
      · obtain ⟨hfalse, htrue⟩ := hreleased hmode page htouched
        exact ⟨hfalse, by rw [htrue]; exact ite_self true⟩
      · rw [if_pos htouched, bit, ← htouched.1, hm]
        exact ⟨hclean hmode _ htouched.2, rfl⟩
  · rintro done slice s ⟨hagrees, hreleased⟩ hnone
    refine ⟨hagrees, fun hmode page htouched => ?_⟩
    rcases touchedBy_append_singleton.mp htouched with htouched | htouched
    · exact hreleased hmode page htouched
    · exact bit_of_not_created (by simp [Created, ← htouched.1, hnone])

/-! ### Runs of the GPU thread -/

end DirtyState

inductive DirtyOp where
  | obtainBuffer (deviceAddr size : ℕ) (isWritten : Bool)
  | copyBuffer (dst src numBytes : ℕ) (dstGds srcGds foundImage : Bool)
  | downloadBufferMemory (deviceAddr size : ℕ) (isWrite : Bool)
  | invalidateMemory (deviceAddr size : ℕ) (isRegistered : Bool)

namespace DirtyOp

open DirtyState MemoryTracker

variable {mode : GpuReadbacksMode} {s : DirtyState σ}

def run (mode : GpuReadbacksMode) : DirtyOp → DirtyState σ → Except TrackerFault (DirtyState σ)
  | obtainBuffer deviceAddr size isWritten, s => s.obtainBuffer mode deviceAddr size isWritten
  | copyBuffer dst src numBytes dstGds srcGds foundImage, s =>
    s.copyBuffer mode dst src numBytes dstGds srcGds foundImage
  | downloadBufferMemory deviceAddr size isWrite, s => do
    pure (← s.downloadBufferMemory mode deviceAddr size isWrite).1
  | invalidateMemory deviceAddr size isRegistered, s =>
    s.invalidateMemory mode deviceAddr size isRegistered

/-- Only a range outside the table of regions can make an operation fail. -/
theorem run_outcome (h : Agrees mode s) (op : DirtyOp) :
    Outcome (TableFault False) (op.run mode s) (Agrees mode) := by
  cases op with
  | obtainBuffer deviceAddr size isWritten => exact obtainBuffer_outcome h
  | copyBuffer dst src numBytes dstGds srcGds foundImage => exact copyBuffer_outcome h
  | downloadBufferMemory deviceAddr size isWrite =>
    exact (downloadBufferMemory_outcome h).bind fun r hr => hr.agrees
  | invalidateMemory deviceAddr size isRegistered =>
    cases isRegistered with
    | false => exact h
    | true => exact (invalidateRegion_released h).mono fun s' hs' => hs'.1

inductive Reachable (mode : GpuReadbacksMode) : DirtyState σ → Prop
  | init : Reachable mode .init
  | step {s s' : DirtyState σ} {op : DirtyOp} : Reachable mode s → op.run mode s = .ok s' →
      Reachable mode s'

theorem Reachable.agrees (h : Reachable mode s) : Agrees mode s := by
  induction h with
  | init => exact init_agrees
  | @step s s' op _ hrun ih =>
    have := run_outcome ih op
    rw [hrun] at this
    exact this

/-- Pages and bytes agree after every sequence of operations. A download that returns early has no
modified page, and after the download for a write fault the pages belong to the CPU. -/
theorem Reachable.gpuModified_iff_hasByte (h : Reachable mode s) :
    (∀ page, s.1.bit .gpu page = true ↔ ∃ x ∈ s.2, x / trackerBytesPerPage = page) ∧
    (∀ addr size isWrite s' total,
      s.downloadBufferMemory mode addr size isWrite = .ok (s', total) →
      ∀ page, InPages addr size page →
        (total = 0 → s.1.bit .gpu page = false) ∧ s'.1.bit .gpu page = false) ∧
    ∀ addr size s', mode ≠ .disabled → s.invalidateMemory mode addr size true = .ok s' →
      ∀ page, InPages addr size page → s'.1.bit .gpu page = false ∧ s'.1.bit .cpu page = true := by
  refine ⟨h.agrees.pages, fun addr size isWrite s' total hrun page hpage => ?_,
    fun addr size s' hmode hrun page hpage => ?_⟩
  · have hdown : Outcome (TableFault False) (s.downloadBufferMemory mode addr size isWrite) fun r =>
        Downloaded mode addr size isWrite s r.1 r.2 := downloadBufferMemory_outcome h.agrees
    rw [hrun] at hdown
    exact ⟨fun hzero => hdown.early hzero page hpage, hdown.gpu page hpage⟩
  · have hrel : Outcome (TableFault False) (s.invalidateMemory mode addr size true) fun s' =>
        Agrees mode s' ∧ Released mode (slices addr size) s' := invalidateRegion_released h.agrees
    rw [hrun] at hrel
    exact hrel.2 hmode page ((slices_touches page).mpr hpage)

theorem gpuModified_iff_hasByte_written : ∃ s : DirtyState JoinedIntervals,
    run .precise (.obtainBuffer 0x1000 0x10 true) .init = .ok s ∧
    ∀ page, s.1.bit .gpu page = true ↔ ∃ x ∈ s.2, x / trackerBytesPerPage = page := by
  have hok : (run .precise (.obtainBuffer 0x1000 0x10 true)
      (.init : DirtyState JoinedIntervals)).isOk = true := by
    decide +kernel
  cases hrun : run .precise (.obtainBuffer 0x1000 0x10 true)
      (.init : DirtyState JoinedIntervals) with
  | error fault =>
    rw [hrun] at hok
    exact absurd hok (by simp [Except.isOk, Except.toBool])
  | ok s => exact ⟨s, rfl, (Reachable.gpuModified_iff_hasByte (.step .init hrun)).1⟩

end DirtyOp

end PS4Droid.VideoCore
