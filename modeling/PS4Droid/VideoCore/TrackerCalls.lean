import PS4Droid.VideoCore.Tracking

/-!
# Runs of the memory tracker

What each operation of the tracker does to the bits of the pages, and the watchers that the pages
have after every sequence of operations.
-/

namespace PS4Droid.VideoCore

namespace MemoryTracker

variable {mode : GpuReadbacksMode} {t : MemoryTracker} {addr size : ℕ} {α : Type}

/-! ### What the operations do -/

variable {create : Bool} {type : ModifiedBy}

theorem isRegionModified_outcome (h : Tracked mode t) :
    Outcome (TableFault (addr + size ≤ 2 ^ 40)) (isRegionModified create type t addr size) fun r =>
      Tracked mode r.1 ∧ SameBits t r.1 := by
  unfold isRegionModified
  refine Outcome.bind (P := fun r : (MemoryTracker × Unit) × Bool =>
    Tracked mode r.1.1 ∧ SameBits t r.1.1) ?_ fun r hr => ?_
  swap
  · exact hr
  refine iteratePages_outcome (fun _ s => Tracked mode s.1 ∧ SameBits t s.1)
    (fun s => Tracked mode s.1 ∧ SameBits t s.1) ?_ ?_ ?_ (fun s hs => hs) slices_inside
    (List.nil_append _).symm ⟨h, fun _ _ => rfl⟩
  · intro done slice rest s m hall hlt hP hm
    simp only [Outcome]
    split_ifs <;> exact hP
  · intro hcreate done slice s hlt hP hnone
    exact hP
  · rintro hcreate done slice rest s hall hlt ⟨htracked, hsame⟩ hnone
    refine ⟨htracked.createRegion hlt hnone, fun type page => ?_⟩
    rw [← hsame type page]
    exact bit_createRegion hnone type page

/-- The bits of the created regions are changed on the pages of the range. -/
theorem Progress.bit_range {enable : Bool} {t₀ : MemoryTracker}
    (h : Progress mode type enable create t₀ (slices addr size) t) (page : ℕ) :
    t.bit type page = if t.Created page ∧ InPages addr size page then enable
      else t₀.bit type page := by
  rw [h.bits page]
  exact if_congr (and_congr_right fun _ => slices_touches page) rfl rfl

theorem markRegionAsCpuModified_outcome (h : Tracked mode t) :
    Outcome (TableFault (addr + size ≤ 2 ^ 40)) (markRegionAsCpuModified mode t addr size) fun t' =>
      Progress mode .cpu true false t (slices addr size) t' := by
  unfold markRegionAsCpuModified
  exact (changeSlices_outcome h ()).bind fun r hr => hr.1

theorem unmarkRegionAsGpuModified_outcome (h : Tracked mode t) :
    Outcome (TableFault (addr + size ≤ 2 ^ 40)) (unmarkRegionAsGpuModified mode t addr size)
      fun t' => Progress mode .gpu false false t (slices addr size) t' := by
  unfold unmarkRegionAsGpuModified
  exact (changeSlices_outcome h ()).bind fun r hr => hr.1

/-- Both kinds of bits change: the pages are uploaded, and then perhaps written. -/
theorem forEachUploadRange_outcome (h : Tracked mode t) (addr size : ℕ) (isWritten : Bool) :
    Outcome (TableFault (addr + size ≤ 2 ^ 40)) (forEachUploadRange mode t addr size isWritten)
      fun r => (Tracked mode r.1 ∧ (0 < size → addr + size ≤ 2 ^ 40)) ∧ ∀ page, r.1.bit .gpu page =
        if isWritten ∧ InPages addr size page then true else t.bit .gpu page := by
  unfold forEachUploadRange
  have hread : Outcome (TableFault (addr + size ≤ 2 ^ 40))
      (iteratePages true (visitSlice mode .cpu true) (slices addr size) (t, [])) fun r =>
        Progress mode .cpu false true t (slices addr size) r.1.1 :=
    visitSlices_outcome h (fun htype => by cases htype) []
  refine hread.bind fun r hr => ?_
  obtain ⟨⟨t₁, ranges⟩, stopped⟩ := r
  have hsame := hr.others .gpu (by decide)
  cases isWritten with
  | false => exact ⟨⟨hr.tracked, hr.range_le⟩, by simpa using hsame⟩
  | true =>
    have hwrite : Outcome (TableFault (addr + size ≤ 2 ^ 40))
        (iteratePages false (changeSlice mode .gpu true) (slices addr size) (t₁, ranges)) fun r =>
          Progress mode .gpu true false t₁ (slices addr size) r.1.1 ∧ r.1.2 = ranges :=
      changeSlices_outcome hr.tracked ranges
    refine hwrite.bind fun r' hr' => ?_
    refine ⟨⟨hr'.1.tracked, hr.range_le⟩, fun page => ?_⟩
    have hcreated : InPages addr size page → r'.1.1.Created page := fun hpage =>
      hr'.1.grows page (hr.covers rfl page ((slices_touches page).mpr hpage))
    rw [hr'.1.bit_range page, hsame page]
    exact if_congr (by simpa using hcreated) rfl rfl

theorem forEachDownloadRange_clear_outcome (h : Tracked mode t)
    (hclears : Clears mode addr size t) :
    Outcome (TableFault (addr + size ≤ 2 ^ 40)) (forEachDownloadRange mode true t addr size)
      fun r => Tracked mode r.1 := by
  unfold forEachDownloadRange
  exact (visitSlices_outcome h (fun _ => hclears) []).bind fun r hr => hr.tracked

theorem forEachDownloadRange_outcome (h : Tracked mode t) :
    Outcome (TableFault (addr + size ≤ 2 ^ 40)) (forEachDownloadRange mode false t addr size)
      fun r => (Tracked mode r.1 ∧ SameBits t r.1) ∧ RangesOf r.2 fun x =>
        t.bit .gpu (x / trackerBytesPerPage) = true ∧
          InPages addr size (x / trackerBytesPerPage) := by
  unfold forEachDownloadRange
  exact (readSlices_outcome h).bind fun r hr => hr

/-- The rule for an invalidation: each slice is flushed, marked or skipped. -/
theorem invalidateRegion_outcome {inside : Prop} (J : List Slice → MemoryTracker × α → Prop)
    {onFlush : MemoryTracker × α → Except TrackerFault (MemoryTracker × α)}
    (htracked : ∀ done s, J done s → Tracked mode s.1)
    (hflush : ∀ done slice rest s m, slices addr size = done ++ slice :: rest → J done s →
      s.1.topTier slice.pageIndex = some m → slice.Valid →
        (∃ i, slice.Touches i ∧ m.bits .gpu i = true) →
      Outcome (TableFault inside) (onFlush s) (J (done ++ [slice])))
    (hmark : ∀ done slice s m m' pages', J done s → s.1.topTier slice.pageIndex = some m →
      (mode ≠ .disabled → ∀ i, slice.Touches i → m.bits .gpu i = false) →
      RegionManager.Kept mode slice.pageIndex s.1.pages m' pages' →
      RegionManager.Changed .cpu true slice m m' →
      J (done ++ [slice]) (s.1.store slice.pageIndex m' pages', s.2))
    (hskip : ∀ done slice s, J done s → s.1.topTier slice.pageIndex = none → J (done ++ [slice]) s)
    (hinside : inside → addr + size ≤ 2 ^ 40) {s : MemoryTracker × α} (h : J [] s) :
    Outcome (TableFault inside) (invalidateRegion mode onFlush s addr size)
    (J (slices addr size)) := by
  unfold invalidateRegion
  refine Outcome.bind (P := fun r : (MemoryTracker × α) × Bool => J (slices addr size) r.1) ?_
    fun r hr => ?_
  swap
  · exact hr
  refine iteratePages_outcome J (J (slices addr size)) ?_
    (fun _ done slice s _ hP hnone => hskip done slice s hP hnone) ?_ (fun s hs => hs)
    (fun hin => slices_inside (hinside hin)) (List.nil_append _).symm h
  swap
  · exact nofun
  intro done slice rest s m hall hlt hP hm
  have hmem : slice ∈ slices addr size := by simp [hall]
  have hvalid := slices_valid hmem hlt
  unfold invalidateSlice
  split_ifs with hgpu
  · rw [RegionManager.isRegionModified_iff hvalid] at hgpu
    exact (hflush done slice rest s m hall hP hm hvalid hgpu.2).bind fun s' hs' => hs'
  · obtain ⟨m', pages', heq, hkept, hchanged⟩ := RegionManager.changeRegionState_ok
      ((htracked done s hP).regions slice.pageIndex m hm) hvalid .cpu true
    unfold changeSlice
    rw [heq]
    refine hmark done slice s m m' pages' hP hm (fun hmode i htouch => ?_) hkept hchanged
    rw [RegionManager.isRegionModified_iff hvalid] at hgpu
    exact Bool.eq_false_iff.mpr fun hbit => hgpu ⟨hmode, i, htouch, hbit⟩

/-- The page manager has the watchers that the bits of a page ask for. -/
theorem Tracked.watchers (h : Tracked mode t) (page : ℕ) : (t.pages page).numWriteWatchers =
        (if t.Created page ∧ t.bit .cpu page = false then 1 else 0) ∧
          (t.pages page).numReadWatchers ≤ 1 := by
  have hpage : page / numPagesPerRegion * numPagesPerRegion + page % numPagesPerRegion = page :=
    Nat.div_add_mod' page numPagesPerRegion
  have hlt : page % numPagesPerRegion < numPagesPerRegion := Nat.mod_lt _ (by decide)
  cases hm : t.topTier (page / numPagesPerRegion) with
  | none =>
    have hzero := h.untracked _ hm _ hlt
    rw [hpage] at hzero
    simp [hzero, Created, hm]
  | some m =>
    have hregion := h.regions _ m hm
    have hwrite := hregion.write _ hlt
    have hread := hregion.read _ hlt
    rw [hpage] at hwrite hread
    simp only [PageState.watchers, Bool.false_eq_true, if_false, if_true,
      RegionManager.shadow] at hwrite hread
    rw [hregion.writeable _ hlt] at hwrite
    refine ⟨?_, ?_⟩
    · rw [hwrite]
      simp only [Created, bit, hm, Option.isSome_some, true_and, RegionManager.bits]
      cases m.cpu (page % numPagesPerRegion) <;> rfl
    · rw [hread]
      split_ifs <;> omega

end MemoryTracker

/-! ### Sequences of operations -/

inductive TrackerOp where
  | isRegionCpuModified (addr size : ℕ)
  | isRegionGpuModified (addr size : ℕ)
  | markRegionAsCpuModified (addr size : ℕ)
  | unmarkRegionAsGpuModified (addr size : ℕ)
  | forEachUploadRange (addr size : ℕ) (isWritten : Bool)
  | forEachDownloadRange (clear : Bool) (addr size : ℕ)

namespace TrackerOp

def run (mode : GpuReadbacksMode) : TrackerOp → MemoryTracker → Except TrackerFault MemoryTracker
  | isRegionCpuModified addr size, t => do pure (← t.isRegionCpuModified addr size).1
  | isRegionGpuModified addr size, t => do pure (← t.isRegionGpuModified addr size).1
  | markRegionAsCpuModified addr size, t => t.markRegionAsCpuModified mode addr size
  | unmarkRegionAsGpuModified addr size, t => t.unmarkRegionAsGpuModified mode addr size
  | forEachUploadRange addr size isWritten, t => do
    pure (← t.forEachUploadRange mode addr size isWritten).1
  | forEachDownloadRange clear addr size, t => do
    pure (← t.forEachDownloadRange mode clear addr size).1

/-- The range has 40-bit addresses. -/
def FortyBit : TrackerOp → Prop
  | isRegionCpuModified addr size => addr + size ≤ 2 ^ 40
  | isRegionGpuModified addr size => addr + size ≤ 2 ^ 40
  | markRegionAsCpuModified addr size => addr + size ≤ 2 ^ 40
  | unmarkRegionAsGpuModified addr size => addr + size ≤ 2 ^ 40
  | forEachUploadRange addr size _ => addr + size ≤ 2 ^ 40
  | forEachDownloadRange _ addr size => addr + size ≤ 2 ^ 40

/-- In relaxed mode a download that clears takes all GPU modified pages of its regions. -/
def Allowed (mode : GpuReadbacksMode) (t : MemoryTracker) : TrackerOp → Prop
  | forEachDownloadRange true addr size => t.Clears mode addr size
  | _ => True

/-- Not a download that clears in relaxed mode. -/
def Plain (mode : GpuReadbacksMode) : TrackerOp → Prop
  | forEachDownloadRange true _ _ => mode ≠ .relaxed
  | _ => True

variable {op : TrackerOp}

theorem Plain.allowed {mode : GpuReadbacksMode} {t : MemoryTracker}
    (h : op.Plain mode) : op.Allowed mode t := by
  cases op with
  | forEachDownloadRange clear addr size =>
    cases clear with
    | true => exact fun hmode => absurd hmode h
    | false => trivial
  | _ => trivial

open MemoryTracker in
theorem run_outcome {mode : GpuReadbacksMode} {t : MemoryTracker} (h : t.Tracked mode)
    (hallowed : op.Allowed mode t) :
    Outcome (TableFault op.FortyBit) (op.run mode t) fun t' => t'.Tracked mode := by
  cases op with
  | isRegionCpuModified addr size | isRegionGpuModified addr size =>
      exact (isRegionModified_outcome h).bind fun r hr => hr.1
  | markRegionAsCpuModified addr size =>
    exact (markRegionAsCpuModified_outcome h).mono fun t' ht => ht.tracked
  | unmarkRegionAsGpuModified addr size =>
    exact (unmarkRegionAsGpuModified_outcome h).mono fun t' ht => ht.tracked
  | forEachUploadRange addr size isWritten =>
    exact (forEachUploadRange_outcome h addr size isWritten).bind fun r hr => hr.1.1
  | forEachDownloadRange clear addr size =>
    cases clear with
    | true => exact (forEachDownloadRange_clear_outcome h hallowed).bind fun r hr => hr
    | false => exact (forEachDownloadRange_outcome h).bind fun r hr => hr.1.1

end TrackerOp

/-- A call from outside. The callback of an invalidation runs operations of its own. -/
inductive TrackerCall where
  | single (op : TrackerOp)
  | invalidateRegion (addr size : ℕ) (onFlush : List TrackerOp)

namespace TrackerCall

variable {mode : GpuReadbacksMode} {t : MemoryTracker}

def run (mode : GpuReadbacksMode) : TrackerCall → MemoryTracker → Except TrackerFault MemoryTracker
  | single op, t => op.run mode t
  | invalidateRegion addr size onFlush, t => do
    let (t, _) ← MemoryTracker.invalidateRegion mode (fun (s : MemoryTracker × Unit) => do
      pure (← onFlush.foldlM (fun t op => op.run mode t) s.1, ())) (t, ()) addr size
    pure t

def FortyBit : TrackerCall → Prop
  | single op => op.FortyBit
  | invalidateRegion addr size onFlush => addr + size ≤ 2 ^ 40 ∧ ∀ op ∈ onFlush, op.FortyBit

/-- Callbacks of an invalidation do not clear in relaxed mode. -/
def Allowed (mode : GpuReadbacksMode) (t : MemoryTracker) : TrackerCall → Prop
  | single op => op.Allowed mode t
  | invalidateRegion _ _ onFlush => ∀ op ∈ onFlush, op.Plain mode

open MemoryTracker in
theorem run_outcome (h : t.Tracked mode) {call : TrackerCall} (hallowed : call.Allowed mode t) :
    Outcome (TableFault call.FortyBit) (call.run mode t) fun t' => t'.Tracked mode := by
  cases call with
  | single op => exact TrackerOp.run_outcome h hallowed
  | invalidateRegion addr size onFlush =>
    have hflush : ∀ s : MemoryTracker × Unit, s.1.Tracked mode →
        Outcome (TableFault (addr + size ≤ 2 ^ 40 ∧ ∀ op ∈ onFlush, op.FortyBit)) (do
          pure (← onFlush.foldlM (fun t op => TrackerOp.run mode op t) s.1, ()))
          fun s : MemoryTracker × Unit => s.1.Tracked mode := by
      intro s hs
      refine Outcome.bind (Outcome.foldlM (fun t op hop ht => ?_) hs) fun t ht => ht
      refine (TrackerOp.run_outcome ht (hallowed op hop).allowed).errors fun e he => ?_
      exact ⟨he.1, fun hall => he.2 (hall.2 op hop)⟩
    have hrun := invalidateRegion_outcome (fun _ (s : MemoryTracker × Unit) => s.1.Tracked mode)
      (fun _ s hs => hs) (fun _ _ _ s _ _ hs _ _ _ => hflush s hs)
      (fun _ _ s _ _ _ hs _ _ hkept _ => hs.store hkept) (fun _ _ s hs _ => hs)
      (fun hall => hall.1) (s := (t, ())) h
    exact Outcome.bind hrun fun r hr => hr

/-- The states of every sequence of calls from the start. -/
inductive Reachable (mode : GpuReadbacksMode) : MemoryTracker → Prop
  | init : Reachable mode .init
  | step {t t' : MemoryTracker} {call : TrackerCall} : Reachable mode t → call.FortyBit →
      call.Allowed mode t → call.run mode t = .ok t' → Reachable mode t'

theorem Reachable.tracked (h : Reachable mode t) : t.Tracked mode := by
  induction h with
  | init => exact MemoryTracker.init_tracked
  | step _ _ hallowed hrun ih =>
    have := run_outcome ih hallowed
    rw [hrun] at this
    exact this

/-- In every state the watchers of a page are those that its bits ask for, and no call fails. -/
theorem Reachable.watchers_and_run_ok (h : Reachable mode t) :
    (∀ page, (t.pages page).numWriteWatchers =
        (if t.Created page ∧ t.bit .cpu page = false then 1 else 0) ∧
      (t.pages page).numReadWatchers ≤ 1) ∧
    ∀ call : TrackerCall, call.FortyBit → call.Allowed mode t → ∃ t', call.run mode t = .ok t' := by
  refine ⟨fun page => h.tracked.watchers page, fun call hbits hallowed => ?_⟩
  obtain ⟨t', hrun, -⟩ := (run_outcome h.tracked hallowed).exists_ok fun e he => he.2 hbits
  exact ⟨t', hrun⟩

/-- Two pages are written by the GPU in relaxed mode, where the page manager does not hear of it. -/
theorem watchers_and_run_ok_upload : ∃ t : MemoryTracker,
    run .relaxed (single (.forEachUploadRange 0 0x2000 true)) .init = .ok t ∧
    ∀ page, (t.pages page).numWriteWatchers =
        (if t.Created page ∧ t.bit .cpu page = false then 1 else 0) ∧
      (t.pages page).numReadWatchers ≤ 1 := by
  have hbits : (single (.forEachUploadRange 0 0x2000 true)).FortyBit := by
    simp [FortyBit, TrackerOp.FortyBit]
  obtain ⟨t, hrun⟩ := (Reachable.watchers_and_run_ok .init).2 _ hbits trivial
  have hreach : Reachable .relaxed t := .step .init hbits trivial hrun
  exact ⟨t, hrun, hreach.watchers_and_run_ok.1⟩

/-- Downloading and clearing the first page only, the second counts as newly readable. -/
theorem clear_one_page_notEnoughWatchers :
    (match (do
      let t ← run .relaxed (single (.forEachUploadRange 0 0x2000 true)) .init
      run .relaxed (single (.forEachDownloadRange true 0 0x1000)) t) with
    | .ok _ => none
    | .error fault => some fault) = some TrackerFault.notEnoughWatchers := by
  decide +kernel

end TrackerCall

end PS4Droid.VideoCore
