import PS4Droid.VideoCore.Watchers
import PS4Droid.Foundations.Lockstep

/-!
# Tracking pages over all regions

Every region of the tracker is consistent with the page manager, and the pages of the others have
no watchers. The operations go over the slices of a range, one region after the other, and each
slice concerns the pages of its own region only.
-/

namespace PS4Droid.VideoCore

/-! ### The slices of a range -/

/-- The page has a byte of the range. -/
def InPages (addr size page : ℕ) : Prop :=
  0 < size ∧ addr < (page + 1) * trackerBytesPerPage ∧ page * trackerBytesPerPage < addr + size

instance (addr size page : ℕ) : Decidable (InPages addr size page) :=
  inferInstanceAs (Decidable (_ ∧ _))

section Slices

variable {fuel index offset remaining : ℕ}

theorem slicesFrom_zero : slicesFrom fuel index offset 0 = [] := by
  cases fuel <;> rfl

theorem slicesFrom_bounds (hoffset : offset < trackerHigherPageSize) :
    ∀ slice ∈ slicesFrom fuel index offset remaining, 0 < slice.copyAmount ∧
      slice.pageOffset + slice.copyAmount ≤ trackerHigherPageSize ∧
      slice.pageIndex * trackerHigherPageSize + slice.pageOffset + slice.copyAmount ≤
        index * trackerHigherPageSize + offset + remaining := by
  induction fuel generalizing index offset remaining with
  | zero => simp [slicesFrom]
  | succ fuel ih =>
    unfold slicesFrom
    split_ifs with hzero
    · simp
    · intro slice hslice
      rcases List.mem_cons.mp hslice with rfl | hslice
      · refine ⟨?_, ?_, ?_⟩ <;> simp only [trackerHigherPageSize] at * <;> omega
      · by_cases hlast : remaining ≤ trackerHigherPageSize - offset
        · rw [min_eq_right hlast, Nat.sub_self, slicesFrom_zero] at hslice
          exact absurd hslice (List.not_mem_nil)
        · obtain ⟨hpos, hle, htop⟩ := ih (by decide) slice hslice
          refine ⟨hpos, hle, htop.trans ?_⟩
          rw [Nat.add_mul, Nat.one_mul]
          omega

theorem slicesFrom_sorted : (slicesFrom fuel index offset remaining).Pairwise
    (fun a b => a.pageIndex < b.pageIndex) ∧
    ∀ slice ∈ slicesFrom fuel index offset remaining, index ≤ slice.pageIndex := by
  induction fuel generalizing index offset remaining with
  | zero => simp [slicesFrom]
  | succ fuel ih =>
    unfold slicesFrom
    split_ifs with hzero
    · simp
    · obtain ⟨hsorted, hle⟩ := @ih (index + 1) 0
        (remaining - min (trackerHigherPageSize - offset) remaining)
      refine ⟨List.pairwise_cons.mpr ⟨fun slice hslice => ?_, hsorted⟩, fun slice hslice => ?_⟩
      · have := hle slice hslice
        simp only
        omega
      · rcases List.mem_cons.mp hslice with rfl | hslice
        · exact le_rfl
        · exact (Nat.le_succ index).trans (hle slice hslice)

/-- The page is touched by one of the slices. -/
def TouchedBy (slices : List Slice) (page : ℕ) : Prop :=
  ∃ slice ∈ slices, slice.pageIndex = page / numPagesPerRegion ∧
    slice.Touches (page % numPagesPerRegion)

instance (slices : List Slice) (page : ℕ) : Decidable (TouchedBy slices page) :=
  inferInstanceAs (Decidable (∃ slice ∈ slices, _))

theorem touchedBy_append_singleton {done : List Slice} {slice : Slice} {page : ℕ} :
    TouchedBy (done ++ [slice]) page ↔ TouchedBy done page ∨
      slice.pageIndex = page / numPagesPerRegion ∧ slice.Touches (page % numPagesPerRegion) := by
  simp [TouchedBy, or_and_right, exists_or]

theorem slicesFrom_touches (hoffset : offset < trackerHigherPageSize)
    (hfuel : offset + remaining ≤ fuel * trackerHigherPageSize) (page : ℕ) :
    TouchedBy (slicesFrom fuel index offset remaining) page ↔
      InPages (index * trackerHigherPageSize + offset) remaining page := by
  induction fuel generalizing index offset remaining with
  | zero =>
    have hzero : remaining = 0 := by omega
    simp [slicesFrom, TouchedBy, InPages, hzero]
  | succ fuel ih =>
    unfold slicesFrom
    split_ifs with hzero
    · simp [TouchedBy, InPages, hzero]
    · have hrest : 0 + (remaining - min (trackerHigherPageSize - offset) remaining) ≤
          fuel * trackerHigherPageSize := by
        rw [Nat.add_mul] at hfuel
        omega
      have hrec := @ih (index + 1) 0 _ (by decide) hrest
      unfold TouchedBy at hrec ⊢
      simp only [List.mem_cons, exists_eq_or_imp]
      rw [hrec]
      clear ih hrec
      simp only [Slice.Touches, Slice.first, Slice.stop, InPages, trackerHigherPageSize,
        trackerBytesPerPage, numPagesPerRegion] at *
      omega

end Slices

variable {addr size : ℕ}

theorem slices_bounds : ∀ slice ∈ slices addr size, 0 < slice.copyAmount ∧
    slice.pageOffset + slice.copyAmount ≤ trackerHigherPageSize ∧
    slice.pageIndex * trackerHigherPageSize + slice.pageOffset + slice.copyAmount ≤
      addr + size := by
  intro slice hslice
  have h := slicesFrom_bounds (Nat.mod_lt addr (by decide)) slice hslice
  rwa [Nat.div_add_mod'] at h

theorem slices_valid {slice : Slice} (hslice : slice ∈ slices addr size)
    (hlt : slice.pageIndex < numHighPages) : slice.Valid :=
  ⟨hlt, (slices_bounds slice hslice).1, (slices_bounds slice hslice).2.1⟩

theorem slices_inside (h : addr + size ≤ 2 ^ 40) :
    ∀ slice ∈ slices addr size, slice.pageIndex < numHighPages := by
  intro slice hslice
  obtain ⟨hpos, -, htop⟩ := slices_bounds slice hslice
  simp only [trackerHigherPageSize, numHighPages] at *
  omega

theorem slices_sorted : (slices addr size).Pairwise fun a b => a.pageIndex < b.pageIndex :=
  slicesFrom_sorted.1

theorem slices_unique {slice slice' : Slice} (h : slice ∈ slices addr size)
    (h' : slice' ∈ slices addr size) (heq : slice.pageIndex = slice'.pageIndex) :
    slice = slice' := by
  have hnodup : ((slices addr size).map Slice.pageIndex).Nodup :=
    List.pairwise_map.mpr (slices_sorted.imp fun hlt => hlt.ne)
  exact List.inj_on_of_nodup_map hnodup h h' heq

theorem slices_touches (page : ℕ) : TouchedBy (slices addr size) page ↔ InPages addr size page := by
  have hfuel : addr % trackerHigherPageSize + size ≤
      (size / trackerHigherPageSize + 2) * trackerHigherPageSize := by
    simp only [trackerHigherPageSize]
    omega
  have h := @slicesFrom_touches _ (addr / trackerHigherPageSize) _ _
    (Nat.mod_lt addr (by decide)) hfuel page
  rwa [Nat.div_add_mod'] at h

/-! ### The regions together -/

namespace MemoryTracker

variable {mode : GpuReadbacksMode} {t : MemoryTracker} {α : Type}

structure Tracked (mode : GpuReadbacksMode) (t : MemoryTracker) : Prop where
  regions : ∀ index m, t.topTier index = some m →
    RegionManager.Consistent mode index m t.pages
  untracked : ∀ index, t.topTier index = none → ∀ i, i < numPagesPerRegion →
    t.pages (index * numPagesPerRegion + i) = ⟨0, 0⟩

theorem init_tracked : Tracked mode init :=
  ⟨fun index m hm => absurd hm (by simp [init]), fun _ _ _ _ => rfl⟩

theorem Tracked.store (h : Tracked mode t) {index : ℕ} {m' : RegionManager} {pages' : Pages}
    (hkept : RegionManager.Kept mode index t.pages m' pages') :
    Tracked mode (t.store index m' pages') := by
  have hpages : ∀ index', index' ≠ index → ∀ i, i < numPagesPerRegion →
      pages' (index' * numPagesPerRegion + i) = t.pages (index' * numPagesPerRegion + i) := by
    intro index' hne i hi
    refine hkept.onlyIn _ ?_
    simp only [numPagesPerRegion] at *
    omega
  refine ⟨fun index' m hm => ?_, fun index' hnone i hi => ?_⟩
  · by_cases heq : index' = index
    · subst heq
      simp only [MemoryTracker.store, Function.update_self, Option.some.injEq] at hm
      subst hm
      exact hkept.consistent
    · simp only [MemoryTracker.store, Function.update_of_ne heq] at hm
      exact (h.regions index' m hm).congr (hpages index' heq)
  · by_cases heq : index' = index
    · subst heq
      simp [MemoryTracker.store] at hnone
    · simp only [MemoryTracker.store, Function.update_of_ne heq] at hnone
      exact (hpages index' heq i hi).trans (h.untracked index' hnone i hi)

theorem Tracked.createRegion (h : Tracked mode t) {index : ℕ} (hlt : index < numHighPages)
    (hnone : t.topTier index = none) : Tracked mode (t.createRegion index) := by
  exact h.store (RegionManager.create_consistent hlt (h.untracked index hnone)).kept

/-! ### Going over slices -/

/-- Only an access behind the table of regions can fail, and not for a range inside. -/
def TableFault (inside : Prop) (fault : TrackerFault) : Prop :=
  fault = .regionOutOfRange ∧ ¬ inside

variable {inside : Prop}

theorem TableFault.forget {fault : TrackerFault} (h : TableFault inside fault) :
    TableFault False fault :=
  ⟨h.1, id⟩

/-- The rule for going over slices: `P` holds of the slices that are done. -/
theorem iteratePages_outcome {create : Bool} {all : List Slice}
    {func : RegionManager → Slice → MemoryTracker × α →
      Except TrackerFault ((MemoryTracker × α) × Bool)}
    (P : List Slice → MemoryTracker × α → Prop) (Q : MemoryTracker × α → Prop)
    (hstep : ∀ done slice rest s m, all = done ++ slice :: rest →
      slice.pageIndex < numHighPages → P done s → s.1.topTier slice.pageIndex = some m →
      Outcome (TableFault inside) (func m slice s) fun r =>
        if r.2 then Q r.1 else P (done ++ [slice]) r.1)
    (hskip : create = false → ∀ done slice s, slice.pageIndex < numHighPages → P done s →
      s.1.topTier slice.pageIndex = none → P (done ++ [slice]) s)
    (hcreate : create = true → ∀ done slice rest s, all = done ++ slice :: rest →
      slice.pageIndex < numHighPages → P done s → s.1.topTier slice.pageIndex = none →
      P done (s.1.createRegion slice.pageIndex, s.2))
    (hdone : ∀ s, P all s → Q s)
    (hinside : inside → ∀ slice ∈ all, slice.pageIndex < numHighPages)
    {done rest : List Slice} (hall : all = done ++ rest) {s : MemoryTracker × α} (h : P done s) :
    Outcome (TableFault inside) (iteratePages create func rest s) fun r => Q r.1 := by
  induction rest generalizing done s with
  | nil =>
    rw [List.append_nil] at hall
    exact hdone s (hall ▸ h)
  | cons slice rest ih =>
    have hall' : all = (done ++ [slice]) ++ rest := by simpa using hall
    unfold iteratePages
    by_cases hlt : numHighPages ≤ slice.pageIndex
    · rw [if_pos hlt]
      exact ⟨rfl, fun hin => absurd (hinside hin slice (by simp [hall])) (by omega)⟩
    rw [if_neg hlt]
    -- The end of a turn, for a region that was there or was just created.
    have hturn : ∀ (m : RegionManager) (s : MemoryTracker × α), P done s →
        s.1.topTier slice.pageIndex = some m → Outcome (TableFault inside) (do
          let turn ← func m slice s
          if turn.2 then pure (turn.1, true) else iteratePages create func rest turn.1) fun r =>
            Q r.1 := by
      intro m s hP hm
      refine (hstep done slice rest s m hall (by omega) hP hm).bind fun r hr => ?_
      obtain ⟨s₁, stop⟩ := r
      cases stop with
      | true => exact hr
      | false => exact ih hall' hr
    cases hm : s.1.topTier slice.pageIndex with
    | some m => exact hturn m s h hm
    | none =>
      cases create with
      | false => exact ih hall' (hskip rfl done slice s (by omega) h hm)
      | true =>
        refine hturn _ (s.1.createRegion slice.pageIndex, s.2)
          (hcreate rfl done slice rest s hall (by omega) h hm) ?_
        simp [MemoryTracker.createRegion]

/-! ### The bits of a page -/

/-- A page outside the created regions is as in a new region. -/
def bit (type : ModifiedBy) (t : MemoryTracker) (page : ℕ) : Bool :=
  match t.topTier (page / numPagesPerRegion) with
  | some m => m.bits type (page % numPagesPerRegion)
  | none => (RegionManager.create 0).bits type (page % numPagesPerRegion)

def Created (t : MemoryTracker) (page : ℕ) : Prop :=
  (t.topTier (page / numPagesPerRegion)).isSome

instance (page : ℕ) : Decidable (t.Created page) := inferInstanceAs (Decidable (_ = true))

/-- Which bits the page managers' users see is the same. -/
def SameBits (t t' : MemoryTracker) : Prop := ∀ type page, t'.bit type page = t.bit type page

theorem bit_createRegion {index : ℕ} (hnone : t.topTier index = none) :
    SameBits t (t.createRegion index) := by
  intro type page
  by_cases heq : page / numPagesPerRegion = index
  · subst heq
    simp only [bit, MemoryTracker.createRegion, Function.update_self, hnone]
    cases type <;> rfl
  · simp [bit, MemoryTracker.createRegion, Function.update_of_ne heq]

theorem created_createRegion {index page : ℕ} : (t.createRegion index).Created page ↔
    t.Created page ∨ index = page / numPagesPerRegion := by
  by_cases heq : page / numPagesPerRegion = index
  · subst heq
    simp [Created, MemoryTracker.createRegion]
  · simp [Created, MemoryTracker.createRegion, Function.update_of_ne heq, Ne.symm heq]

section Store

variable {slice : Slice} {m m' : RegionManager} {pages' : Pages} {type : ModifiedBy} {enable : Bool}

theorem bit_store (hm : t.topTier slice.pageIndex = some m)
    (hchanged : RegionManager.Changed type enable slice m m') (page : ℕ) :
    (t.store slice.pageIndex m' pages').bit type page =
      if slice.pageIndex = page / numPagesPerRegion ∧ slice.Touches (page % numPagesPerRegion)
      then enable else t.bit type page := by
  by_cases heq : page / numPagesPerRegion = slice.pageIndex
  · simp [bit, MemoryTracker.store, heq, hm, hchanged.bits]
  · simp [bit, MemoryTracker.store, Function.update_of_ne heq, Ne.symm heq]

theorem bit_store_others (hm : t.topTier slice.pageIndex = some m)
    (hsame : m'.bits type = m.bits type) (page : ℕ) :
    (t.store slice.pageIndex m' pages').bit type page = t.bit type page := by
  by_cases heq : page / numPagesPerRegion = slice.pageIndex
  · simp [bit, MemoryTracker.store, heq, hm, hsame]
  · simp [bit, MemoryTracker.store, Function.update_of_ne heq]

theorem created_store (hm : t.topTier slice.pageIndex = some m) (page : ℕ) :
    (t.store slice.pageIndex m' pages').Created page ↔ t.Created page := by
  by_cases heq : page / numPagesPerRegion = slice.pageIndex
  · simp [Created, MemoryTracker.store, heq, hm]
  · simp [Created, MemoryTracker.store, Function.update_of_ne heq]

end Store

/-! ### Changing bits over a range -/

section Change

variable {type : ModifiedBy} {enable create : Bool} {done all : List Slice} {t₀ : MemoryTracker}

/-- The bits of one kind are changed on the slices that are done. -/
structure Progress (mode : GpuReadbacksMode) (type : ModifiedBy) (enable create : Bool)
    (t₀ : MemoryTracker) (done : List Slice) (t : MemoryTracker) : Prop where
  tracked : Tracked mode t
  bits : ∀ page, t.bit type page =
    if t.Created page ∧ TouchedBy done page then enable else t₀.bit type page
  others : ∀ type', type' ≠ type → ∀ page, t.bit type' page = t₀.bit type' page
  grows : ∀ page, t₀.Created page → t.Created page
  only : create = false → ∀ page, t.Created page → t₀.Created page
  covers : create = true → ∀ page, TouchedBy done page → t.Created page
  inside : ∀ slice ∈ done, slice.pageIndex < numHighPages

theorem Progress.start (h : Tracked mode t) : Progress mode type enable create t [] t :=
  ⟨h, by simp [TouchedBy], fun _ _ _ => rfl, fun _ => id, fun _ _ => id, by simp [TouchedBy],
    by simp⟩

theorem Progress.inside_append (h : Progress mode type enable create t₀ done t) {slice : Slice}
    (hlt : slice.pageIndex < numHighPages) :
    ∀ slice' ∈ done ++ [slice], slice'.pageIndex < numHighPages := by
  intro slice' hmem
  rcases List.mem_append.mp hmem with hmem | hmem
  · exact h.inside slice' hmem
  · rwa [List.mem_singleton.mp hmem]

theorem Progress.skip (h : Progress mode type enable create t₀ done t) (hcreate : create = false)
    {slice : Slice} (hlt : slice.pageIndex < numHighPages)
    (hnone : t.topTier slice.pageIndex = none) :
    Progress mode type enable create t₀ (done ++ [slice]) t := by
  have hnot : ∀ page, t.Created page → slice.pageIndex ≠ page / numPagesPerRegion := by
    intro page hpage heq
    rw [heq] at hnone
    simp [Created, hnone] at hpage
  refine { h with bits := fun page => ?_, covers := fun htrue => ?_, inside := h.inside_append hlt }
  · rw [h.bits page]
    refine if_congr (and_congr_right fun hpage => ?_) rfl rfl
    rw [touchedBy_append_singleton]
    exact (or_iff_left fun hslice => hnot page hpage hslice.1).symm
  · rw [hcreate] at htrue
    exact absurd htrue (by decide)

theorem Progress.createRegion (h : Progress mode type enable create t₀ done t)
    (hcreate : create = true) {slice : Slice} {rest : List Slice}
    (hsorted : all.Pairwise fun a b => a.pageIndex < b.pageIndex)
    (hall : all = done ++ slice :: rest) (hlt : slice.pageIndex < numHighPages)
    (hnone : t.topTier slice.pageIndex = none) :
    Progress mode type enable create t₀ done (t.createRegion slice.pageIndex) := by
  have hbefore : ∀ page, TouchedBy done page → slice.pageIndex ≠ page / numPagesPerRegion := by
    rintro page ⟨slice', hmem, hindex, -⟩ heq
    rw [hall, List.pairwise_append] at hsorted
    have := hsorted.2.2 slice' hmem slice (.head _)
    omega
  refine ⟨h.tracked.createRegion hlt hnone, fun page => ?_, fun type' htype page => ?_,
    fun page hpage => ?_, fun hfalse => ?_, fun _ page hpage => ?_, h.inside⟩
  · rw [bit_createRegion hnone type page, h.bits page]
    refine if_congr (and_congr_left fun hpage => ?_) rfl rfl
    rw [created_createRegion]
    exact (or_iff_left (hbefore page hpage)).symm
  · rw [bit_createRegion hnone type' page, h.others type' htype page]
  · exact created_createRegion.mpr (.inl (h.grows page hpage))
  · rw [hcreate] at hfalse
    exact absurd hfalse (by decide)
  · exact created_createRegion.mpr (.inl (h.covers hcreate page hpage))

theorem Progress.store (h : Progress mode type enable create t₀ done t) {slice : Slice}
    {m m' : RegionManager} {pages' : Pages} (hm : t.topTier slice.pageIndex = some m)
    (hkept : RegionManager.Kept mode slice.pageIndex t.pages m' pages')
    (hchanged : RegionManager.Changed type enable slice m m') :
    Progress mode type enable create t₀ (done ++ [slice]) (t.store slice.pageIndex m' pages') := by
  have hcreated : ∀ page, slice.pageIndex = page / numPagesPerRegion → t.Created page := by
    intro page heq
    simp [Created, ← heq, hm]
  refine ⟨h.tracked.store hkept, fun page => ?_, fun type' htype page => ?_, fun page hpage => ?_,
    fun hfalse page hpage => ?_, fun htrue page hpage => ?_,
    h.inside_append hkept.consistent.index_lt⟩
  · rw [bit_store hm hchanged page, h.bits page]
    by_cases hslice : slice.pageIndex = page / numPagesPerRegion ∧
        slice.Touches (page % numPagesPerRegion)
    · rw [if_pos hslice, if_pos ⟨(created_store hm page).mpr (hcreated page hslice.1),
        touchedBy_append_singleton.mpr (.inr hslice)⟩]
    · rw [if_neg hslice]
      refine if_congr (and_congr (created_store hm page).symm ?_) rfl rfl
      rw [touchedBy_append_singleton]
      exact (or_iff_left hslice).symm
  · rw [bit_store_others hm (hchanged.others type' htype) page, h.others type' htype page]
  · exact (created_store hm page).mpr (h.grows page hpage)
  · exact h.only hfalse page ((created_store hm page).mp hpage)
  · rw [created_store hm page]
    rcases touchedBy_append_singleton.mp hpage with hpage | hpage
    · exact h.covers htrue page hpage
    · exact hcreated page hpage.1

theorem changeSlices_outcome (h : Tracked mode t) (a : α) :
    Outcome (TableFault (addr + size ≤ 2 ^ 40))
      (iteratePages create (changeSlice mode type enable) (slices addr size) (t, a)) fun r =>
        Progress mode type enable create t (slices addr size) r.1.1 ∧ r.1.2 = a := by
  refine iteratePages_outcome
    (fun done s => Progress mode type enable create t done s.1 ∧ s.2 = a)
    (fun s => Progress mode type enable create t (slices addr size) s.1 ∧ s.2 = a)
    ?_ ?_ ?_ (fun s hs => hs) slices_inside rfl ⟨.start h, rfl⟩
  · intro done slice rest s m hall hlt hP hm
    have hmem : slice ∈ slices addr size := by simp [hall]
    have hvalid := slices_valid hmem hlt
    obtain ⟨m', pages', heq, hkept, hchanged⟩ := RegionManager.changeRegionState_ok
      (hP.1.tracked.regions slice.pageIndex m hm) hvalid type enable
    unfold changeSlice
    rw [heq]
    exact ⟨hP.1.store hm hkept hchanged, hP.2⟩
  · intro hcreate done slice s hlt hP hnone
    exact ⟨hP.1.skip hcreate hlt hnone, hP.2⟩
  · intro hcreate done slice rest s hall hlt hP hnone
    exact ⟨hP.1.createRegion hcreate slices_sorted hall hlt hnone, hP.2⟩

theorem Progress.range_le (h : Progress mode type enable create t₀ (slices addr size) t)
    (hpos : 0 < size) : addr + size ≤ 2 ^ 40 := by
  have hlast : InPages addr size ((addr + size - 1) / trackerBytesPerPage) := by
    simp only [InPages, trackerBytesPerPage]
    omega
  obtain ⟨slice, hmem, hindex, -⟩ := (slices_touches _).mpr hlast
  have hlt := h.inside slice hmem
  simp only [trackerBytesPerPage, numPagesPerRegion, numHighPages] at *
  omega

/-- In relaxed mode the GPU modified pages of the regions of the range all lie in the range. -/
def Clears (mode : GpuReadbacksMode) (addr size : ℕ) (t : MemoryTracker) : Prop :=
  mode = .relaxed → ∀ page, t.bit .gpu page →
    (∃ page', InPages addr size page' ∧ page' / numPagesPerRegion = page / numPagesPerRegion) →
    InPages addr size page

theorem Progress.clearable (h : Progress mode .gpu false create t₀ done t)
    (hclears : Clears mode addr size t₀) {slice : Slice} (hmem : slice ∈ slices addr size)
    (hvalid : slice.Valid) {m : RegionManager} (hm : t.topTier slice.pageIndex = some m) :
    m.Clearable mode slice := by
  intro hmode i hi hgpu
  have hpage : ∀ j, j < numPagesPerRegion →
      (slice.pageIndex * numPagesPerRegion + j) / numPagesPerRegion = slice.pageIndex ∧
      (slice.pageIndex * numPagesPerRegion + j) % numPagesPerRegion = j := by
    intro j hj
    simp only [numPagesPerRegion] at *
    omega
  obtain ⟨hdiv, hmod⟩ := hpage i hi
  have hbit : t.bit .gpu (slice.pageIndex * numPagesPerRegion + i) = true := by
    simpa [bit, hdiv, hmod, hm, RegionManager.bits] using hgpu
  have hbit₀ : t₀.bit .gpu (slice.pageIndex * numPagesPerRegion + i) = true := by
    rw [h.bits] at hbit
    split_ifs at hbit
    exact hbit
  obtain ⟨-, -, hlt, hle⟩ := hvalid.pages
  obtain ⟨hdiv', hmod'⟩ := hpage slice.first (by omega)
  have htouch : InPages addr size (slice.pageIndex * numPagesPerRegion + slice.first) :=
    (slices_touches _).mp ⟨slice, hmem, hdiv'.symm, by rw [hmod']; exact ⟨le_rfl, hlt⟩⟩
  obtain ⟨slice', hmem', hindex, htouch'⟩ := (slices_touches _).mpr
    (hclears hmode _ hbit₀ ⟨_, htouch, hdiv'.trans hdiv.symm⟩)
  rw [hdiv] at hindex
  rw [slices_unique hmem' hmem hindex, hmod] at htouch'
  exact htouch'

theorem visitSlices_outcome (h : Tracked mode t) (hclears : type = .gpu → Clears mode addr size t)
    (ranges : List (ℕ × ℕ)) : Outcome (TableFault (addr + size ≤ 2 ^ 40))
      (iteratePages create (visitSlice mode type true) (slices addr size) (t, ranges)) fun r =>
        Progress mode type false create t (slices addr size) r.1.1 := by
  refine iteratePages_outcome (fun done s => Progress mode type false create t done s.1)
    (fun s => Progress mode type false create t (slices addr size) s.1)
    ?_ ?_ ?_ (fun s hs => hs) slices_inside rfl (.start h)
  · intro done slice rest s m hall hlt hP hm
    have hmem : slice ∈ slices addr size := by simp [hall]
    have hvalid := slices_valid hmem hlt
    obtain ⟨m', pages', ranges', heq, hkept, hchanged, -⟩ := RegionManager.forEachModifiedRange_ok
      (hP.tracked.regions slice.pageIndex m hm) hvalid type true (by
        rintro - rfl
        exact hP.clearable (hclears rfl) hmem hvalid hm)
    unfold visitSlice
    rw [heq]
    exact hP.store hm hkept hchanged
  · intro hcreate done slice s hlt hP hnone
    exact hP.skip hcreate hlt hnone
  · intro hcreate done slice rest s hall hlt hP hnone
    exact hP.createRegion hcreate slices_sorted hall hlt hnone

end Change

/-! ### Reading over a range -/

/-- The ranges have exactly the bytes of `bytes`. -/
def RangesOf (ranges : List (ℕ × ℕ)) (bytes : ℕ → Prop) : Prop :=
  ∀ x, (∃ range ∈ ranges, range.1 ≤ x ∧ x < range.1 + range.2) ↔ bytes x

theorem rangesOf_slice {slice : Slice} (hvalid : slice.Valid) (bits : ℕ → Bool) :
    RangesOf ((BitRanges.ranges numPagesPerRegion (BitRanges.cutRange numPagesPerRegion
      bits slice.first slice.stop)).map fun range =>
        (slice.pageIndex * trackerHigherPageSize + range.1 * trackerBytesPerPage,
          (range.2 - range.1) * trackerBytesPerPage))
      fun x => slice.pageIndex = x / trackerBytesPerPage / numPagesPerRegion ∧
        slice.Touches (x / trackerBytesPerPage % numPagesPerRegion) ∧
        bits (x / trackerBytesPerPage % numPagesPerRegion) = true := by
  intro x
  obtain ⟨-, -, hlt, hle⟩ := hvalid.pages
  have hmem := BitRanges.mem_ranges numPagesPerRegion
    (BitRanges.cutRange numPagesPerRegion bits slice.first slice.stop)
  simp only [BitRanges.cutRange_apply hlt hle] at hmem
  constructor
  · rintro ⟨range, hrange, hle', hlt'⟩
    obtain ⟨r, hr, rfl⟩ := List.mem_map.mp hrange
    -- The page of the byte is a page of the range, and so inside the region.
    obtain ⟨j, hj⟩ : ∃ j, j = x / trackerBytesPerPage - slice.pageIndex * numPagesPerRegion :=
      ⟨_, rfl⟩
    have hin : r.1 ≤ j ∧ j < r.2 ∧
        slice.pageIndex * numPagesPerRegion ≤ x / trackerBytesPerPage := by
      simp only [trackerHigherPageSize, trackerBytesPerPage, numPagesPerRegion] at *
      omega
    obtain ⟨hj', htouch, hbit⟩ := (hmem j).mp ⟨r, hr, hin.1, hin.2.1⟩
    have hdiv : slice.pageIndex = x / trackerBytesPerPage / numPagesPerRegion ∧
        x / trackerBytesPerPage % numPagesPerRegion = j := by
      simp only [trackerBytesPerPage, numPagesPerRegion] at *
      omega
    rw [hdiv.2]
    exact ⟨hdiv.1, htouch, hbit⟩
  · rintro ⟨hindex, htouch, hbit⟩
    obtain ⟨r, hr, hle', hlt'⟩ := (hmem (x / trackerBytesPerPage % numPagesPerRegion)).mpr
      ⟨Nat.mod_lt _ (by decide), htouch, hbit⟩
    refine ⟨_, List.mem_map.mpr ⟨r, hr, rfl⟩, ?_⟩
    simp only [trackerHigherPageSize, trackerBytesPerPage, numPagesPerRegion] at *
    omega

theorem readSlices_outcome (h : Tracked mode t) : Outcome (TableFault (addr + size ≤ 2 ^ 40))
    (iteratePages false (visitSlice mode .gpu false) (slices addr size) (t, [])) fun r =>
      (Tracked mode r.1.1 ∧ SameBits t r.1.1) ∧ RangesOf r.1.2 fun x =>
        t.bit .gpu (x / trackerBytesPerPage) = true ∧
          InPages addr size (x / trackerBytesPerPage) := by
  refine iteratePages_outcome (fun done s => (Tracked mode s.1 ∧ SameBits t s.1) ∧
      RangesOf s.2 fun x => t.bit .gpu (x / trackerBytesPerPage) = true ∧
        TouchedBy done (x / trackerBytesPerPage))
    (fun s => (Tracked mode s.1 ∧ SameBits t s.1) ∧
      RangesOf s.2 fun x => t.bit .gpu (x / trackerBytesPerPage) = true ∧
        InPages addr size (x / trackerBytesPerPage))
    ?_ ?_ ?_ ?_ slices_inside (List.nil_append _).symm ?_
  · rintro done slice rest s m hall hlt ⟨⟨htracked, hsame⟩, hranges⟩ hm
    have hmem : slice ∈ slices addr size := by simp [hall]
    have hvalid := slices_valid hmem hlt
    obtain ⟨m', pages', ranges, heq, hkept, hchanged, hvisit⟩ :=
      RegionManager.forEachModifiedRange_ok (htracked.regions slice.pageIndex m hm) hvalid
        .gpu false nofun
    simp only [Bool.false_eq_true, if_false] at hchanged
    subst hchanged
    unfold visitSlice
    rw [heq]
    refine ⟨⟨htracked.store hkept, fun type page => ?_⟩, fun x => ?_⟩
    · rw [← hsame type page]
      exact bit_store_others hm rfl page
    · simp only [List.mem_append, or_and_right, exists_or, touchedBy_append_singleton]
      rw [and_or_left, hranges x, hvisit, rangesOf_slice hvalid (m'.bits .gpu) x]
      refine or_congr Iff.rfl ?_
      rw [← hsame .gpu]
      constructor
      · rintro ⟨hindex, htouch, hbit⟩
        exact ⟨by rw [bit, ← hindex, hm]; exact hbit, hindex, htouch⟩
      · rintro ⟨hbit, hindex, htouch⟩
        rw [bit, ← hindex, hm] at hbit
        exact ⟨hindex, htouch, hbit⟩
  · rintro - done slice s - ⟨htracked, hranges⟩ hnone
    refine ⟨htracked, fun x => (hranges x).trans (and_congr_right fun hbit => ?_)⟩
    rw [touchedBy_append_singleton]
    refine (or_iff_left fun hslice => ?_).symm
    rw [← htracked.2 .gpu, bit, ← hslice.1, hnone] at hbit
    exact absurd hbit (by simp [RegionManager.create, RegionManager.bits])
  · exact nofun
  · intro s hs
    simpa only [slices_touches] using hs
  · exact ⟨⟨h, fun _ _ => rfl⟩, by simp [RangesOf, TouchedBy]⟩

end MemoryTracker

end PS4Droid.VideoCore
