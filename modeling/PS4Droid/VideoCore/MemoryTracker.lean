import PS4Droid.Foundations.BitRanges
import PS4Droid.Foundations.Words

/-!
# The memory tracker

`page_manager.cpp`, `region_manager.h` and `memory_tracker.h`: which pages were modified by the CPU
and by the GPU, kept in bit arrays of 4 MB regions, and the read and write watchers that the regions
ask for at the page manager. The watchers of the texture cache are counted separately and are not
part of the model, nor is the protection that the host pages get from the counts.
-/

namespace PS4Droid.VideoCore

def trackerBytesPerPage : ℕ := 0x1000

def trackerHigherPageSize : ℕ := 0x400000

def numPagesPerRegion : ℕ := 1024

def numHighPages : ℕ := 0x40000

inductive GpuReadbacksMode where
  | disabled
  | relaxed
  | precise
  deriving DecidableEq

inductive TrackerFault where
  /-- The assertion "Not enough watchers". -/
  | notEnoughWatchers
  /-- An access to the table of regions behind its last entry. -/
  | regionOutOfRange
  deriving DecidableEq

/-! ### The page manager -/

/-- The write watchers have seven bits and the read watchers one. -/
structure PageState where
  numWriteWatchers : ℕ
  numReadWatchers : ℕ
  deriving DecidableEq

abbrev Pages := ℕ → PageState

/-- One watcher more or, when `track` is false, one less. -/
def PageState.addDelta (track isRead : Bool) (state : PageState) : Except TrackerFault PageState :=
  match isRead, track with
  | true, true => .ok { state with numReadWatchers := (state.numReadWatchers + 1) % 2 }
  | true, false =>
    if state.numReadWatchers = 0 then .error .notEnoughWatchers
    else .ok { state with numReadWatchers := state.numReadWatchers - 1 }
  | false, true => .ok { state with numWriteWatchers := (state.numWriteWatchers + 1) % 128 }
  | false, false =>
    if state.numWriteWatchers = 0 then .error .notEnoughWatchers
    else .ok { state with numWriteWatchers := state.numWriteWatchers - 1 }

/-- The loop of both `UpdatePageWatchers` and `UpdatePageWatchersForRegion`. -/
def watchLoop (track isRead : Bool) (update : ℕ → Bool) :
    ℕ → ℕ → Pages → Except TrackerFault Pages
  | 0, _, pages => .ok pages
  | count + 1, page, pages =>
    if update page then do
      let state ← (pages page).addDelta track isRead
      watchLoop track isRead update count (page + 1) (Function.update pages page state)
    else watchLoop track isRead update count (page + 1) pages

def updatePageWatchers (track isRead : Bool) (pages : Pages) (addr size : ℕ) :
    Except TrackerFault Pages :=
  let page := addr / trackerBytesPerPage
  let pageEnd := (addr + size + (trackerBytesPerPage - 1)) / trackerBytesPerPage
  watchLoop track isRead (fun _ => true) (pageEnd - page) page pages

/-- A mask of one range goes to `updatePageWatchers`. -/
def updatePageWatchersForRegion (track isRead : Bool) (pages : Pages) (baseAddr : ℕ)
    (mask : ℕ → Bool) : Except TrackerFault Pages :=
  let startRange := BitRanges.firstRangeFrom numPagesPerRegion mask 0
  let endRange := BitRanges.lastRangeEnd mask numPagesPerRegion
  if startRange.2 = endRange then
    updatePageWatchers track isRead pages (baseAddr + startRange.1 * trackerBytesPerPage)
      ((startRange.2 - startRange.1) * trackerBytesPerPage)
  else
    let basePage := baseAddr / trackerBytesPerPage
    watchLoop track isRead (fun page => mask (page - basePage)) (endRange - startRange.1)
      (basePage + startRange.1) pages

/-! ### One region -/

inductive ModifiedBy where
  | cpu
  | gpu
  deriving DecidableEq

structure RegionManager where
  cpuAddr : ℕ
  cpu : ℕ → Bool
  gpu : ℕ → Bool
  writeable : ℕ → Bool
  readable : ℕ → Bool

namespace RegionManager

def create (cpuAddr : ℕ) : RegionManager where
  cpuAddr := cpuAddr
  cpu := fun _ => true
  gpu := fun _ => false
  writeable := fun _ => true
  readable := fun _ => true

def sanitizeAddress (address : ℕ) : ℕ := if address < 2 ^ 63 then address else 0

def startPage (offset : ℕ) : ℕ := sanitizeAddress offset / trackerBytesPerPage

def endPage (offset size : ℕ) : ℕ :=
  (sanitizeAddress (add64 offset size) + (trackerBytesPerPage - 1)) / trackerBytesPerPage

/-- The pages that need no watcher, and what the page manager was last told of them. -/
def wanted (m : RegionManager) (isRead : Bool) : ℕ → Bool :=
  if isRead then fun i => !m.gpu i else m.cpu

def shadow (m : RegionManager) (isRead : Bool) : ℕ → Bool :=
  if isRead then m.readable else m.writeable

def reconciled (m : RegionManager) (isRead : Bool) : RegionManager :=
  if isRead then { m with readable := fun i => !m.gpu i } else { m with writeable := m.cpu }

def updateProtection (track isRead : Bool) (m : RegionManager) (pages : Pages) :
    Except TrackerFault (RegionManager × Pages) :=
  let mask := fun i => m.wanted isRead i ^^ m.shadow isRead i
  if BitRanges.none numPagesPerRegion mask then .ok (m, pages)
  else do
    let pages ← updatePageWatchersForRegion track isRead pages m.cpuAddr mask
    pure (m.reconciled isRead, pages)

def bits (m : RegionManager) : ModifiedBy → ℕ → Bool
  | .cpu => m.cpu
  | .gpu => m.gpu

def withBits (m : RegionManager) (type : ModifiedBy) (bits : ℕ → Bool) : RegionManager :=
  match type with
  | .cpu => { m with cpu := bits }
  | .gpu => { m with gpu := bits }

def changeRegionState (mode : GpuReadbacksMode) (type : ModifiedBy) (enable : Bool)
    (m : RegionManager) (pages : Pages) (dirtyAddr size : ℕ) :
    Except TrackerFault (RegionManager × Pages) :=
  let offset := sub64 dirtyAddr m.cpuAddr
  let start := startPage offset
  let stop := endPage offset size
  if numPagesPerRegion ≤ start ∨ stop ≤ start then .ok (m, pages)
  else
    let m := m.withBits type (if enable then
      BitRanges.setRange numPagesPerRegion (m.bits type) start stop
    else BitRanges.unsetRange numPagesPerRegion (m.bits type) start stop)
    match type with
    | .cpu => m.updateProtection (!enable) false pages
    | .gpu => if mode = .precise then m.updateProtection enable true pages else .ok (m, pages)

/-- The part of `ForEachModifiedRange` that turns the bits off. -/
def clearRange (mode : GpuReadbacksMode) (type : ModifiedBy) (m : RegionManager) (pages : Pages)
    (start stop : ℕ) : Except TrackerFault (RegionManager × Pages) :=
  let m := m.withBits type (BitRanges.unsetRange numPagesPerRegion (m.bits type) start stop)
  match type with
  | .cpu => m.updateProtection true false pages
  | .gpu => if mode ≠ .disabled then m.updateProtection false true pages else .ok (m, pages)

/-- Also returns the ranges that the callback is called with. -/
def forEachModifiedRange (mode : GpuReadbacksMode) (type : ModifiedBy) (clear : Bool)
    (m : RegionManager) (pages : Pages) (queryCpuRange size : ℕ) :
    Except TrackerFault (RegionManager × Pages × List (ℕ × ℕ)) :=
  let offset := sub64 queryCpuRange m.cpuAddr
  let start := startPage offset
  let stop := endPage offset size
  if numPagesPerRegion ≤ start ∨ stop ≤ start then .ok (m, pages, [])
  else do
    let mask := BitRanges.cutRange numPagesPerRegion (m.bits type) start stop
    let ranges := (BitRanges.ranges numPagesPerRegion mask).map fun range =>
      (m.cpuAddr + range.1 * trackerBytesPerPage, (range.2 - range.1) * trackerBytesPerPage)
    let (m, pages) ← if clear then m.clearRange mode type pages start stop else .ok (m, pages)
    pure (m, pages, ranges)

def isRegionModified (m : RegionManager) (type : ModifiedBy) (offset size : ℕ) : Bool :=
  let start := startPage offset
  let stop := endPage offset size
  if numPagesPerRegion ≤ start ∨ stop ≤ start then false
  else !BitRanges.none numPagesPerRegion
    (BitRanges.cutRange numPagesPerRegion (m.bits type) start stop)

end RegionManager

/-! ### All regions -/

structure MemoryTracker where
  topTier : ℕ → Option RegionManager
  pages : Pages

/-- The part of a range that lies in one region. -/
structure Slice where
  pageIndex : ℕ
  pageOffset : ℕ
  copyAmount : ℕ
  deriving DecidableEq

/-- The turns of the loop of `IteratePages`. -/
def slicesFrom : ℕ → ℕ → ℕ → ℕ → List Slice
  | 0, _, _, _ => []
  | fuel + 1, pageIndex, pageOffset, remaining =>
    if remaining = 0 then []
    else
      let copyAmount := min (trackerHigherPageSize - pageOffset) remaining
      ⟨pageIndex, pageOffset, copyAmount⟩ ::
        slicesFrom fuel (pageIndex + 1) 0 (remaining - copyAmount)

def slices (cpuAddress size : ℕ) : List Slice :=
  slicesFrom (size / trackerHigherPageSize + 2) (cpuAddress / trackerHigherPageSize)
    (cpuAddress % trackerHigherPageSize) size

namespace MemoryTracker

variable {α : Type}

def init : MemoryTracker := ⟨fun _ => none, fun _ => ⟨0, 0⟩⟩

def createRegion (t : MemoryTracker) (pageIndex : ℕ) : MemoryTracker :=
  let manager := RegionManager.create (pageIndex * trackerHigherPageSize)
  { t with topTier := Function.update t.topTier pageIndex (some manager) }

/-- The tracker together with what the callbacks build up. The function gets the region of the
slice and tells whether to stop. -/
def iteratePages (createRegionOnFail : Bool)
    (func : RegionManager → Slice → MemoryTracker × α →
      Except TrackerFault ((MemoryTracker × α) × Bool)) :
    List Slice → MemoryTracker × α → Except TrackerFault ((MemoryTracker × α) × Bool)
  | [], s => .ok (s, false)
  | slice :: rest, s =>
    if numHighPages ≤ slice.pageIndex then .error .regionOutOfRange
    else
      match s.1.topTier slice.pageIndex with
      | some manager => do
        let (s, stop) ← func manager slice s
        if stop then pure (s, true) else iteratePages createRegionOnFail func rest s
      | none =>
        if createRegionOnFail then do
          let s := (s.1.createRegion slice.pageIndex, s.2)
          let (s, stop) ← func (.create (slice.pageIndex * trackerHigherPageSize)) slice s
          if stop then pure (s, true) else iteratePages createRegionOnFail func rest s
        else iteratePages createRegionOnFail func rest s

/-- Store a region and the pages after an operation on it. -/
def store (t : MemoryTracker) (pageIndex : ℕ) (manager : RegionManager) (pages : Pages) :
    MemoryTracker :=
  { topTier := Function.update t.topTier pageIndex (some manager), pages := pages }

def isRegionModified (createRegionOnFail : Bool) (type : ModifiedBy) (t : MemoryTracker)
    (queryCpuAddr querySize : ℕ) : Except TrackerFault (MemoryTracker × Bool) := do
  let ((t, _), modified) ← iteratePages createRegionOnFail
    (fun manager slice (s : MemoryTracker × Unit) =>
      .ok (s, manager.isRegionModified type slice.pageOffset slice.copyAmount))
    (slices queryCpuAddr querySize) (t, ())
  pure (t, modified)

def isRegionCpuModified (t : MemoryTracker) (queryCpuAddr querySize : ℕ) :
    Except TrackerFault (MemoryTracker × Bool) :=
  isRegionModified true .cpu t queryCpuAddr querySize

def isRegionGpuModified (t : MemoryTracker) (queryCpuAddr querySize : ℕ) :
    Except TrackerFault (MemoryTracker × Bool) :=
  isRegionModified false .gpu t queryCpuAddr querySize

/-- One slice of an operation that changes the state of a region. -/
def changeSlice (mode : GpuReadbacksMode) (type : ModifiedBy) (enable : Bool)
    (manager : RegionManager) (slice : Slice) (s : MemoryTracker × α) :
    Except TrackerFault ((MemoryTracker × α) × Bool) := do
  let (manager, pages) ← manager.changeRegionState mode type enable s.1.pages
    (add64 manager.cpuAddr slice.pageOffset) slice.copyAmount
  pure ((s.1.store slice.pageIndex manager pages, s.2), false)

def markRegionAsCpuModified (mode : GpuReadbacksMode) (t : MemoryTracker)
    (dirtyCpuAddr querySize : ℕ) : Except TrackerFault MemoryTracker := do
  let ((t, _), _) ← iteratePages false (changeSlice mode .cpu true) (slices dirtyCpuAddr querySize)
    (t, ())
  pure t

def unmarkRegionAsGpuModified (mode : GpuReadbacksMode) (t : MemoryTracker)
    (dirtyCpuAddr querySize : ℕ) : Except TrackerFault MemoryTracker := do
  let ((t, _), _) ← iteratePages false (changeSlice mode .gpu false) (slices dirtyCpuAddr querySize)
    (t, ())
  pure t

/-- One slice of `InvalidateRegion`. -/
def invalidateSlice (mode : GpuReadbacksMode)
    (onFlush : MemoryTracker × α → Except TrackerFault (MemoryTracker × α))
    (manager : RegionManager) (slice : Slice) (s : MemoryTracker × α) :
    Except TrackerFault ((MemoryTracker × α) × Bool) :=
  if mode ≠ .disabled ∧ manager.isRegionModified .gpu slice.pageOffset slice.copyAmount then do
    pure (← onFlush s, false)
  else changeSlice mode .cpu true manager slice s

def invalidateRegion (mode : GpuReadbacksMode)
    (onFlush : MemoryTracker × α → Except TrackerFault (MemoryTracker × α))
    (s : MemoryTracker × α) (cpuAddr size : ℕ) : Except TrackerFault (MemoryTracker × α) := do
  pure (← iteratePages false (invalidateSlice mode onFlush) (slices cpuAddr size) s).1

/-- One slice of an operation that goes over the modified ranges. -/
def visitSlice (mode : GpuReadbacksMode) (type : ModifiedBy) (clear : Bool)
    (manager : RegionManager) (slice : Slice) (s : MemoryTracker × List (ℕ × ℕ)) :
    Except TrackerFault ((MemoryTracker × List (ℕ × ℕ)) × Bool) := do
  let (manager, pages, ranges) ← manager.forEachModifiedRange mode type clear s.1.pages
    (add64 manager.cpuAddr slice.pageOffset) slice.copyAmount
  pure ((s.1.store slice.pageIndex manager pages, s.2 ++ ranges), false)

/-- The tracker, and the ranges to upload. -/
def forEachUploadRange (mode : GpuReadbacksMode) (t : MemoryTracker)
    (queryCpuRange querySize : ℕ) (isWritten : Bool) :
    Except TrackerFault (MemoryTracker × List (ℕ × ℕ)) := do
  let (s, _) ← iteratePages true (visitSlice mode .cpu true) (slices queryCpuRange querySize)
    (t, [])
  if !isWritten then pure s
  else pure (← iteratePages false (changeSlice mode .gpu true) (slices queryCpuRange querySize) s).1

/-- The tracker, and the ranges to download. -/
def forEachDownloadRange (mode : GpuReadbacksMode) (clear : Bool) (t : MemoryTracker)
    (queryCpuRange querySize : ℕ) : Except TrackerFault (MemoryTracker × List (ℕ × ℕ)) := do
  pure (← iteratePages false (visitSlice mode .gpu clear) (slices queryCpuRange querySize)
    (t, [])).1

end MemoryTracker

end PS4Droid.VideoCore
