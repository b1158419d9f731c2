import PS4Droid.VideoCore.ProtectionRuns

/-!
# Requests for watchers

A request names a range of addresses or the bits of a region. Either way every page that it names
gets or loses one watcher, no other page does, and the host protects every page as its counts then
ask for, unless the request stops at the assertion against write-only pages.
-/

namespace PS4Droid.VideoCore

/-- A call of one of the two functions; the address of a mask is that of a region. -/
inductive WatchRequest where
  | range (addr size : ℕ)
  | mask (index : ℕ) (bits : ℕ → Bool)

namespace WatchRequest

def run (track isRead : Bool) (pages : Pages) (host : HostPages) :
    WatchRequest → Except ProtectFault (Pages × HostPages)
  | .range addr size => protectPageWatchers track isRead pages host addr size
  | .mask index bits =>
      protectPageWatchersForRegion track isRead pages host (index * trackerHigherPageSize) bits

/-- The pages from the one of the address to the last that begins before the end, or those of the
set bits. -/
def Names : WatchRequest → ℕ → Prop
  | .range addr size, q => addr / trackerBytesPerPage ≤ q ∧ q * trackerBytesPerPage < addr + size
  | .mask index bits, q => InMask index bits q

instance : (request : WatchRequest) → (q : ℕ) → Decidable (request.Names q)
  | .range _ _, _ => inferInstanceAs (Decidable (_ ∧ _))
  | .mask index bits, q => inferInstanceAs (Decidable (InMask index bits q))

/-- The request returns, with the counts of exactly its pages changed and all pages protected as
their counts ask. -/
def Protects (request : WatchRequest) (track isRead : Bool) (pages : Pages) (host : HostPages) :
    Prop :=
  ∃ pages' host', request.run track isRead pages host = .ok (pages', host') ∧
    (∀ q, host' q = (pages' q).perms) ∧
    ∀ q, pages' q = if request.Names q then (pages q).bumped track isRead else pages q

/-- No page becomes write-only by the request. -/
def Allowed (request : WatchRequest) (track isRead : Bool) (pages : Pages) : Prop :=
  ∀ q, request.Names q → (pages q).Turns track isRead →
    ((pages q).bumped track isRead).perms ≠ .writeOnly

section Runs

variable {request : WatchRequest} {track isRead : Bool} {pages : Pages} {host : HostPages}
  {baseAddr : ℕ} {bits : ℕ → Bool}

theorem run_eq (request : WatchRequest) : ∃ (update : ℕ → Bool) (count first : ℕ),
    (∀ track isRead pages host,
      request.run track isRead pages host = Batch.run track isRead update count first pages host) ∧
    ∀ q, ((first ≤ q ∧ q < first + count) ∧ update q) ↔ request.Names q := by
  have range_eq : ∀ addr size, ∃ count, (∀ track isRead pages host,
      protectPageWatchers track isRead pages host addr size =
        Batch.run track isRead (fun _ => true) count (addr / trackerBytesPerPage) pages host) ∧
      count = (addr + size + (trackerBytesPerPage - 1)) / trackerBytesPerPage -
        addr / trackerBytesPerPage :=
    fun addr size => ⟨_, fun _ _ _ _ => rfl, rfl⟩
  cases request with
  | range addr size =>
    obtain ⟨count, hrun, hcount⟩ := range_eq addr size
    refine ⟨fun _ => true, count, addr / trackerBytesPerPage, hrun, fun q => ?_⟩
    simp only [Names, and_true, hcount, trackerBytesPerPage]
    omega
  | mask index bits =>
    have hbase : index * trackerHigherPageSize / trackerBytesPerPage % numPagesPerRegion = 0 := by
      rw [regionBase, Nat.mul_mod_left]
    simp only [run, protectPageWatchersForRegion]
    by_cases hone : (BitRanges.firstRangeFrom numPagesPerRegion bits 0).2 =
        BitRanges.lastRangeEnd bits numPagesPerRegion
    · simp only [if_pos hone]
      obtain ⟨count, hrun, hcount⟩ := range_eq
        (index * trackerHigherPageSize + (BitRanges.firstRangeFrom numPagesPerRegion bits 0).1 *
          trackerBytesPerPage)
        (((BitRanges.firstRangeFrom numPagesPerRegion bits 0).2 -
          (BitRanges.firstRangeFrom numPagesPerRegion bits 0).1) * trackerBytesPerPage)
      refine ⟨fun _ => true, count, _, hrun, fun q => ?_⟩
      rw [hcount, regionPage, regionPageEnd, Nat.add_sub_cancel_left]
      exact (and_iff_left rfl).trans (mem_oneRange hone)
    · simp only [if_neg hone, if_neg (not_not.mpr hbase)]
      refine ⟨_, _, _, fun _ _ _ _ => rfl, fun q => ?_⟩
      rw [regionBase]
      exact mem_ranges

/-- A request whose counters neither overflow nor underflow, on pages that are protected as their
counts ask for, leaves them so if it makes no page write-only, and otherwise stops at the
assertion. -/
theorem protects_or_stops (hhost : ∀ q, host q = (pages q).perms)
    (hcounts : ∀ q, request.Names q → (pages q).Counts track isRead) :
    (request.Allowed track isRead pages → request.Protects track isRead pages host) ∧
      (¬ request.Allowed track isRead pages →
        request.run track isRead pages host = .error .writeOnly) := by
  obtain ⟨update, count, first, hrun, hnames⟩ := run_eq request
  have hbarred : (∃ q, Barred track isRead update pages first (first + count) q) ↔
      ¬ request.Allowed track isRead pages := by
    simp only [Allowed, Barred, hnames, not_forall, not_not, exists_prop]
  unfold Protects
  simp only [hrun]
  rcases Batch.run_cases hhost (fun q hle hlt hup =>
    hcounts q ((hnames q).mp ⟨⟨hle, hlt⟩, hup⟩)) with
    ⟨pages', host', hok, hhost', hpages', hnone⟩ | ⟨herror, hsome⟩
  · refine ⟨fun _ =>
      ⟨pages', host', hok, hhost', fun q => (hpages' q).trans (if_congr (hnames q) rfl rfl)⟩,
      fun hnot => ?_⟩
    obtain ⟨q, hq⟩ := hbarred.mpr hnot
    exact absurd hq (hnone q)
  · exact ⟨fun hallowed => absurd hallowed (hbarred.mp hsome), fun _ => herror⟩

/-- A request that returns does to the counts what it does without the protection. -/
theorem protect_refines_update {pages' : Pages} {host' : HostPages}
    (h : protectPageWatchersForRegion track isRead pages host baseAddr bits = .ok (pages', host')) :
    updatePageWatchersForRegion track isRead pages baseAddr bits = .ok pages' := by
  unfold protectPageWatchersForRegion at h
  unfold updatePageWatchersForRegion
  dsimp only at h ⊢
  split_ifs at h ⊢
  · exact Batch.run_refines h
  · exact Batch.run_refines h

theorem protect_refines_update_one : ∃ pages',
    updatePageWatchersForRegion true false (fun _ => ⟨0, 0⟩) 0 (fun i => i == 1) = .ok pages' := by
  have hok : (protectPageWatchersForRegion true false (fun _ => ⟨0, 0⟩) (fun _ => ⟨true, true⟩) 0
      (fun i => i == 1)).toBool := by decide +kernel
  cases hrun : protectPageWatchersForRegion true false (fun _ => ⟨0, 0⟩) (fun _ => ⟨true, true⟩) 0
    (fun i => i == 1) with
  | error fault =>
    rw [hrun] at hok
    cases hok
  | ok result => exact ⟨_, protect_refines_update hrun⟩

end Runs

/-- Two pages of a region that are apart are write-protected. -/
theorem protects_two : (mask 0 fun i => i == 1 || i == 3).Protects true false (fun _ => ⟨0, 0⟩)
    fun _ => ⟨true, true⟩ := by
  refine (protects_or_stops (fun _ => rfl) fun _ _ => by unfold PageState.Counts; decide).1 fun q _
    _ => ?_
  decide

/-- A page with one watcher of each kind becomes write-only when it loses the one against writes. -/
theorem write_only_page : ¬ ∀ (request : WatchRequest) (track isRead : Bool) (pages : Pages)
    (host : HostPages),
    (∀ q, host q = (pages q).perms) → (∀ q, request.Names q → (pages q).Counts track isRead) →
      request.Protects track isRead pages host := by
  intro h
  obtain ⟨pages', host', hrun, -⟩ :=
    h (range 0 0x1000) false false (fun _ => ⟨1, 1⟩) (fun _ => ⟨false, false⟩)
    (fun _ => rfl) fun _ _ => by unfold PageState.Counts; decide
  have hstop : (range 0 0x1000).run false false (fun _ => ⟨1, 1⟩) (fun _ => ⟨false, false⟩) =
      .error .writeOnly := rfl
  rw [hstop] at hrun
  simp at hrun

end WatchRequest

end PS4Droid.VideoCore
