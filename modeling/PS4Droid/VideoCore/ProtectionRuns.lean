import PS4Droid.VideoCore.Watchers

/-!
# Runs of pages keep the protection

Outside of the run that is still to be protected, every page has the protection that its counts ask
for, before and after each page of the loop. The loop only stops at the assertion, and does so
exactly if a page whose protection changes may not be read but written.
-/

namespace PS4Droid.VideoCore

/-!
### Pages

The two functions of `page_manager.cpp` that change watchers, with the calls of `Protect` that they
make. A page is protected by what its counts ask for. Calls are collected over runs of pages: a run
begins at a page whose protection changes, has one kind of protection, and goes on past pages that
have this protection already; what follows the last page that changes is only committed when another
such page follows.
-/

/-- Reading and writing by the CPU. -/
structure MemoryPermission where
  read : Bool
  write : Bool
  deriving DecidableEq

/-- Not a permission that a host page can have. -/
def MemoryPermission.writeOnly : MemoryPermission := ⟨false, true⟩

namespace PageState

def writePerm (state : PageState) : Bool := state.numWriteWatchers = 0

def readPerm (state : PageState) : Bool := state.numReadWatchers = 0

def perms (state : PageState) : MemoryPermission := ⟨state.readPerm, state.writePerm⟩

end PageState

inductive ProtectFault where
  | watchers (fault : TrackerFault)
  /-- "Attempted to protect region as write-only which is not a valid permission". -/
  | writeOnly
  /-- `base_page % PAGES_PER_LOCK == 0`. -/
  | basePage
  deriving DecidableEq

abbrev HostPages := ℕ → MemoryPermission

/-- `mprotect` takes whole pages from an address at the start of a page. -/
def protect (host : HostPages) (address size : ℕ) (perms : MemoryPermission) :
    Except ProtectFault HostPages :=
  if perms = MemoryPermission.writeOnly then .error .writeOnly
  else .ok fun q =>
    if address ≤ q * trackerBytesPerPage ∧ q * trackerBytesPerPage < address + size then perms
      else host q

/-- The variables of the loop. -/
structure Batch where
  pages : Pages
  host : HostPages
  perms : MemoryPermission
  rangeBegin : ℕ
  rangeBytes : ℕ
  potentialRangeBytes : ℕ

namespace Batch

def releasePending (b : Batch) : Except ProtectFault Batch :=
  if 0 < b.rangeBytes then do
    let host ← protect b.host (b.rangeBegin * trackerBytesPerPage) b.rangeBytes b.perms
    return { b with host, rangeBytes := 0, potentialRangeBytes := 0 }
  else return b

/-- The change of the watchers of a page. -/
def addDelta (track isRead update : Bool) (state : PageState) : Except ProtectFault PageState :=
  if update then
    match state.addDelta track isRead with
    | .ok state => .ok state
    | .error fault => .error (.watchers fault)
  else .ok state

/-- A new protection ends the run; the same one may extend it. -/
def follow (b : Batch) (newPerms : MemoryPermission) : Except ProtectFault Batch :=
  if newPerms ≠ b.perms then do
    let b ← b.releasePending
    return { b with perms := newPerms }
  else if b.rangeBytes ≠ 0 then
    return { b with potentialRangeBytes := b.potentialRangeBytes + trackerBytesPerPage }
  else return b

/-- A page that must be (un)protected starts a run or commits what may belong to it. -/
def commit (b : Batch) (page : ℕ) : Batch :=
  let b := if b.rangeBytes = 0 then
    { b with rangeBegin := page, potentialRangeBytes := trackerBytesPerPage } else b
  { b with rangeBytes := b.potentialRangeBytes }

/-- One page of the loop. -/
def step (track isRead update : Bool) (page : ℕ) (b : Batch) : Except ProtectFault Batch := do
  let state ← addDelta track isRead update (b.pages page)
  let newCount := state.watchers isRead
  let b ← follow { b with pages := Function.update b.pages page state } state.perms
  if update && ((newCount = 0 && !track) || (newCount = 1 && track)) then return b.commit page
  else return b

/-- The loop of both functions. -/
def loop (track isRead : Bool) (update : ℕ → Bool) : ℕ → ℕ → Batch → Except ProtectFault Batch
  | 0, _, b => .ok b
  | count + 1, page, b => do
    let b ← step track isRead (update page) page b
    loop track isRead update count (page + 1) b

/-- From the first page on, with the protection it has. -/
def run (track isRead : Bool) (update : ℕ → Bool) (count page : ℕ) (pages : Pages)
    (host : HostPages) :
    Except ProtectFault (Pages × HostPages) := do
  let b ← loop track isRead update count page
    { pages, host, perms := (pages page).perms, rangeBegin := 0, rangeBytes :=
      0, potentialRangeBytes := 0 }
  let b ← b.releasePending
  return (b.pages, b.host)

end Batch

/-- `UpdatePageWatchers`. -/
def protectPageWatchers (track isRead : Bool) (pages : Pages) (host : HostPages) (addr size : ℕ) :
    Except ProtectFault (Pages × HostPages) :=
  let page := addr / trackerBytesPerPage
  let pageEnd := (addr + size + (trackerBytesPerPage - 1)) / trackerBytesPerPage
  Batch.run track isRead (fun _ => true) (pageEnd - page) page pages host

/-- `UpdatePageWatchersForRegion`. -/
def protectPageWatchersForRegion (track isRead : Bool) (pages : Pages) (host : HostPages)
    (baseAddr : ℕ) (mask : ℕ → Bool) : Except ProtectFault (Pages × HostPages) :=
  let startRange := BitRanges.firstRangeFrom numPagesPerRegion mask 0
  let endRange := BitRanges.lastRangeEnd mask numPagesPerRegion
  if startRange.2 = endRange then
    protectPageWatchers track isRead pages host (baseAddr + startRange.1 * trackerBytesPerPage)
      ((startRange.2 - startRange.1) * trackerBytesPerPage)
  else
    let basePage := baseAddr / trackerBytesPerPage
    if basePage % numPagesPerRegion ≠ 0 then .error .basePage
    else
      Batch.run track isRead (fun page => mask (page - basePage)) (endRange - startRange.1)
        (basePage + startRange.1) pages host

/-! ### Runs -/

namespace PageState

/-- The state with one watcher more or less. -/
def bumped (track isRead : Bool) (state : PageState) : PageState :=
  state.withWatchers isRead (if track then state.watchers isRead + 1 else state.watchers isRead - 1)

/-- The counter neither overflows nor underflows. -/
def Counts (track isRead : Bool) (state : PageState) : Prop :=
  if track then state.watchers isRead + 1 < (if isRead then 2 else 128)
    else 0 < state.watchers isRead

/-- The first watcher comes or the last one goes. -/
def Turns (track isRead : Bool) (state : PageState) : Prop :=
  state.watchers isRead = if track then 0 else 1

variable {track isRead : Bool} {state : PageState}

theorem addDelta_bumped (h : state.Counts track isRead) :
    state.addDelta track isRead = .ok (state.bumped track isRead) := by
  obtain ⟨write, read⟩ := state
  cases track <;> cases isRead <;>
    simp only [Counts, watchers, if_true, Bool.false_eq_true, if_false] at h
  · rw [addDelta, if_neg (by dsimp only; omega)]
    rfl
  · rw [addDelta, if_neg (by dsimp only; omega)]
    rfl
  · simp only [addDelta, Nat.mod_eq_of_lt h]
    rfl
  · simp only [addDelta, Nat.mod_eq_of_lt h]
    rfl

theorem turns_iff (h : state.Counts track isRead) :
    (((state.bumped track isRead).watchers isRead = 0 && !track) ||
      ((state.bumped track isRead).watchers isRead = 1 && track)) = true ↔
        state.Turns track isRead := by
  rw [bumped, watchers_withWatchers]
  cases track <;>
    simp only [Counts, Turns, if_true, Bool.false_eq_true, if_false, Bool.not_true, Bool.not_false,
      Bool.and_true,
      Bool.and_false, Bool.or_false, Bool.false_or, decide_eq_true_eq] at h ⊢ <;> omega

theorem perms_bumped (h : state.Counts track isRead) (hturns : ¬ state.Turns track isRead) :
    (state.bumped track isRead).perms = state.perms := by
  obtain ⟨write, read⟩ := state
  have hzero : ∀ {a b : ℕ}, (a = 0 ↔ b = 0) → decide (a = 0) = decide (b = 0) :=
    fun h => decide_eq_decide.mpr h
  cases track <;> cases isRead <;>
    simp only [Counts, Turns, watchers, if_true, Bool.false_eq_true, if_false] at h hturns <;>
    simp only [bumped, withWatchers, watchers, perms, readPerm, writePerm, if_true,
      Bool.false_eq_true, if_false, MemoryPermission.mk.injEq, true_and, and_true] <;>
    exact hzero (by omega)

end PageState

/-- The page is changed before `page` and becomes write-only by it. -/
def Barred (track isRead : Bool) (update : ℕ → Bool) (pages₀ : Pages) (first page q : ℕ) : Prop :=
  ((first ≤ q ∧ q < page) ∧ update q) ∧ (pages₀ q).Turns track isRead ∧
    ((pages₀ q).bumped track isRead).perms = .writeOnly

namespace Batch

/-- The page belongs to the run that will be protected. -/
def Committed (b : Batch) (q : ℕ) : Prop :=
  b.rangeBegin * trackerBytesPerPage ≤ q * trackerBytesPerPage ∧
    q * trackerBytesPerPage < b.rangeBegin * trackerBytesPerPage + b.rangeBytes

section Loop

variable {track isRead : Bool} {update : ℕ → Bool} {pages₀ : Pages} {first page : ℕ} {b b' : Batch}

/-- The loop has come to `page`. -/
structure Inv (track isRead : Bool) (update : ℕ → Bool) (pages₀ : Pages) (first page : ℕ)
    (b : Batch) : Prop where
  pages : ∀ q, b.pages q =
    if (first ≤ q ∧ q < page) ∧ update q then (pages₀ q).bumped track isRead else pages₀ q
  host : ∀ q, ¬ b.Committed q → b.host q = (b.pages q).perms
  bytes : 0 < b.rangeBytes → b.rangeBytes ≤ b.potentialRangeBytes
  reach : 0 < b.rangeBytes →
    b.rangeBegin * trackerBytesPerPage + b.potentialRangeBytes = page * trackerBytesPerPage
  uniform : 0 < b.rangeBytes → ∀ q, b.rangeBegin ≤ q → q < page → (b.pages q).perms = b.perms
  opener : 0 < b.rangeBytes → ((first ≤ b.rangeBegin ∧ b.rangeBegin < page) ∧ update b.rangeBegin) ∧
    (pages₀ b.rangeBegin).Turns track isRead
  barred : ∀ q, Barred track isRead update pages₀ first page q → b.Committed q

namespace Inv

variable (hinv : Inv track isRead update pages₀ first page b)

include hinv

theorem committed_lt {q : ℕ} (hq : b.Committed q) :
    0 < b.rangeBytes ∧ b.rangeBegin ≤ q ∧ q < page := by
  have hpos : 0 < b.rangeBytes := by
    have := hq.1
    have := hq.2
    omega
  have hbytes := hinv.bytes hpos
  have hreach := hinv.reach hpos
  simp only [Committed, trackerBytesPerPage] at hq hreach
  omega

theorem barred_opener (hpos : 0 < b.rangeBytes) (hperms : b.perms = .writeOnly) :
    Barred track isRead update pages₀ first page b.rangeBegin := by
  obtain ⟨hin, hturns⟩ := hinv.opener hpos
  refine ⟨hin, hturns, ?_⟩
  have hpage := hinv.pages b.rangeBegin
  rw [if_pos hin] at hpage
  rw [← hpage, hinv.uniform hpos _ le_rfl hin.1.2, hperms]

theorem release :
    (∃ b', b.releasePending = .ok b' ∧ Inv track isRead update pages₀ first page b' ∧
      b'.rangeBytes = 0 ∧ b'.pages = b.pages) ∨
    (b.releasePending = .error .writeOnly ∧ ∃ q,
      Barred track isRead update pages₀ first page q) := by
  unfold releasePending
  by_cases hpos : 0 < b.rangeBytes
  · rw [if_pos hpos, protect]
    by_cases hperms : b.perms = .writeOnly
    · rw [if_pos hperms]
      exact .inr ⟨rfl, _, hinv.barred_opener hpos hperms⟩
    · rw [if_neg hperms]
      refine .inl ⟨_, rfl,
        ⟨hinv.pages, fun q _ => ?_, by simp, by simp, by simp, by simp, fun q hq => ?_⟩, rfl, rfl⟩
      · dsimp only
        by_cases hq : b.Committed q
        · obtain ⟨-, hle, hlt⟩ := hinv.committed_lt hq
          exact (if_pos hq).trans (hinv.uniform hpos q hle hlt).symm
        · exact (if_neg hq).trans (hinv.host q hq)
      · obtain ⟨-, hle, hlt⟩ := hinv.committed_lt (hinv.barred q hq)
        have hpage := hinv.pages q
        rw [if_pos hq.1] at hpage
        exact absurd ((hinv.uniform hpos q hle hlt).symm.trans (hpage ▸ hq.2.2)) hperms
  · rw [if_neg hpos]
    exact .inl ⟨b, rfl, hinv, by omega, rfl⟩

end Inv

/-- The counts of `page` are changed, its protection is known, but the run is not yet extended to
it. -/
structure Followed (track isRead : Bool) (update : ℕ → Bool) (pages₀ : Pages) (first page : ℕ)
    (b : Batch) :
    Prop where
  pages : ∀ q, b.pages q =
    if (first ≤ q ∧ q < page + 1) ∧ update q then (pages₀ q).bumped track isRead else pages₀ q
  host : ∀ q, q ≠ page → ¬ b.Committed q → b.host q = (b.pages q).perms
  own : b.host page = (pages₀ page).perms
  before : ∀ q, b.Committed q → q < page
  bytes : 0 < b.rangeBytes → b.rangeBytes ≤ b.potentialRangeBytes
  reach : 0 < b.rangeBytes →
    b.rangeBegin * trackerBytesPerPage + b.potentialRangeBytes = (page + 1) * trackerBytesPerPage
  perms : (b.pages page).perms = b.perms
  uniform : 0 < b.rangeBytes → ∀ q, b.rangeBegin ≤ q → q < page + 1 → (b.pages q).perms = b.perms
  opener : 0 < b.rangeBytes →
    ((first ≤ b.rangeBegin ∧ b.rangeBegin < page + 1) ∧ update b.rangeBegin) ∧
    (pages₀ b.rangeBegin).Turns track isRead
  barred : ∀ q, Barred track isRead update pages₀ first page q → b.Committed q

theorem releasePending_pages (b : Batch) (pages : Pages) :
    ({ b with pages } : Batch).releasePending = (b.releasePending).map fun b' =>
      { b' with pages } := by
  unfold releasePending
  split_ifs with hpos
  · dsimp only
    cases protect b.host (b.rangeBegin * trackerBytesPerPage) b.rangeBytes b.perms <;> rfl
  · rfl

theorem not_committed_of_zero (hzero : b.rangeBytes = 0) (q : ℕ) : ¬ b.Committed q := by
  unfold Committed
  omega

theorem update_pages (hpages : ∀ q, b.pages q =
      if (first ≤ q ∧ q < page) ∧ update q then (pages₀ q).bumped track isRead else pages₀ q)
    (hfirst : first ≤ page) (state : PageState)
    (hstate : state = if update page then (pages₀ page).bumped track isRead else pages₀ page)
    (q : ℕ) :
    Function.update b.pages page state q =
      if (first ≤ q ∧ q < page + 1) ∧ update q then (pages₀ q).bumped track isRead
        else pages₀ q := by
  by_cases hq : q = page
  · subst hq
    rw [Function.update_self, hstate]
    exact if_congr (by simp [hfirst]) rfl rfl
  · rw [Function.update_of_ne hq, hpages]
    exact if_congr (and_congr_left fun _ => by omega) rfl rfl

theorem Inv.follow (hinv : Inv track isRead update pages₀ first page b) (hfirst : first ≤ page)
    (state : PageState)
    (hstate : state = if update page then (pages₀ page).bumped track isRead else pages₀ page) :
    (∃ b', ({ b with pages := Function.update b.pages page state } : Batch).follow state.perms =
      .ok b' ∧ Followed track isRead update pages₀ first page b') ∨
    (({ b with pages := Function.update b.pages page state } : Batch).follow state.perms =
      .error .writeOnly ∧ ∃ q, Barred track isRead update pages₀ first page q) := by
  have hpages := update_pages hinv.pages hfirst state hstate
  have hown : ∀ q, q ≠ page → (Function.update b.pages page state q) = b.pages q :=
    fun q hq => Function.update_of_ne hq _ _
  have hself : Function.update b.pages page state page = state := Function.update_self _ _ _
  have hnot : ¬ b.Committed page := fun h => absurd (hinv.committed_lt h).2.2 (lt_irrefl page)
  have hhost : b.host page = (pages₀ page).perms := by
    rw [hinv.host page hnot, hinv.pages page, if_neg (by omega)]
  unfold Batch.follow
  by_cases hperms : state.perms = b.perms
  · rw [if_neg (not_not.mpr hperms)]
    dsimp only
    by_cases hpos : 0 < b.rangeBytes
    · rw [if_pos (by omega)]
      refine .inl ⟨_, rfl,
        ⟨hpages, fun q hq hcommitted => ?_, hhost, fun q hq => (hinv.committed_lt hq).2.2,
        fun _ => ?_, fun _ => ?_, ?_, fun _ q hle hlt => ?_, fun _ => ?_, hinv.barred⟩⟩
      · exact (hinv.host q hcommitted).trans (congrArg PageState.perms (hown q hq).symm)
      · exact (hinv.bytes hpos).trans (Nat.le_add_right _ _)
      · dsimp only
        rw [← Nat.add_assoc, hinv.reach hpos, Nat.succ_mul]
      · exact (congrArg PageState.perms hself).trans hperms
      · by_cases hq : q = page
        · subst hq
          exact (congrArg PageState.perms hself).trans hperms
        · exact (congrArg PageState.perms (hown q hq)).trans (hinv.uniform hpos q hle (by omega))
      · obtain ⟨⟨hin, hup⟩, hturns⟩ := hinv.opener hpos
        exact ⟨⟨⟨hin.1, by have := hin.2; dsimp only; omega⟩, hup⟩, hturns⟩
    · rw [if_neg (by omega)]
      have hzero : b.rangeBytes = 0 := by omega
      refine .inl ⟨_, rfl,
        ⟨hpages, fun q hq hcommitted => ?_, hhost, fun q hq => (hinv.committed_lt hq).2.2,
        fun h => absurd h hpos, fun h => absurd h hpos,
          (congrArg PageState.perms hself).trans hperms,
        fun h => absurd h hpos, fun h => absurd h hpos, hinv.barred⟩⟩
      exact (hinv.host q hcommitted).trans (congrArg PageState.perms (hown q hq).symm)
  · rw [if_pos hperms, releasePending_pages]
    rcases hinv.release with ⟨b', hrelease, hinv', hzero, hsame⟩ | ⟨hrelease, hbarred⟩
    · rw [hrelease]
      have hnone := not_committed_of_zero hzero
      refine .inl ⟨_, rfl, ⟨hpages, fun q hq _ => ?_, ?_, fun q hq => absurd hq (hnone q),
        fun h => absurd h (by dsimp only; omega), fun h => absurd h (by dsimp only; omega),
        congrArg PageState.perms hself, fun h => absurd h (by dsimp only; omega),
        fun h => absurd h (by dsimp only; omega), fun q hq => absurd (hinv'.barred q hq) (hnone q)⟩⟩
      · refine (hinv'.host q (hnone q)).trans (congrArg PageState.perms ?_)
        rw [hsame]
        exact (hown q hq).symm
      · refine (hinv'.host page (hnone page)).trans (congrArg PageState.perms ?_)
        rw [hinv'.pages page, if_neg (by omega)]
    · rw [hrelease]
      exact .inr ⟨rfl, hbarred⟩

namespace Followed

variable (h : Followed track isRead update pages₀ first page b)

include h

/-- A page whose protection changes joins the run, with all that may belong to it. -/
theorem commit (hup : update page) (hfirst : first ≤ page)
    (hturns : (pages₀ page).Turns track isRead) :
    Inv track isRead update pages₀ first (page + 1) (b.commit page) := by
  unfold Batch.commit
  by_cases hzero : b.rangeBytes = 0
  · have hnone := not_committed_of_zero hzero
    rw [if_pos hzero]
    have hcommitted : ∀ q, Batch.Committed { b with
        rangeBegin := page, potentialRangeBytes := trackerBytesPerPage, rangeBytes :=
          trackerBytesPerPage } q ↔ q = page := by
      intro q
      simp only [Committed, trackerBytesPerPage]
      omega
    refine ⟨h.pages, fun q hq => h.host q (fun heq => hq ((hcommitted q).mpr heq)) (hnone q),
      fun _ => le_rfl,
      fun _ => (Nat.succ_mul _ _).symm, fun _ q hle hlt => ?_, fun _ =>
        ⟨⟨⟨hfirst, Nat.lt_succ_self _⟩, hup⟩, hturns⟩,
      fun q hq => (hcommitted q).mpr ?_⟩
    · have hq : q = page := by
        dsimp only at hle
        omega
      subst hq
      exact h.perms
    · by_contra hne
      have hlt := hq.1.1.2
      exact hnone q (h.barred q ⟨⟨⟨hq.1.1.1, by omega⟩, hq.1.2⟩, hq.2⟩)
  · rw [if_neg hzero]
    have hpos : 0 < b.rangeBytes := Nat.pos_of_ne_zero hzero
    have hreach := h.reach hpos
    have hbytes := h.bytes hpos
    have hkept : ∀ q, b.Committed q →
      Batch.Committed { b with rangeBytes := b.potentialRangeBytes } q :=
      fun q hq => ⟨hq.1, hq.2.trans_le (Nat.add_le_add_left hbytes _)⟩
    have hown : Batch.Committed { b with rangeBytes := b.potentialRangeBytes } page := by
      have := (h.opener hpos).1.1.2
      simp only [Committed, trackerBytesPerPage] at hreach ⊢
      omega
    refine ⟨h.pages, fun q hq => h.host q (fun heq => hq (heq ▸ hown)) (fun hc => hq (hkept q hc)),
      fun _ => le_rfl, fun _ => hreach, fun _ => h.uniform hpos, fun _ => h.opener hpos, fun q hq =>
        ?_⟩
    by_cases heq : q = page
    · exact heq ▸ hown
    · have hlt := hq.1.1.2
      exact hkept q (h.barred q ⟨⟨⟨hq.1.1.1, by omega⟩, hq.1.2⟩, hq.2⟩)

theorem keep (hcounts : update page → (pages₀ page).Counts track isRead)
    (hkeep : update page → ¬ (pages₀ page).Turns track isRead) :
    Inv track isRead update pages₀ first (page + 1) b := by
  refine ⟨h.pages, fun q hq => ?_, h.bytes, h.reach, h.uniform, h.opener, fun q hq => ?_⟩
  · by_cases heq : q = page
    · subst heq
      rw [h.own, h.pages]
      split_ifs with hin
      · exact (PageState.perms_bumped (hcounts hin.2) (hkeep hin.2)).symm
      · rfl
    · exact h.host q heq hq
  · have hlt := hq.1.1.2
    refine h.barred q ⟨⟨⟨hq.1.1.1, ?_⟩, hq.1.2⟩, hq.2⟩
    by_contra hge
    have heq : q = page := by omega
    subst heq
    exact hkeep hq.1.2 hq.2.1

end Followed

theorem addDelta_ok (hcounts : update page → (pages₀ page).Counts track isRead) :
    addDelta track isRead (update page) (pages₀ page) =
      .ok (if update page then (pages₀ page).bumped track isRead else pages₀ page) := by
  unfold addDelta
  split_ifs with hup
  · rw [PageState.addDelta_bumped (hcounts hup)]
  · rfl

theorem Inv.step (hinv : Inv track isRead update pages₀ first page b) (hfirst : first ≤ page)
    (hcounts : update page → (pages₀ page).Counts track isRead) :
    (∃ b', Batch.step track isRead (update page) page b = .ok b' ∧
      Inv track isRead update pages₀ first (page + 1) b') ∨
    (Batch.step track isRead (update page) page b = .error .writeOnly ∧
      ∃ q, Barred track isRead update pages₀ first page q) := by
  have hold : b.pages page = pages₀ page := by rw [hinv.pages, if_neg (by omega)]
  unfold Batch.step
  rw [hold, addDelta_ok hcounts]
  dsimp only [bind, Except.bind]
  rcases hinv.follow hfirst _ rfl with ⟨b', hfollow, hb'⟩ | ⟨hfollow, hbarred⟩
  · rw [hfollow]
    refine .inl ?_
    dsimp only
    by_cases hup : update page
    · have htest := PageState.turns_iff (hcounts hup)
      simp only [hup, if_true, Bool.true_and]
      split_ifs with hturns
      · exact ⟨_, rfl, hb'.commit hup hfirst (htest.mp hturns)⟩
      · exact ⟨_, rfl, hb'.keep hcounts fun _ h => hturns (htest.mpr h)⟩
    · simp only [hup, Bool.false_and, Bool.false_eq_true, if_false]
      exact ⟨_, rfl, hb'.keep hcounts fun h => absurd h hup⟩
  · rw [hfollow]
    exact .inr ⟨rfl, hbarred⟩

theorem barred_mono {page' q : ℕ} (h : Barred track isRead update pages₀ first page q)
    (hle : page ≤ page') :
    Barred track isRead update pages₀ first page' q :=
  ⟨⟨⟨h.1.1.1, h.1.1.2.trans_le hle⟩, h.1.2⟩, h.2⟩

variable {count : ℕ}

theorem Inv.loop (hinv : Inv track isRead update pages₀ first page b) (hfirst : first ≤ page)
    (hcounts : ∀ q, page ≤ q → q < page + count → update q → (pages₀ q).Counts track isRead) :
    (∃ b', Batch.loop track isRead update count page b = .ok b' ∧
      Inv track isRead update pages₀ first (page + count) b') ∨
    (Batch.loop track isRead update count page b = .error .writeOnly ∧
      ∃ q, Barred track isRead update pages₀ first (page + count) q) := by
  induction count generalizing page b with
  | zero => exact .inl ⟨b, rfl, hinv⟩
  | succ count ih =>
    unfold Batch.loop
    rcases hinv.step hfirst (hcounts page le_rfl (by omega)) with ⟨b', hstep, hinv'⟩ | ⟨hstep, q,
      hbarred⟩
    · rw [hstep]
      have hrest := ih hinv' (by omega) fun q hle hlt => hcounts q (by omega) (by omega)
      rwa [Nat.add_right_comm] at hrest
    · rw [hstep]
      exact .inr ⟨rfl, q, barred_mono hbarred (by omega)⟩

/-- The whole loop, from pages that are protected as their counts ask for. -/
theorem run_cases {host : HostPages} (hhost : ∀ q, host q = (pages₀ q).perms)
    (hcounts : ∀ q, first ≤ q → q < first + count → update q → (pages₀ q).Counts track isRead) :
    (∃ pages' host', run track isRead update count first pages₀ host = .ok (pages', host') ∧
      (∀ q, host' q = (pages' q).perms) ∧
      (∀ q, pages' q = if (first ≤ q ∧ q < first + count) ∧
        update q then (pages₀ q).bumped track isRead
        else pages₀ q) ∧ ∀ q, ¬ Barred track isRead update pages₀ first (first + count) q) ∨
    (run track isRead update count first pages₀ host = .error .writeOnly ∧
      ∃ q, Barred track isRead update pages₀ first (first + count) q) := by
  have hstart : Inv track isRead update pages₀ first first
      { pages := pages₀, host, perms := (pages₀ first).perms, rangeBegin := 0, rangeBytes := 0,
        potentialRangeBytes := 0 } := by
    refine ⟨fun q => ?_, fun q _ => hhost q, fun h => absurd h (lt_irrefl 0),
      fun h => absurd h (lt_irrefl 0),
      fun h => absurd h (lt_irrefl 0), fun h => absurd h (lt_irrefl 0), fun q hq => ?_⟩
    · rw [if_neg (by omega)]
    · have := hq.1.1
      omega
  unfold run
  rcases hstart.loop le_rfl hcounts with ⟨b, hloop, hinv⟩ | ⟨hloop, hbarred⟩
  · rw [hloop]
    dsimp only [bind, Except.bind]
    rcases hinv.release with ⟨b', hrelease, hinv', hzero, -⟩ | ⟨hrelease, hbarred⟩
    · rw [hrelease]
      have hnone := not_committed_of_zero hzero
      exact .inl ⟨_, _, rfl, fun q => hinv'.host q (hnone q), hinv'.pages,
        fun q hq => hnone q (hinv'.barred q hq)⟩
    · rw [hrelease]
      exact .inr ⟨rfl, hbarred⟩
  · rw [hloop]
    exact .inr ⟨rfl, hbarred⟩

/-! ### The counts alone -/

theorem releasePending_ok_pages (h : b.releasePending = .ok b') : b'.pages = b.pages := by
  unfold releasePending at h
  split_ifs at h
  · cases hprotect : protect b.host (b.rangeBegin * trackerBytesPerPage) b.rangeBytes b.perms with
    | error fault => rw [hprotect] at h; cases h
    | ok host => rw [hprotect] at h; cases h; rfl
  · cases h
    rfl

theorem follow_ok_pages {newPerms : MemoryPermission} (h : b.follow newPerms = .ok b') :
    b'.pages = b.pages := by
  unfold Batch.follow at h
  split_ifs at h
  · cases hrelease : b.releasePending with
    | error fault => rw [hrelease] at h; cases h
    | ok b₁ =>
      have hpages := releasePending_ok_pages hrelease
      rw [hrelease] at h
      cases h
      exact hpages
  · cases h
    rfl
  · cases h
    rfl

theorem commit_pages (b : Batch) (page : ℕ) : (b.commit page).pages = b.pages := by
  unfold Batch.commit
  split_ifs <;> rfl

/-- The counts of one page change as they do without any protection. -/
theorem step_ok_pages {up : Bool} (h : Batch.step track isRead up page b = .ok b') :
    ∃ state, addDelta track isRead up (b.pages page) = .ok state ∧
      b'.pages = Function.update b.pages page state := by
  unfold Batch.step at h
  cases hdelta : addDelta track isRead up (b.pages page) with
  | error fault => rw [hdelta] at h; cases h
  | ok state =>
    rw [hdelta] at h
    dsimp only [bind, Except.bind] at h
    cases hfollow : ({ b with pages := Function.update b.pages page state } :
      Batch).follow state.perms with
    | error fault => rw [hfollow] at h; cases h
    | ok b₁ =>
      rw [hfollow] at h
      have hpages := follow_ok_pages hfollow
      dsimp only at h
      split_ifs at h
      · cases h
        exact ⟨state, rfl, (commit_pages b₁ page).trans hpages⟩
      · cases h
        exact ⟨state, rfl, hpages⟩

/-- A loop that returns leaves the counts that the loop without protection leaves. -/
theorem loop_refines (h : Batch.loop track isRead update count page b = .ok b') :
    watchLoop track isRead update count page b.pages = .ok b'.pages := by
  induction count generalizing page b with
  | zero =>
    cases h
    rfl
  | succ count ih =>
    unfold Batch.loop at h
    cases hstep : Batch.step track isRead (update page) page b with
    | error fault => rw [hstep] at h; cases h
    | ok b₁ =>
      rw [hstep] at h
      have hrest := ih h
      obtain ⟨state, hdelta, hpages⟩ := step_ok_pages hstep
      unfold watchLoop
      unfold addDelta at hdelta
      split_ifs at hdelta ⊢ with hup
      · cases hold : (b.pages page).addDelta track isRead with
        | error fault => rw [hold] at hdelta; cases hdelta
        | ok state' =>
          rw [hold] at hdelta
          cases hdelta
          rwa [hpages] at hrest
      · cases hdelta
        rwa [hpages, Function.update_eq_self] at hrest

theorem run_refines {pages pages' : Pages} {host host' : HostPages}
    (h : run track isRead update count page pages host = .ok (pages', host')) :
    watchLoop track isRead update count page pages = .ok pages' := by
  unfold run at h
  cases hloop : Batch.loop track isRead update count page
      { pages, host, perms := (pages page).perms, rangeBegin := 0, rangeBytes :=
        0, potentialRangeBytes := 0 } with
  | error fault => rw [hloop] at h; cases h
  | ok b₁ =>
    rw [hloop] at h
    dsimp only [bind, Except.bind] at h
    cases hrelease : b₁.releasePending with
    | error fault => rw [hrelease] at h; cases h
    | ok b₂ =>
      rw [hrelease] at h
      cases h
      rw [releasePending_ok_pages hrelease]
      exact loop_refines hloop

end Loop

end Batch

end PS4Droid.VideoCore
