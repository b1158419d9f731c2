import PS4Droid.VideoCore.Overlaps

/-!
# Requests to the buffer cache

The scan ends, and what it returns can be registered in place of the buffers it picked. So every
request whose extent fits keeps the cover, and is answered with a registered buffer that holds it.
-/

namespace PS4Droid.VideoCore

open OrderedMap

namespace BufferCache

variable {c c' : BufferCache} {lo hi : ℕ} {s s' : Scan} {id : ℕ} {b : Buffer}

/-! ### The loop -/

/-- The scan, before or after a leap. -/
structure Running (c : BufferCache) (lo hi : ℕ) (s : Scan) : Prop where
  scanning : Scanning c lo hi s
  extent : Early c lo hi s ∨ Late c lo hi s

/-- The range is made of whole pages, and a leap from it does not wrap. -/
structure Aligned (c : BufferCache) (lo hi : ℕ) : Prop where
  lo_mod : lo % cachingPageSize = 0
  hi_mod : hi % cachingPageSize = 0
  lo_ge : cachingPageSize ≤ lo
  le : lo ≤ hi
  hi_le : hi ≤ 2 ^ 40
  safe : c.LeapsSafely lo hi

/-- The pages that the scan may still visit. -/
def pagesLeft (s : Scan) : ℕ :=
  (if s.hasStreamLeap then 0 else cachingNumPages + 1) +
    (cachingNumPages - s.deviceAddr / cachingPageSize)

def advance (s : Scan) : Scan := { s with deviceAddr := add64 s.deviceAddr cachingPageSize }

theorem advance_eq (h : s.deviceAddr < 2 ^ 40) :
    advance s = { s with deviceAddr := s.deviceAddr + cachingPageSize } := by
  unfold advance
  rw [add64_eq (by simp only [cachingPageSize]; omega)]

theorem pagesLeft_advance (hlt : s.deviceAddr < 2 ^ 40) (hleap : s.hasStreamLeap = s'.hasStreamLeap)
    (hdevice : s'.deviceAddr = s.deviceAddr + cachingPageSize) : pagesLeft s' < pagesLeft s := by
  simp only [pagesLeft, hdevice, hleap, cachingPageSize, cachingNumPages]
  omega

theorem pagesLeft_leap (hleap : s.hasStreamLeap = false) (hleap' : s'.hasStreamLeap = true)
    (hlt : s.deviceAddr < 2 ^ 40) : pagesLeft s' < pagesLeft s := by
  simp only [pagesLeft, hleap, hleap', cachingPageSize, cachingNumPages, if_true,
    Bool.false_eq_true, if_false]
  omega

theorem Running.skip (h : Running c lo hi s) (hlt : s.deviceAddr < 2 ^ 40)
    (hskip : ∀ id b, (id, b) ∈ c.slotBuffers → b.Covers (s.deviceAddr / cachingPageSize) →
      id ∈ s.ids) : Running c lo hi (advance s) ∧ pagesLeft (advance s) < pagesLeft s := by
  rw [advance_eq hlt]
  exact ⟨⟨h.scanning.skip hskip, h.extent.imp Early.skip Late.skip⟩, pagesLeft_advance hlt rfl rfl⟩

variable {a a' n deviceAddr size : ℕ}

theorem min_mod (h : a % n = 0) (h' : a' % n = 0) : min a a' % n = 0 := by
  rcases le_total a a' with hle | hle
  · rwa [min_eq_left hle]
  · rwa [min_eq_right hle]

theorem max_mod (h : a % n = 0) (h' : a' % n = 0) : max a a' % n = 0 := by
  rcases le_total a a' with hle | hle
  · rwa [max_eq_right hle]
  · rwa [max_eq_left hle]

theorem stop_mod (hb : b.Paged) : b.stop % cachingPageSize = 0 := by
  obtain ⟨haddr, hsize, -, -⟩ := hb
  simp only [Buffer.stop, cachingPageSize] at *
  omega

theorem Running.join (h : Running c lo hi s) (hc : c.Cover) (hlt : s.deviceAddr < s.last)
    (hmem : (id, b) ∈ c.slotBuffers) (hcovers : b.Covers (s.deviceAddr / cachingPageSize))
    (hnew : id ∉ s.ids)
    (hno : ¬ (streamLeapThreshold < s.streamScore + b.streamScore ∧ s.hasStreamLeap = false)) :
    Running c lo hi (advance (s.join id b)) ∧ pagesLeft (advance (s.join id b)) < pagesLeft s := by
  have hs := h.scanning
  have hb : b.Paged := hc.paged _ hmem
  have hlast := hs.last_le
  have hdevice : (s.join id b).deviceAddr < 2 ^ 40 := by
    simp only [Scan.join]
    omega
  rw [advance_eq hdevice]
  refine ⟨⟨?_, ?_⟩, pagesLeft_advance (by omega) rfl rfl⟩
  · refine hs.pick hc hmem hcovers hnew rfl (min_mod hs.first_mod hb.cpuAddr)
      (max_mod hs.last_mod (stop_mod hb)) (le_min hs.first_ge hb.first) le_rfl le_rfl
      (max_le hs.last_le hb.last) (.inl ⟨rfl, rfl⟩)
  · rcases h.extent with he | hl
    · have hmeets := he.window.meets hs hc hlt hmem hcovers hnew
      have hscore : s.streamScore + b.streamScore ≤ streamLeapThreshold := by
        by_contra hgt
        exact hno ⟨by omega, he.leap⟩
      exact .inl (he.join hc hmem hnew hmeets hscore)
    · have hmeets := hl.window.meets hs hc hlt hmem hcovers hnew
      exact .inr (hl.join hc hmem hmeets)

theorem Early.pick_leap (he : Early c lo hi s) (hs : Scanning c lo hi s) (hc : c.Cover)
    (ha : Aligned c lo hi) (hlt : s.deviceAddr < s.last) (hmem : (id, b) ∈ c.slotBuffers)
    (hcovers : b.Covers (s.deviceAddr / cachingPageSize)) (hnew : id ∉ s.ids)
    (hscore : streamLeapThreshold < s.streamScore + b.streamScore) :
    Running c lo hi (advance (s.pick id b)) ∧ pagesLeft (advance (s.pick id b)) < pagesLeft s := by
  have hb : b.Paged := hc.paged _ hmem
  have hmeets := he.window.meets hs hc hlt hmem hcovers hnew
  have hmet := mem_met.mpr ⟨hmem, hmeets⟩
  have hlow : c.lower lo hi ≤ b.cpuAddr := lower_le hmet
  have hup : b.stop ≤ c.upper lo hi := le_upper hmet
  have hlast := hs.last_le
  have hcov := (covers_deviceAddr hs.deviceAddr_mod).mp hcovers
  have hleft : b.cpuAddr < s.first → c.LeapsLeft lo hi := fun hl =>
    he.leapsLeft hs ha.lo_mod hmem hcovers hnew hmeets hl hscore
  have hright : s.last < b.stop → c.LeapsRight lo hi := fun hr =>
    he.leapsRight hs hc ha.lo_mod hmem hcovers hnew hmeets hr hscore
  have hwrap : b.cpuAddr < s.first → 2 * cachingPageSize ≤ b.cpuAddr := fun hl =>
    (ha.safe (hleft hl)).trans hlow
  rw [Scan.pick_eq_leap hb.last hwrap ⟨hscore, he.leap⟩]
  generalize hfirst' : (if b.cpuAddr < s.first then leapFirst b.cpuAddr else s.first) = first'
  generalize hlast' : (if s.last < b.stop then leapLast b.stop else s.last) = last'
  generalize hdevice' : (if b.cpuAddr < s.first then leapFirst b.cpuAddr - cachingPageSize
    else s.deviceAddr) = device'
  have hbegin : c.leapBegin lo hi ≤ first' := by
    rw [← hfirst']
    split_ifs with hl
    · rw [leapBegin, if_pos (hleft hl)]
      exact leapFirst_mono hlow
    · exact (leapBegin_le_lower ha.safe).trans he.lower
  have hend : last' ≤ c.leapEnd lo hi := by
    rw [← hlast']
    split_ifs with hr
    · rw [leapEnd, if_pos (hright hr)]
      exact leapLast_mono hup
    · exact he.upper.trans (upper_le_leapEnd hc ha.hi_le)
  obtain ⟨hfirst_mod, hfirst_ge, hfirst_le⟩ : first' % cachingPageSize = 0 ∧
      cachingPageSize ≤ first' ∧ first' ≤ min s.first b.cpuAddr := by
    rw [← hfirst']
    have hmod := hs.first_mod
    have hge := hs.first_ge
    have hbmod := hb.cpuAddr
    split_ifs with hl
    · obtain ⟨hpaged, hlow', hle⟩ := leapFirst_paged hbmod (hwrap hl)
      exact ⟨hpaged, by omega, by omega⟩
    · exact ⟨hmod, hge, by omega⟩
  obtain ⟨hlast_mod, hlast_ge, hlast_le⟩ : last' % cachingPageSize = 0 ∧
      max s.last b.stop ≤ last' ∧ last' ≤ 2 ^ 40 := by
    rw [← hlast']
    have hmod := hs.last_mod
    have hbmod := stop_mod hb
    have hble := hb.last
    split_ifs with hr
    · obtain ⟨hpaged, hge, hle⟩ := leapLast_paged hbmod hble
      exact ⟨hpaged, by omega, hle⟩
    · exact ⟨hmod, by omega, hlast⟩
  have hgo : device' + cachingPageSize = s.deviceAddr + cachingPageSize ∧
      first' = min s.first b.cpuAddr ∨ device' + cachingPageSize = first' := by
    rw [← hdevice', ← hfirst']
    split_ifs with hl
    · right
      have : 2 * cachingPageSize ≤ leapFirst b.cpuAddr := le_max_right _ _
      omega
    · exact .inl ⟨rfl, by omega⟩
  have hdevice : device' < 2 ^ 40 := by omega
  rw [advance_eq hdevice]
  refine ⟨⟨?_, .inr ⟨rfl, ⟨?_, fun hbeyond => ?_⟩, ?_, ?_⟩⟩, ?_⟩
  · exact hs.pick hc hmem hcovers hnew rfl hfirst_mod hlast_mod hfirst_ge hfirst_le hlast_ge
      hlast_le hgo
  · have := hs.reach
    simp only
    omega
  · simp only at hbeyond
    omega
  · exact lower_le_self.trans hbegin
  · exact hend.trans self_le_upper
  · exact pagesLeft_leap he.leap rfl (by omega)

theorem Running.visit (h : Running c lo hi s) (hc : c.Cover) (ha : Aligned c lo hi)
    (hlt : s.deviceAddr < s.last) : ∃ s', c.visit s = .ok s' ∧ Running c lo hi (advance s') ∧
      pagesLeft (advance s') < pagesLeft s := by
  have hlast := h.scanning.last_le
  have hpage : s.deviceAddr / cachingPageSize < cachingNumPages := by
    simp only [cachingPageSize, cachingNumPages]
    omega
  unfold BufferCache.visit
  rw [show c.pageEntry (s.deviceAddr / cachingPageSize) =
    .ok (c.pageTable (s.deviceAddr / cachingPageSize)) from if_pos hpage, ok_bind]
  cases htable : c.pageTable (s.deviceAddr / cachingPageSize) with
  | none =>
    refine ⟨s, rfl, h.skip (by omega) fun id b hmem hcovers => ?_⟩
    have := (hc.table _ id).mpr ⟨b, hmem, hcovers⟩
    simp [htable] at this
  | some id =>
    obtain ⟨b, hmem, hcovers⟩ := (hc.table _ id).mp htable
    dsimp only
    rw [hc.slot hmem, ok_bind]
    split_ifs with hid
    · refine ⟨s, rfl, h.skip (by omega) fun id' b' hmem' hcovers' => ?_⟩
      have heq := hc.apart _ hmem' _ hmem _ hcovers' hcovers
      rwa [(Prod.mk.inj heq).1]
    · refine ⟨s.pick id b, rfl, ?_⟩
      have hstop := (hc.paged _ hmem).last
      by_cases hleap : streamLeapThreshold < s.streamScore + b.streamScore ∧ s.hasStreamLeap = false
      · rcases h.extent with he | hl
        · exact he.pick_leap h.scanning hc ha hlt hmem hcovers hid hleap.1
        · rw [hl.leap] at hleap
          exact absurd hleap.2 (by simp)
      · rw [Scan.pick_eq_join (by simp only at hstop; omega) hleap]
        exact h.join hc hlt hmem hcovers hid hleap

/-- The loop ends behind the last page of a range it has absorbed. -/
theorem Running.scanLoop (h : Running c lo hi s) (hc : c.Cover) (ha : Aligned c lo hi) {fuel : ℕ}
    (hfuel : pagesLeft s < fuel) : ∃ s', c.scanLoop fuel s = .ok s' ∧ Running c lo hi s' ∧
      s'.last ≤ s'.deviceAddr := by
  induction fuel generalizing s with
  | zero => omega
  | succ fuel ih =>
    have hmod := h.scanning.deviceAddr_mod
    have hlast_mod := h.scanning.last_mod
    have hceil := divCeil_of_mod hlast_mod h.scanning.last_le
    have hlast := h.scanning.last_le
    unfold BufferCache.scanLoop
    rw [hceil]
    by_cases hlt : s.deviceAddr < s.last
    · rw [if_pos (by simp only [cachingPageSize] at *; omega)]
      obtain ⟨s₁, hvisit, hrun, hless⟩ := h.visit hc ha hlt
      obtain ⟨s', heq, hrun', hdone⟩ := ih hrun (by omega)
      refine ⟨s', ?_, hrun', hdone⟩
      rw [hvisit, ok_bind]
      exact heq
    · rw [if_neg (by simp only [cachingPageSize] at *; omega)]
      exact ⟨s, rfl, h, by omega⟩

/-! ### Creating a buffer -/

theorem resolveOverlaps_ok (hc : c.Cover) (ha : Aligned c lo hi) :
    ∃ s, c.resolveOverlaps lo (hi - lo) = .ok s ∧ Running c lo hi s ∧ s.last ≤ s.deviceAddr := by
  have hge := ha.lo_ge
  have hle := ha.le
  have htop := ha.hi_le
  have hlast : add64 lo (hi - lo) = hi := by
    rw [add64_eq (by omega), Nat.add_sub_cancel' hle]
  have hne : lo ≠ 0 := by
    simp only [cachingPageSize] at hge
    omega
  have hrun : Running c lo hi ⟨lo, lo, hi, 0, false, []⟩ := by
    refine ⟨⟨ha.lo_mod, ha.lo_mod, ha.hi_mod, hge, le_rfl, le_rfl, htop, le_rfl,
      List.nodup_nil, by simp, ?_⟩, .inl
      ⟨rfl, ⟨le_rfl, ?_⟩, by simp [picks, scores], Nat.zero_le _, by simp [picks], fun _ => rfl,
        lower_le_self, self_le_upper⟩⟩
    · intro id b page _ _ hfirst hlt
      simp only at hfirst hlt
      omega
    · intro hlt
      simp at hlt
  have hfuel : pagesLeft ⟨lo, lo, hi, 0, false, []⟩ < scanFuel := by
    have hsub := Nat.sub_le cachingNumPages (lo / cachingPageSize)
    simp only [pagesLeft, scanFuel, Bool.false_eq_true, if_false]
    omega
  unfold resolveOverlaps
  rw [hlast]
  simp only [if_neg hne]
  exact hrun.scanLoop hc ha hfuel

theorem Running.within (h : Running c lo hi s) (hc : c.Cover) (ha : Aligned c lo hi) :
    c.extentBegin lo hi ≤ s.first ∧ s.last ≤ c.extentEnd lo hi := by
  rcases h.extent with he | hl
  · exact ⟨lower_le_self.trans ((leapBegin_le_lower ha.safe).trans he.lower),
      (he.upper.trans (upper_le_leapEnd hc ha.hi_le)).trans self_le_upper⟩
  · exact ⟨hl.lower, hl.upper⟩

/-- The request is not in the first page, ends in the address space, and grows to less than
4 GB without wrapping around the start of the address space. -/
structure Fits (c : BufferCache) (deviceAddr size : ℕ) : Prop where
  first : cachingPageSize ≤ deviceAddr
  last : deviceAddr + size ≤ 2 ^ 40
  safe : c.LeapsSafely (alignDown deviceAddr cachingPageSize)
    (alignUp (deviceAddr + size) cachingPageSize)
  narrow : c.extentEnd (alignDown deviceAddr cachingPageSize)
      (alignUp (deviceAddr + size) cachingPageSize) -
    c.extentBegin (alignDown deviceAddr cachingPageSize)
      (alignUp (deviceAddr + size) cachingPageSize) < 2 ^ 32

theorem Fits.congr (hslots : c.slotBuffers = c'.slotBuffers)
    (h : c.Fits deviceAddr size) : c'.Fits deviceAddr size := by
  obtain ⟨slots, table⟩ := c
  obtain ⟨slots', table'⟩ := c'
  obtain rfl : slots = slots' := hslots
  exact ⟨h.first, h.last, h.safe, h.narrow⟩

theorem alignUp_eq {value : ℕ} (h : value ≤ 2 ^ 40) :
    alignUp value cachingPageSize = (value + (cachingPageSize - 1)) / cachingPageSize *
      cachingPageSize := by
  unfold alignUp
  split_ifs with hmod
  · simp only [cachingPageSize] at *
    omega
  · rw [add64_eq (by simp only [cachingPageSize]; omega)]
    simp only [cachingPageSize] at *
    omega

theorem Fits.aligned (h : c.Fits deviceAddr size) :
    Aligned c (alignDown deviceAddr cachingPageSize)
    (alignUp (deviceAddr + size) cachingPageSize) := by
  have hfirst := h.first
  have hlast := h.last
  have hup := alignUp_eq hlast
  refine ⟨?_, ?_, ?_, ?_, ?_, h.safe⟩ <;>
    simp only [hup, alignDown, cachingPageSize] at * <;> omega

theorem Cover.createBuffer (hc : c.Cover) (hfits : c.Fits deviceAddr size)
    (hfresh : ∀ x ∈ c.slotBuffers, x.1 ≠ id) :
    ∃ c', c.createBuffer id deviceAddr size = .ok (c', id) ∧ c'.Cover ∧
      ∃ b, (id, b) ∈ c'.slotBuffers ∧ b.cpuAddr ≤ deviceAddr ∧ deviceAddr + size ≤ b.stop := by
  have ha := hfits.aligned
  have hnarrow := hfits.narrow
  have hlast := hfits.last
  have hdown : alignDown deviceAddr cachingPageSize ≤ deviceAddr := Nat.sub_le _ _
  have hup : deviceAddr + size ≤ alignUp (deviceAddr + size) cachingPageSize := by
    rw [alignUp_eq hlast]
    simp only [cachingPageSize]
    omega
  unfold BufferCache.createBuffer
  rw [show add64 deviceAddr size = deviceAddr + size from add64_eq (by omega)]
  generalize alignDown deviceAddr cachingPageSize = lo at *
  generalize alignUp (deviceAddr + size) cachingPageSize = hi at *
  obtain ⟨s, hresolve, hrun, hdone⟩ := resolveOverlaps_ok hc ha
  obtain ⟨hbegin, hend⟩ := hrun.within hc ha
  have hs := hrun.scanning
  have hfirst_le := hs.first_le
  have hlast_ge := hs.last_ge
  have hlast_le := hs.last_le
  have hlohi := ha.le
  have hwanted : sub64 hi lo % 2 ^ 32 = hi - lo := by
    rw [sub64_eq (by omega) hlohi, Nat.mod_eq_of_lt (by omega)]
  have hsize : sub64 s.last s.first % 2 ^ 32 = s.last - s.first := by
    rw [sub64_eq (by omega) (by omega), Nat.mod_eq_of_lt (by omega)]
  obtain ⟨c₁, score, hjoin, hcover, hslots⟩ := hc.joinOverlaps (!s.hasStreamLeap) 0 hs.nodup
    fun id hid => (hs.picked id hid).imp fun b hb => hb.1
  have hpaged : Buffer.Paged ⟨s.first, s.last - s.first, score⟩ := by
    have hfirst_mod := hs.first_mod
    have hlast_mod := hs.last_mod
    refine ⟨hfirst_mod, ?_, hs.first_ge, ?_⟩
    · simp only [cachingPageSize] at *
      omega
    · simp only [Buffer.stop]
      omega
  have hfree : ∀ x ∈ c₁.slotBuffers, ∀ page, x.2.Covers page →
      ¬ Buffer.Covers ⟨s.first, s.last - s.first, score⟩ page := by
    intro x hx page hcovers hcovers'
    obtain ⟨hx, hid⟩ := (hslots x).mp hx
    simp only [Buffer.Covers, Buffer.stop] at hcovers'
    refine hid (hs.passed x.1 x.2 page hx hcovers hcovers'.1 ?_)
    rw [Nat.add_mul] at hcovers'
    simp only [cachingPageSize] at *
    omega
  obtain ⟨c', hregister, hcover', hmem⟩ := hcover.register hpaged
    (fun x hx => hfresh x ((hslots x).mp hx).1) hfree
  refine ⟨c', ?_, hcover', _, hmem, ?_, ?_⟩
  · simp only [hwanted]
    rw [hresolve, ok_bind]
    simp only [hsize]
    rw [hjoin, ok_bind]
    dsimp only
    rw [hregister, ok_bind]
    rfl
  · simp only
    omega
  · simp only [Buffer.stop]
    omega

/-! ### Requests and runs -/

/-- A registered buffer holds the request. -/
def Holds (c : BufferCache) (deviceAddr size : ℕ) : Prop :=
  ∃ x ∈ c.slotBuffers, x.2.Covers (deviceAddr / cachingPageSize) ∧ deviceAddr + size ≤ x.2.stop

/-- `b` is registered as `id` and contains the bytes of the request. -/
def Serves (c : BufferCache) (deviceAddr size id : ℕ) : Prop :=
  ∃ b, (id, b) ∈ c.slotBuffers ∧ b.cpuAddr ≤ deviceAddr ∧ deviceAddr + size ≤ b.stop

theorem Cover.findBuffer (hc : c.Cover) (hpos : 0 < deviceAddr)
    (hlt : deviceAddr < 2 ^ 40) (hsize : size < 2 ^ 32)
    (hgood : c.Holds deviceAddr size ∨ c.Fits deviceAddr size)
    (hfresh : ∀ x ∈ c.slotBuffers, x.1 ≠ id) :
    ∃ c' result, c.findBuffer id deviceAddr size = .ok (c', result) ∧ c'.Cover ∧
      c'.Serves deviceAddr size result := by
  have hpage : deviceAddr / cachingPageSize < cachingNumPages := by
    simp only [cachingPageSize, cachingNumPages]
    omega
  have hcreate : c.Fits deviceAddr size → ∃ c' result,
      c.createBuffer id deviceAddr size = .ok (c', result) ∧ c'.Cover ∧
        c'.Serves deviceAddr size result := by
    intro hfits
    obtain ⟨c', heq, hcover, hserves⟩ := hc.createBuffer hfits hfresh
    exact ⟨c', id, heq, hcover, hserves⟩
  have hbounds : ∀ b : Buffer, b.Paged → b.Covers (deviceAddr / cachingPageSize) →
      (b.isInBounds deviceAddr size ↔ deviceAddr + size ≤ b.stop) := by
    intro b hb hcovers
    have hlast := hb.last
    have hend : add64 b.cpuAddr b.sizeBytes = b.stop := add64_eq (by
      unfold Buffer.stop at hlast
      omega)
    have hstop : add64 deviceAddr size = deviceAddr + size := add64_eq (by omega)
    simp only [Buffer.isInBounds, hend, hstop, Bool.and_eq_true, decide_eq_true_eq,
      and_iff_right_iff_imp]
    simp only [Buffer.Covers, cachingPageSize] at hcovers
    omega
  unfold BufferCache.findBuffer
  rw [if_neg hpos.ne', show c.pageEntry (deviceAddr / cachingPageSize) =
    .ok (c.pageTable (deviceAddr / cachingPageSize)) from if_pos hpage, ok_bind]
  cases htable : c.pageTable (deviceAddr / cachingPageSize) with
  | none =>
    refine hcreate (hgood.resolve_left ?_)
    rintro ⟨x, hx, hcovers, -⟩
    have := (hc.table _ x.1).mpr ⟨x.2, hx, hcovers⟩
    simp [htable] at this
  | some bufferId =>
    obtain ⟨b, hmem, hcovers⟩ := (hc.table _ bufferId).mp htable
    have hb : b.Paged := hc.paged _ hmem
    dsimp only
    rw [hc.slot hmem, ok_bind]
    split_ifs with hin
    · refine ⟨c, bufferId, rfl, hc, b, hmem, ?_, (hbounds b hb hcovers).mp hin⟩
      simp only [Buffer.Covers, cachingPageSize] at hcovers
      omega
    · refine hcreate (hgood.resolve_left ?_)
      rintro ⟨x, hx, hxcovers, hxstop⟩
      have heq := hc.apart x hx _ hmem _ hxcovers hcovers
      rw [heq] at hxstop
      exact hin ((hbounds b hb hcovers).mpr hxstop)

end BufferCache

inductive Request where
  | find (deviceAddr size : ℕ)
  | create (deviceAddr size : ℕ)
  deriving DecidableEq

namespace Request

def deviceAddr : Request → ℕ
  | .find deviceAddr _ => deviceAddr
  | .create deviceAddr _ => deviceAddr

def size : Request → ℕ
  | .find _ size => size
  | .create _ size => size

/-- The answer to a request; `id` is the slot that a new buffer would get. -/
def run (r : Request) (c : BufferCache) (id : ℕ) : Except Fault (BufferCache × ℕ) :=
  match r with
  | .find deviceAddr size => c.findBuffer id deviceAddr size
  | .create deviceAddr size => c.createBuffer id deviceAddr size

/-- A 32-bit size at a 40-bit address that is not null. -/
def Valid (r : Request) : Prop := 0 < r.deviceAddr ∧ r.deviceAddr < 2 ^ 40 ∧ r.size < 2 ^ 32

instance (r : Request) : Decidable r.Valid := inferInstanceAs (Decidable (_ ∧ _))

/-- A new buffer would fit; for `find` it need not where a registered buffer holds the request. -/
def Good (r : Request) (c : BufferCache) : Prop :=
  match r with
  | .find deviceAddr size => c.Holds deviceAddr size ∨ c.Fits deviceAddr size
  | .create deviceAddr size => c.Fits deviceAddr size

end Request

namespace BufferCache

variable {c c' : BufferCache}

/-- A slot that no registered buffer has and that is not the null buffer's. -/
def FreeSlot (c : BufferCache) (id : ℕ) : Prop := id ≠ nullBufferId ∧ ∀ x ∈ c.slotBuffers, x.1 ≠ id

/-- The caches that valid requests lead to, as long as they are allowed. -/
inductive Reachable (allowed : Request → BufferCache → Prop) : BufferCache → Prop where
  | init : Reachable allowed init
  | request {c c' : BufferCache} {id result : ℕ} (r : Request) (h : Reachable allowed c)
      (hvalid : r.Valid) (hallowed : allowed r c) (hfree : c.FreeSlot id)
      (hrun : r.run c id = .ok (c', result)) : Reachable allowed c'

theorem Cover.run (hc : c.Cover) {r : Request} (hvalid : r.Valid) (hgood : r.Good c) {id : ℕ}
    (hfree : c.FreeSlot id) : ∃ c' result, r.run c id = .ok (c', result) ∧ c'.Cover ∧
      c'.Serves r.deviceAddr r.size result := by
  cases r with
  | find deviceAddr size =>
    obtain ⟨hpos, hlt, hsize⟩ := hvalid
    exact hc.findBuffer hpos hlt hsize hgood hfree.2
  | create deviceAddr size =>
    obtain ⟨c', heq, hcover, hserves⟩ := hc.createBuffer hgood hfree.2
    exact ⟨c', id, heq, hcover, hserves⟩

theorem Reachable.cover (h : Reachable Request.Good c) : c.Cover := by
  induction h with
  | init => exact init_cover
  | request r _ hvalid hgood hfree hrun ih =>
    obtain ⟨c', result, heq, hcover, -⟩ := ih.run hvalid hgood hfree
    obtain ⟨rfl, rfl⟩ := Prod.mk.inj (Except.ok.inj (heq.symm.trans hrun))
    exact hcover

/-- Two registered buffers have no byte in common, the page table maps a page to the buffer that
covers it, and whatever is requested next is answered with a registered buffer that holds it. -/
structure DisjointCover (c : BufferCache) (allowed : Request → BufferCache → Prop) : Prop where
  disjoint : ∀ x ∈ c.slotBuffers, ∀ y ∈ c.slotBuffers, x ≠ y →
    ∀ p, ¬ (InBlock (x.2.cpuAddr, x.2.sizeBytes) p ∧ InBlock (y.2.cpuAddr, y.2.sizeBytes) p)
  table : ∀ page id, c.pageTable page = some id ↔ ∃ b, (id, b) ∈ c.slotBuffers ∧ b.Covers page
  served : ∀ r : Request, r.Valid → allowed r c → ∀ id, c.FreeSlot id →
    ∃ c' result, r.run c id = .ok (c', result) ∧ c'.Serves r.deviceAddr r.size result

theorem covers_of_inBlock {b : Buffer} (hb : b.Paged) {p : ℕ}
    (hp : InBlock (b.cpuAddr, b.sizeBytes) p) : b.Covers (p / cachingPageSize) := by
  obtain ⟨haddr, hsize, -, -⟩ := hb
  simp only [InBlock, Buffer.Covers, Buffer.stop, cachingPageSize] at *
  omega

theorem reachable_disjointCover (h : Reachable Request.Good c) : c.DisjointCover Request.Good := by
  have hc := h.cover
  refine ⟨fun x hx y hy hne p hp => ?_, hc.table, fun r hvalid hgood id hfree => ?_⟩
  · exact hne (hc.apart x hx y hy _ (covers_of_inBlock (hc.paged x hx) hp.1)
      (covers_of_inBlock (hc.paged y hy) hp.2))
  · obtain ⟨c', result, heq, -, hserves⟩ := hc.run hvalid hgood hfree
    exact ⟨c', result, heq, hserves⟩

theorem exists_of_bind_ok {α β : Type} {x : Except Fault α} {f : α → Except Fault β} {result : β}
    (h : x >>= f = .ok result) : ∃ a, x = .ok a ∧ f a = .ok result := by
  cases x with
  | error fault => cases h
  | ok a => exact ⟨a, rfl, h⟩

/-- A request in the first page absorbs nothing, so its buffer overlaps the one behind it. -/
theorem not_reachable_disjointCover_firstPage :
    ¬ ∀ c, Reachable (fun _ _ => True) c → c.DisjointCover fun _ _ => True := by
  intro hall
  have htwo : (do
      let made₁ ← init.findBuffer 1 0x4000 0x4000
      let made₂ ← made₁.1.findBuffer 2 0x1000 0x4000
      pure (made₁.1.slotBuffers, made₂.1.slotBuffers)) =
      Except.ok ([(1, ⟨0x4000, 0x4000, 0⟩)], [(1, ⟨0x4000, 0x4000, 0⟩), (2, ⟨0, 0x8000, 0⟩)]) := by
    decide
  obtain ⟨⟨c₁, r₁⟩, h₁, htwo⟩ := exists_of_bind_ok htwo
  obtain ⟨⟨c₂, r₂⟩, h₂, htwo⟩ := exists_of_bind_ok htwo
  obtain ⟨hslots₁, hslots₂⟩ := Prod.mk.inj (Except.ok.inj htwo)
  have hreach₁ : Reachable (fun _ _ => True) c₁ :=
    .request (.find 0x4000 0x4000) .init (by decide) trivial ⟨by decide, by simp [init]⟩ h₁
  have hreach₂ : Reachable (fun _ _ => True) c₂ :=
    .request (.find 0x1000 0x4000) hreach₁ (by decide) trivial
      ⟨by decide, by rw [hslots₁]; decide⟩ h₂
  refine (hall c₂ hreach₂).disjoint (1, ⟨0x4000, 0x4000, 0⟩) ?_ (2, ⟨0, 0x8000, 0⟩) ?_ (by decide)
    0x4000 ⟨?_, ?_⟩
  · rw [hslots₂]
    decide
  · rw [hslots₂]
    decide
  · exact ⟨by decide, by decide⟩
  · exact ⟨by decide, by decide⟩

/-- Two requests that meet end in one buffer. -/
theorem reachable_disjointCover_joined : ∃ c, Reachable Request.Good c ∧
    c.slotBuffers = [(2, ⟨0x8000, 0xc000, 1⟩)] ∧ c.DisjointCover Request.Good := by
  have htwo : (do
      let made₁ ← init.findBuffer 1 0x8000 0x4000
      let made₂ ← made₁.1.findBuffer 2 0xb000 0x8000
      pure (made₁.1.slotBuffers, made₂.1.slotBuffers)) =
      Except.ok ([(1, ⟨0x8000, 0x4000, 0⟩)], [(2, ⟨0x8000, 0xc000, 1⟩)]) := by
    decide
  obtain ⟨⟨c₁, r₁⟩, h₁, htwo⟩ := exists_of_bind_ok htwo
  obtain ⟨⟨c₂, r₂⟩, h₂, htwo⟩ := exists_of_bind_ok htwo
  obtain ⟨hslots₁, hslots₂⟩ := Prod.mk.inj (Except.ok.inj htwo)
  have hfits₁ : init.Fits 0x8000 0x4000 :=
    ⟨by decide, by decide, by unfold LeapsSafely; decide, by decide⟩
  have hfits₂ : c₁.Fits 0xb000 0x8000 := by
    refine Fits.congr hslots₁.symm (c := ⟨[(1, ⟨0x8000, 0x4000, 0⟩)], fun _ => none⟩) ?_
    exact ⟨by decide, by decide, by unfold LeapsSafely; decide, by decide⟩
  have hreach₁ : Reachable Request.Good c₁ :=
    .request (.find 0x8000 0x4000) .init (by decide) (.inr hfits₁) ⟨by decide, by simp [init]⟩ h₁
  have hreach₂ : Reachable Request.Good c₂ :=
    .request (.find 0xb000 0x8000) hreach₁ (by decide) (.inr hfits₂)
      ⟨by decide, by rw [hslots₁]; decide⟩ h₂
  exact ⟨c₂, hreach₂, hslots₂, reachable_disjointCover hreach₂⟩

end BufferCache

end PS4Droid.VideoCore
