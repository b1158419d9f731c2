import PS4Droid.VideoCore.PageCover

/-!
# Absorbing the buffers in the way of a request

How far a request grows is a matter of the registered buffers alone: it takes the buffers it meets
as a whole, leaps by 128 pages over the end of a buffer that was joined often, and takes the
buffers it meets there. The scan of `ResolveOverlaps` stays within this extent and picks every
buffer that meets what it returns.
-/

namespace PS4Droid.VideoCore

open OrderedMap

/-! ### The extent of a request -/

/-- The first byte after a leap over the start of a buffer. -/
def leapFirst (first : ℕ) : ℕ := max (first - streamLeap) (2 * cachingPageSize)

/-- The end after a leap over the end of a buffer. -/
def leapLast (last : ℕ) : ℕ := min (last + streamLeap) (2 ^ 40)

namespace BufferCache

variable {c : BufferCache} {lo hi : ℕ}

/-- The buffers that the range meets. -/
def met (c : BufferCache) (lo hi : ℕ) : Finset (ℕ × Buffer) :=
  c.slotBuffers.toFinset.filter fun x => x.2.Meets lo hi

/-- The total score of some buffers. -/
def scores (buffers : Finset (ℕ × Buffer)) : ℕ := ∑ x ∈ buffers, x.2.streamScore

/-- The first byte of the range and the buffers it meets. -/
def lower (c : BufferCache) (lo hi : ℕ) : ℕ :=
  (c.slotBuffers.filter fun x => x.2.Meets lo hi).foldr (fun x n => min x.2.cpuAddr n) lo

/-- The end of the range and the buffers it meets. -/
def upper (c : BufferCache) (lo hi : ℕ) : ℕ :=
  (c.slotBuffers.filter fun x => x.2.Meets lo hi).foldr (fun x n => max x.2.stop n) hi

/-- The buffer at the start of the range was joined often and begins before it. -/
def LeapsLeft (c : BufferCache) (lo hi : ℕ) : Prop :=
  ∃ x ∈ c.met lo hi, x.2.cpuAddr < lo ∧ streamLeapThreshold < x.2.streamScore

/-- The buffer at the end of the range ends behind it and is the one that takes the total score
over the threshold. -/
def LeapsRight (c : BufferCache) (lo hi : ℕ) : Prop :=
  ∃ x ∈ c.met lo hi, hi < x.2.stop ∧ scores ((c.met lo hi).erase x) ≤ streamLeapThreshold ∧
    streamLeapThreshold < scores (c.met lo hi)

instance : Decidable (c.LeapsLeft lo hi) := inferInstanceAs (Decidable (∃ x ∈ c.met lo hi, _))

instance : Decidable (c.LeapsRight lo hi) := inferInstanceAs (Decidable (∃ x ∈ c.met lo hi, _))

def leapBegin (c : BufferCache) (lo hi : ℕ) : ℕ :=
  if c.LeapsLeft lo hi then leapFirst (c.lower lo hi) else c.lower lo hi

def leapEnd (c : BufferCache) (lo hi : ℕ) : ℕ :=
  if c.LeapsRight lo hi then leapLast (c.upper lo hi) else c.upper lo hi

def extentBegin (c : BufferCache) (lo hi : ℕ) : ℕ :=
  c.lower (c.leapBegin lo hi) (c.leapEnd lo hi)

def extentEnd (c : BufferCache) (lo hi : ℕ) : ℕ :=
  c.upper (c.leapBegin lo hi) (c.leapEnd lo hi)

variable {x : ℕ × Buffer}

theorem mem_met : x ∈ c.met lo hi ↔ x ∈ c.slotBuffers ∧ x.2.Meets lo hi := by
  simp [met]

theorem lower_le_self : c.lower lo hi ≤ lo := by
  unfold lower
  generalize c.slotBuffers.filter _ = l
  induction l with
  | nil => exact le_rfl
  | cons x l ih => exact (min_le_right _ _).trans ih

theorem self_le_upper : hi ≤ c.upper lo hi := by
  unfold upper
  generalize c.slotBuffers.filter _ = l
  induction l with
  | nil => exact le_rfl
  | cons x l ih => exact ih.trans (le_max_right _ _)

theorem lower_le (hx : x ∈ c.met lo hi) : c.lower lo hi ≤ x.2.cpuAddr := by
  have hmem : x ∈ c.slotBuffers.filter fun x => x.2.Meets lo hi := by
    simpa [met] using hx
  unfold lower
  generalize c.slotBuffers.filter _ = l at hmem ⊢
  induction l with
  | nil => simp at hmem
  | cons y l ih =>
    rcases List.mem_cons.mp hmem with rfl | hmem
    · exact min_le_left _ _
    · exact (min_le_right _ _).trans (ih hmem)

theorem le_upper (hx : x ∈ c.met lo hi) : x.2.stop ≤ c.upper lo hi := by
  have hmem : x ∈ c.slotBuffers.filter fun x => x.2.Meets lo hi := by
    simpa [met] using hx
  unfold upper
  generalize c.slotBuffers.filter _ = l at hmem ⊢
  induction l with
  | nil => simp at hmem
  | cons y l ih =>
    rcases List.mem_cons.mp hmem with rfl | hmem
    · exact le_max_left _ _
    · exact (ih hmem).trans (le_max_right _ _)

end BufferCache

/-! ### One page of the scan -/

namespace Scan

variable {s : Scan}

/-- The scan with one more buffer, without a leap. -/
def join (s : Scan) (id : ℕ) (b : Buffer) : Scan :=
  { s with
    first := min s.first b.cpuAddr
    last := max s.last b.stop
    streamScore := s.streamScore + b.streamScore
    ids := s.ids ++ [id] }

theorem expandBegin_eq (h : 2 * cachingPageSize ≤ s.first) (hlt : s.first < 2 ^ 64) :
    s.expandBegin streamLeap = { s with
      first := max (s.first - streamLeap) (2 * cachingPageSize)
      deviceAddr := max (s.first - streamLeap) (2 * cachingPageSize) - cachingPageSize } := by
  have hmin : cachingPageSize + devicePageSize = 2 * cachingPageSize := rfl
  have hsub : sub64 s.first (2 * cachingPageSize) = s.first - 2 * cachingPageSize := sub64_eq hlt h
  unfold expandBegin
  by_cases hlow : s.first - 2 * cachingPageSize < streamLeap
  · have hmax : max (s.first - streamLeap) (2 * cachingPageSize) = 2 * cachingPageSize := by omega
    have hback : 2 * cachingPageSize - cachingPageSize = devicePageSize := rfl
    simp only [hmin, hsub, hlow, if_true, hmax, hback]
  · have hmax : max (s.first - streamLeap) (2 * cachingPageSize) = s.first - streamLeap := by omega
    have hfirst : sub64 s.first streamLeap = s.first - streamLeap := sub64_eq hlt (by omega)
    have hback : sub64 (s.first - streamLeap) cachingPageSize =
        s.first - streamLeap - cachingPageSize := sub64_eq (by omega) (by omega)
    simp only [hmin, hsub, hlow, if_false, hmax, hfirst, hback]

theorem expandEnd_eq (h : s.last ≤ 2 ^ 40) :
    s.expandEnd streamLeap = { s with last := min (s.last + streamLeap) (2 ^ 40) } := by
  have hleap : streamLeap < 2 ^ 40 := by decide
  have hsub : sub64 (2 ^ 40) s.last = 2 ^ 40 - s.last := sub64_eq (by omega) h
  unfold expandEnd
  by_cases hhigh : 2 ^ 40 - s.last < streamLeap
  · have hmin : min (s.last + streamLeap) (2 ^ 40) = 2 ^ 40 := by omega
    simp only [hsub, hhigh, if_true, hmin]
  · have hmin : min (s.last + streamLeap) (2 ^ 40) = s.last + streamLeap := by omega
    have hadd : add64 s.last streamLeap = s.last + streamLeap := add64_eq (by omega)
    simp only [hsub, hhigh, if_false, hmin, hadd]

theorem pick_eq_join {id : ℕ} {b : Buffer} (hstop : b.stop < 2 ^ 64)
    (h : ¬ (streamLeapThreshold < s.streamScore + b.streamScore ∧ s.hasStreamLeap = false)) :
    s.pick id b = s.join id b := by
  have hend : add64 b.cpuAddr b.sizeBytes = b.stop := add64_eq hstop
  have hmin : (if b.cpuAddr < s.first then b.cpuAddr else s.first) = min s.first b.cpuAddr := by
    split_ifs <;> omega
  have hmax : (if s.last < b.stop then b.stop else s.last) = max s.last b.stop := by
    split_ifs <;> omega
  unfold pick join
  simp only [hend, Bool.not_eq_true']
  rw [if_neg h, hmin, hmax]

theorem pick_eq_leap {id : ℕ} {b : Buffer} (hstop : b.stop ≤ 2 ^ 40)
    (hleft : b.cpuAddr < s.first → 2 * cachingPageSize ≤ b.cpuAddr)
    (h : streamLeapThreshold < s.streamScore + b.streamScore ∧ s.hasStreamLeap = false) :
    s.pick id b = { s.join id b with
        hasStreamLeap := true
        first := if b.cpuAddr < s.first then leapFirst b.cpuAddr else s.first
        deviceAddr := if b.cpuAddr < s.first then leapFirst b.cpuAddr - cachingPageSize
          else s.deviceAddr
        last := if s.last < b.stop then leapLast b.stop else s.last } := by
  have hend : add64 b.cpuAddr b.sizeBytes = b.stop :=
    add64_eq (by unfold Buffer.stop at hstop; omega)
  have haddr : b.cpuAddr < 2 ^ 64 := by unfold Buffer.stop at hstop; omega
  unfold pick join
  simp only [hend, Bool.not_eq_true']
  rw [if_pos h]
  by_cases hl : b.cpuAddr < s.first <;> by_cases hr : s.last < b.stop
  · simp only [hl, hr, if_true]
    rw [expandEnd_eq hstop, expandBegin_eq (hleft hl) haddr]
    rfl
  · simp only [hl, hr, if_true, if_false]
    rw [expandBegin_eq (hleft hl) haddr]
    rfl
  · simp only [hl, hr, if_true, if_false]
    rw [expandEnd_eq hstop]
    rfl
  · simp only [hl, hr, if_false]

end Scan

/-! ### What the scan keeps -/

namespace BufferCache

variable {c : BufferCache} {lo hi : ℕ} {s s' : Scan} {id : ℕ} {b : Buffer}

/-- The picked buffers lie in the range of the scan, and every buffer on the pages that it has
passed is picked. -/
structure Scanning (c : BufferCache) (lo hi : ℕ) (s : Scan) : Prop where
  deviceAddr_mod : s.deviceAddr % cachingPageSize = 0
  first_mod : s.first % cachingPageSize = 0
  last_mod : s.last % cachingPageSize = 0
  first_ge : cachingPageSize ≤ s.first
  first_le : s.first ≤ lo
  last_ge : hi ≤ s.last
  last_le : s.last ≤ 2 ^ 40
  reach : s.first ≤ s.deviceAddr
  nodup : s.ids.Nodup
  picked : ∀ id ∈ s.ids, ∃ b, (id, b) ∈ c.slotBuffers ∧ s.first ≤ b.cpuAddr ∧ b.stop ≤ s.last
  passed : ∀ id b page, (id, b) ∈ c.slotBuffers → b.Covers page →
    s.first ≤ page * cachingPageSize → page * cachingPageSize < s.deviceAddr → id ∈ s.ids

theorem covers_deviceAddr (hmod : s.deviceAddr % cachingPageSize = 0) :
    b.Covers (s.deviceAddr / cachingPageSize) ↔
      b.cpuAddr ≤ s.deviceAddr ∧ s.deviceAddr + cachingPageSize ≤ b.stop := by
  simp only [Buffer.Covers, cachingPageSize] at *
  omega

theorem Scanning.skip (h : Scanning c lo hi s)
    (hskip : ∀ id b, (id, b) ∈ c.slotBuffers → b.Covers (s.deviceAddr / cachingPageSize) →
      id ∈ s.ids) : Scanning c lo hi { s with deviceAddr := s.deviceAddr + cachingPageSize } := by
  refine { h with deviceAddr_mod := ?_, reach := ?_, passed := ?_ }
  · have := h.deviceAddr_mod
    simp only [cachingPageSize] at *
    omega
  · have := h.reach
    simp only
    omega
  · intro id b page hmem hcovers hfirst hlt
    by_cases hpage : page = s.deviceAddr / cachingPageSize
    · exact hskip id b hmem (hpage ▸ hcovers)
    · refine h.passed id b page hmem hcovers hfirst ?_
      have := h.deviceAddr_mod
      simp only [cachingPageSize] at *
      omega

/-- The page has a buffer to pick. Either the scan goes on behind it, or it goes back to a new
first page. -/
theorem Scanning.pick (h : Scanning c lo hi s) (hc : c.Cover) (hmem : (id, b) ∈ c.slotBuffers)
    (hcovers : b.Covers (s.deviceAddr / cachingPageSize)) (hnew : id ∉ s.ids)
    (hids : s'.ids = s.ids ++ [id]) (hfirst_mod : s'.first % cachingPageSize = 0)
    (hlast_mod : s'.last % cachingPageSize = 0) (hfirst_ge : cachingPageSize ≤ s'.first)
    (hfirst_le : s'.first ≤ min s.first b.cpuAddr) (hlast_ge : max s.last b.stop ≤ s'.last)
    (hlast_le : s'.last ≤ 2 ^ 40)
    (hgo : s'.deviceAddr = s.deviceAddr + cachingPageSize ∧ s'.first = min s.first b.cpuAddr ∨
      s'.deviceAddr = s'.first) : Scanning c lo hi s' := by
  have hmod := h.deviceAddr_mod
  have hreach := h.reach
  have hpaged := h.first_mod
  rw [covers_deviceAddr hmod] at hcovers
  have hfirst := h.first_le
  have hlast := h.last_ge
  refine ⟨?_, hfirst_mod, hlast_mod, hfirst_ge, by omega, by omega, hlast_le, ?_, ?_, ?_, ?_⟩
  · rcases hgo with ⟨hgo, -⟩ | hgo
    · rw [hgo]
      simp only [cachingPageSize] at *
      omega
    · rw [hgo]
      exact hfirst_mod
  · rcases hgo with ⟨hgo, -⟩ | hgo <;> omega
  · rw [hids]
    exact List.nodup_append.mpr ⟨h.nodup, List.nodup_singleton _, by
      intro x hx y hy
      rw [List.mem_singleton.mp hy]
      rintro rfl
      exact hnew hx⟩
  · intro id' hid'
    rw [hids] at hid'
    rcases List.mem_append.mp hid' with hid' | hid'
    · obtain ⟨b', hb', hlo, hhi⟩ := h.picked id' hid'
      exact ⟨b', hb', by omega, by omega⟩
    · rw [List.mem_singleton.mp hid']
      exact ⟨b, hmem, by omega, by omega⟩
  · intro id' b' page hmem' hcovers' hlo hhi
    rw [hids]
    rcases hgo with ⟨hgo, hgo'⟩ | hgo
    · by_cases hb : b.Covers page
      · have heq := hc.apart _ hmem' _ hmem page hcovers' hb
        simp [(Prod.mk.inj heq).1]
      · refine List.mem_append_left _ (h.passed id' b' page hmem' hcovers' ?_ ?_)
        · by_contra hlt
          refine hb ?_
          simp only [Buffer.Covers, cachingPageSize] at *
          omega
        · by_contra hge
          refine hb ?_
          simp only [Buffer.Covers, cachingPageSize] at *
          omega
    · omega

/-! ### How far the scan gets -/

def picks (c : BufferCache) (ids : List ℕ) : Finset (ℕ × Buffer) :=
  c.slotBuffers.toFinset.filter fun x => x.1 ∈ ids

variable {ids : List ℕ} {lo' a a' : ℕ}

theorem mem_picks {x : ℕ × Buffer} : x ∈ c.picks ids ↔ x ∈ c.slotBuffers ∧ x.1 ∈ ids := by
  simp [picks]

theorem picks_concat (hc : c.Cover) (hmem : (id, b) ∈ c.slotBuffers) :
    c.picks (ids ++ [id]) = insert (id, b) (c.picks ids) := by
  ext x
  rw [Finset.mem_insert, mem_picks, mem_picks, List.mem_append, List.mem_singleton]
  constructor
  · rintro ⟨hx, hid | rfl⟩
    · exact .inr ⟨hx, hid⟩
    · exact .inl (Prod.ext rfl (hc.eq_of_id hx hmem))
  · rintro (rfl | ⟨hx, hid⟩)
    · exact ⟨hmem, .inr rfl⟩
    · exact ⟨hx, .inl hid⟩

/-- The scan is behind `lo`, and where it goes on behind `hi` a picked buffer does. -/
structure Window (c : BufferCache) (lo hi : ℕ) (s : Scan) : Prop where
  start : lo ≤ s.deviceAddr
  beyond : hi < s.last → ∃ x ∈ c.picks s.ids, x.2.stop = s.last ∧ x.2.cpuAddr < hi

theorem Window.meets {hi' : ℕ} (h : Scanning c lo hi s) (hw : Window c lo' hi' s)
    (hc : c.Cover) (hlt : s.deviceAddr < s.last) (hmem : (id, b) ∈ c.slotBuffers)
    (hcovers : b.Covers (s.deviceAddr / cachingPageSize)) (hnew : id ∉ s.ids) :
    b.Meets lo' hi' := by
  have hstart := hw.start
  have hmod := h.deviceAddr_mod
  have hcovers' := (covers_deviceAddr hmod).mp hcovers
  have hdevice : s.deviceAddr < hi' := by
    by_contra hge
    obtain ⟨x, hx, hstop, hcpu⟩ := hw.beyond (by omega)
    obtain ⟨hx, hid⟩ := mem_picks.mp hx
    have hxcovers : x.2.Covers (s.deviceAddr / cachingPageSize) := by
      have hlast := h.last_mod
      rw [covers_deviceAddr hmod]
      simp only [cachingPageSize] at *
      omega
    have heq := hc.apart x hx _ hmem _ hxcovers hcovers
    rw [heq] at hid
    exact hnew hid
  simp only [Buffer.Meets, cachingPageSize] at *
  omega

theorem Window.skip {hi' : ℕ} (hw : Window c lo' hi' s) :
    Window c lo' hi' { s with deviceAddr := s.deviceAddr + cachingPageSize } :=
  ⟨hw.start.trans (Nat.le_add_right _ _), hw.beyond⟩

theorem Window.join {hi' : ℕ} (hw : Window c lo' hi' s) (hc : c.Cover)
    (hmem : (id, b) ∈ c.slotBuffers) (hmeets : b.Meets lo' hi') :
    Window c lo' hi' { s.join id b with deviceAddr := s.deviceAddr + cachingPageSize } := by
  refine ⟨hw.start.trans (Nat.le_add_right _ _), fun hlt => ?_⟩
  simp only [Scan.join] at hlt ⊢
  rw [picks_concat hc hmem]
  rcases le_total b.stop s.last with hle | hle
  · rw [max_eq_left hle] at hlt ⊢
    obtain ⟨x, hx, hstop, hcpu⟩ := hw.beyond hlt
    exact ⟨x, Finset.mem_insert_of_mem hx, hstop, hcpu⟩
  · rw [max_eq_right hle]
    refine ⟨(id, b), Finset.mem_insert_self _ _, rfl, ?_⟩
    simp only [Buffer.Meets] at hmeets
    simp only
    omega

/-- The scan before a leap. -/
structure Early (c : BufferCache) (lo hi : ℕ) (s : Scan) : Prop where
  leap : s.hasStreamLeap = false
  window : Window c lo hi s
  score : s.streamScore = scores (c.picks s.ids)
  score_le : s.streamScore ≤ streamLeapThreshold
  meets : c.picks s.ids ⊆ c.met lo hi
  started : s.deviceAddr = lo → s.ids = []
  lower : c.lower lo hi ≤ s.first
  upper : s.last ≤ c.upper lo hi

/-- The scan after a leap. -/
structure Late (c : BufferCache) (lo hi : ℕ) (s : Scan) : Prop where
  leap : s.hasStreamLeap = true
  window : Window c (c.leapBegin lo hi) (c.leapEnd lo hi) s
  lower : c.extentBegin lo hi ≤ s.first
  upper : s.last ≤ c.extentEnd lo hi

theorem Early.skip (h : Early c lo hi s) :
    Early c lo hi { s with deviceAddr := s.deviceAddr + cachingPageSize } := by
  refine { h with window := h.window.skip, started := fun heq => ?_ }
  have := h.window.start
  simp only [cachingPageSize] at heq
  omega

theorem Late.skip (h : Late c lo hi s) :
    Late c lo hi { s with deviceAddr := s.deviceAddr + cachingPageSize } :=
  { h with window := h.window.skip }

theorem Late.join (h : Late c lo hi s) (hc : c.Cover) (hmem : (id, b) ∈ c.slotBuffers)
    (hmeets : b.Meets (c.leapBegin lo hi) (c.leapEnd lo hi)) :
    Late c lo hi { s.join id b with deviceAddr := s.deviceAddr + cachingPageSize } := by
  have hmet := mem_met.mpr ⟨hmem, hmeets⟩
  exact ⟨h.leap, h.window.join hc hmem hmeets, le_min h.lower (lower_le hmet),
    max_le h.upper (le_upper hmet)⟩

theorem scores_concat (hc : c.Cover) (hmem : (id, b) ∈ c.slotBuffers) (hnew : id ∉ s.ids) :
    scores (c.picks (s.ids ++ [id])) = scores (c.picks s.ids) + b.streamScore := by
  have hnot : (id, b) ∉ c.picks s.ids := fun h => hnew (mem_picks.mp h).2
  unfold scores
  rw [picks_concat hc hmem, Finset.sum_insert hnot, Nat.add_comm]

theorem Early.join (h : Early c lo hi s) (hc : c.Cover) (hmem : (id, b) ∈ c.slotBuffers)
    (hnew : id ∉ s.ids) (hmeets : b.Meets lo hi)
    (hscore : s.streamScore + b.streamScore ≤ streamLeapThreshold) :
    Early c lo hi { s.join id b with deviceAddr := s.deviceAddr + cachingPageSize } := by
  have hmet := mem_met.mpr ⟨hmem, hmeets⟩
  refine ⟨h.leap, h.window.join hc hmem hmeets, ?_, hscore, ?_, fun heq => ?_,
    le_min h.lower (lower_le hmet), max_le h.upper (le_upper hmet)⟩
  · simp only [Scan.join]
    rw [scores_concat hc hmem hnew, ← h.score]
  · simp only [Scan.join]
    rw [picks_concat hc hmem]
    exact Finset.insert_subset hmet h.meets
  · have := h.window.start
    simp only [cachingPageSize] at heq
    omega

/-! ### The leap -/

theorem Early.leapsLeft (h : Early c lo hi s) (hs : Scanning c lo hi s)
    (hlo : lo % cachingPageSize = 0)
    (hmem : (id, b) ∈ c.slotBuffers) (hcovers : b.Covers (s.deviceAddr / cachingPageSize))
    (hnew : id ∉ s.ids) (hmeets : b.Meets lo hi) (hleft : b.cpuAddr < s.first)
    (hscore : streamLeapThreshold < s.streamScore + b.streamScore) : c.LeapsLeft lo hi := by
  have hstart := h.window.start
  have hfirst := hs.first_le
  rw [covers_deviceAddr hs.deviceAddr_mod] at hcovers
  have hdevice : s.deviceAddr = lo := by
    by_contra hne
    refine hnew (hs.passed id b (lo / cachingPageSize) hmem ?_ ?_ ?_)
    all_goals
      have := hs.deviceAddr_mod
      simp only [Buffer.Covers, cachingPageSize] at *
      omega
  have hzero : s.streamScore = 0 := by
    rw [h.score, h.started hdevice]
    simp [picks, scores]
  exact ⟨(id, b), mem_met.mpr ⟨hmem, hmeets⟩, by simp only; omega, by simp only; omega⟩

/-- A leap to the right starts at the last buffer that the request meets. -/
theorem Early.leapsRight (h : Early c lo hi s) (hs : Scanning c lo hi s) (hc : c.Cover)
    (hlo : lo % cachingPageSize = 0) (hmem : (id, b) ∈ c.slotBuffers)
    (hcovers : b.Covers (s.deviceAddr / cachingPageSize)) (hnew : id ∉ s.ids)
    (hmeets : b.Meets lo hi) (hright : s.last < b.stop)
    (hscore : streamLeapThreshold < s.streamScore + b.streamScore) : c.LeapsRight lo hi := by
  have hmet := mem_met.mpr ⟨hmem, hmeets⟩
  have hlast := hs.last_ge
  have hfirst := hs.first_le
  rw [covers_deviceAddr hs.deviceAddr_mod] at hcovers
  refine ⟨(id, b), hmet, by simp only; omega, ?_, ?_⟩
  · have hsub : (c.met lo hi).erase (id, b) ⊆ c.picks s.ids := by
      intro y hy
      obtain ⟨hne, hy⟩ := Finset.mem_erase.mp hy
      obtain ⟨hy, hymeets⟩ := mem_met.mp hy
      have hpaged := hc.paged y hy
      have hycovers : y.2.Covers (max lo y.2.cpuAddr / cachingPageSize) := by
        obtain ⟨haddr, hsize, -, -⟩ := hpaged
        simp only [Buffer.Covers, Buffer.Meets, Buffer.stop, cachingPageSize] at *
        omega
      refine mem_picks.mpr ⟨hy, hs.passed y.1 y.2 (max lo y.2.cpuAddr / cachingPageSize) hy hycovers
        ?_ ?_⟩
      · have := hpaged.cpuAddr
        simp only [cachingPageSize] at *
        omega
      · by_contra hge
        -- Behind this page up to the end there is only the new buffer.
        refine hne (hc.apart y hy _ hmem _ hycovers ?_)
        have := (hc.paged _ hmem).cpuAddr
        have := (hc.paged _ hmem).sizeBytes
        have := hpaged.cpuAddr
        simp only [Buffer.Covers, Buffer.Meets, Buffer.stop, cachingPageSize] at *
        omega
    calc scores ((c.met lo hi).erase (id, b)) ≤ scores (c.picks s.ids) :=
          Finset.sum_le_sum_of_subset hsub
      _ = s.streamScore := h.score.symm
      _ ≤ streamLeapThreshold := h.score_le
  · have hsub : c.picks (s.ids ++ [id]) ⊆ c.met lo hi := by
      rw [picks_concat hc hmem]
      exact Finset.insert_subset hmet h.meets
    calc streamLeapThreshold < s.streamScore + b.streamScore := hscore
      _ = scores (c.picks (s.ids ++ [id])) := by rw [scores_concat hc hmem hnew, h.score]
      _ ≤ scores (c.met lo hi) := Finset.sum_le_sum_of_subset hsub

theorem leapFirst_mono (h : a ≤ a') : leapFirst a ≤ leapFirst a' := by
  unfold leapFirst
  omega

theorem leapLast_mono (h : a ≤ a') : leapLast a ≤ leapLast a' := by
  unfold leapLast
  omega

theorem leapFirst_paged (hmod : a % cachingPageSize = 0) (hge : 2 * cachingPageSize ≤ a) :
    leapFirst a % cachingPageSize = 0 ∧ 2 * cachingPageSize ≤ leapFirst a ∧ leapFirst a ≤ a := by
  simp only [leapFirst, streamLeap, cachingPageSize] at *
  omega

theorem leapLast_paged (hmod : a % cachingPageSize = 0) (hle : a ≤ 2 ^ 40) :
    leapLast a % cachingPageSize = 0 ∧ a ≤ leapLast a ∧ leapLast a ≤ 2 ^ 40 := by
  simp only [leapLast, streamLeap, cachingPageSize] at *
  omega

/-- The leap of a request whose buffers begin too low would wrap. -/
def LeapsSafely (c : BufferCache) (lo hi : ℕ) : Prop :=
  c.LeapsLeft lo hi → 2 * cachingPageSize ≤ c.lower lo hi

theorem leapBegin_le_lower (hsafe : c.LeapsSafely lo hi) : c.leapBegin lo hi ≤ c.lower lo hi := by
  unfold leapBegin
  split_ifs with hleft
  · have := hsafe hleft
    unfold leapFirst
    omega
  · exact le_rfl

theorem upper_le_top (hc : c.Cover) (hhi : hi ≤ 2 ^ 40) : c.upper lo hi ≤ 2 ^ 40 := by
  unfold upper
  have hall : ∀ x ∈ c.slotBuffers.filter (fun x => x.2.Meets lo hi), x.2.stop ≤ 2 ^ 40 :=
    fun x hx => (hc.paged x (List.mem_of_mem_filter hx)).last
  generalize c.slotBuffers.filter _ = l at hall ⊢
  induction l with
  | nil => exact hhi
  | cons x l ih => exact max_le (hall x (.head _)) (ih fun y hy => hall y (.tail _ hy))

theorem upper_le_leapEnd (hc : c.Cover) (hhi : hi ≤ 2 ^ 40) : c.upper lo hi ≤ c.leapEnd lo hi := by
  have htop : c.upper lo hi ≤ 2 ^ 40 := upper_le_top hc hhi
  unfold leapEnd
  split_ifs
  · unfold leapLast
    omega
  · exact le_rfl

end BufferCache

end PS4Droid.VideoCore
