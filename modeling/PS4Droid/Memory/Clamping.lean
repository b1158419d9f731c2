import PS4Droid.Memory.Search

/-!
# Clamping a range to mapped memory

`ClampRangeSize` adds up the sizes of the entries behind an address as long as they are mapped. It
neither looks at the entry of the address itself nor at the addresses between two entries.
-/

namespace PS4Droid.Memory

open OrderedMap IntervalMap Segments MemoryManager

def giB (n : ℕ) : ℕ := n * 1073741824

/-- The loop of `ClampRangeSize` over the entries behind the first one. -/
def clampLoop (size : ℕ) : VMAMap → ℕ → ℕ
  | [], clampedSize => clampedSize
  | (_, vma) :: rest, clampedSize =>
    if vma.isMapped ∧ clampedSize < size then
      clampLoop size rest (add64 clampedSize vma.size)
    else
      clampedSize

def MemoryManager.clampRangeSize (s : MemoryManager) (virtualAddr size : ℕ) : Except Fault ℕ :=
  if size < giB 1 then
    return size
  else do
    s.requireValidMapping virtualAddr 0
    let (key, vma) ← s.findVMA virtualAddr
    let clampedSize := sub64 (add64 vma.base vma.size) virtualAddr
    return min (clampLoop size (above s.vmaMap key) clampedSize) size

/-! ### Mapped runs -/

variable {m l r : VMAMap} {addr size k c x : ℕ} {v : VirtualMemoryArea}

/-- Some mapped entry holds the address. -/
def MappedIn (m : VMAMap) (x : ℕ) : Prop :=
  ∃ e ∈ m, (e.1 ≤ x ∧ x < e.1 + e.2.size) ∧ e.2.isMapped = true

/-- The `n` addresses from `addr` on are mapped. -/
def MappedRun (m : VMAMap) (addr n : ℕ) : Prop := ∀ x, addr ≤ x ∧ x < addr + n → MappedIn m x

/-- The smaller of `size` and the length of the longest run of mapped addresses. -/
def ClampsTo (m : VMAMap) (addr size r : ℕ) : Prop :=
  IsGreatest {n | n ≤ size ∧ MappedRun m addr n} r

/-- The address lies between two entries, and the later one is mapped. -/
def GapBeforeMapped (m : VMAMap) (x : ℕ) : Prop :=
  ∃ e ∈ m, x < e.1 ∧ e.2.isMapped = true ∧ ∀ f ∈ m, f.1 + f.2.size ≤ x ∨ e.1 ≤ f.1

/-- The mapped entries right behind the address, wherever they start. -/
def mappedBehind (m : VMAMap) (x : ℕ) : VMAMap := (above m x).takeWhile (·.2.isMapped)

def totalSize (m : VMAMap) : ℕ := (m.map (·.2.size)).sum

/-- The address lies as far behind the last entry in front of it as the mapped entries behind it are
long: the count wraps around to zero. -/
def WrapsToZero (m : VMAMap) (addr size : ℕ) : Prop :=
  ∃ e ∈ m, e.1 ≤ addr ∧ (∀ f ∈ m, f.1 ≤ addr → f.1 ≤ e.1) ∧
    addr = e.1 + e.2.size + totalSize (mappedBehind m addr) ∧
    ∀ f ∈ (mappedBehind m addr).getLast?, 2 ^ 64 < size + f.2.size

/-- What the count relies on: the address is mapped and no gap inside of the range is followed by a
mapped entry; or the count happens to wrap to zero. -/
def ClampFits (m : VMAMap) (addr size : ℕ) : Prop :=
  (MappedIn m addr ∧ ∀ n < size, MappedRun m addr n → ¬GapBeforeMapped m (addr + n)) ∨
    WrapsToZero m addr size

theorem MappedRun.mono {n n' : ℕ} (h : MappedRun m addr n) (hle : n' ≤ n) : MappedRun m addr n' :=
  fun x hx => h x (by omega)

theorem clampsTo_of_run (hrun : MappedRun m addr c) (hend : ¬MappedIn m (addr + c)) :
    ClampsTo m addr size (min c size) := by
  refine ⟨⟨min_le_right _ _, hrun.mono (min_le_left _ _)⟩, ?_⟩
  rintro n ⟨hn, hmapped⟩
  refine le_min ?_ hn
  by_contra hlt
  exact hend (hmapped _ (by omega))

theorem clampsTo_of_le (hrun : MappedRun m addr c) (hle : size ≤ c) :
    ClampsTo m addr size (min c size) :=
  ⟨⟨min_le_right _ _, hrun.mono (min_le_left _ _)⟩, fun _ hn => le_min (hn.1.trans hle) hn.1⟩

theorem not_gapBeforeMapped (h : MappedIn m x) : ¬GapBeforeMapped m x := by
  obtain ⟨e, he, hx, -⟩ := h
  rintro ⟨f, hf, hlt, -, hgap⟩
  have := hgap e he
  omega

/-- A count that stops at the end of the range or of the mapped run is right. -/
theorem clamp_stops (hrun : MappedRun m addr c)
    (hstop : size ≤ c ∨ ¬MappedIn m (addr + c) ∧ ¬GapBeforeMapped m (addr + c)) :
    ClampsTo m addr size (min c size) ↔ ∀ n < size, MappedRun m addr n →
      ¬GapBeforeMapped m (addr + n) := by
  refine iff_of_true ?_ fun n hn hmapped => ?_
  · rcases hstop with hle | ⟨hend, -⟩
    · exact clampsTo_of_le hrun hle
    · exact clampsTo_of_run hrun hend
  · rcases lt_trichotomy n c with hlt | rfl | hlt
    · exact not_gapBeforeMapped (hrun _ (by omega))
    · exact (hstop.resolve_left (by omega)).2
    · exact absurd (hmapped _ (by omega)) (hstop.resolve_left (by omega)).1

/-- Where the entries of a split map lie. -/
structure SplitAt (l : VMAMap) (k : ℕ) (v : VirtualMemoryArea) (r : VMAMap) : Prop where
  before : ∀ e ∈ l, e.1 + e.2.size ≤ k
  behind : ∀ e ∈ r, k + v.size ≤ e.1
  base : v.base = k
  pos : 0 < v.size
  bounded : k + v.size < 2 ^ 64

theorem VMAMap.SoundMap.splitAt (hv : VMAMap.SoundMap (l ++ (k, v) :: r)) : SplitAt l k v r := by
  have hbase : v.base = k := hv.keyed (k, v) (by simp)
  have hbound : v.base + v.size < 2 ^ 64 := (hv.wf (k, v) (by simp)).bounded
  refine ⟨fun e he => hv.tiling.mem_left_lt he (by simp : (k, v) ∈ (k, v) :: r), ?_, hbase,
    hv.tiling.pos (k, v) (by simp), by omega⟩
  exact fun e he => (List.pairwise_cons.mp hv.tiling.right.apart).1 e he

theorem mappedIn_end (hs : SplitAt l k v r) (h : MappedIn (l ++ (k, v) :: r) (k + v.size)) :
    ∃ e ∈ r, e.1 ≤ k + v.size ∧ e.2.isMapped = true := by
  obtain ⟨e, he, hx, hmapped⟩ := h
  rcases List.mem_append.mp he with he | he
  · have := hs.before e he
    omega
  · rcases List.mem_cons.mp he with rfl | he
    · simp only at hx
      omega
    · exact ⟨e, he, hx.1, hmapped⟩

theorem gapBeforeMapped_end (hs : SplitAt l k v r)
    (h : GapBeforeMapped (l ++ (k, v) :: r) (k + v.size)) :
    ∃ e ∈ r, e.2.isMapped = true ∧ ∀ f ∈ r, f.1 + f.2.size ≤ k + v.size ∨ e.1 ≤ f.1 := by
  obtain ⟨e, he, hlt, hmapped, hgap⟩ := h
  refine ⟨e, ?_, hmapped, fun f hf => hgap f (by simp [hf])⟩
  rcases List.mem_append.mp he with he | he
  · have := hs.before e he
    omega
  · rcases List.mem_cons.mp he with rfl | he
    · simp only at hlt
      omega
    · exact he

theorem le_clampLoop (hv : VMAMap.SoundMap ((k, v) :: r)) (hc : c ≤ k + v.size) :
    c ≤ clampLoop size r c := by
  induction r generalizing k v c with
  | nil => exact le_rfl
  | cons f r ih =>
    obtain ⟨k', w⟩ := f
    have hs : SplitAt [] k v ((k', w) :: r) := VMAMap.SoundMap.splitAt hv
    have hv' : VMAMap.SoundMap ((k', w) :: r) := hv.right (l := [(k, v)])
    have hs' : SplitAt [] k' w r := VMAMap.SoundMap.splitAt hv'
    have hbehind := hs.behind (k', w) (by simp)
    have hbounded := hs'.bounded
    simp only at hbehind
    unfold clampLoop
    split_ifs
    · have hsum : add64 c w.size = c + w.size := add64_eq (by omega)
      have := ih hv' (c := add64 c w.size) (by omega)
      omega
    · exact le_rfl

/-- From a mapped address on, the count is right exactly when the run ends at no gap with a mapped
entry behind it. -/
theorem clampLoop_mapped (hv : VMAMap.SoundMap (l ++ (k, v) :: r)) (hle : addr ≤ k + v.size)
    (hrun : MappedRun (l ++ (k, v) :: r) addr (k + v.size - addr)) :
    ClampsTo (l ++ (k, v) :: r) addr size (min (clampLoop size r (k + v.size - addr)) size) ↔
      ∀ n < size, MappedRun (l ++ (k, v) :: r) addr n →
        ¬GapBeforeMapped (l ++ (k, v) :: r) (addr + n) := by
  induction r generalizing l k v with
  | nil =>
    have hs := VMAMap.SoundMap.splitAt hv
    refine clamp_stops hrun (.inr ?_)
    rw [clampLoop, Nat.add_sub_cancel' hle]
    constructor
    · intro h
      obtain ⟨e, he, -⟩ := mappedIn_end hs h
      cases he
    · intro h
      obtain ⟨e, he, -⟩ := gapBeforeMapped_end hs h
      cases he
  | cons f r ih =>
    obtain ⟨k', w⟩ := f
    have hs := VMAMap.SoundMap.splitAt hv
    have hv' : VMAMap.SoundMap ((l ++ [(k, v)]) ++ (k', w) :: r) := by simpa using hv
    have hs' := VMAMap.SoundMap.splitAt hv'
    have hbehind := hs.behind (k', w) (by simp)
    have hlater := hs'.behind
    have hpos := hs'.pos
    have hbounded := hs'.bounded
    simp only at hbehind
    unfold clampLoop
    split_ifs with hcount
    · rw [add64_eq (by omega)]
      by_cases hadj : k' = k + v.size
      · -- The next entry continues the run.
        have hsum : k + v.size - addr + w.size = k' + w.size - addr := by omega
        have hrun' : MappedRun ((l ++ [(k, v)]) ++ (k', w) :: r) addr (k' + w.size - addr) := by
          intro x hx
          by_cases hlt : x < k'
          · simpa using hrun x (by omega)
          · exact ⟨(k', w), by simp, by simp only; omega, hcount.1⟩
        rw [hsum]
        simpa using ih hv' (by omega) hrun'
      · -- The count goes on across the gap.
        have hend : ¬MappedIn (l ++ (k, v) :: (k', w) :: r) (addr + (k + v.size - addr)) := by
          rw [Nat.add_sub_cancel' hle]
          intro h
          obtain ⟨e, he, hstart, -⟩ := mappedIn_end hs h
          rcases List.mem_cons.mp he with rfl | he
          · simp only at hstart
            omega
          · have := hlater e he
            omega
        refine iff_of_false (fun h => ?_) fun h => ?_
        · have hmore : _ ≤ clampLoop size _ (k + v.size - addr + w.size) :=
            le_clampLoop hv'.right (by omega)
          have := h.2 (clampsTo_of_run hrun hend).1
          have hmax : ClampsTo _ addr size (min _ size) := clampsTo_of_run hrun hend
          have := hmax.2 h.1
          omega
        · refine h _ hcount.2 hrun ⟨(k', w), by simp, by simp only; omega, hcount.1, fun f hf => ?_⟩
          simp only [List.mem_append, List.mem_cons] at hf
          rcases hf with hf | rfl | rfl | hf
          · have := hs.before f hf
            left
            omega
          · left
            simp only
            omega
          · exact .inr le_rfl
          · have := hlater f hf
            right
            simp only
            omega
    · refine clamp_stops hrun ?_
      by_cases hsize : size ≤ k + v.size - addr
      · exact .inl hsize
      · right
        have hunmapped : w.isMapped ≠ true := fun h => hcount ⟨h, not_le.mp hsize⟩
        rw [Nat.add_sub_cancel' hle]
        constructor
        · intro h
          obtain ⟨e, he, hstart, hmapped⟩ := mappedIn_end hs h
          rcases List.mem_cons.mp he with rfl | he
          · exact hunmapped hmapped
          · have := hlater e he
            omega
        · intro h
          obtain ⟨e, he, hmapped, hgap⟩ := gapBeforeMapped_end hs h
          rcases List.mem_cons.mp he with rfl | he
          · exact hunmapped hmapped
          · have := hgap (k', w) (by simp)
            have := hlater e he
            simp only at *
            omega

variable {e : ℕ × VirtualMemoryArea}

theorem totalSize_cons : totalSize (e :: m) = e.2.size + totalSize m := by
  simp [totalSize]

theorem le_totalSize (h : e ∈ m) : e.2.size ≤ totalSize m :=
  List.le_sum_of_mem (List.mem_map_of_mem h)

/-- A count that starts below zero ends at zero exactly when the mapped entries make up for it. -/
theorem clampLoop_eq_zero_iff {d : ℕ} (hv : VMAMap.SoundMap ((k, v) :: r)) (hsize : 0 < size)
    (hd : d < 2 ^ 64) : clampLoop size r ((2 ^ 64 - d) % 2 ^ 64) = 0 ↔
      d = totalSize (r.takeWhile (·.2.isMapped)) ∧
        ∀ f ∈ (r.takeWhile (·.2.isMapped)).getLast?, 2 ^ 64 < size + f.2.size := by
  induction r generalizing k v d with
  | nil =>
    simp only [clampLoop, List.takeWhile_nil, totalSize, List.map_nil, List.sum_nil,
      List.getLast?_nil, Option.mem_def, reduceCtorEq, false_implies, implies_true, and_true]
    omega
  | cons f r ih =>
    obtain ⟨k', w⟩ := f
    have hv' : VMAMap.SoundMap ((k', w) :: r) := hv.right (l := [(k, v)])
    have hs : SplitAt [] k v ((k', w) :: r) := VMAMap.SoundMap.splitAt hv
    have hs' : SplitAt [] k' w r := VMAMap.SoundMap.splitAt hv'
    have hbehind := hs.behind (k', w) (by simp)
    have hpos := hs'.pos
    have hbounded := hs'.bounded
    simp only at hbehind
    by_cases hmapped : w.isMapped = true
    · rw [List.takeWhile_cons_of_pos (by simpa using hmapped), clampLoop]
      by_cases hcount : (2 ^ 64 - d) % 2 ^ 64 < size
      · rw [if_pos ⟨hmapped, hcount⟩]
        by_cases hle : w.size ≤ d
        · have hsum : add64 ((2 ^ 64 - d) % 2 ^ 64) w.size = (2 ^ 64 - (d - w.size)) % 2 ^ 64 := by
            unfold add64
            omega
          rw [hsum, ih hv' (by omega)]
          cases hrest : r.takeWhile (·.2.isMapped) with
          | nil =>
            simp only [totalSize, List.map_nil, List.sum_nil, List.getLast?_nil, Option.mem_def,
              reduceCtorEq,
              false_implies, implies_true, and_true, List.map_cons, List.sum_cons,
                List.getLast?_singleton,
              Option.some.injEq, forall_eq']
            omega
          | cons g rest =>
            simp only [List.getLast?_cons_cons, totalSize_cons]
            exact and_congr_left fun _ => by omega
        · -- From here on the count has wrapped and only grows.
          have hsum : add64 ((2 ^ 64 - d) % 2 ^ 64) w.size = w.size - d := by
            unfold add64
            omega
          have hgrow : _ ≤ clampLoop size _ (w.size - d) := le_clampLoop hv' (by omega)
          rw [hsum, totalSize_cons]
          refine iff_of_false (by omega) ?_
          rintro ⟨htotal, -⟩
          simp only at htotal
          omega
      · rw [if_neg fun h => hcount h.2]
        refine iff_of_false (by omega) ?_
        rintro ⟨hsum, hlast⟩
        obtain ⟨g, hg⟩ :=
          Option.isSome_iff_exists.mp (List.getLast?_isSome.mpr (List.cons_ne_nil (k', w) _))
        have := hlast g hg
        have := le_totalSize (List.mem_of_getLast? hg)
        omega
    · rw [List.takeWhile_cons_of_neg (by simpa using hmapped), clampLoop,
        if_neg (by simp [hmapped])]
      simp only [totalSize, List.map_nil, List.sum_nil, List.getLast?_nil,
        Option.mem_def, reduceCtorEq, false_implies, implies_true, and_true]
      omega

/-! ### The clamped size -/

namespace MemoryManager

variable {s : MemoryManager}

theorem above_of_around (ha : Around m l (k, v) r) (hle : k ≤ addr) (hr : ∀ f ∈ r, addr < f.1) :
    above m addr = r := by
  have hleft : ∀ f ∈ l, decide (f.1 ≤ addr) = true := by
    intro f hf
    have := ha.left f hf
    simp only at this
    exact decide_eq_true (by omega)
  rw [above, ha.eq, List.dropWhile_append_of_pos hleft,
    List.dropWhile_cons_of_pos (by simpa using hle)]
  cases r with
  | nil => rfl
  | cons f r => rw [List.dropWhile_cons_of_neg (by simpa using hr f (by simp))]

theorem clampRangeSize_eq (hs : s.Sound) (hsize : giB 1 ≤ size)
    (hvalid : s.isValidMapping addr 0 = .ok true) :
    ∃ l k v r, Around s.vmaMap l (k, v) r ∧ k ≤ addr ∧ (∀ f ∈ r, addr < f.1) ∧
      s.clampRangeSize addr size = .ok (min (clampLoop size r (sub64 (k + v.size) addr)) size) := by
  obtain ⟨⟨k, v⟩, hfind⟩ := exists_findVMA hs hvalid
  obtain ⟨l, r, ha, hle, hr⟩ := findEntry_around hs.vma.sorted hfind
  have hv : VMAMap.SoundMap (l ++ (k, v) :: r) := ha.eq ▸ hs.vma
  have hsplit := hv.splitAt
  have habove : above s.vmaMap k = r := ha.above
  refine ⟨l, k, v, r, ha, hle, hr, ?_⟩
  rw [clampRangeSize, if_neg (not_lt.mpr hsize), requireValidMapping_of_valid hvalid, ok_bind,
    hfind, ok_bind]
  simp only [habove, hsplit.base, add64_eq hsplit.bounded]
  rfl

/-- The count for an address that no entry holds is right only when it wraps to zero. -/
theorem clampsTo_unmapped {n : ℕ} (h : ¬MappedIn m addr) : ClampsTo m addr size n ↔ n = 0 := by
  have hzero : ClampsTo m addr size 0 := by
    refine ⟨⟨Nat.zero_le _, fun x hx => by omega⟩, fun n hn => ?_⟩
    by_contra hpos
    exact h (hn.2 addr (by omega))
  exact ⟨fun hn => hn.unique hzero, fun hn => hn ▸ hzero⟩

theorem wrapsToZero_iff (ha : Around m l (k, v) r) (hle : k ≤ addr) (hr : ∀ f ∈ r, addr < f.1) :
    WrapsToZero m addr size ↔ addr = k + v.size + totalSize (r.takeWhile (·.2.isMapped)) ∧
      ∀ f ∈ (r.takeWhile (·.2.isMapped)).getLast?, 2 ^ 64 < size + f.2.size := by
  unfold WrapsToZero mappedBehind
  rw [above_of_around ha hle hr]
  constructor
  · rintro ⟨e, he, hstart, hlast, hsum, hfits⟩
    have hkey := hlast (k, v) ha.mem hle
    obtain rfl : e = (k, v) := by
      rw [ha.eq] at he
      rcases List.mem_append.mp he with he | he
      · have := ha.left e he
        omega
      · refine (List.mem_cons.mp he).resolve_right fun he => ?_
        have := hr e he
        omega
    exact ⟨hsum, hfits⟩
  · rintro ⟨hsum, hfits⟩
    refine ⟨(k, v), ha.mem, hle, fun f hf hstart => ?_, hsum, hfits⟩
    rw [ha.eq] at hf
    rcases List.mem_append.mp hf with hf | hf
    · exact (ha.left f hf).le
    · rcases List.mem_cons.mp hf with rfl | hf
      · exact le_rfl
      · have := hr f hf
        omega

theorem clampRangeSize_clamps (hs : s.Sound) (haddr : addr < 2 ^ 64) (hsize : giB 1 ≤ size)
    (hvalid : s.isValidMapping addr 0 = .ok true) :
    ∃ n, s.clampRangeSize addr size = .ok n ∧
      (ClampsTo s.vmaMap addr size n ↔ ClampFits s.vmaMap addr size) := by
  obtain ⟨l, k, v, r, ha, hle, hr, heq⟩ := clampRangeSize_eq hs hsize hvalid
  refine ⟨_, heq, ?_⟩
  have hpos : 0 < size := lt_of_lt_of_le (by decide) hsize
  have hv : VMAMap.SoundMap (l ++ (k, v) :: r) := ha.eq ▸ hs.vma
  have hsplit := hv.splitAt
  have hbounded := hsplit.bounded
  have hwraps : WrapsToZero s.vmaMap addr size ↔ _ := wrapsToZero_iff ha hle hr
  by_cases hin : addr < k + v.size
  · have hnowrap : ¬WrapsToZero s.vmaMap addr size := fun h => by
      have := (hwraps.mp h).1
      omega
    rw [sub64_eq (by omega) (by omega), ClampFits, or_iff_left hnowrap]
    by_cases hmapped : v.isMapped = true
    · have hrun : MappedRun s.vmaMap addr (k + v.size - addr) := fun x hx =>
        ⟨(k, v), ha.mem, by simp only; omega, hmapped⟩
      have haddr : MappedIn s.vmaMap addr := hrun addr (by omega)
      rw [and_iff_right haddr, ha.eq]
      exact clampLoop_mapped hv hin.le (ha.eq ▸ hrun)
    · -- The first entry is counted although it is not mapped.
      have hnot : ¬MappedIn s.vmaMap addr := by
        rintro ⟨e, he, hx, hm⟩
        have := within_unique hs.vma.tiling he ha.mem (x := addr) hx
          (by simp only [Within, vmaKind_size]; omega)
        rw [this] at hm
        exact hmapped hm
      have hgrow : _ ≤ clampLoop size _ (k + v.size - addr) := le_clampLoop hv.right (by omega)
      rw [clampsTo_unmapped hnot]
      exact iff_of_false (by omega) fun h => hnot h.1
  · have hnot : ¬MappedIn s.vmaMap addr := by
      rintro ⟨e, he, hx, -⟩
      rw [ha.eq] at he
      rcases List.mem_append.mp he with he | he
      · have := hsplit.before e he
        omega
      · rcases List.mem_cons.mp he with rfl | he
        · simp only at hx
          omega
        · have := hr e he
          omega
    have hsub : sub64 (k + v.size) addr = (2 ^ 64 - (addr - (k + v.size))) % 2 ^ 64 := by
      unfold sub64
      omega
    rw [clampsTo_unmapped hnot, ClampFits, or_iff_right fun h => hnot h.1, hwraps, hsub]
    have hzero := clampLoop_eq_zero_iff hv.right hpos (show addr - (k + v.size) < 2 ^ 64 by omega)
    rw [Nat.min_eq_zero_iff, or_iff_left (by omega), hzero]
    exact and_congr_left fun _ => by omega

end MemoryManager

section Guest

variable {cfg : Config} {P : Kernel → GuestCall → Prop} {kernel : Kernel}

/-- `ClampRangeSize` returns the contiguous mapped size exactly when the address is mapped and no
mapped entry lies behind a gap inside of the range, or when its count wraps to zero. -/
theorem clampRange_contiguous_iff (hc : cfg.Usable) (h : Reachable cfg P kernel)
    (virtualAddr size : UInt64)
    (hsize : giB 1 ≤ size.toNat)
    (hvalid : kernel.memory.isValidMapping virtualAddr.toNat 0 = .ok true) :
    ∃ n, kernel.memory.clampRangeSize virtualAddr.toNat size.toNat = .ok n ∧
      (ClampsTo kernel.memory.vmaMap virtualAddr.toNat size.toNat n ↔
        ClampFits kernel.memory.vmaMap virtualAddr.toNat size.toNat) :=
  clampRangeSize_clamps (h.direct_pos hc).1.sound virtualAddr.toNat_lt hsize hvalid

theorem clampRange_contiguous_iff_heap :
    ∃ (kernel : Kernel) (n : ℕ), kernel.memory.clampRangeSize 0x200000000 0x40000000 = .ok n ∧
      ClampsTo kernel.memory.vmaMap 0x200000000 0x40000000 n := by
  obtain ⟨kernel, hcalls, hmapped, honly, hok⟩ := Kernel.exists_callAll
    [.mapNamedFlexibleMemory 0x200000000 0x8000 3 0x10 (some "heap")] startedKernel
    (fun k => (∃ e ∈ k.memory.vmaMap, (e.1 ≤ 0x200000000 ∧ 0x200000000 < e.1 + e.2.size) ∧
        e.2.isMapped = true) ∧
      (∀ e ∈ k.memory.vmaMap, e.2.isMapped = true → e.1 ≤ 0x200000000) ∧
      (k.memory.isValidMapping 0x200000000 0).toOption.any (· = true) = true) (by decide)
  have hk : Reachable Config.oneRegion (fun _ _ => True) kernel :=
    startedKernel_reachable.callAll (fun _ _ _ => trivial) hcalls
  obtain ⟨valid, hvalid, rfl⟩ := ok_of_any hok
  obtain ⟨n, hcount, hiff⟩ := clampRange_contiguous_iff Config.oneRegion_usable hk 0x200000000
    0x40000000 (by decide) hvalid
  refine ⟨kernel, n, hcount, hiff.mpr (.inl ⟨hmapped, fun n _ _ ⟨e, he, hbehind, hmap, _⟩ => ?_⟩)⟩
  exact absurd (honly e he hmap) (Nat.not_le.mpr ((Nat.le_add_right _ n).trans_lt hbehind))

/-- All of the free memory behind a free address is counted. -/
theorem clampRange_contiguous_fails :
    ∃ kernel n, Reachable Config.oneRegion (fun _ _ => True) kernel ∧
      kernel.memory.isValidMapping 0x200000000 0 = .ok true ∧
      kernel.memory.clampRangeSize 0x200000000 0x40000000 = .ok n ∧
      ¬ClampsTo kernel.memory.vmaMap 0x200000000 0x40000000 n := by
  have hcount : (startedKernel.memory.clampRangeSize 0x200000000 0x40000000).toOption =
    some 0x10000000 := by decide
  cases hresult : startedKernel.memory.clampRangeSize 0x200000000 0x40000000 with
  | error fault =>
    rw [hresult] at hcount
    cases hcount
  | ok n =>
    rw [hresult] at hcount
    cases hcount
    refine ⟨startedKernel, _, startedKernel_reachable, by decide, hresult, fun h => ?_⟩
    obtain ⟨e, he, -, hmapped⟩ := h.1.2 0x200000000 (by decide)
    have hnone : startedKernel.memory.vmaMap.all (fun e => !e.2.isMapped) = true := by decide
    have := List.all_eq_true.mp hnone e he
    rw [hmapped] at this
    cases this

end Guest

end PS4Droid.Memory
