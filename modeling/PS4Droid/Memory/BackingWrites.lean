import PS4Droid.Foundations.Scatter
import PS4Droid.Memory.Search

/-!
# Writes to the backing memory

`TryWriteBacking` copies data to the physical areas behind a virtual range. The areas of the range
are collected up to the first one without a backing, and every copy starts at the first byte of the
data.
-/

namespace PS4Droid.Memory

open OrderedMap IntervalMap Segments MemoryManager

def VirtualMemoryArea.overlaps (v : VirtualMemoryArea) (addr size : ℕ) : Bool :=
  addr < add64 v.base v.size && add64 addr size > v.base

/-- The bytes of the file behind direct and flexible memory. -/
abbrev BackingBytes := ℕ → UInt8

namespace MemoryManager

/-- The areas that are written, from the first one on. The end of the map is not checked. -/
def areasToWrite (virtualAddr size : ℕ) : VMAMap → Except Fault (List VirtualMemoryArea)
  | [] => .error .undefinedBehaviour
  | (_, vma) :: rest =>
    if vma.overlaps virtualAddr size then
      if vma.hasPhysicalBacking = false then .ok []
      else (vma :: ·) <$> areasToWrite virtualAddr size rest
    else
      .ok []

/-- Write the pieces of one area. -/
def writePieces (data : ℕ → UInt8) (startInVma : ℕ) : PhysMap → ℕ → BackingBytes → BackingBytes × ℕ
  | [], size, backing => (backing, size)
  | (offset, area) :: rest, size, backing =>
    if size = 0 then
      (backing, size)
    else
      let startInDma := sub64 (max startInVma offset) offset
      let copySize := min size (sub64 area.size startInDma)
      writePieces data startInVma rest (size - copySize)
        (copyAt backing (area.base + startInDma) copySize data)

def writeAreas (virtualAddr : ℕ) (data : ℕ → UInt8) :
    List VirtualMemoryArea → ℕ → BackingBytes → Except Fault BackingBytes
  | [], _, backing => .ok backing
  | vma :: rest, size, backing => do
    let startInVma := sub64 (max virtualAddr vma.base) vma.base
    let first ← findEntry vma.physAreas startInVma
    let (backing, size) :=
      writePieces data startInVma (first :: above vma.physAreas first.1) size backing
    writeAreas virtualAddr data rest size backing

def tryWriteBacking (s : MemoryManager) (backing : BackingBytes) (virtualAddr size : ℕ)
    (data : ℕ → UInt8) :
    Except Fault (BackingBytes × Bool) := do
  s.requireValidMapping virtualAddr size
  let first ← s.findVMA virtualAddr
  let areas ← areasToWrite virtualAddr size (first :: above s.vmaMap first.1)
  if areas.isEmpty then
    return (backing, false)
  else do
    let backing ← writeAreas virtualAddr data areas size backing
    return (backing, true)

end MemoryManager

/-! ### Offsets in physical areas -/

/-- The offset in its physical area of the offset `off`. -/
def depthAt (areas : PhysMap) (off : ℕ) : Option ℕ :=
  viewAt PhysicalMemoryArea.size (fun _ depth => depth) areas off

theorem depthAt_cons (k : ℕ) (a : PhysicalMemoryArea) (rest : PhysMap) (off : ℕ) :
    depthAt ((k, a) :: rest) off = if k ≤ off ∧ off < k + a.size then some (off - k)
      else depthAt rest off := by
  rw [show (k, a) :: rest = [(k, a)] ++ rest from rfl]
  simp only [depthAt, viewAt_append, viewAt_singleton]
  split_ifs <;> simp

/-- The position of the data that is copied for the offset `off` of an area. -/
def sourceAt (areas : PhysMap) (start off : ℕ) : ℕ := min (off - start) ((depthAt areas off).getD 0)

variable {data : ℕ → UInt8} {backing backing' : BackingBytes} {areas : PhysMap}

theorem writePieces_zero (start : ℕ) : writePieces data start areas 0 backing = (backing, 0) := by
  cases areas <;> rfl

variable {start : ℕ}

theorem writePieces_scatters {k n size left : ℕ} (hn : n < 2 ^ 64) (hc : Contiguous k areas n)
    (hstart : ∀ e ∈ areas.head?, start < e.1 + e.2.size)
    (h : writePieces data start areas size backing = (backing', left)) :
    left = size - min size (n - max k start) ∧
      Scatters (byteAt areas) (sourceAt areas start) data (max k start)
      (min size (n - max k start)) backing backing' := by
  induction areas generalizing k size backing with
  | nil =>
    cases h
    obtain rfl : k = n := hc
    rw [show min left (k - max k start) = 0 by omega]
    exact ⟨rfl, .nil _ _ _ _ _⟩
  | cons e rest ih =>
    obtain ⟨rfl, hpos, hb, hrest⟩ := hc
    obtain ⟨k, a⟩ := e
    simp only [List.head?_cons, Option.mem_def, Option.some.injEq, forall_eq'] at hstart hpos hrest
    have hle := hrest.le
    unfold writePieces at h
    by_cases h0 : size = 0
    · rw [if_pos h0] at h
      cases h
      rw [h0, Nat.zero_min]
      exact ⟨rfl, .nil _ _ _ _ _⟩
    rw [if_neg h0] at h
    have hoff : sub64 (max start k) k = max k start - k := by
      rw [max_comm]
      exact sub64_eq (by omega) (by omega)
    have hsub : sub64 a.size (max k start - k) = k + a.size - max k start := by
      rw [sub64_eq (by omega) (by omega)]
      omega
    dsimp only at h
    rw [hoff, hsub] at h
    have hcopy : ∀ c, c ≤ k + a.size - max k start →
      Scatters (byteAt ((k, a) :: rest)) (sourceAt ((k, a) :: rest) start)
        data (max k start) c backing (copyAt backing (a.base + (max k start - k)) c data) := by
      intro c hc
      refine .copyAt (fun x hx => ?_) fun x hx => ?_
      · rw [byteAt_cons, if_pos (by omega), Option.some.injEq]
        omega
      · rw [sourceAt, depthAt_cons, if_pos (by omega), Option.getD_some]
        omega
    by_cases hlast : size ≤ k + a.size - max k start
    · -- The data ends in this piece.
      rw [min_eq_left hlast, Nat.sub_self, writePieces_zero] at h
      cases h
      rw [min_eq_left (by omega), Nat.sub_self]
      exact ⟨rfl, hcopy size hlast⟩
    · rw [min_eq_right (by omega)] at h
      have hhead : ∀ e ∈ rest.head?, start < e.1 + e.2.size := fun e he => by
        have := hrest.mem (List.mem_of_mem_head? he)
        omega
      obtain ⟨hleft, hscat⟩ := ih hrest hhead h
      have hmax : max (k + a.size) start = k + a.size := by omega
      rw [hmax] at hleft hscat
      refine ⟨by omega, ?_⟩
      have hmid : max k start + (k + a.size - max k start) = k + a.size := by omega
      have hrest' : Scatters (byteAt ((k, a) :: rest)) (sourceAt ((k, a) :: rest) start) data
          (max k start + (k + a.size - max k start))
            (min (size - (k + a.size - max k start)) (n - (k + a.size)))
          (copyAt backing (a.base + (max k start - k)) (k + a.size - max k start) data)
            backing' := by
        rw [hmid]
        exact hscat.congr (fun x hx => by rw [byteAt_cons, if_neg (by omega)])
          fun x hx => by rw [sourceAt, sourceAt, depthAt_cons, if_neg (by omega)]
      have hboth := (hcopy _ le_rfl).append hrest'
      rwa [show k + a.size - max k start + min (size - (k + a.size - max k start))
        (n - (k + a.size)) = min size (n - max k start) by omega] at hboth

theorem depthAt_append {l r : PhysMap} {mid : ℕ} (h : Contiguous start l mid) (off : ℕ) :
    depthAt (l ++ r) off = if start ≤ off ∧ off < mid then depthAt l off else depthAt r off := by
  simp only [depthAt, viewAt_append]
  split_ifs with ho
  · obtain ⟨b, hb⟩ :=
      Option.isSome_iff_exists.mp
      ((covers_iff_viewAt fun _ depth => depth).mp ((h.covers off).mpr ho))
    rw [hb]
    rfl
  · have hnone : viewAt PhysicalMemoryArea.size (fun _ depth => depth) l off = none := by
      rw [← Option.not_isSome_iff_eq_none, ← covers_iff_viewAt, h.covers]
      exact ho
    rw [hnone, Option.none_or]

theorem depthAt_le {off depth : ℕ} (h : depthAt areas off = some depth) : depth ≤ off := by
  obtain ⟨e, -, -, rfl⟩ := viewAt_eq_some h
  exact Nat.sub_le _ _

namespace MemoryManager

variable {s : MemoryManager} {addr size : ℕ}

/-- The backing byte of an address. -/
def backingAt (s : MemoryManager) (x : ℕ) : Option ℕ := (s.cellAt x).bind Cell.backing

/-- The offset of an address in its physical area. -/
def physicalOffset (s : MemoryManager) (x : ℕ) : ℕ :=
  ((viewAt vmaKind.size (fun v off => depthAt v.physAreas off) s.vmaMap x).join).getD 0

/-- The position of the data that is copied for the address `x`, in a write to `addr`. -/
def copiedFrom (s : MemoryManager) (addr x : ℕ) : ℕ := min (x - addr) (s.physicalOffset x)

variable {e : ℕ × VirtualMemoryArea} {x left : ℕ} {v : VirtualMemoryArea}

theorem backingAt_mem (hs : s.Sound) (he : e ∈ s.vmaMap)
    (hback : e.2.hasPhysicalBacking = true) (hx : e.1 ≤ x ∧ x < e.1 + e.2.size) :
    s.backingAt x = byteAt e.2.physAreas (x - e.1) := by
  rw [backingAt, cellAt, VMAMap.cellAt_mem hs.vma he hx, Option.bind_some, VirtualMemoryArea.cell,
    if_pos hback]

theorem backingAt_unbacked (hs : s.Sound) (he : e ∈ s.vmaMap)
    (hback : e.2.hasPhysicalBacking = false) (hx : e.1 ≤ x ∧ x < e.1 + e.2.size) :
    s.backingAt x = none := by
  rw [backingAt, cellAt, VMAMap.cellAt_mem hs.vma he hx, Option.bind_some, VirtualMemoryArea.cell,
    hback]
  rfl

theorem physicalOffset_mem (hs : s.Sound) (he : e ∈ s.vmaMap) (hx : e.1 ≤ x ∧ x < e.1 + e.2.size) :
    s.physicalOffset x = (depthAt e.2.physAreas (x - e.1)).getD 0 := by
  rw [physicalOffset, viewAt_eq _ hs.vma.tiling he hx, Option.join_some]

theorem copiedFrom_mem (hs : s.Sound) (he : e ∈ s.vmaMap)
    (hx : max addr e.1 ≤ x ∧ x < e.1 + e.2.size) :
    s.copiedFrom addr x = sourceAt e.2.physAreas (max addr e.1 - e.1) (x - e.1) := by
  have hdepth : (depthAt e.2.physAreas (x - e.1)).getD 0 ≤ x - e.1 := by
    cases hd : depthAt e.2.physAreas (x - e.1) with
    | none => exact Nat.zero_le _
    | some depth => exact depthAt_le hd
  rw [copiedFrom, physicalOffset_mem hs he (by omega), sourceAt]
  omega

/-- One area of the range is written from the range's first address in it on. -/
theorem writeArea_scatters {k : ℕ} {first : ℕ × PhysicalMemoryArea} (hs : s.Sound)
    (hmem : (k, v) ∈ s.vmaMap) (hback : v.hasPhysicalBacking = true) (hin : addr < k + v.size)
    (hf : findEntry v.physAreas (max addr k - k) = .ok first)
    (h : writePieces data (max addr k - k) (first :: above v.physAreas first.1) size backing =
      (backing', left)) :
    left = size - min size (k + v.size - max addr k) ∧
      Scatters s.backingAt (s.copiedFrom addr) data (max addr k)
      (min size (k + v.size - max addr k)) backing
        backing' := by
  have hsound : v.Sound := hs.vma.wf _ hmem
  have hpos := hsound.pos
  have hbound : v.base + v.size < 2 ^ 64 := hsound.bounded
  have hc := hsound.backed hback
  obtain ⟨o, a⟩ := first
  obtain ⟨l, r, ha, hl, hr, hle, hlt⟩ := contiguous_findEntry hc (by omega) hf
  rw [ha.above] at h
  obtain ⟨hleft, hscat⟩ := writePieces_scatters (by omega) hr (by simpa using hlt) h
  have hmax : max o (max addr k - k) = max addr k - k := max_eq_right hle
  have hlen : v.size - (max addr k - k) = k + v.size - max addr k := by omega
  rw [hmax, hlen] at hleft hscat
  refine ⟨hleft, ?_⟩
  have hshift : Scatters s.backingAt (s.copiedFrom addr) data (k + (max addr k - k))
      (min size (k + v.size - max addr k)) backing backing' := by
    refine hscat.shift (fun x hx => ?_) fun x hx => ?_
    · rw [backingAt_mem hs hmem hback (by simp only; omega), ha.eq]
      simp only [Nat.add_sub_cancel_left]
      rw [hl.byteAt_append, if_neg (by omega)]
    · rw [copiedFrom_mem hs hmem (by simp only; omega), sourceAt, sourceAt, ha.eq]
      simp only [Nat.add_sub_cancel_left]
      rw [depthAt_append hl, if_neg (by omega)]
  rwa [show k + (max addr k - k) = max addr k by omega] at hshift

theorem writeAreas_zero {areas : List VirtualMemoryArea}
    (h : writeAreas addr data areas 0 backing = .ok backing') :
    backing' = backing := by
  induction areas with
  | nil =>
    cases h
    rfl
  | cons v rest ih =>
    obtain ⟨first, -, h⟩ := bind_ok h
    simp only [writePieces_zero] at h
    exact ih h

theorem next_of_covered {k : ℕ} {rest : VMAMap} (hv : VMAMap.SoundMap ((k, v) :: rest))
    (hcov : (VMAMap.cellAt ((k, v) :: rest) (k + v.size)).isSome) :
    ∃ w l, rest = (k + v.size, w) :: l := by
  obtain ⟨cell, hcell⟩ := Option.isSome_iff_exists.mp hcov
  obtain ⟨e, he, hx, -⟩ := VMAMap.cellAt_some hcell
  have hbehind : ∀ e ∈ rest, k + v.size ≤ e.1 := (List.pairwise_cons.mp hv.tiling.apart).1
  rcases List.mem_cons.mp he with rfl | he
  · simp only at hx
    omega
  · cases rest with
    | nil => cases he
    | cons f l =>
      have hf := hbehind f (by simp)
      have hpos : 0 < f.2.size := hv.tiling.pos f (by simp)
      rcases List.mem_cons.mp he with rfl | he
      · exact ⟨e.2, l, by rw [show k + v.size = e.1 by omega]⟩
      · have : f.1 + f.2.size ≤ e.1 :=
          (List.pairwise_cons.mp (List.pairwise_cons.mp hv.tiling.apart).2).1 e he
        omega

/-- The collected areas are written up to the end of the data or the first address without a
backing. -/
theorem writeAreas_scatters {l : VMAMap} {areas : List VirtualMemoryArea} {cur : ℕ} (hs : s.Sound)
    (hv : VMAMap.SoundMap l) (hsub : ∀ e ∈ l, e ∈ s.vmaMap) (hend : addr + size < 2 ^ 64)
    (hhead : ∀ e ∈ l.head?, addr < e.1 + e.2.size ∧ cur = max addr e.1)
    (hleft : left = addr + size - cur)
    (hcov : ∀ x, cur ≤ x ∧ x < addr + size → (l.cellAt x).isSome)
    (hareas : areasToWrite addr size l = .ok areas)
    (h : writeAreas addr data areas left backing = .ok backing') :
    ∃ n ≤ left, Scatters s.backingAt (s.copiedFrom addr) data cur n backing backing' ∧
      (n = left ∨ s.backingAt (cur + n) = none) := by
  induction l generalizing areas cur left backing with
  | nil => cases hareas
  | cons e rest ih =>
    obtain ⟨k, v⟩ := e
    simp only [List.head?_cons, Option.mem_def, Option.some.injEq, forall_eq'] at hhead
    obtain ⟨hin, hcur⟩ := hhead
    have hmem : (k, v) ∈ s.vmaMap := hsub _ (by simp)
    have hbase : v.base = k := hs.vma.keyed _ hmem
    have hpos : 0 < v.size := hs.vma.tiling.pos _ hmem
    have hbound : v.base + v.size < 2 ^ 64 := (hs.vma.wf _ hmem).bounded
    have hnil : ∀ b b' : BackingBytes, writeAreas addr data [] left b = .ok b' →
        Scatters s.backingAt (s.copiedFrom addr) data cur 0 b b' := by
      intro b b' h
      cases h
      exact .nil _ _ _ _ _
    have hoverlaps : v.overlaps addr size = true ↔ k < addr + size := by
      rw [VirtualMemoryArea.overlaps, add64_eq hbound, add64_eq hend, hbase]
      simp only [Bool.and_eq_true, decide_eq_true_eq, gt_iff_lt]
      omega
    unfold areasToWrite at hareas
    by_cases hover : v.overlaps addr size = true
    · rw [if_pos hover] at hareas
      rw [hoverlaps] at hover
      by_cases hback : v.hasPhysicalBacking = false
      · rw [if_pos hback] at hareas
        cases hareas
        exact ⟨0, Nat.zero_le _, hnil _ _ h,
          .inr (backingAt_unbacked hs hmem hback (by simp only; omega))⟩
      · rw [if_neg hback] at hareas
        obtain ⟨areas', hareas', rfl⟩ := map_ok hareas
        obtain ⟨first, hf, h⟩ := bind_ok h
        dsimp only at h
        have hstart : sub64 (max addr v.base) v.base = max addr k - k := by
          rw [hbase]
          exact sub64_eq (by omega) (by omega)
        rw [hstart] at hf h
        cases hpieces : writePieces data (max addr k - k)
          (first :: above v.physAreas first.1) left backing with
        | mk backing₁ left₁ =>
        rw [hpieces] at h
        obtain ⟨hleft₁, hscat⟩ := writeArea_scatters hs hmem (by simpa using hback) hin hf hpieces
        rw [← hcur] at hleft₁ hscat
        by_cases hlast : left ≤ k + v.size - cur
        · -- The data ends in this area.
          rw [min_eq_left hlast] at hleft₁ hscat
          rw [show left₁ = 0 by omega] at h
          rw [writeAreas_zero h]
          exact ⟨left, le_rfl, hscat, .inl rfl⟩
        · rw [min_eq_right (by omega)] at hleft₁ hscat
          have hv' : VMAMap.SoundMap rest := hv.right (l := [(k, v)])
          have hcov' : ∀ x, k + v.size ≤ x ∧ x < addr + size → (VMAMap.cellAt rest x).isSome := by
            intro x hx
            obtain ⟨cell, hcell⟩ := Option.isSome_iff_exists.mp (hcov x (by omega))
            obtain ⟨e, he, hin', -⟩ := VMAMap.cellAt_some hcell
            rcases List.mem_cons.mp he with rfl | he
            · simp only at hin'
              omega
            · rw [VMAMap.cellAt_mem hv' he hin']
              rfl
          obtain ⟨w, l, rfl⟩ := next_of_covered hv (hcov (k + v.size) (by omega))
          have hposw : 0 < w.size := hv'.tiling.pos (k + v.size, w) (by simp)
          have hhead : ∀ e ∈ ((k + v.size, w) :: l).head?, addr < e.1 + e.2.size ∧
            k + v.size = max addr e.1 := by
            simp only [List.head?_cons, Option.mem_def, Option.some.injEq, forall_eq']
            omega
          obtain ⟨n, hn, hrest, hdone⟩ :=
            ih hv' (fun e he => hsub e (by simp [he])) hhead (by omega) hcov' hareas' h
          have hmid : cur + (k + v.size - cur) = k + v.size := by omega
          refine ⟨k + v.size - cur + n, by omega, hscat.append (by rwa [hmid]), ?_⟩
          rw [← Nat.add_assoc, hmid]
          exact hdone.imp (fun hdone => by omega) id
    · rw [if_neg hover] at hareas
      rw [hoverlaps] at hover
      cases hareas
      exact ⟨0, Nat.zero_le _, hnil _ _ h, .inl (by omega)⟩

/-- A write that succeeds copies the data up to the first address without a backing. -/
theorem tryWriteBacking_scatters (hs : s.Sound)
    (h : s.tryWriteBacking backing addr size data = .ok (backing', true)) :
    ∃ n ≤ size, Scatters s.backingAt (s.copiedFrom addr) data addr n backing backing' ∧
      (n = size ∨ s.backingAt (addr + n) = none) := by
  obtain ⟨_, hvalid, h⟩ := bind_ok h
  obtain ⟨⟨k, v⟩, hf, h⟩ := bind_ok h
  obtain ⟨areas, hareas, h⟩ := bind_ok h
  obtain ⟨l, r, ha, hk, -⟩ := findEntry_around hs.vma.sorted hf
  have habove := ha.above
  simp only at habove hk
  rw [habove] at hareas
  have hbase : v.base = k := hs.vma.keyed _ ha.mem
  have hbound : v.base + v.size < 2 ^ 64 := (hs.vma.wf _ ha.mem).bounded
  cases areas with
  | nil => cases h
  | cons area areas =>
    obtain ⟨backing₁, hwrite, h⟩ := bind_ok h
    cases h
    have hin : addr < k + v.size := by
      -- Otherwise nothing would have been collected.
      by_contra hbehind
      unfold areasToWrite at hareas
      rw [if_neg] at hareas
      · cases hareas
      · rw [VirtualMemoryArea.overlaps, add64_eq hbound, hbase, decide_eq_false (by omega),
          Bool.false_and]
        exact Bool.false_ne_true
    have hcell : (s.cellAt addr).isSome := by
      rw [cellAt, VMAMap.cellAt_mem hs.vma ha.mem ⟨hk, hin⟩]
      rfl
    obtain ⟨hend, hcov⟩ := isValidMapping_covered hs (requireValidMapping_ok hvalid) hcell
    have hv : VMAMap.SoundMap (l ++ (k, v) :: r) := ha.eq ▸ hs.vma
    refine writeAreas_scatters hs hv.right (fun e he => ?_) hend ?_ (by omega)
      (fun x hx => ?_) hareas hwrite
    · rw [ha.eq]
      exact List.mem_append_right _ he
    · simp only [List.head?_cons, Option.mem_def, Option.some.injEq, forall_eq']
      omega
    · obtain ⟨cell, hcell'⟩ := Option.isSome_iff_exists.mp (hcov x hx)
      obtain ⟨e, he, hx', -⟩ := VMAMap.cellAt_some hcell'
      rw [ha.eq] at he
      rcases List.mem_append.mp he with hl | hr
      · have : e.1 + e.2.size ≤ k := hv.tiling.mem_left_lt hl (by simp : (k, v) ∈ (k, v) :: r)
        omega
      · rw [VMAMap.cellAt_mem hv.right hr hx']
        rfl

/-- The write has put the data behind the range and nothing else. -/
structure WritesData (s : MemoryManager) (addr size : ℕ) (data : ℕ → UInt8)
    (backing backing' : BackingBytes) : Prop where
  written : ∀ i < size, ∃ p, s.backingAt (addr + i) = some p ∧ backing' p = data i
  kept : ∀ p, (∀ i < size, s.backingAt (addr + i) ≠ some p) → backing' p = backing p

/-- Every address of the range has a backing, and each byte of the data is the one at the position
in its physical area of the last address with the same backing byte. -/
structure WriteFits (s : MemoryManager) (addr size : ℕ) (data : ℕ → UInt8) : Prop where
  backed : ∀ i < size, (s.backingAt (addr + i)).isSome
  repeats : ∀ i < size, ∀ p x, s.backingAt (addr + i) = some p →
    IsGreatest (Naming s.backingAt addr size p) x → data i = data (s.copiedFrom addr x)

theorem writesData_iff (hs : s.Sound)
    (h : s.tryWriteBacking backing addr size data = .ok (backing', true)) :
    s.WritesData addr size data backing backing' ↔ s.WriteFits addr size data := by
  obtain ⟨n, hn, hscat, hdone⟩ := tryWriteBacking_scatters hs h
  have hfull : (∀ i < size, (s.backingAt (addr + i)).isSome) → n = size := by
    intro hbacked
    rcases hdone with hdone | hnone
    · exact hdone
    · by_contra hne
      have := hbacked n (by omega)
      rw [hnone] at this
      cases this
  constructor
  · intro hwrites
    have hbacked : ∀ i < size, (s.backingAt (addr + i)).isSome := fun i hi => by
      obtain ⟨p, hp, -⟩ := hwrites.written i hi
      rw [hp]
      rfl
    obtain rfl := hfull hbacked
    refine ⟨hbacked, fun i hi p x hp hx => ?_⟩
    obtain ⟨p', hp', hdata⟩ := hwrites.written i hi
    rw [hp] at hp'
    cases hp'
    rw [← hdata, hscat.last x p hx]
  · intro hfits
    obtain rfl := hfull hfits.backed
    refine ⟨fun i hi => ?_, fun p hp => hscat.other p ?_⟩
    · obtain ⟨p, hp⟩ := Option.isSome_iff_exists.mp (hfits.backed i hi)
      have hnames : addr + i ∈ Naming s.backingAt addr n p := ⟨by omega, hp⟩
      obtain ⟨x, hx⟩ := exists_last hnames
      exact ⟨p, hp, (hscat.last x p hx).trans (hfits.repeats i hi p x hp hx).symm⟩
    · rw [Set.eq_empty_iff_forall_notMem]
      rintro x ⟨hx, hplace⟩
      refine hp (x - addr) (by omega) ?_
      rwa [show addr + (x - addr) = x by omega]

end MemoryManager

section Guest

variable {c : Config} {P : Kernel → GuestCall → Prop} {k : Kernel}

/-- `TryWriteBacking` writes the data that it is given exactly when the range is backed and the data
repeat in every physical area of it. -/
theorem write_backing_iff (hc : c.Usable) (h : Reachable c P k) (backing backing' : BackingBytes)
    (address size : UInt64) (data : ℕ → UInt8)
    (hok : k.memory.tryWriteBacking backing address.toNat size.toNat data = .ok (backing', true)) :
    k.memory.WritesData address.toNat size.toNat data backing backing' ↔
      k.memory.WriteFits address.toNat size.toNat data :=
  MemoryManager.writesData_iff (h.direct_pos hc).1.sound hok

theorem write_backing_iff_heap :
    ∃ (k : Kernel) (backing' : BackingBytes),
      k.memory.tryWriteBacking (fun _ => 0) 0x200000000 0x8000 (fun _ => 7) = .ok (backing', true) ∧
      k.memory.WritesData 0x200000000 0x8000 (fun _ => 7) (fun _ => 0) backing' := by
  obtain ⟨k, hcalls, ⟨e, he, hrange, hback⟩, hok⟩ := Kernel.exists_callAll
    [.mapNamedFlexibleMemory 0x200000000 0x8000 3 0x10 (some "heap")] startedKernel
    (fun k => (∃ e ∈ k.memory.vmaMap, (e.1 = 0x200000000 ∧ e.2.size = 0x8000) ∧
        e.2.hasPhysicalBacking = true) ∧
      (k.memory.tryWriteBacking (fun _ => 0) 0x200000000 0x8000 fun _ => 7).toOption.any
        (·.2 = true) = true) (by decide)
  have hk : Reachable Config.oneRegion (fun _ _ => True) k :=
    startedKernel_reachable.callAll (fun _ _ _ => trivial) hcalls
  have hs := (hk.direct_pos Config.oneRegion_usable).1.sound
  obtain ⟨⟨backing', done⟩, hwrite, rfl⟩ := ok_of_any hok
  have hiff := write_backing_iff Config.oneRegion_usable hk _ backing' 0x200000000 0x8000 _ hwrite
  refine ⟨k, backing', hwrite, hiff.mpr ⟨fun i hi => ?_, fun _ _ _ _ _ _ => rfl⟩⟩
  change i < 0x8000 at hi
  change (k.memory.backingAt (0x200000000 + i)).isSome
  rw [k.memory.backingAt_mem hs he hback (by omega),
    ((hs.vma.wf _ he).backed hback).byteAt_isSome]
  omega

/-- The two pages of the data differ. -/
def twoPages (i : ℕ) : UInt8 := if i < 0x4000 then 0 else 1

/-- After a write over two heaps side by side, the first page is behind the second heap too. -/
theorem write_backing_fails :
    ∃ k backing', Reachable Config.oneRegion (fun _ _ => True) k ∧
      k.memory.tryWriteBacking (fun _ => 0) 0x200000000 0x8000 twoPages = .ok (backing', true) ∧
      ¬k.memory.WritesData 0x200000000 0x8000 twoPages (fun _ => 0) backing' := by
  obtain ⟨k, hcalls, hok⟩ := Kernel.exists_callAll
    [.mapNamedFlexibleMemory 0x200000000 0x4000 3 0x10 (some "code"),
      .mapNamedFlexibleMemory 0x200004000 0x4000 3 0x10 (some "heap")] startedKernel
    (fun k =>
      ((k.memory.tryWriteBacking (fun _ => 0) 0x200000000 0x8000 twoPages).toOption.any
        fun result => result.2 = true ∧
          (k.memory.backingAt 0x200004000).map result.1 = some 0) = true) (by decide +kernel)
  obtain ⟨⟨backing', done⟩, hwrite, rfl, hbyte⟩ := ok_of_any hok
  obtain ⟨p, hp, hbyte⟩ := Option.map_eq_some_iff.mp hbyte
  refine ⟨k, backing', startedKernel_reachable.callAll (fun _ _ _ => trivial) hcalls, hwrite,
    fun hwrites => ?_⟩
  obtain ⟨p', hp', hdata⟩ := hwrites.written 0x4000 (by decide)
  rw [show (0x200000000 : ℕ) + 0x4000 = 0x200004000 from rfl, hp] at hp'
  cases hp'
  exact absurd (hbyte.symm.trans hdata) (by decide)

end Guest

end PS4Droid.Memory
