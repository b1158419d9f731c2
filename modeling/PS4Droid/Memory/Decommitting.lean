import PS4Droid.Memory.Cuts
import PS4Droid.Memory.Search

/-!
# What a decommit accepts

`PoolDecommit` looks at the areas of its range before it changes one, but leaves the loop at the
first area that ends behind the range. Once it has begun, it returns the committed memory piece by
piece, and every piece has to lie in one direct area.
-/

namespace PS4Droid.Memory

open OrderedMap IntervalMap Segments MemoryManager

/-! ### The pieces behind a range -/

/-- The part of a physical area that backs offsets from `lo` to `hi`. -/
def PhysicalMemoryArea.clip (lo hi : ℕ) (e : ℕ × PhysicalMemoryArea) : Option (ℕ × ℕ) :=
  if max e.1 lo < min (e.1 + e.2.size) hi then
    some (e.2.base + (max e.1 lo - e.1), min (e.1 + e.2.size) hi - max e.1 lo)
  else
    none

/-- The pieces of physical memory behind the offsets from `lo` to `hi`. -/
def PhysMap.pieces (areas : PhysMap) (lo hi : ℕ) : List (ℕ × ℕ) :=
  areas.filterMap (PhysicalMemoryArea.clip lo hi)

/-- The committed memory of an area behind the addresses from `addr` on. -/
def VirtualMemoryArea.committed (addr size : ℕ) (e : ℕ × VirtualMemoryArea) : List (ℕ × ℕ) :=
  if e.2.type = .pooled then e.2.physAreas.pieces (addr - e.1) (addr + size - e.1) else []

/-- The committed memory behind the addresses from `addr` on, in the order of the addresses. -/
def VMAMap.committed (m : VMAMap) (addr size : ℕ) : List (ℕ × ℕ) :=
  m.flatMap (VirtualMemoryArea.committed addr size)

namespace PhysMap

variable {areas m : PhysMap} {lo hi k n start : ℕ} {t : PhysicalMemoryType}

theorem pieces_eq_nil (h : ∀ e ∈ areas, hi ≤ lo ∨ e.1 + e.2.size ≤ lo ∨ hi ≤ e.1) :
    pieces areas lo hi = [] := by
  rw [pieces, List.filterMap_eq_nil_iff]
  intro e he
  have := h e he
  rw [PhysicalMemoryArea.clip, if_neg (by omega)]

theorem pieces_append (l r : PhysMap) (lo hi : ℕ) :
    pieces (l ++ r) lo hi = pieces l lo hi ++ pieces r lo hi :=
  List.filterMap_append

theorem pieces_bounded (hc : Contiguous k areas n) (hn : n < 2 ^ 64) {e : ℕ × ℕ}
    (he : e ∈ pieces areas lo hi) :
    0 < e.2 ∧ e.2 < 2 ^ 64 := by
  obtain ⟨⟨off, a⟩, hmem, hclip⟩ := List.mem_filterMap.mp he
  have hin := hc.mem hmem
  unfold PhysicalMemoryArea.clip at hclip
  split_ifs at hclip with hlt
  cases hclip
  simp only at hin hlt ⊢
  omega

theorem forEachPiece_zero (visit : ℕ → ℕ → PhysMap → Except Fault PhysMap) (start : ℕ)
    (areas m : PhysMap) :
    forEachPiece visit start areas 0 m = .ok (m, 0) := by
  cases areas with
  | nil => rfl
  | cons e rest => rw [forEachPiece, if_pos rfl]

theorem forEachPiece_eq (visit : ℕ → ℕ → PhysMap → Except Fault PhysMap) (hn : n < 2 ^ 64)
    (hc : Contiguous k areas n) (hstart : ∀ e ∈ areas.head?, start < e.1 + e.2.size) :
    forEachPiece visit start areas (min n hi - max k start) m =
      (·, 0) <$> (pieces areas start hi).foldlM (fun m e => visit e.1 e.2 m) m := by
  induction areas generalizing k m with
  | nil =>
    obtain rfl : k = n := hc
    rw [show min k hi - max k start = 0 by omega]
    rfl
  | cons e rest ih =>
    obtain ⟨k', a⟩ := e
    obtain ⟨rfl, hpos, hb, hrest⟩ := hc
    have hend : start < k' + a.size := hstart (k', a) rfl
    have hle := hrest.le
    have hhead : ∀ e ∈ rest.head?, start < e.1 + e.2.size := by
      intro e he
      have := hrest.mem (List.mem_of_mem_head? he)
      omega
    have hmax : max (k' + a.size) start = k' + a.size := by omega
    by_cases hdone : min n hi - max k' start = 0
    · -- The range ends in front of this area.
      have hnone : PhysicalMemoryArea.clip start hi (k', a) = none := by
        rw [PhysicalMemoryArea.clip, if_neg (by simp only; omega)]
      have hlater := ih (m := m) hrest hhead
      rw [show min n hi - max (k' + a.size) start = 0 by omega, forEachPiece_zero] at hlater
      rw [hdone, forEachPiece_zero, pieces, List.filterMap_cons_none hnone]
      exact hlater
    · have hoff : sub64 (max k' start) k' = max k' start - k' := sub64_eq (by omega) (by omega)
      have hsz : sub64 a.size (max k' start - k') = a.size - (max k' start - k') :=
        sub64_eq (by omega) (by omega)
      have hbound : a.base + a.size < 2 ^ 64 := hb
      have haddr : add64 a.base (max k' start - k') = a.base + (max k' start - k') :=
        add64_eq (by omega)
      have hpiece : min (min n hi - max k' start) (a.size - (max k' start - k')) =
          min (k' + a.size) hi - max k' start := by omega
      have hclip : PhysicalMemoryArea.clip start hi (k', a) =
          some (a.base + (max k' start - k'), min (k' + a.size) hi - max k' start) := by
        rw [PhysicalMemoryArea.clip, if_pos (by simp only; omega)]
      rw [forEachPiece, if_neg hdone]
      simp only [hoff, hsz, haddr, hpiece]
      rw [pieces, List.filterMap_cons_some hclip, List.foldlM_cons, map_bind]
      refine bind_congr fun m₁ => ?_
      have hlater := ih (m := m₁) hrest hhead
      rw [hmax] at hlater
      rw [show min n hi - max k' start - (min (k' + a.size) hi - max k' start) =
        min n hi - (k' + a.size) by omega]
      exact hlater

theorem retypeBacking_eq (hn : n < 2 ^ 64) (hc : Contiguous 0 areas n) (hstart : start < n) :
    retypeBacking t areas start (min n hi - start) m = (·, true) <$> retypePieces t
      (pieces areas start hi) m := by
  obtain ⟨⟨k, a⟩, hmem, hin⟩ := (hc.covers start).mpr ⟨Nat.zero_le _, hstart⟩
  have hfind := findEntry_covering hc.tiling hmem hin
  obtain ⟨l, r, ha, hl, hr, hk, hend⟩ := contiguous_findEntry hc hstart hfind
  have habove := ha.above
  simp only at habove
  have hfront : pieces l start hi = [] := pieces_eq_nil fun e he => by
    have := hl.mem he
    omega
  have hloop : forEachPiece (retypePiece t) start ((k, a) :: r) (min n hi - max k start) m =
    _ <$> _ :=
    forEachPiece_eq (retypePiece t) hn hr (by simpa using hend)
  rw [show max k start = start by omega] at hloop
  rw [retypeBacking, hfind, ok_bind]
  simp only [habove, hloop, retypePieces]
  rw [ha.eq, pieces_append, hfront, List.nil_append]
  cases (pieces ((k, a) :: r) start hi).foldlM (fun m e => retypePiece t e.1 e.2 m) m <;> rfl

end PhysMap

/-! ### The loop -/

namespace VMAMap

variable {m m' l r : VMAMap} {addr size n k rest : ℕ} {v : VirtualMemoryArea}

theorem committed_append (l r : VMAMap) (addr size : ℕ) :
    committed (l ++ r) addr size = committed l addr size ++ committed r addr size :=
  List.flatMap_append

theorem committed_cons (e : ℕ × VirtualMemoryArea) (r : VMAMap) (addr size : ℕ) :
    committed (e :: r) addr size = VirtualMemoryArea.committed addr size e ++
      committed r addr size := rfl

/-- Areas in front of the range have no committed memory behind it, and neither have those that are
not pooled. -/
theorem committed_eq_nil (hs : ∀ e ∈ m, e.2.Sound)
    (h : ∀ e ∈ m, size = 0 ∨ e.1 + e.2.size ≤ addr ∨ e.2.type ≠ .pooled) :
    committed m addr size = [] := by
  rw [committed, List.flatMap_eq_nil_iff]
  intro e he
  unfold VirtualMemoryArea.committed
  split_ifs with htype
  · have hb : e.2.hasPhysicalBacking = true := by simp [VirtualMemoryArea.hasPhysicalBacking, htype]
    refine PhysMap.pieces_eq_nil fun f hf => ?_
    have hin := ((hs e he).backed hb).mem hf
    rcases h e he with hzero | hfront | hother
    · exact .inl (by omega)
    · exact .inr (.inl (by omega))
    · exact absurd htype hother
  · rfl

/-- Behind the first part of a range the rest of it starts later. -/
theorem committed_behind (hn : n ≤ size) (h : ∀ e ∈ m, addr + n ≤ e.1) :
    committed m addr size = committed m (addr + n) (size - n) := by
  unfold committed
  refine List.flatMap_congr fun e he => ?_
  have := h e he
  unfold VirtualMemoryArea.committed
  rw [show addr - e.1 = addr + n - e.1 by omega, show addr + n + (size - n) = addr + size by omega]

theorem committed_bounded (hv : SoundMap m) {e : ℕ × ℕ} (he : e ∈ committed m addr size) :
    0 < e.2 ∧ e.2 < 2 ^ 64 := by
  obtain ⟨f, hf, he⟩ := List.mem_flatMap.mp he
  unfold VirtualMemoryArea.committed at he
  split_ifs at he with htype
  · have hb : f.2.hasPhysicalBacking = true := by simp [VirtualMemoryArea.hasPhysicalBacking, htype]
    have hsound : f.2.Sound := hv.wf f hf
    have hbound : f.2.base + f.2.size < 2 ^ 64 := hsound.bounded
    exact PhysMap.pieces_bounded (hsound.backed hb) (by omega) he
  · cases he

variable {a a' : VirtualMemoryArea} {l' : VMAMap}

/-- A merge with the area behind keeps the type; only areas of the same type are merged. -/
theorem absorbsNext_type {b : VirtualMemoryArea} {r' : VMAMap} (h : AbsorbsNext vmaKind a r b r') :
    b.type = a.type ∧ (r = r' ∨ ∃ e, r = e :: r' ∧ e.2.type = a.type) := by
  cases h with
  | keep => exact ⟨rfl, .inl rfl⟩
  | absorb k b r' hm =>
      exact ⟨vmaKind_join_type a b, .inr ⟨(k, b), rfl, (vmaKind_canMerge_ok hm).2.1.symm⟩⟩

theorem absorbsPrev_type {h h' : ℕ}
    (hp : AbsorbsPrev vmaKind h a l l' h' a') : a'.type = a.type := by
  cases hp with
  | keep => rfl
  | absorb l' k b hm => exact (vmaKind_join_type b a).trans (vmaKind_canMerge_ok hm).2.1

theorem absorbsPrev_mem {h h' : ℕ}
    (hp : AbsorbsPrev vmaKind h a l l' h' a') {e : ℕ × VirtualMemoryArea} (he : e ∈ l') :
    e ∈ l := by
  cases hp with
  | keep => exact he
  | absorb l' k b hm => simp [he]

/-- Retyping a part of an area succeeds, and leaves the committed memory behind it. -/
theorem retype_decommitted (hv : SoundMap m) (ha : Around m l (k, v) r) (hp : Part k v.size addr n)
    (hrest : rest = 0 ∨ addr + n = k + v.size) :
    ∃ m', retype m addr n decommitted = .ok m' ∧
      committed m' (addr + n) rest = committed r (addr + n) rest := by
  have hsound : (decommitted (carved k v addr n)).Sound :=
    decommitted_sound (carved_extent vmaKind_sound hv ha hp).2.2
  have hf : Reattributes decommitted := ⟨fun _ => rfl, fun _ => rfl⟩
  have hrw := changed_rewritten vmaKind_sound hv hf ha hp hsound
  have hv₁ : SoundMap (changed l k v r addr n decommitted) := hrw.valid vmaKind_sound hv
  have ha₁ := hv₁.sorted.around_of_eq
  obtain ⟨m', h', hmerge⟩ := mergeAdjacent_ok vmaKind_sound hv₁ ha₁ fun _ _ =>
    vmaKind_canMerge_total
  refine ⟨m', ?_, ?_⟩
  · rw [retype, carveWith_ok vmaKind_sound (fun _ h => h.bounded) hv ha hp, ok_bind]
    simp only [mergeAdjacent, hmerge]
    rfl
  · have hv' : SoundMap m' := (mergeAdjacent_recut vmaKind_sound hv₁ hmerge).valid vmaKind_sound hv₁
    have hr : ∀ e ∈ r, e.2.Sound := fun e he => hv.wf e (by simp [ha.eq, he])
    rcases hrest with rfl | hwhole
    · rw [committed_eq_nil (fun e he => hv'.wf e he) fun _ _ => .inl rfl,
        committed_eq_nil hr fun _ _ => .inl rfl]
    obtain ⟨l', b, a', r', ha', hnext, hprev⟩ := mergeAdjacent_shape hv₁.sorted ha₁ hmerge
    obtain ⟨htype, hbehind⟩ := absorbsNext_type hnext
    have hreserved : a'.type = .poolReserved := (absorbsPrev_type hprev).trans htype
    have hfront : committed l' (addr + n) rest = [] := by
      refine committed_eq_nil (fun e he => hv'.wf e (by simp [ha'.eq, he])) fun e he =>
        .inr (.inl ?_)
      have hapart := hv₁.tiling.mem_left_lt (absorbsPrev_mem hprev he) List.mem_cons_self
      simp only [vmaKind_size] at hapart
      omega
    have htrail : vmaKind.trailing k v (addr - k + n) = [] := by
      have hstart := hp.start
      rw [trailing, if_neg (by simp only [vmaKind_size]; omega)]
    rw [htrail, List.nil_append] at hbehind
    rw [ha'.eq, committed_append, hfront, List.nil_append, committed_cons,
      VirtualMemoryArea.committed, if_neg (by simp [hreserved]), List.nil_append]
    rcases hbehind with rfl | ⟨e, rfl, he⟩
    · rfl
    · rw [committed_cons, VirtualMemoryArea.committed, if_neg (by simp [he, decommitted]),
        List.nil_append]

end VMAMap

namespace MemoryManager

variable {s s' s₁ : MemoryManager} {addr size k n : ℕ} {v : VirtualMemoryArea} {c : Config}

/-- Returning the memory behind a part of an area retypes its committed pieces. -/
theorem decommitBacking_eq (hv : v.Sound) (hin : k ≤ addr ∧ addr < k + v.size)
    (hn : n = min size (v.size - (addr - k))) : s.decommitBacking v (addr - k) n =
      (fun dmemMap => { s with
        dmemMap, poolBudget := if v.type = .pooled then add64 s.poolBudget n else s.poolBudget })
          <$>
        PhysMap.retypePieces .pooled (VirtualMemoryArea.committed addr size (k, v)) s.dmemMap := by
  unfold decommitBacking VirtualMemoryArea.committed
  split_ifs with htype
  · have hb : v.hasPhysicalBacking = true := by simp [VirtualMemoryArea.hasPhysicalBacking, htype]
    have hbound : v.base + v.size < 2 ^ 64 := hv.bounded
    have hpieces : retypeBacking .pooled v.physAreas (addr - k)
      (min v.size (addr + size - k) - (addr - k)) s.dmemMap =
        _ <$> _ := PhysMap.retypeBacking_eq (by omega) (hv.backed hb) (by omega)
    rw [show min v.size (addr + size - k) - (addr - k) = n by omega] at hpieces
    rw [hpieces]
    cases PhysMap.retypePieces .pooled
      (v.physAreas.pieces (addr - k) (addr + size - k)) s.dmemMap <;> rfl
  · rfl

/-- Over a covered range the loop succeeds exactly when the committed pieces can be retyped. -/
theorem decommitLoop_ok_iff {fuel remaining : ℕ} (hs : s.Sound) (hcov : s.Covered addr remaining)
    (hend : addr + remaining < 2 ^ 64) (hfuel : remaining < fuel) :
    (∃ s', decommitLoop fuel s addr remaining = .ok s') ↔
      ∃ m, PhysMap.retypePieces .pooled (s.vmaMap.committed addr remaining) s.dmemMap = .ok m := by
  induction fuel generalizing s addr remaining with
  | zero => omega
  | succ fuel ih =>
    by_cases hzero : remaining = 0
    · rw [decommitLoop, if_pos hzero,
        VMAMap.committed_eq_nil (fun e he => hs.vma.wf e he) fun _ _ => .inl hzero]
      exact iff_of_true ⟨s, rfl⟩ ⟨_, rfl⟩
    rw [decommitLoop, if_neg hzero]
    obtain ⟨⟨k, v⟩, hf⟩ : ∃ e, s.findVMA addr = .ok e := by
      obtain ⟨c, hc⟩ := Option.isSome_iff_exists.mp (hcov addr ⟨le_rfl, by omega⟩)
      obtain ⟨e, he, hx, -⟩ := VMAMap.cellAt_some hc
      exact ⟨e, findEntry_covering hs.vma.tiling he hx⟩
    obtain ⟨hmem, hbase, hle, hlt, hbound⟩ := findVMA_covered hs (hcov addr ⟨le_rfl, by omega⟩) hf
    obtain ⟨l, r, ha, -, -⟩ := findEntry_around hs.vma.sorted hf
    have hsub : sub64 addr v.base = addr - k := by rw [sub64_eq (by omega) (by omega), hbase]
    have hsub' : sub64 v.size (addr - k) = v.size - (addr - k) := sub64_eq (by omega) (by omega)
    obtain ⟨n, hn⟩ : ∃ n, n = min remaining (v.size - (addr - k)) := ⟨_, rfl⟩
    have hp : Part k v.size addr n := ⟨by omega, hle, by omega⟩
    have hv : VMAMap.SoundMap (l ++ (k, v) :: r) := ha.eq ▸ hs.vma
    -- The committed pieces are those of this area and then those behind it.
    have hpieces : s.vmaMap.committed addr remaining =
        VirtualMemoryArea.committed addr remaining (k, v) ++ VMAMap.committed r (addr + n)
          (remaining - n) := by
      have hfront : VMAMap.committed l addr remaining = [] := by
        refine VMAMap.committed_eq_nil (fun e he => hv.wf e (by simp [he])) fun e he =>
          .inr (.inl ?_)
        have := hv.tiling.mem_left_lt he List.mem_cons_self
        simp only [vmaKind_size] at this
        omega
      have hbehind : VMAMap.committed r addr remaining = VMAMap.committed r (addr + n)
        (remaining - n) := by
        refine VMAMap.committed_behind (by omega) fun e he => ?_
        have := (List.pairwise_cons.mp hv.right.tiling.apart).1 e he
        simp only [vmaKind_size] at this
        omega
      rw [ha.eq, VMAMap.committed_append, hfront, List.nil_append, VMAMap.committed_cons, hbehind]
    obtain ⟨m', hretype, hlater⟩ := VMAMap.retype_decommitted hs.vma ha hp
      (show remaining - n = 0 ∨ addr + n = k + v.size by omega)
    have hback := decommitBacking_eq (s := s) (hs.vma.wf _ hmem) ⟨hle, hlt⟩ hn
    rw [hpieces, PhysMap.retypePieces_append, hf, ok_bind]
    simp only [hsub, hsub', ← hn, hback]
    cases hdmem : PhysMap.retypePieces .pooled
      (VirtualMemoryArea.committed addr remaining (k, v)) s.dmemMap with
    | error e => exact iff_of_false (by rintro ⟨s', h⟩; cases h) (by rintro ⟨m, h⟩; cases h)
    | ok dmemMap =>
      rw [hdmem, ← hsub] at hback
      have hstep := @decommitStep_spec s { s with
        dmemMap, poolBudget := if v.type = .pooled then add64 s.poolBudget n
          else s.poolBudget } addr v k n m' hs
        (by omega) (by omega) hf hback hretype
      simp only [Functor.map, Except.map, ok_bind, hretype, add64_eq hstep.2.1]
      rw [← hlater]
      refine ih hstep.2.2.sound (fun x hx => ?_) (by omega) (by omega)
      rw [hstep.2.2.cell_out x (by omega)]
      exact hcov x (by omega)

/-! ### The check in front of the loop -/

/-- A byte of the range lies in an area that does not belong to the pool. -/
def HasForeign (s : MemoryManager) (addr size : ℕ) : Prop :=
  ∃ x, (addr ≤ x ∧ x < addr + size) ∧ ∃ c, s.cellAt x = some c ∧ c.type ≠ .poolReserved ∧
    c.type ≠ .pooled

/-- From the area found for the address on, an area that does not belong to the pool ends inside of
the range. -/
def ForeignEnds (s : MemoryManager) (addr size : ℕ) : Prop :=
  ∃ first, s.findVMA addr = .ok first ∧ ∃ e ∈ s.vmaMap, first.1 ≤ e.1 ∧
    e.1 + e.2.size ≤ add64 addr size ∧ e.2.type ≠ .poolReserved ∧ e.2.type ≠ .pooled

theorem decommitAllowed_iff {m : VMAMap} {endAddr : ℕ} (hv : VMAMap.SoundMap m) :
    decommitAllowed endAddr m = true ↔
    ¬∃ e ∈ m, e.1 + e.2.size ≤ endAddr ∧ e.2.type ≠ .poolReserved ∧ e.2.type ≠ .pooled := by
  induction m with
  | nil => simp [decommitAllowed]
  | cons e rest ih =>
    obtain ⟨k, v⟩ := e
    have hbase : v.base = k := hv.keyed (k, v) (by simp)
    have hbound : v.base + v.size < 2 ^ 64 := (hv.wf (k, v) (by simp)).bounded
    have hend : add64 v.base v.size = k + v.size := by rw [add64_eq hbound, hbase]
    rw [decommitAllowed, hend]
    split_ifs with hle hforeign
    · exact iff_of_false (by simp) (not_not_intro ⟨(k, v), by simp, hle, hforeign⟩)
    · rw [ih (hv.right (l := [(k, v)])), not_iff_not]
      constructor
      · rintro ⟨e, he, h⟩
        exact ⟨e, by simp [he], h⟩
      · rintro ⟨e, he, h⟩
        rcases List.mem_cons.mp he with rfl | he
        · exact absurd h.2 hforeign
        · exact ⟨e, he, h⟩
    · -- The areas behind end even later.
      refine iff_of_true rfl ?_
      rintro ⟨e, he, h, -⟩
      rcases List.mem_cons.mp he with rfl | he
      · exact hle h
      · have := (List.pairwise_cons.mp hv.tiling.apart).1 e he
        simp only [vmaKind_size] at this
        omega

/-- A valid range is rejected when the check sees an area that does not belong to the pool. -/
theorem poolDecommit_eq (hs : s.Sound) (hvalid : s.isValidMapping addr size = .ok true) :
    (s.ForeignEnds addr size → s.poolDecommit addr size = .ok (s, .error .einval)) ∧
      (¬s.ForeignEnds addr size → s.poolDecommit addr size =
        (fun s' => ({ s' with host := AddressSpace.unmap s'.host addr size }, .ok)) <$>
          decommitLoop loopBound s addr size) := by
  obtain ⟨first, hf⟩ := exists_findVMA hs hvalid
  obtain ⟨l, r, ha, -, -⟩ := findEntry_around hs.vma.sorted hf
  have hv : VMAMap.SoundMap (l ++ first :: r) := ha.eq ▸ hs.vma
  have hallowed : decommitAllowed (add64 addr size) (first :: r) = true ↔
    ¬s.ForeignEnds addr size := by
    rw [decommitAllowed_iff hv.right, not_iff_not]
    constructor
    · rintro ⟨e, he, h⟩
      refine ⟨first, hf, e, by rw [ha.eq]; exact List.mem_append_right _ he, ?_, h⟩
      rcases List.mem_cons.mp he with rfl | he
      · exact le_rfl
      · exact (ha.right e he).le
    · rintro ⟨_, hf', e, he, hle, h⟩
      rw [hf] at hf'
      cases hf'
      rw [ha.eq] at he
      rcases List.mem_append.mp he with he | he
      · have := ha.left e he
        omega
      · exact ⟨e, he, h⟩
  rw [poolDecommit, requireValidMapping_of_valid hvalid, ok_bind, hf, ok_bind, ha.above]
  constructor
  · intro hforeign
    rw [if_neg fun h => hallowed.mp h hforeign]
    rfl
  · intro hnone
    rw [if_pos (hallowed.mpr hnone)]
    cases decommitLoop loopBound s addr size <;> rfl

/-- What a decommit of a range should do: reject it if a byte of it does not belong to the pool, and
otherwise decommit it. -/
structure Validates (s : MemoryManager) (addr size : ℕ) : Prop where
  rejects : s.HasForeign addr size → s.poolDecommit addr size = .ok (s, .error .einval)
  performs : ¬s.HasForeign addr size →
    ∃ s', s.poolDecommit addr size = .ok (s', .ok) ∧ Decommits s addr size s'

/-- The check sees an area that does not belong to the pool exactly when there is one. If there is
none, every byte belongs to an area and each piece of committed memory lies in one direct area when
its turn comes. -/
structure DecommitFits (s : MemoryManager) (addr size : ℕ) : Prop where
  seen : s.HasForeign addr size ↔ s.ForeignEnds addr size
  covered : ¬s.HasForeign addr size → s.Covered addr size
  fitting : ¬s.HasForeign addr size →
    PhysMap.Fitting .pooled s.dmemMap s.totalDirectSize (s.vmaMap.committed addr size)

/-- A range that passes the check is decommitted when its bytes belong to areas and the pieces
fit. -/
theorem performs_iff (hr : Regular c s) (haddr : addr < 2 ^ 64) (hsize : size < 2 ^ 64)
    (hvalid : s.isValidMapping addr size = .ok true) (hnone : ¬s.ForeignEnds addr size) :
    (∃ s', s.poolDecommit addr size = .ok (s', .ok) ∧ Decommits s addr size s') ↔
      s.Covered addr size ∧
      PhysMap.Fitting .pooled s.dmemMap s.totalDirectSize (s.vmaMap.committed addr size) := by
  have hs := hr.sound
  rw [(poolDecommit_eq hs hvalid).2 hnone, ← (PhysMap.retypePieces_iff hs.dmem hr.dmem fun e he =>
    VMAMap.committed_bounded hs.vma he).1]
  have hend : s.Covered addr size → addr + size < 2 ^ 64 := by
    intro hcov
    by_cases hzero : size = 0
    · omega
    · have := hr.low (addr + size - 1) (hcov _ (by omega))
      omega
  constructor
  · rintro ⟨s', h, hd⟩
    obtain ⟨s₁, hloop, -⟩ := map_ok h
    exact ⟨hd.covered, (decommitLoop_ok_iff hs hd.covered (hend hd.covered) hsize).mp ⟨s₁, hloop⟩⟩
  · rintro ⟨hcov, hfit⟩
    have hloop : ∃ s₁, decommitLoop loopBound s addr size = .ok s₁ :=
      (decommitLoop_ok_iff hs hcov (hend hcov) hsize).mpr hfit
    obtain ⟨s₁, hloop⟩ := hloop
    rw [hloop]
    exact ⟨_, rfl, (decommitLoop_spec hs haddr hsize hloop).unmap_host⟩

theorem validates_iff (hr : Regular c s) (haddr : addr < 2 ^ 64) (hsize : size < 2 ^ 64)
    (hvalid : s.isValidMapping addr size = .ok true) :
    s.Validates addr size ↔ s.DecommitFits addr size := by
  obtain ⟨hrejected, haccepted⟩ := poolDecommit_eq hr.sound hvalid
  constructor
  · rintro ⟨hrejects, hperforms⟩
    have hseen : s.HasForeign addr size ↔ s.ForeignEnds addr size := by
      constructor
      · intro hforeign
        by_contra hnone
        have h := hrejects hforeign
        rw [haccepted hnone] at h
        obtain ⟨s₁, -, h⟩ := map_ok h
        cases h
      · intro hends
        by_contra hnone
        obtain ⟨s', h, -⟩ := hperforms hnone
        rw [hrejected hends] at h
        cases h
    have hdone : ¬s.HasForeign addr size → _ := fun hnone =>
      (performs_iff hr haddr hsize hvalid (hseen.not.mp hnone)).mp (hperforms hnone)
    exact ⟨hseen, fun hnone => (hdone hnone).1, fun hnone => (hdone hnone).2⟩
  · rintro ⟨hseen, hcovered, hfitting⟩
    refine ⟨fun hforeign => hrejected (hseen.mp hforeign), fun hnone => ?_⟩
    exact (performs_iff hr haddr hsize hvalid (hseen.not.mp hnone)).mpr ⟨hcovered hnone,
      hfitting hnone⟩

end MemoryManager

section Guest

variable {c : Config} {P : Kernel → GuestCall → Prop} {k : Kernel}

/-- `PoolDecommit` checks its range before it changes anything exactly when the areas and the pieces
fit. -/
theorem pool_decommit_iff (hc : c.Usable) (h : Reachable c P k) (addr size : UInt64)
    (hvalid : k.memory.isValidMapping addr.toNat size.toNat = .ok true) :
    k.memory.Validates addr.toNat size.toNat ↔ k.memory.DecommitFits addr.toNat size.toNat :=
  MemoryManager.validates_iff (h.direct_pos hc).1 addr.toNat_lt size.toNat_lt hvalid

/-- A pool area with a heap behind it, and a range that ends inside of the heap. -/
theorem exists_heap_behind_pool : ∃ k, Reachable Config.oneRegion (fun _ _ => True) k ∧
    k.memory.isValidMapping 0x200000000 0x210000 = .ok true ∧
    (∃ c, k.memory.cellAt 0x200200000 = some c ∧ c.type = .flexible) ∧
    ∃ s', k.memory.poolDecommit 0x200000000 0x210000 = .ok (s', .ok) := by
  obtain ⟨k, hcalls, hvalid, hcell, hdone⟩ := Kernel.exists_callAll
    [.memoryPoolReserve 0x200000000 0x200000 0 0x10,
      .mapNamedFlexibleMemory 0x200200000 0x20000 3 0x10 (some "heap")] startedKernel
    (fun k => k.memory.isValidMapping 0x200000000 0x210000 = .ok true ∧
      (k.memory.cellAt 0x200200000).map Cell.type = some .flexible ∧
      ((k.memory.poolDecommit 0x200000000 0x210000).toOption.any fun result => result.2 = .ok) =
        true)
    (by decide +kernel)
  have hk : Reachable Config.oneRegion (fun _ _ => True) k :=
    startedKernel_reachable.callAll (fun _ _ _ => trivial) hcalls
  obtain ⟨⟨s', status⟩, hdecommit, rfl⟩ := ok_of_any hdone
  exact ⟨k, hk, hvalid, Option.map_eq_some_iff.mp hcell, s', hdecommit⟩

theorem pool_decommit_iff_heap :
    ∃ k : Kernel, k.memory.isValidMapping 0x200000000 0x210000 = .ok true ∧
      (k.memory.Validates 0x200000000 0x210000 ↔ k.memory.DecommitFits 0x200000000 0x210000) := by
  obtain ⟨k, hk, hvalid, -⟩ := exists_heap_behind_pool
  exact ⟨k, hvalid, pool_decommit_iff Config.oneRegion_usable hk 0x200000000 0x210000 hvalid⟩

/-- The heap is decommitted with the pool area in front of it. -/
theorem pool_decommit_fails :
    ∃ k, Reachable Config.oneRegion (fun _ _ => True) k ∧
      k.memory.isValidMapping 0x200000000 0x210000 = .ok true ∧
        ¬k.memory.Validates 0x200000000 0x210000 := by
  obtain ⟨k, hk, hvalid, ⟨c, hcell, htype⟩, s', hdone⟩ := exists_heap_behind_pool
  refine ⟨k, hk, hvalid, fun hvalidates => ?_⟩
  have hrejected :=
    hvalidates.rejects ⟨0x200200000, by decide, c, hcell, by simp [htype], by simp [htype]⟩
  rw [hdone] at hrejected
  cases hrejected

end Guest

end PS4Droid.Memory
