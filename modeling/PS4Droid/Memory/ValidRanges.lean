import PS4Droid.Memory.System

/-!
# Valid ranges

`IsValidMapping` walks over the areas from the one found at or below the address. Inside an area the
walk decides whether the range is covered. Behind the end of the area, in a gap, the offset exceeds
the size of the area and their difference wraps, so that the walk counts nearly all of the address
space as part of it.
-/

namespace PS4Droid.Memory

open OrderedMap IntervalMap

namespace VMAMap

/-- Disjoint areas in a 64-bit address space; the last one may end with it. -/
structure Regions (m : VMAMap) : Prop where
  tiling : Tiling VirtualMemoryArea.size m
  keyed : ∀ e ∈ m, e.2.base = e.1
  sized : ∀ e ∈ m, e.2.size < 2 ^ 64
  bounded : ∀ e ∈ m, e.1 + e.2.size ≤ 2 ^ 64

/-- Every byte of the range lies in an area. -/
def CoversRange (m : VMAMap) (addr size : ℕ) : Prop :=
  ∀ x, addr ≤ x ∧ x < addr + size → Covers VirtualMemoryArea.size m x

/-- The address is in a gap between two areas: the one at or below it ends `g` bytes before it. -/
def InGap (m : VMAMap) (addr g : ℕ) : Prop :=
  ∃ e, floor m addr = some e ∧ e.1 + e.2.size + g = addr ∧ ∃ f ∈ m, addr < f.1

variable {m l r : VMAMap} {e f : ℕ × VirtualMemoryArea} {addr size : ℕ}

theorem Regions.right (h : Regions (l ++ r)) : Regions r where
  tiling := h.tiling.right
  keyed e he := h.keyed e (List.mem_append_right _ he)
  sized e he := h.sized e (List.mem_append_right _ he)
  bounded e he := h.bounded e (List.mem_append_right _ he)

theorem Regions.sorted (h : Regions m) : Sorted m := h.tiling.sorted

variable {x : ℕ}

theorem covers_cons_of_le (hle : e.1 + e.2.size ≤ x) :
    Covers VirtualMemoryArea.size (e :: r) x ↔ Covers VirtualMemoryArea.size r x := by
  simp only [covers_cons, Within]
  exact or_iff_right fun h => absurd h.2 (not_lt.mpr hle)

theorem not_covers_of_lt (h : ∀ e ∈ m, x < e.1) : ¬Covers VirtualMemoryArea.size m x := by
  rintro ⟨e, he, hle, -⟩
  exact absurd hle (not_le.mpr (h e he))

/-- A byte of an area lies between the first area and the end of the last one. -/
theorem Regions.between {first last : ℕ × VirtualMemoryArea} (h : Regions m)
    (hfirst : m.head? = some first)
    (hlast : m.getLast? = some last) (he : e ∈ m) :
    first.1 ≤ e.1 ∧ e.1 + e.2.size ≤ last.1 + last.2.size := by
  constructor
  · obtain ⟨r, rfl⟩ := List.head?_eq_some_iff.mp hfirst
    rcases List.mem_cons.mp he with rfl | he
    · exact le_rfl
    · exact ((List.pairwise_cons.mp h.sorted).1 e he).le
  · obtain ⟨l, rfl⟩ := List.getLast?_eq_some_iff.mp hlast
    rcases List.mem_append.mp he with he | he
    · have hle := h.tiling.mem_left_lt he (List.mem_singleton.mpr rfl)
      omega
    · obtain rfl := List.mem_singleton.mp he
      exact le_rfl

end VMAMap

namespace MemoryManager

open VMAMap

variable {m l r : VMAMap} {e f : ℕ × VirtualMemoryArea} {addr size : ℕ} {s : MemoryManager}

/-- From inside the first area the walk decides whether the range is covered. -/
theorem rangeContained_iff (hm : Regions (e :: r))
    (hends : ∀ e' ∈ e :: r, e'.1 + e'.2.size < 2 ^ 64)
    (hin : e.1 ≤ addr ∧ addr < e.1 + e.2.size) (hsize : 0 < size) :
    rangeContained (e :: r) addr size = true ↔ CoversRange (e :: r) addr size := by
  induction r generalizing e addr size with
  | nil =>
    obtain ⟨k, v⟩ := e
    have hbase : v.base = k := hm.keyed (k, v) (by simp)
    have hbound : k + v.size < 2 ^ 64 := hends (k, v) (by simp)
    simp only at hin
    have hsub : sub64 v.size (sub64 addr v.base) = v.size - (addr - k) := by
      rw [hbase, sub64_eq (a := addr) (by omega) (by omega), sub64_eq (by omega) (by omega)]
    unfold rangeContained
    rw [if_neg (by omega)]
    simp only [hsub, beq_iff_eq]
    constructor
    · intro hdone x hx
      exact ⟨(k, v), by simp, by simp only; omega, by simp only; omega⟩
    · intro hcov
      by_contra hleft
      obtain ⟨e, he, -, hlt⟩ := hcov (k + v.size) (by omega)
      obtain rfl := List.mem_singleton.mp he
      exact lt_irrefl _ hlt
  | cons f r ih =>
    obtain ⟨k, v⟩ := e
    obtain ⟨k', w⟩ := f
    have hbase : v.base = k := hm.keyed (k, v) (by simp)
    have hbase' : w.base = k' := hm.keyed (k', w) (by simp)
    have hbound : k + v.size < 2 ^ 64 := hends (k, v) (by simp)
    have hbehind := (List.pairwise_cons.mp hm.tiling.apart).1
    have hpos : 0 < w.size := hm.tiling.pos (k', w) (by simp)
    have hk' : k + v.size ≤ k' := hbehind (k', w) (by simp)
    simp only at hin
    have hsub : sub64 v.size (sub64 addr v.base) = v.size - (addr - k) := by
      rw [hbase, sub64_eq (a := addr) (by omega) (by omega), sub64_eq (by omega) (by omega)]
    have hadd : add64 addr (min (v.size - (addr - k)) size) =
      addr + min (v.size - (addr - k)) size :=
      add64_eq (by omega)
    unfold rangeContained
    rw [if_neg (by omega)]
    simp only [hsub, hadd, hbase']
    by_cases hfits : size ≤ v.size - (addr - k)
    · -- the range ends in this area
      rw [min_eq_right hfits, if_neg (by omega), Nat.sub_self]
      unfold rangeContained
      rw [if_pos rfl]
      refine iff_of_true rfl fun x hx => ⟨(k, v), by simp, ?_⟩
      exact ⟨by simp only; omega, by simp only; omega⟩
    · rw [min_eq_left (by omega)]
      have hstop : addr + (v.size - (addr - k)) = k + v.size := by omega
      rw [hstop]
      have hrest (x : ℕ) (hx : k + v.size ≤ x) :=
        covers_cons_of_le (r := (k', w) :: r) (e := (k, v)) hx
      by_cases hgap : k + v.size = k'
      · rw [if_neg (by omega), ih (hm.right (l := [(k, v)])) (fun e' he' => hends e' (.tail _ he'))
          ⟨by simp only; omega, by simp only; omega⟩ (by omega)]
        constructor
        · intro hcov x hx
          by_cases hlt : x < k + v.size
          · exact ⟨(k, v), by simp, by simp only; omega, hlt⟩
          · exact (hrest x (by omega)).mpr (hcov x (by omega))
        · intro hcov x hx
          exact (hrest x (by omega)).mp (hcov x (by omega))
      · rw [if_pos ⟨by omega, hgap⟩]
        refine iff_of_false (by decide) fun hcov => ?_
        have hcell := (hrest (k + v.size) le_rfl).mp (hcov (k + v.size) (by omega))
        refine not_covers_of_lt (fun e' he' => ?_) hcell
        rcases List.mem_cons.mp he' with rfl | he'
        · simp only
          omega
        · have hlt := (List.pairwise_cons.mp (hm.right (l := [(k, v)])).tiling.apart).1 e' he'
          simp only at hlt
          omega

/-- From a gap, `g` bytes behind the area before it, the walk ends in that area unless the gap
begins there or the range goes around the whole address space. -/
theorem rangeContained_gap {g : ℕ} (hm : Regions (e :: f :: r)) (hends : e.1 + e.2.size + g = addr)
    (hlt : addr < f.1) (haddr : addr < 2 ^ 64) (hsize : 0 < size) :
    rangeContained (e :: f :: r) addr size = true ↔ 0 < g ∧ size + g ≤ 2 ^ 64 := by
  obtain ⟨k, v⟩ := e
  obtain ⟨k', w⟩ := f
  have hbase : v.base = k := hm.keyed (k, v) (by simp)
  have hbase' : w.base = k' := hm.keyed (k', w) (by simp)
  have hv : v.size < 2 ^ 64 := hm.sized (k, v) (by simp)
  simp only at hends hlt
  have hoff : sub64 addr v.base = v.size + g := by
    rw [hbase, sub64_eq haddr (by omega)]
    omega
  have hsub : sub64 v.size (v.size + g) = if g = 0 then 0 else 2 ^ 64 - g := by
    unfold sub64
    split_ifs <;> omega
  unfold rangeContained
  rw [if_neg (by omega)]
  simp only [hoff, hsub, hbase']
  by_cases hg : g = 0
  · rw [if_pos hg, Nat.zero_min, Nat.sub_zero, if_pos ⟨hsize, by unfold add64; omega⟩]
    exact iff_of_false (by decide) (by omega)
  · rw [if_neg hg]
    by_cases hfits : size ≤ 2 ^ 64 - g
    · rw [min_eq_right hfits, if_neg (by omega), Nat.sub_self]
      unfold rangeContained
      rw [if_pos rfl]
      exact iff_of_true rfl (by omega)
    · rw [min_eq_left (by omega), if_pos ⟨by omega, by unfold add64; omega⟩]
      exact iff_of_false (by decide) (by omega)

/-! ### The whole check -/

/-- The check is right about the range: the address is not in a gap behind its first byte, unless
the range goes around the address space, and if the map ends with the address space, where every
range is refused, no area covers it. -/
structure Decides (m : VMAMap) (addr size : ℕ) : Prop where
  gap : (∀ e ∈ m, e.1 + e.2.size < 2 ^ 64) → ∀ g, 0 < g → m.InGap addr g → 2 ^ 64 < size + g
  top : (∃ e ∈ m, e.1 + e.2.size = 2 ^ 64) → ¬m.CoversRange addr size

variable {first last : ℕ × VirtualMemoryArea}

theorem not_coversRange_of_outside (hm : Regions m)
    (hfirst : m.head? = some first) (hlast : m.getLast? = some last)
    (hout : addr < first.1 ∨ last.1 + last.2.size ≤ addr) (hsize : 0 < size) :
    ¬m.CoversRange addr size := by
  intro hcov
  obtain ⟨e, he, hle, hlt⟩ := hcov addr (by omega)
  obtain ⟨hlo, hhi⟩ := hm.between hfirst hlast he
  omega

/-- The floor of an address: it lies in the area found, or in the gap behind it. -/
theorem floor_cases (hm : Regions m) (hlast : m.getLast? = some last)
    (hlt : addr < last.1 + last.2.size) (hfloor : floor m addr = some e) :
    ∃ l r, m = l ++ e :: r ∧ above m e.1 = r ∧ e.1 ≤ addr ∧
      (addr < e.1 + e.2.size ∨ ∃ f r', r = f :: r' ∧ e.1 + e.2.size ≤ addr ∧ addr < f.1) := by
  obtain ⟨l, r, ha, hle, hbehind⟩ := floor_around hm.sorted hfloor
  refine ⟨l, r, ha.eq, ha.above, hle, ?_⟩
  cases r with
  | nil =>
    rw [ha.eq, List.getLast?_append_cons, List.getLast?_singleton, Option.some.injEq] at hlast
    exact .inl (hlast ▸ hlt)
  | cons f r =>
    rcases lt_or_ge addr (e.1 + e.2.size) with hin | hout
    · exact .inl hin
    · exact .inr ⟨f, r, rfl, hout, hbehind f (by simp)⟩

/-- The check of an address inside a map that ends before the address space. -/
theorem isValidMapping_of_inside (hm : Regions s.vmaMap)
    (hfirst : s.vmaMap.head? = some first) (hlast : s.vmaMap.getLast? = some last)
    (hend : last.1 + last.2.size < 2 ^ 64) (hlo : first.1 ≤ addr)
    (hhi : addr < last.1 + last.2.size)
    (hsize : 0 < size) : ∃ valid, s.isValidMapping addr size = .ok valid ∧
      ((valid = true ↔ s.vmaMap.CoversRange addr size) ↔
        ∀ g, 0 < g → s.vmaMap.InGap addr g → 2 ^ 64 < size + g) := by
  obtain ⟨e, hfloor⟩ : ∃ e, floor s.vmaMap addr = some e := by
    cases hfloor : floor s.vmaMap addr with
    | some e => exact ⟨e, rfl⟩
    | none =>
      have hmem : first ∈ s.vmaMap := List.mem_of_mem_head? hfirst
      exact absurd (floor_eq_none hm.sorted hfloor first hmem) (not_lt.mpr hlo)
  obtain ⟨l, r, hmap, habove, hle, hcases⟩ := floor_cases hm hlast hhi hfloor
  have hr : Regions (e :: r) := (hmap ▸ hm : Regions (l ++ e :: r)).right
  have hends : ∀ e' ∈ e :: r, e'.1 + e'.2.size < 2 ^ 64 := by
    intro e' he'
    have hbetween := hm.between hfirst hlast (e := e') (hmap ▸ List.mem_append_right l he')
    omega
  have hcovers : s.vmaMap.CoversRange addr size ↔ CoversRange (e :: r) addr size := by
    refine forall₂_congr fun x hx => ?_
    rw [hmap, covers_append]
    refine or_iff_right ?_
    rintro ⟨d, hd, -, hlt⟩
    have htiling : Tiling VirtualMemoryArea.size (l ++ e :: r) := hmap ▸ hm.tiling
    have hapart := htiling.mem_left_lt hd (List.mem_cons_self (a := e))
    omega
  refine ⟨rangeContained (e :: r) addr size, ?_, ?_⟩
  · unfold isValidMapping
    rw [hlast, hfirst]
    change (if addr < first.1 ∨ addr ≥ add64 last.1 last.2.size then _ else _) = _
    rw [add64_eq hend, if_neg (by omega), if_neg (by omega), findVMA, findEntry, hfloor, ← habove]
    rfl
  · rw [hcovers]
    rcases hcases with hin | ⟨f, r', rfl, hout, hlt⟩
    · refine iff_of_true (rangeContained_iff hr hends ⟨hle, hin⟩ hsize) ?_
      rintro g hg ⟨e', hfloor', hg', -⟩
      obtain rfl := Option.some.inj (hfloor.symm.trans hfloor')
      omega
    · obtain ⟨g, hg⟩ := Nat.exists_eq_add_of_le hout
      have hnot : ¬CoversRange (e :: f :: r') addr size := by
        intro hcov
        have hcell := (covers_cons_of_le hout).mp (hcov addr (by omega))
        refine not_covers_of_lt (fun e' he' => ?_) hcell
        rcases List.mem_cons.mp he' with rfl | he'
        · exact hlt
        · exact hlt.trans ((List.pairwise_cons.mp (hr.right (l := [e])).sorted).1 e' he')
      rw [rangeContained_gap hr hg.symm hlt (by omega) hsize]
      constructor
      · rintro hiff g' hg' ⟨e', hfloor', hsum, -⟩
        obtain rfl := Option.some.inj (hfloor.symm.trans hfloor')
        have := mt hiff.mp hnot
        omega
      · intro hall
        refine iff_of_false ?_ hnot
        rintro ⟨hpos, hwrap⟩
        have hbeyond := hall g hpos ⟨e, hfloor, hg.symm, f, by simp [hmap], hlt⟩
        omega

/-- Over every map of disjoint areas the check of a range that is not empty is right exactly under
the condition. -/
theorem isValidMapping_iff (hm : Regions s.vmaMap) (hne : s.vmaMap ≠ []) (haddr : addr < 2 ^ 64)
    (hpos : 0 < size) (hsize : size < 2 ^ 64) :
    (∃ valid, s.isValidMapping addr size = .ok valid ∧
      (valid = true ↔ s.vmaMap.CoversRange addr size)) ↔ Decides s.vmaMap addr size := by
  obtain ⟨last, hlast⟩ : ∃ last, s.vmaMap.getLast? = some last :=
    ⟨_, List.getLast?_eq_some_getLast hne⟩
  obtain ⟨first, hfirst⟩ : ∃ first, s.vmaMap.head? = some first := ⟨_, List.head?_eq_some_head hne⟩
  have hmem : last ∈ s.vmaMap := List.mem_of_getLast? hlast
  have hcheck : ∀ valid, s.isValidMapping addr size = .ok valid →
      ((∃ valid, s.isValidMapping addr size = .ok valid ∧
        (valid = true ↔ s.vmaMap.CoversRange addr size)) ↔
        (valid = true ↔ s.vmaMap.CoversRange addr size)) := by
    intro valid heq
    rw [heq]
    simp
  have hrefuse : addr < first.1 ∨ add64 last.1 last.2.size ≤ addr →
    s.isValidMapping addr size = .ok false := by
    intro hout
    unfold isValidMapping
    rw [hlast, hfirst]
    change (if addr < first.1 ∨ addr ≥ add64 last.1 last.2.size then _ else _) = _
    rw [if_pos hout]
    rfl
  by_cases hend : last.1 + last.2.size < 2 ^ 64
  · have hends : ∀ e ∈ s.vmaMap, e.1 + e.2.size < 2 ^ 64 := fun e he =>
      (hm.between hfirst hlast he).2.trans_lt hend
    have htop : ¬∃ e ∈ s.vmaMap, e.1 + e.2.size = 2 ^ 64 := fun ⟨e, he, heq⟩ => (hends e he).ne heq
    have hdecides : Decides s.vmaMap addr size ↔ ∀ g, 0 < g → s.vmaMap.InGap addr g →
      2 ^ 64 < size + g :=
      ⟨fun h => h.gap hends, fun h => ⟨fun _ => h, fun h => absurd h htop⟩⟩
    rw [hdecides]
    by_cases hout : addr < first.1 ∨ last.1 + last.2.size ≤ addr
    · rw [hcheck _ (hrefuse (by rwa [add64_eq hend]))]
      refine iff_of_true
        (iff_of_false (by decide) (not_coversRange_of_outside hm hfirst hlast hout hpos)) ?_
      rintro g hg ⟨e, hfloor, hsum, f, hf, hlt⟩
      have hbetween := hm.between hfirst hlast hf
      have hbetween' := hm.between hfirst hlast (floor_mem hfloor).1
      omega
    · rw [not_or, not_lt, not_le] at hout
      obtain ⟨valid, heq, hiff⟩ := isValidMapping_of_inside hm hfirst hlast hend hout.1 hout.2 hpos
      rw [hcheck valid heq, hiff]
  · have hfull : last.1 + last.2.size = 2 ^ 64 := by
      have := hm.bounded last hmem
      omega
    have hwrap : add64 last.1 last.2.size ≤ addr := by
      rw [add64, hfull, Nat.mod_self]
      exact Nat.zero_le _
    rw [hcheck _ (hrefuse (.inr hwrap))]
    constructor
    · intro hiff
      exact ⟨fun hends => absurd hfull (hends last hmem).ne,
        fun _ hcov => by simpa using hiff.mpr hcov⟩
    · intro h
      exact iff_of_false (by decide) (h.top ⟨last, hmem, hfull⟩)

/-- The address space of a host that needs a gap: the two system areas, which touch, and the user
area above the memory of its graphics card. -/
def gapConfig : Config :=
  { Config.oneRegion with
    regions := [(0x400000, 0xfc0000000), (0x7000000000, 0x600000000000)]
    nonempty := by decide
    bounded := by decide
    disjoint := List.pairwise_pair.mpr (by decide) }

theorem gapConfig_regions : Regions gapConfig.construct.vmaMap := by
  refine ⟨⟨by decide, ?_⟩, by decide, by decide, by decide⟩
  exact List.pairwise_pair.mpr (by decide)

/-- Right below the gap the check is right. -/
theorem isValidMapping_iff_below_gap :
    (∃ valid, gapConfig.construct.isValidMapping 0xfbfffc000 0x4000 = .ok valid ∧
      (valid = true ↔ gapConfig.construct.vmaMap.CoversRange 0xfbfffc000 0x4000)) ↔
      Decides gapConfig.construct.vmaMap 0xfbfffc000 0x4000 :=
  isValidMapping_iff gapConfig_regions (List.cons_ne_nil _ _) (by decide) (by decide) (by decide)

/-- In the gap, behind its first byte, a range is valid that no area covers. -/
theorem not_isValidMapping_covers : ¬∀ (s : MemoryManager) (addr size : ℕ), Regions s.vmaMap →
    s.vmaMap ≠ [] → addr < 2 ^ 64 → 0 < size → size < 2 ^ 64 →
      ∃ valid, s.isValidMapping addr size = .ok valid ∧
        (valid = true ↔ s.vmaMap.CoversRange addr size) := by
  intro h
  obtain ⟨valid, heq, hiff⟩ :=
    h gapConfig.construct 0xfc0004000 0x4000 gapConfig_regions (List.cons_ne_nil _ _)
    (by decide) (by decide) (by decide)
  have hvalid : (gapConfig.construct.isValidMapping 0xfc0004000 0x4000).toOption = some true := by
    decide +kernel
  rw [heq] at hvalid
  obtain rfl : valid = true := Option.some.inj hvalid
  obtain ⟨e, he, hle, hlt⟩ := hiff.mp rfl 0xfc0004000 (by decide)
  have hnone : ∀ e ∈ gapConfig.construct.vmaMap,
    ¬(e.1 ≤ 0xfc0004000 ∧ 0xfc0004000 < e.1 + e.2.size) := by decide
  exact hnone e he ⟨hle, hlt⟩

end MemoryManager

end PS4Droid.Memory
