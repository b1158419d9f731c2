import PS4Droid.Memory.Maps

/-!
# The physical areas behind a virtual area

`phys_areas` of a backed virtual area is a map from offsets to physical areas.
`Contiguous a areas b` says that it tiles the offsets `[a, b)` from one end to the
other. Cutting a virtual area, joining two, and appending a newly found physical
area keep this shape, and `byteAt` says which backing byte is recorded for an
offset.
-/

namespace PS4Droid.Memory

open OrderedMap IntervalMap Segments

/-- The areas follow each other without a gap from offset `start` to offset `stop`. -/
def Contiguous : ℕ → PhysMap → ℕ → Prop
  | start, [], stop => start = stop
  | start, (k, a) :: rest, stop =>
    k = start ∧ 0 < a.size ∧ a.Bounded ∧ Contiguous (start + a.size) rest stop

namespace PhysicalMemoryArea

/-- The backing byte at offset `off` of an area. -/
def byte (a : PhysicalMemoryArea) (off : ℕ) : ℕ := a.base + off

end PhysicalMemoryArea

/-- The backing byte recorded for the offset `off`. -/
def byteAt (areas : PhysMap) (off : ℕ) : Option ℕ :=
  viewAt PhysicalMemoryArea.size PhysicalMemoryArea.byte areas off

namespace Contiguous

variable {start mid stop cut : ℕ} {areas l r : PhysMap} {k : ℕ} {a : PhysicalMemoryArea}

theorem le (h : Contiguous start areas stop) : start ≤ stop := by
  induction areas generalizing start with
  | nil => exact le_of_eq h
  | cons e rest ih =>
    obtain ⟨-, hpos, -, hrest⟩ := h
    have := ih hrest
    omega

theorem append (hl : Contiguous start l mid) (hr : Contiguous mid r stop) :
    Contiguous start (l ++ r) stop := by
  induction l generalizing start with
  | nil =>
    obtain rfl := hl
    exact hr
  | cons e rest ih =>
    obtain ⟨hk, hpos, hb, hrest⟩ := hl
    exact ⟨hk, hpos, hb, ih hrest⟩

theorem singleton (hpos : 0 < a.size) (hb : a.Bounded) :
    Contiguous start [(start, a)] (start + a.size) := ⟨rfl, hpos, hb, rfl⟩

theorem of_append (h : Contiguous start (l ++ r) stop) :
    ∃ mid, Contiguous start l mid ∧ Contiguous mid r stop := by
  induction l generalizing start with
  | nil => exact ⟨start, rfl, h⟩
  | cons e rest ih =>
    obtain ⟨hk, hpos, hb, hrest⟩ := h
    obtain ⟨mid, h₁, h₂⟩ := ih hrest
    exact ⟨mid, ⟨hk, hpos, hb, h₁⟩, h₂⟩

theorem mem (h : Contiguous start areas stop) {e : ℕ × PhysicalMemoryArea} (he : e ∈ areas) :
    start ≤ e.1 ∧ 0 < e.2.size ∧ e.1 + e.2.size ≤ stop ∧ e.2.Bounded := by
  obtain ⟨l, r, rfl⟩ := List.append_of_mem he
  obtain ⟨mid, h₁, hk, hpos, hb, h₂⟩ := h.of_append
  have hl := h₁.le
  have hr := h₂.le
  exact ⟨by omega, hpos, by omega, hb⟩

theorem tiling (h : Contiguous start areas stop) : Tiling PhysicalMemoryArea.size areas := by
  induction areas generalizing start with
  | nil => exact Tiling.nil
  | cons e rest ih =>
    obtain ⟨rfl, hpos, -, hrest⟩ := h
    refine ⟨?_, List.pairwise_cons.mpr ⟨?_, (ih hrest).apart⟩⟩
    · intro f hf
      rcases List.mem_cons.mp hf with rfl | hf
      · exact hpos
      · exact (hrest.mem hf).2.1
    · intro f hf
      exact (hrest.mem hf).1

theorem covers (h : Contiguous start areas stop) (off : ℕ) :
    Covers PhysicalMemoryArea.size areas off ↔ start ≤ off ∧ off < stop := by
  induction areas generalizing start with
  | nil =>
    obtain rfl := h
    simp
  | cons e rest ih =>
    obtain ⟨rfl, hpos, -, hrest⟩ := h
    have := hrest.le
    rw [covers_cons, ih hrest, Within]
    omega

theorem byteAt_isSome (h : Contiguous start areas stop) (off : ℕ) :
    (byteAt areas off).isSome ↔ start ≤ off ∧ off < stop := by
  rw [byteAt, ← covers_iff_viewAt, h.covers]

theorem byteAt_append (h : Contiguous start l mid) (off : ℕ) :
    byteAt (l ++ r) off = if start ≤ off ∧ off < mid then byteAt l off else byteAt r off := by
  simp only [byteAt, viewAt_append]
  split_ifs with ho
  · obtain ⟨b, hb⟩ := Option.isSome_iff_exists.mp ((h.byteAt_isSome off).mpr ho)
    rw [byteAt] at hb
    simp [hb]
  · have : viewAt PhysicalMemoryArea.size PhysicalMemoryArea.byte l off = none := by
      rw [viewAt_eq_none, h.covers]
      exact ho
    simp [this]

theorem head (h : Contiguous start areas stop) (hlt : start < stop) :
    ∃ a rest, areas = (start, a) :: rest := by
  cases areas with
  | nil =>
    obtain rfl := h
    omega
  | cons e rest =>
    obtain ⟨rfl, -⟩ := h
    exact ⟨e.2, rest, rfl⟩

end Contiguous

theorem byteAt_singleton (k : ℕ) (a : PhysicalMemoryArea) (off : ℕ) :
    byteAt [(k, a)] off = if k ≤ off ∧ off < k + a.size then some (a.base + (off - k)) else none :=
  viewAt_singleton

theorem assign_append {γ : Type} {m : List (ℕ × γ)} {k : ℕ} {a : γ} (h : ∀ e ∈ m, e.1 < k) :
    assign m k a = m ++ [(k, a)] := by
  induction m with
  | nil => rfl
  | cons e m ih =>
    have he := h e (by simp)
    simp [assign, he, ih fun f hf => h f (by simp [hf])]

/-! ### Cutting -/

/-- The areas in front of the offset `cut`, as a recursion. -/
def takeBefore (cut : ℕ) : PhysMap → PhysMap
  | [] => []
  | (k, a) :: rest =>
    if k + a.size ≤ cut then (k, a) :: takeBefore cut rest
    else if k < cut then [(k, { a with size := cut - k })]
    else []

/-- The areas behind the offset `cut`, moved to start at zero. -/
def dropBefore (cut : ℕ) : PhysMap → PhysMap
  | [] => []
  | (k, a) :: rest =>
    if k + a.size ≤ cut then dropBefore cut rest
    else if k < cut then
      (0, { a with base := a.base + (cut - k), size := a.size - (cut - k) }) ::
        rest.map fun e => (e.1 - cut, e.2)
    else
      ((k, a) :: rest).map fun e => (e.1 - cut, e.2)

section Cut

variable {start stop cut : ℕ} {areas acc : PhysMap}

theorem takeBefore_eq_nil (h : Contiguous start areas stop) (hcut : cut ≤ start) :
    takeBefore cut areas = [] := by
  cases areas with
  | nil => rfl
  | cons e rest =>
    obtain ⟨hk, hpos, -⟩ := h
    have h₁ : ¬ e.1 + e.2.size ≤ cut := by omega
    have h₂ : ¬ e.1 < cut := by omega
    simp [takeBefore, h₁, h₂]

/-- Keys stay in front of the next area when one with key `k` is appended. -/
theorem keys_lt_append {k n : ℕ} {b : PhysicalMemoryArea} (hacc : ∀ e ∈ acc, e.1 < k)
    (hn : k < n) : ∀ f ∈ acc ++ [(k, b)], f.1 < n := by
  intro f hf
  rcases List.mem_append.mp hf with hf | hf
  · exact (hacc f hf).trans hn
  · simp only [List.mem_singleton] at hf
    subst hf
    exact hn

theorem frontAreas_fold (h : Contiguous start areas stop) (hstop : stop < 2 ^ 64)
    (hacc : ∀ e ∈ acc, e.1 < start) :
    areas.foldl (fun front area =>
      let front := if add64 area.1 area.2.size ≤ cut then assign front area.1 area.2 else front
      if area.1 < cut ∧ add64 area.1 area.2.size > cut then
        assign front area.1 { area.2 with size := sub64 cut area.1 }
      else
        front) acc = acc ++ takeBefore cut areas := by
  induction areas generalizing start acc with
  | nil => simp [takeBefore]
  | cons e rest ih =>
    obtain ⟨rfl, hpos, hb, hrest⟩ := h
    obtain ⟨k, a⟩ := e
    simp only at hacc hpos hb hrest
    have hle := hrest.le
    have hsum : add64 k a.size = k + a.size := add64_eq (by omega)
    simp only [List.foldl_cons, hsum]
    by_cases h₁ : k + a.size ≤ cut
    · have h₂ : ¬ (k < cut ∧ k + a.size > cut) := by omega
      rw [if_pos h₁, if_neg h₂, assign_append hacc,
        ih hrest (keys_lt_append hacc (by omega))]
      simp [takeBefore, h₁]
    · have hnil := takeBefore_eq_nil hrest (show cut ≤ k + a.size by omega)
      rw [if_neg h₁]
      by_cases h₂ : k < cut
      · have h₃ : k < cut ∧ k + a.size > cut := by omega
        have hsub : sub64 cut k = cut - k := sub64_eq (by omega) (by omega)
        rw [if_pos h₃, hsub, assign_append hacc, ih hrest (keys_lt_append hacc (by omega))]
        simp [takeBefore, h₁, h₂, hnil]
      · have h₃ : ¬ (k < cut ∧ k + a.size > cut) := by omega
        rw [if_neg h₃, ih hrest fun f hf => (hacc f hf).trans (by omega)]
        simp [takeBefore, h₁, h₂, hnil]

theorem frontAreas_eq (h : Contiguous 0 areas stop) (hstop : stop < 2 ^ 64) :
    VMAMap.frontAreas areas cut = takeBefore cut areas := by
  rw [VMAMap.frontAreas, frontAreas_fold h hstop (by simp)]
  simp

/-- The step of the loop that gathers the areas behind the cut. -/
def gatherBack (cut : ℕ) (back : PhysMap) (area : ℕ × PhysicalMemoryArea) : PhysMap :=
  let back := if area.1 < cut ∧ add64 area.1 area.2.size > cut then
      assign back 0 { area.2 with
        base := add64 area.2.base (sub64 cut area.1)
        size := sub64 area.2.size (sub64 cut area.1) }
    else
      back
  if area.1 ≥ cut then assign back (sub64 area.1 cut) area.2 else back

theorem gatherBack_behind (h : Contiguous start areas stop) (hstop : stop < 2 ^ 64)
    (hcut : cut ≤ start) (hacc : ∀ e ∈ acc, e.1 < start - cut) :
    areas.foldl (gatherBack cut) acc = acc ++ areas.map fun e => (e.1 - cut, e.2) := by
  induction areas generalizing start acc with
  | nil => simp
  | cons e rest ih =>
    obtain ⟨rfl, hpos, hb, hrest⟩ := h
    obtain ⟨k, a⟩ := e
    simp only at hcut hacc hpos hb hrest
    have hle := hrest.le
    have h₁ : ¬ (k < cut ∧ add64 k a.size > cut) := by omega
    have hsub : sub64 k cut = k - cut := sub64_eq (by omega) hcut
    have hstep : gatherBack cut acc (k, a) = acc ++ [(k - cut, a)] := by
      simp only [gatherBack, if_neg h₁, hsub]
      rw [if_pos hcut, assign_append hacc]
    rw [List.foldl_cons, hstep, ih hrest (by omega) (keys_lt_append hacc (by omega))]
    simp

theorem backAreas_fold (h : Contiguous start areas stop) (hstop : stop < 2 ^ 64)
    (hcut : start ≤ cut) : areas.foldl (gatherBack cut) [] = dropBefore cut areas := by
  induction areas generalizing start with
  | nil => rfl
  | cons e rest ih =>
    obtain ⟨rfl, hpos, hb, hrest⟩ := h
    obtain ⟨k, a⟩ := e
    simp only [PhysicalMemoryArea.Bounded] at hcut hpos hb hrest
    have hle := hrest.le
    have hsum : add64 k a.size = k + a.size := add64_eq (by omega)
    by_cases h₁ : k + a.size ≤ cut
    · have h₂ : ¬ (k < cut ∧ k + a.size > cut) := by omega
      have h₃ : ¬ k ≥ cut := by omega
      have hstep : gatherBack cut [] (k, a) = [] := by
        simp only [gatherBack, hsum, if_neg h₂, if_neg h₃]
      rw [List.foldl_cons, hstep, ih hrest h₁, dropBefore, if_pos h₁]
    · by_cases h₂ : k < cut
      · have h₃ : k < cut ∧ k + a.size > cut := by omega
        have h₄ : ¬ k ≥ cut := by omega
        have hsub : sub64 cut k = cut - k := sub64_eq (by omega) (by omega)
        have hbase : add64 a.base (cut - k) = a.base + (cut - k) := add64_eq (by omega)
        have hsize : sub64 a.size (cut - k) = a.size - (cut - k) :=
          sub64_eq (by omega) (by omega)
        have hstep : gatherBack cut [] (k, a) =
            [(0, { a with base := a.base + (cut - k), size := a.size - (cut - k) })] := by
          simp only [gatherBack, hsum, if_pos h₃, if_neg h₄, hsub, hbase, hsize, assign]
        rw [List.foldl_cons, hstep, gatherBack_behind hrest hstop (by omega), dropBefore,
          if_neg h₁, if_pos h₂]
        · rfl
        · intro e he
          simp only [List.mem_singleton] at he
          subst he
          simp only
          omega
      · have hall : Contiguous k ((k, a) :: rest) stop := ⟨rfl, hpos, hb, hrest⟩
        rw [gatherBack_behind hall hstop (by omega) (by simp), dropBefore, if_neg h₁, if_neg h₂]
        rfl

theorem backAreas_eq (h : Contiguous 0 areas stop) (hstop : stop < 2 ^ 64) :
    VMAMap.backAreas areas cut = dropBefore cut areas :=
  backAreas_fold h hstop (by omega)

/-! What the two halves record. -/

theorem takeBefore_contiguous (h : Contiguous start areas stop) (hstart : start ≤ cut)
    (hcut : cut ≤ stop) : Contiguous start (takeBefore cut areas) cut := by
  induction areas generalizing start with
  | nil =>
    obtain rfl := h
    exact le_antisymm hstart hcut
  | cons e rest ih =>
    obtain ⟨rfl, hpos, hb, hrest⟩ := h
    obtain ⟨k, a⟩ := e
    simp only [PhysicalMemoryArea.Bounded] at hstart hpos hb hrest ⊢
    unfold takeBefore
    split_ifs with h₁ h₂
    · exact ⟨rfl, hpos, hb, ih hrest h₁⟩
    · refine ⟨rfl, by simp only; omega, by simp only [PhysicalMemoryArea.Bounded]; omega, ?_⟩
      simp only [Contiguous]
      omega
    · simp only [Contiguous]
      omega

variable {d : ℕ}

theorem shift_contiguous (h : Contiguous start areas stop) (hd : d ≤ start) :
    Contiguous (start - d) (areas.map fun e => (e.1 - d, e.2)) (stop - d) := by
  induction areas generalizing start with
  | nil =>
    obtain rfl := h
    rfl
  | cons e rest ih =>
    obtain ⟨rfl, hpos, hb, hrest⟩ := h
    refine ⟨rfl, hpos, hb, ?_⟩
    have := ih hrest (by omega)
    rw [show e.1 + e.2.size - d = e.1 - d + e.2.size by omega] at this
    exact this

theorem dropBefore_contiguous (h : Contiguous start areas stop) (hstart : start ≤ cut)
    (hcut : cut ≤ stop) : Contiguous 0 (dropBefore cut areas) (stop - cut) := by
  induction areas generalizing start with
  | nil =>
    obtain rfl := h
    simp only [dropBefore, Contiguous]
    omega
  | cons e rest ih =>
    obtain ⟨rfl, hpos, hb, hrest⟩ := h
    obtain ⟨k, a⟩ := e
    simp only [PhysicalMemoryArea.Bounded] at hstart hpos hb hrest
    unfold dropBefore
    split_ifs with h₁ h₂
    · exact ih hrest h₁
    · refine ⟨rfl, by simp only; omega, by simp only [PhysicalMemoryArea.Bounded]; omega, ?_⟩
      have := shift_contiguous hrest (show cut ≤ k + a.size by omega)
      rw [show k + a.size - cut = 0 + (a.size - (cut - k)) by omega] at this
      exact this
    · have hall : Contiguous k ((k, a) :: rest) stop := ⟨rfl, hpos, hb, hrest⟩
      have := shift_contiguous hall (show cut ≤ k by omega)
      rw [show k - cut = 0 by omega] at this
      exact this

theorem byteAt_cons (k : ℕ) (a : PhysicalMemoryArea) (rest : PhysMap) (off : ℕ) :
    byteAt ((k, a) :: rest) off =
      if k ≤ off ∧ off < k + a.size then some (a.base + (off - k)) else byteAt rest off := by
  rw [show (k, a) :: rest = [(k, a)] ++ rest from rfl]
  simp only [byteAt, viewAt_append, viewAt_singleton, PhysicalMemoryArea.byte]
  split_ifs <;> simp

theorem byteAt_takeBefore (h : Contiguous start areas stop) {off : ℕ} (ho : off < cut) :
    byteAt (takeBefore cut areas) off = byteAt areas off := by
  induction areas generalizing start with
  | nil => rfl
  | cons e rest ih =>
    obtain ⟨rfl, hpos, -, hrest⟩ := h
    obtain ⟨k, a⟩ := e
    simp only at hpos hrest
    have hnone : off < k + a.size → byteAt rest off = none := by
      intro hlt
      rw [byteAt, viewAt_eq_none, hrest.covers]
      omega
    unfold takeBefore
    split_ifs with h₁ h₂
    · rw [byteAt_cons, byteAt_cons, ih hrest]
    · rw [byteAt_cons, byteAt_cons, hnone (by omega)]
      simp only [byteAt, viewAt_nil]
      by_cases hk : k ≤ off
      · rw [if_pos (by omega), if_pos (by omega)]
      · rw [if_neg (by omega), if_neg (by omega)]
    · rw [byteAt_cons, hnone (by omega), if_neg (by omega)]
      rfl

theorem byteAt_shift (h : Contiguous start areas stop) (hd : d ≤ start) (off : ℕ) :
    byteAt (areas.map fun e => (e.1 - d, e.2)) off = byteAt areas (d + off) := by
  induction areas generalizing start with
  | nil => rfl
  | cons e rest ih =>
    obtain ⟨rfl, hpos, -, hrest⟩ := h
    obtain ⟨k, a⟩ := e
    simp only at hd hpos hrest
    rw [List.map_cons, byteAt_cons, byteAt_cons, ih hrest (by omega)]
    by_cases hk : k - d ≤ off ∧ off < k - d + a.size
    · rw [if_pos hk, if_pos (by omega), show off - (k - d) = d + off - k by omega]
    · rw [if_neg hk, if_neg (by omega)]

theorem byteAt_dropBefore (h : Contiguous start areas stop) (hstart : start ≤ cut) (off : ℕ) :
    byteAt (dropBefore cut areas) off = byteAt areas (cut + off) := by
  induction areas generalizing start with
  | nil => rfl
  | cons e rest ih =>
    obtain ⟨rfl, hpos, hb, hrest⟩ := h
    obtain ⟨k, a⟩ := e
    simp only at hstart hpos hrest
    unfold dropBefore
    split_ifs with h₁ h₂
    · rw [byteAt_cons, if_neg (by omega), ih hrest h₁]
    · rw [byteAt_cons, byteAt_cons, byteAt_shift hrest (by omega)]
      by_cases ho : off < a.size - (cut - k)
      · rw [if_pos (by simp only; omega), if_pos (by omega)]
        simp only [Option.some.injEq]
        omega
      · rw [if_neg (by simp only; omega), if_neg (by omega)]
    · have hall : Contiguous k ((k, a) :: rest) stop := ⟨rfl, hpos, hb, hrest⟩
      exact byteAt_shift hall (by omega) off

end Cut

/-! ### Joining and appending -/

section Join

variable {n n' : ℕ} {areas areas' acc : PhysMap}

theorem joinAreas_fold {start : ℕ} (h : Contiguous start areas' n') (hn : n + n' < 2 ^ 64)
    (hacc : ∀ e ∈ acc, e.1 < n + start) :
    areas'.foldl (fun areas area => assign areas (add64 n area.1) area.2) acc =
      acc ++ areas'.map fun e => (n + e.1, e.2) := by
  induction areas' generalizing start acc with
  | nil => simp
  | cons e rest ih =>
    obtain ⟨rfl, hpos, hb, hrest⟩ := h
    have hle := hrest.le
    have hsum : add64 n e.1 = n + e.1 := add64_eq (by omega)
    rw [List.foldl_cons, hsum, assign_append hacc,
      ih hrest (keys_lt_append hacc (by omega))]
    simp

variable {d : ℕ}

theorem offset_contiguous {start : ℕ} (h : Contiguous start areas n) :
    Contiguous (d + start) (areas.map fun e => (d + e.1, e.2)) (d + n) := by
  induction areas generalizing start with
  | nil =>
    obtain rfl := h
    rfl
  | cons e rest ih =>
    obtain ⟨rfl, hpos, hb, hrest⟩ := h
    refine ⟨rfl, hpos, hb, ?_⟩
    have := ih hrest
    rw [← Nat.add_assoc] at this
    exact this

theorem byteAt_offset {start : ℕ} (h : Contiguous start areas n) (off : ℕ) :
    byteAt (areas.map fun e => (d + e.1, e.2)) (d + off) = byteAt areas off := by
  induction areas generalizing start with
  | nil => rfl
  | cons e rest ih =>
    obtain ⟨rfl, hpos, -, hrest⟩ := h
    obtain ⟨k, a⟩ := e
    rw [List.map_cons, byteAt_cons, byteAt_cons, ih hrest]
    by_cases hk : k ≤ off ∧ off < k + a.size
    · rw [if_pos hk, if_pos (by simp only; omega), show d + off - (d + k) = off - k by omega]
    · rw [if_neg hk, if_neg (by simp only; omega)]

/-- Appending a physical area at the end and merging it with the one before. -/
theorem append_merge {a : PhysicalMemoryArea} (h : Contiguous 0 areas n) (hpos : 0 < a.size)
    (hb : a.Bounded) : ∃ areas' k, PhysMap.mergeAdjacent (assign areas n a) n = .ok (areas', k) ∧
      Contiguous 0 areas' (n + a.size) ∧ ∀ off, byteAt areas' off =
        if n ≤ off ∧ off < n + a.size then some (a.base + (off - n)) else byteAt areas off := by
  have hkeys : ∀ e ∈ areas, e.1 < n := by
    intro e he
    have := h.mem he
    omega
  rw [assign_append hkeys]
  have hall : Contiguous 0 (areas ++ [(n, a)]) (n + a.size) := h.append (.singleton hpos hb)
  have hbyte : ∀ off, byteAt (areas ++ [(n, a)]) off =
      if n ≤ off ∧ off < n + a.size then some (a.base + (off - n)) else byteAt areas off := by
    intro off
    rw [h.byteAt_append, byteAt_singleton]
    by_cases ho : off < n
    · rw [if_pos ⟨by omega, ho⟩, if_neg (by omega)]
    · rw [if_neg (by omega)]
      split_ifs with h₁
      · rfl
      · symm
        rw [byteAt, viewAt_eq_none, h.covers]
        omega
  have haround : Around (areas ++ [(n, a)]) areas (n, a) [] := ⟨rfl, hkeys, by simp⟩
  have hsorted := hall.tiling.sorted
  obtain ⟨areas', k, hm⟩ := mergeAdjacent_total (K := physKind) hsorted haround
    (fun _ _ => physKind_canMerge_total _ _) (fun _ _ _ _ _ => physKind_canMerge_total _ _)
  obtain ⟨l', b, a', r', ha', hnext, hprev⟩ := mergeAdjacent_shape hsorted haround hm
  refine ⟨areas', k, hm, ?_⟩
  cases hnext
  rw [ha'.eq]
  cases hprev with
  | keep => exact ⟨hall, hbyte⟩
  | absorb _ _ p hmerge =>
    -- The area in front of the new one ends where the new one begins, in offsets and in bytes.
    obtain ⟨mid, hl, hk, hppos, hpb, hend⟩ := h.of_append
    obtain rfl : mid + p.size = n := hend
    obtain rfl : k = mid := hk
    have hadj := physKind_adjacent hpb hmerge
    simp only [PhysicalMemoryArea.Bounded] at hb hpb
    have hsize : add64 p.size a.size = p.size + a.size := add64_eq (by omega)
    refine ⟨?_, ?_⟩
    · refine hl.append ?_
      refine ⟨rfl, ?_, ?_, ?_⟩
      · simp only [physKind_join, hsize]
        omega
      · simp only [physKind_join, PhysicalMemoryArea.Bounded, hsize]
        omega
      · simp only [physKind_join, hsize, Contiguous]
        omega
    · intro off
      rw [← hbyte, List.append_assoc, hl.byteAt_append, hl.byteAt_append]
      split_ifs
      · rfl
      · simp only [List.singleton_append, byteAt_cons, physKind_join, hsize]
        by_cases h₁ : k ≤ off ∧ off < k + p.size
        · rw [if_pos h₁, if_pos (by omega)]
        · rw [if_neg h₁]
          by_cases h₂ : k + p.size ≤ off ∧ off < k + p.size + a.size
          · rw [if_pos h₂, if_pos (by omega)]
            simp only [Option.some.injEq]
            omega
          · rw [if_neg h₂, if_neg (by omega)]

end Join

/-! ### Backed virtual areas -/

/-- A non-empty virtual area inside the address range whose physical areas, if it has any
backing, tile its offsets. -/
structure VirtualMemoryArea.Sound (v : VirtualMemoryArea) : Prop where
  bounded : v.Bounded
  pos : 0 < v.size
  backed : v.hasPhysicalBacking = true → Contiguous 0 v.physAreas v.size
  unbacked : v.hasPhysicalBacking = false → v.physAreas = []

/-- What a virtual map says about one address: the type of its area and, when the area is
backed, the backing byte. -/
structure Cell where
  type : VMAType
  backing : Option ℕ
  deriving DecidableEq

def VirtualMemoryArea.cell (v : VirtualMemoryArea) (off : ℕ) : Cell :=
  ⟨v.type, if v.hasPhysicalBacking then byteAt v.physAreas off else none⟩

section Sound

variable {v w : VirtualMemoryArea} {c : ℕ}

theorem hasPhysicalBacking_congr (h : v.type = w.type) :
    v.hasPhysicalBacking = w.hasPhysicalBacking := by
  simp [VirtualMemoryArea.hasPhysicalBacking, h]

theorem vmaKind_front_areas (h : v.hasPhysicalBacking = true) :
    (vmaKind.front v c).physAreas = VMAMap.frontAreas v.physAreas c := by
  simp [vmaKind, h]

theorem vmaKind_front_unbacked (h : v.hasPhysicalBacking = false) :
    (vmaKind.front v c).physAreas = v.physAreas := by
  simp [vmaKind, h]

theorem vmaKind_back_unbacked (h : v.hasPhysicalBacking = false) :
    (vmaKind.back v c).physAreas = v.physAreas := by
  have h' : ({ v with base := add64 v.base c, size := sub64 v.size c } :
      VirtualMemoryArea).hasPhysicalBacking = false := by
    rw [← h]
    exact hasPhysicalBacking_congr rfl
  simp [vmaKind, h']

theorem vmaKind_back_areas (h : v.hasPhysicalBacking = true) :
    (vmaKind.back v c).physAreas = VMAMap.backAreas v.physAreas c := by
  have h' : ({ v with base := add64 v.base c, size := sub64 v.size c } :
      VirtualMemoryArea).hasPhysicalBacking = true := by
    rw [← h]
    exact hasPhysicalBacking_congr rfl
  simp [vmaKind, h']

theorem vmaKind_join_areas (hv : v.Sound) (hw : w.Sound) (hb : v.hasPhysicalBacking = true)
    (hb' : w.hasPhysicalBacking = true) (hn : v.size + w.size < 2 ^ 64) :
    (vmaKind.join v w).physAreas = v.physAreas ++ w.physAreas.map fun e => (v.size + e.1, e.2) := by
  refine joinAreas_fold (hw.backed hb') hn ?_
  intro e he
  have := (hv.backed hb).mem he
  omega

/-- An area that may be merged with a merged one may be merged with the front of it alone. -/
theorem VirtualMemoryArea.canMergeWith_of_join {p : VirtualMemoryArea} (hv : v.Sound) (hw : w.Sound)
    (hm : vmaKind.canMerge v w = .ok true) (h : p.canMergeWith (vmaKind.join v w) = .ok true) :
    p.canMergeWith v = .ok true := by
  have hfirst : v.type = .direct → (vmaKind.join v w).physAreas.head? = v.physAreas.head? := by
    intro hdirect
    have hb : v.hasPhysicalBacking = true := by simp [VirtualMemoryArea.hasPhysicalBacking, hdirect]
    have hwb := hw.bounded
    have hadj := vmaKind_adjacent hv.bounded hm
    simp only [VirtualMemoryArea.Bounded] at hwb
    rw [vmaKind_join_areas hv hw hb
      (hb ▸ (hasPhysicalBacking_congr (vmaKind_canMerge_ok hm).2.1).symm) (by omega)]
    have hareas := hv.backed hb
    have hpos := hv.pos
    cases hphys : v.physAreas with
    | nil =>
      rw [hphys] at hareas
      exact absurd hareas (by simp only [Contiguous]; omega)
    | cons e rest => rfl
  have hbacking : p.directBackingContinues (vmaKind.join v w) = p.directBackingContinues v := by
    unfold VirtualMemoryArea.directBackingContinues
    by_cases hdirect : p.type = .direct ∧ v.type = .direct
    · rw [if_pos (show _ ∧ (vmaKind.join v w).type = _ from hdirect), if_pos hdirect,
        hfirst hdirect.2]
    · rw [if_neg (show ¬(_ ∧ (vmaKind.join v w).type = _) from hdirect), if_neg hdirect]
  unfold VirtualMemoryArea.canMergeWith at h ⊢
  rw [hbacking] at h
  exact h

/-- Merged areas have the same kind of backing, and their sizes add up. -/
theorem merge_facts (hv : v.Sound) (hw : w.Sound) (hm : vmaKind.canMerge v w = .ok true) :
    v.hasPhysicalBacking = w.hasPhysicalBacking ∧ v.base + v.size = w.base ∧
      v.size + w.size < 2 ^ 64 ∧ add64 v.size w.size = v.size + w.size := by
  have hadj := vmaKind_adjacent hv.bounded hm
  have hwb := hw.bounded
  simp only [VirtualMemoryArea.Bounded] at hwb
  have hlt : v.size + w.size < 2 ^ 64 := by omega
  exact ⟨hasPhysicalBacking_congr (vmaKind_canMerge_ok hm).2.1, hadj, hlt, add64_eq hlt⟩

theorem vmaKind_sound : vmaKind.Lawful VirtualMemoryArea.Sound where
  front_base := fun h => vmaKind_lawful.front_base h.bounded
  front_size := fun h => vmaKind_lawful.front_size h.bounded
  front_wf := by
    intro a c h hc hs
    refine ⟨vmaKind_lawful.front_wf h.bounded hc hs, ?_, ?_, ?_⟩
    · rw [vmaKind_front_size]
      exact hc
    · intro hb
      rw [hasPhysicalBacking_congr (vmaKind_front_type a c)] at hb
      have hbound := h.bounded
      simp only [VirtualMemoryArea.Bounded] at hbound
      rw [vmaKind_front_areas hb, vmaKind_front_size, frontAreas_eq (h.backed hb) (by omega)]
      exact takeBefore_contiguous (h.backed hb) (by omega) hs.le
    · intro hb
      rw [hasPhysicalBacking_congr (vmaKind_front_type a c)] at hb
      rw [vmaKind_front_unbacked hb, h.unbacked hb]
  back_base := fun h => vmaKind_lawful.back_base h.bounded
  back_size := fun h => vmaKind_lawful.back_size h.bounded
  back_wf := by
    intro a c h hc hs
    have hsize := vmaKind_lawful.back_size h.bounded hc hs
    simp only [vmaKind_size] at hsize hs
    refine ⟨vmaKind_lawful.back_wf h.bounded hc hs, by omega, ?_, ?_⟩
    · intro hb
      rw [hasPhysicalBacking_congr (vmaKind_back_type a c)] at hb
      have hbound := h.bounded
      simp only [VirtualMemoryArea.Bounded] at hbound
      rw [vmaKind_back_areas hb, hsize, backAreas_eq (h.backed hb) (by omega)]
      exact dropBefore_contiguous (h.backed hb) (by omega) hs.le
    · intro hb
      rw [hasPhysicalBacking_congr (vmaKind_back_type a c)] at hb
      rw [vmaKind_back_unbacked hb, h.unbacked hb]
  join_adjacent := fun h _ hm => vmaKind_adjacent h.bounded hm
  join_base := fun _ _ _ => rfl
  join_size := fun h h' hm => vmaKind_lawful.join_size h.bounded h'.bounded hm
  join_wf := by
    intro a b h h' hm
    obtain ⟨hsame, hadj, hlt, hsum⟩ := merge_facts h h' hm
    have hpos := h.pos
    refine ⟨vmaKind_lawful.join_wf h.bounded h'.bounded hm, ?_, ?_, ?_⟩
    · rw [vmaKind_join_size, hsum]
      omega
    · intro hb
      rw [hasPhysicalBacking_congr (vmaKind_join_type a b)] at hb
      rw [vmaKind_join_areas h h' hb (hsame ▸ hb) hlt, vmaKind_join_size, hsum]
      exact (h.backed hb).append (offset_contiguous (h'.backed (hsame ▸ hb)))
    · intro hb
      rw [hasPhysicalBacking_congr (vmaKind_join_type a b)] at hb
      simp [vmaKind, VirtualMemoryArea.join, h.unbacked hb, h'.unbacked (hsame ▸ hb)]

theorem cell_eq {off off' : ℕ} (ht : v.type = w.type)
    (hb : v.hasPhysicalBacking = true → byteAt v.physAreas off = byteAt w.physAreas off') :
    v.cell off = w.cell off' := by
  simp only [VirtualMemoryArea.cell, ht, ← hasPhysicalBacking_congr ht, Cell.mk.injEq, true_and]
  split_ifs with h
  · exact hb h
  · rfl

theorem vmaKind_cell : vmaKind.LawfulView VirtualMemoryArea.Sound VirtualMemoryArea.cell where
  front := by
    intro a c h hc hs off ho
    refine cell_eq (vmaKind_front_type a c) fun hb => ?_
    rw [hasPhysicalBacking_congr (vmaKind_front_type a c)] at hb
    have hbound := h.bounded
    simp only [VirtualMemoryArea.Bounded] at hbound
    rw [vmaKind_front_areas hb, frontAreas_eq (h.backed hb) (by omega)]
    exact byteAt_takeBefore (h.backed hb) ho
  back := by
    intro a c h hc hs off ho
    refine cell_eq (vmaKind_back_type a c) fun hb => ?_
    rw [hasPhysicalBacking_congr (vmaKind_back_type a c)] at hb
    have hbound := h.bounded
    simp only [VirtualMemoryArea.Bounded] at hbound
    rw [vmaKind_back_areas hb, backAreas_eq (h.backed hb) (by omega)]
    exact byteAt_dropBefore (h.backed hb) (by omega) off
  join_left := by
    intro a b h h' hm off ho
    obtain ⟨hsame, hadj, hlt, hsum⟩ := merge_facts h h' hm
    refine cell_eq (vmaKind_join_type a b).symm fun hb => ?_
    rw [vmaKind_join_areas h h' hb (hsame ▸ hb) hlt, (h.backed hb).byteAt_append,
      if_pos ⟨by omega, ho⟩]
  join_right := by
    intro a b h h' hm off ho
    obtain ⟨hsame, hadj, hlt, hsum⟩ := merge_facts h h' hm
    refine cell_eq ((vmaKind_canMerge_ok hm).2.1.symm.trans (vmaKind_join_type a b).symm)
      fun hb => ?_
    rw [vmaKind_size, vmaKind_join_areas h h' (hsame ▸ hb) hb hlt,
      (h.backed (hsame ▸ hb)).byteAt_append, if_neg (by omega), byteAt_offset (h'.backed hb)]

/-- Reading the neighbouring physical areas in the merge test is safe for sound areas. -/
theorem vmaKind_canMerge_total (hv : v.Sound) (hw : w.Sound) :
    ∃ r, vmaKind.canMerge v w = .ok r := by
  rw [vmaKind_canMerge, VirtualMemoryArea.canMergeWith]
  split_ifs
  · exact ⟨_, rfl⟩
  · exact ⟨_, rfl⟩
  · unfold VirtualMemoryArea.directBackingContinues
    split_ifs with ht
    · have hb : v.hasPhysicalBacking = true := by simp [VirtualMemoryArea.hasPhysicalBacking, ht.1]
      have hb' : w.hasPhysicalBacking = true := by simp [VirtualMemoryArea.hasPhysicalBacking, ht.2]
      obtain ⟨a, rest, ha⟩ := (hv.backed hb).head hv.pos
      obtain ⟨a', rest', ha'⟩ := (hw.backed hb').head hw.pos
      obtain ⟨z, hz⟩ : ∃ z, v.physAreas.getLast? = some z := by
        rw [ha]
        exact ⟨_, List.getLast?_eq_some_getLast (by simp)⟩
      simp [hz, ha', deref, bind, Except.bind, pure, Except.pure]
    · exact ⟨_, rfl⟩

end Sound

end PS4Droid.Memory
