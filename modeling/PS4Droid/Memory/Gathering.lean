import PS4Droid.Memory.Runs

/-!
# Gathering physical memory finds what is there

The loops of `MapMemory` and `PoolCommit` that take physical memory of one type
from a map run to their end: when the map has enough bytes of that type they
return, and nothing remains to be found.
-/

namespace PS4Droid.Memory

open OrderedMap IntervalMap Segments

namespace MemoryManager

variable {source : PhysicalMemoryType} {f : PhysicalMemoryArea → PhysicalMemoryArea}
  {m m' l r : PhysMap} {k h : ℕ} {a : PhysicalMemoryArea}

/-- After taking a whole area the loop goes on with the areas behind it, of which only one that
is not of the source type may have been absorbed. -/
theorem retyped_rest (hsource : ∀ a, (f a).dmaType ≠ source)
    (hr : PhysMap.Retyped l k a r k a.size f m' h) :
    ∃ l' e r', Around m' l' e r' ∧ e.1 = h ∧ (∃ gone, r = gone ++ r') ∧
      total (PhysicalMemoryArea.bytesOf source) r' =
        total (PhysicalMemoryArea.bytesOf source) r := by
  obtain ⟨l', b, a', r', ha', hnext, hprev⟩ := hr.shape
  have htrail : physKind.trailing k a (k - k + a.size) ++ r = r := by simp [trailing]
  rw [htrail] at hnext
  refine ⟨l', (h, a'), r', ha', rfl, ?_⟩
  generalize hcarved : f (PhysMap.carved a k a.size) = c at hnext
  cases hnext with
  | keep => exact ⟨⟨[], rfl⟩, rfl⟩
  | absorb k' next r' hm =>
    refine ⟨⟨[(k', next)], rfl⟩, ?_⟩
    have hne : next.dmaType ≠ source := by
      rw [← (physKind_canMerge hm).2.2, ← hcarved]
      exact hsource _
    simp [PhysicalMemoryArea.bytesOf, hne]

/-- The loop returns with nothing remaining when the areas from its handle on hold enough. Every
iteration moves the handle up, so the keys bound the number of iterations. -/
theorem takeAreas_finds {mapped : ℕ} (stop : ℕ) (hsource : ∀ a, (f a).dmaType ≠ source)
    (hf : PhysMap.Reattributes f) {fuel : ℕ} {g : Gathered} {offset remaining : ℕ} (l r : PhysMap)
    (hmap : g.map = l ++ r) (hv : PhysMap.Valid g.map) (hc : Contiguous 0 g.areas offset)
    (henough : remaining ≤ total (PhysicalMemoryArea.bytesOf source) r)
    (hbound : offset + remaining < 2 ^ 64) (hstop : ∀ e ∈ r, e.1 + e.2.size ≤ stop)
    (hfuel : ∀ e ∈ r.head?, stop < e.1 + fuel) (hpos : 0 < fuel) :
    ∃ g', takeAreas source f mapped fuel (r.head?.map Prod.fst) g offset remaining = .ok (g',
      0) := by
  induction fuel generalizing g offset remaining l r with
  | zero => omega
  | succ fuel ih =>
    cases r with
    | nil =>
      rw [total_nil] at henough
      obtain rfl : remaining = 0 := by omega
      exact ⟨g, rfl⟩
    | cons e r =>
      obtain ⟨k, a⟩ := e
      rw [hmap] at hv
      have ha : Around g.map l (k, a) r := hmap ▸ hv.around
      have hapos : 0 < a.size := hv.tiling.pos (k, a) (by simp)
      have hbase : a.base = k := hv.keyed (k, a) (by simp)
      have hw : a.base + a.size < 2 ^ 64 := hv.wf (k, a) (by simp)
      have hend : k + a.size ≤ stop := hstop (k, a) (by simp)
      have hkey : ∀ e ∈ r, k + a.size ≤ e.1 := fun e he =>
        (List.pairwise_cons.mp hv.right.tiling.apart).1 e he
      have hfuel' := hfuel (k, a) rfl
      simp only at hfuel'
      simp only [List.head?_cons, Option.map_some, takeAreas]
      by_cases h0 : remaining = 0
      · rw [if_pos h0, h0]
        exact ⟨g, rfl⟩
      rw [if_neg h0, ha.get?, deref, ok_bind]
      -- Where the loop stands after an iteration that leaves the areas `r'` to be visited.
      have hnext : ∀ r' : PhysMap, (∃ gone, r = gone ++ r') →
          (∀ e ∈ r', e.1 + e.2.size ≤ stop) ∧ ∀ e ∈ r'.head?, stop < e.1 + fuel := by
        rintro r' ⟨gone, rfl⟩
        refine ⟨fun e he => hstop e (by simp [he]), fun e he => ?_⟩
        have := hkey e (by simp [List.mem_of_mem_head? he])
        omega
      by_cases hs : a.dmaType ≠ source
      · rw [if_pos hs, ha.next]
        obtain ⟨hstop', hfuel''⟩ := hnext r ⟨[], rfl⟩
        refine ih (l ++ [(k, a)]) r (by simp [hmap]) (hmap ▸ hv) hc ?_ hbound hstop' hfuel''
          (by omega)
        simpa [PhysicalMemoryArea.bytesOf, hs] using henough
      · rw [if_neg hs]
        have hsource' := not_not.mp hs
        simp only [hbase]
        have hpart : Part k a.size k (min remaining a.size) := ⟨by omega, le_rfl, by omega⟩
        rw [← hmap] at hv
        obtain ⟨m', h', hretype, hrw, hshape⟩ := PhysMap.retype_ok hv hf ha hpart
        have hv' := hrw.valid physKind_lawful hv
        have hsize : (f (PhysMap.carved a k (min remaining a.size))).size = min remaining a.size :=
          hrw.size_new
        obtain ⟨areas', k', hmerge, hc', -⟩ := append_merge hc (by omega) hrw.wf_new
        have hoff : add64 offset (min remaining a.size) = offset + min remaining a.size :=
          add64_eq (by omega)
        simp only [hretype, hmerge, ok_bind, hoff]
        rw [hsize] at hc'
        by_cases hwhole : a.size ≤ remaining
        · rw [min_eq_right hwhole] at hshape hc' ⊢
          obtain ⟨l', e, r', ha', rfl, hsuffix, htotal⟩ := retyped_rest hsource hshape
          obtain ⟨hstop', hfuel''⟩ := hnext r' hsuffix
          rw [ha'.next]
          refine ih (l' ++ [e]) r' (by simp [ha'.eq]) hv' hc' ?_ (by omega) hstop' hfuel''
            (by omega)
          rw [htotal]
          simp only [total_cons, PhysicalMemoryArea.bytesOf, if_pos hsource'] at henough
          omega
        · -- The area is larger than what remains, so this is the last iteration.
          rw [min_eq_left (by omega), Nat.sub_self]
          cases fuel with
          | zero => omega
          | succ fuel =>
            cases (next m' h').map Prod.fst with
            | none => exact ⟨_, rfl⟩
            | some handle =>
              rw [takeAreas, if_pos rfl]
              exact ⟨_, rfl⟩

theorem takeAreas_finds_all (source : PhysicalMemoryType)
    (f : PhysicalMemoryArea → PhysicalMemoryArea) (mapped : ℕ) (host : AddressSpace)
    {start stop size : ℕ}
    (hsource : ∀ a, (f a).dmaType ≠ source) (hf : PhysMap.Reattributes f) (hv : PhysMap.Valid m)
    (hc : Contiguous start m stop) (hstop : stop < 2 ^ 64) (hsize : size < 2 ^ 64)
    (henough : size ≤ total (PhysicalMemoryArea.bytesOf source) m) :
    ∃ g, takeAreas source f mapped loopBound (m.head?.map Prod.fst)
      { map := m, areas := [], host } 0 size = .ok (g, 0) := by
  refine takeAreas_finds stop hsource hf [] m rfl hv rfl henough (by omega) (fun e he => ?_)
    (fun e _ => ?_) (by norm_num [loopBound])
  · exact (hc.mem he).2.2.1
  · simp only [loopBound]
    omega

/-! ### Counting bytes and addresses -/

theorem total_bytesOf (hv : PhysMap.Valid m) (t : PhysicalMemoryType) :
    total (PhysicalMemoryArea.bytesOf t) m = {p | ∃ u, m.attributesAt p = some (u, t)}.ncard := by
  have h := total_eq_ncard hv.tiling (fun a : PhysicalMemoryArea => a.dmaType = t)
  have hset : {p | ∃ e ∈ m, Within physKind.size e p ∧ e.2.dmaType = t} =
      {p | ∃ u, m.attributesAt p = some (u, t)} := by
    ext p
    constructor
    · rintro ⟨e, he, hp, rfl⟩
      exact ⟨e.2.memoryType, viewAt_eq _ hv.tiling he hp⟩
    · rintro ⟨u, hu⟩
      obtain ⟨e, he, hp, heq⟩ := viewAt_eq_some hu
      refine ⟨e, he, hp, ?_⟩
      simp only [PhysicalMemoryArea.attributes, Prod.mk.injEq] at heq
      exact heq.2
  rw [← hset]
  exact h

end MemoryManager

/-- The number of addresses an area contributes to the mappings of type `t`. -/
def VirtualMemoryArea.addressesOf (t : VMAType) (v : VirtualMemoryArea) : ℕ :=
  if v.type = t then v.size else 0

namespace MemoryManager

variable {s s' : MemoryManager} {R : ℕ → Prop} {t : VMAType}

theorem total_addressesOf (hs : s.Sound) (t : VMAType) :
    total (VirtualMemoryArea.addressesOf t) s.vmaMap = s.countIn (fun _ => True) t := by
  have h := total_eq_ncard hs.vma.tiling (fun v : VirtualMemoryArea => v.type = t)
  have hset : {x | ∃ e ∈ s.vmaMap, Within vmaKind.size e x ∧ e.2.type = t} =
      {x | True ∧ ∃ b, s.cellAt x = some ⟨t, b⟩} := by
    ext x
    constructor
    · rintro ⟨e, he, hx, rfl⟩
      exact ⟨trivial, _, VMAMap.cellAt_mem hs.vma he hx⟩
    · rintro ⟨-, b, hb⟩
      obtain ⟨e, he, hx, heq⟩ := VMAMap.cellAt_some hb
      refine ⟨e, he, hx, ?_⟩
      simp only [VirtualMemoryArea.cell, Cell.mk.injEq] at heq
      exact heq.1
  rw [countIn, ← hset]
  exact h

theorem finite_cells (s : MemoryManager) (R : ℕ → Prop) (t : VMAType) :
    {x | R x ∧ ∃ b, s.cellAt x = some ⟨t, b⟩}.Finite := by
  refine (finite_covers vmaKind.size s.vmaMap).subset ?_
  rintro x ⟨-, b, hb⟩
  rw [Set.mem_ofPred_eq, ← cellAt_isSome_iff, hb]
  rfl

theorem countIn_split (s : MemoryManager) (R : ℕ → Prop) (t : VMAType) :
    s.countIn (fun _ => True) t = s.countIn R t + s.countIn (fun x => ¬ R x) t := by
  unfold countIn
  rw [← Set.ncard_union_eq _ (finite_cells s _ t) (finite_cells s _ t)]
  · congr 1
    ext x
    by_cases hx : R x <;> simp [hx]
  · rw [Set.disjoint_left]
    rintro x ⟨hx, -⟩ ⟨hx', -⟩
    exact hx' hx

theorem countIn_congr (h : ∀ x, R x → ∀ b, s'.cellAt x = some ⟨t, b⟩ ↔ s.cellAt x = some ⟨t, b⟩) :
    s'.countIn R t = s.countIn R t := by
  unfold countIn
  congr 1
  ext x
  constructor
  · rintro ⟨hx, b, hb⟩
    exact ⟨hx, b, (h x hx b).mp hb⟩
  · rintro ⟨hx, b, hb⟩
    exact ⟨hx, b, (h x hx b).mpr hb⟩

theorem countIn_eq_zero (h : ∀ x, R x → ∀ b, s.cellAt x ≠ some ⟨t, b⟩) : s.countIn R t = 0 := by
  have hempty : {x | R x ∧ ∃ b, s.cellAt x = some ⟨t, b⟩} = ∅ := by
    rw [Set.eq_empty_iff_forall_notMem]
    rintro x ⟨hx, b, hb⟩
    exact h x hx b hb
  rw [countIn, hempty, Set.ncard_empty]

theorem Sound.backed (hs : s.Sound) {x : ℕ} {b : Option ℕ}
    (ht : t = .direct ∨ t = .flexible ∨ t = .pooled) (hc : s.cellAt x = some ⟨t, b⟩) :
    ∃ p, b = some p := by
  obtain ⟨⟨k, v⟩, he, hx, heq⟩ := VMAMap.cellAt_some hc
  simp only [VirtualMemoryArea.cell, Cell.mk.injEq] at heq
  obtain ⟨rfl, rfl⟩ := heq
  have hb : v.hasPhysicalBacking = true := by
    simp only [VirtualMemoryArea.hasPhysicalBacking, Bool.or_eq_true, beq_iff_eq]
    tauto
  have hcont := (hs.vma.wf _ he).backed hb
  rw [if_pos hb, ← Option.isSome_iff_exists]
  simp only at hx hcont
  exact (hcont.byteAt_isSome _).mpr (by omega)

end MemoryManager

end PS4Droid.Memory
