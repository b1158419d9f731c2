import PS4Droid.Memory.Gathering
import PS4Droid.Memory.PhysicalTypes

/-!
# Pool memory accounting

`pool_budget` counts the uncommitted pool bytes of the direct map, because every
pooled address has a committed byte of its own. A commit that the budget admits
therefore finds its memory. Two kinds of calls break the count: a release that frees
pool memory or memory that stays mapped, and an expansion whose search address wraps
around when it is aligned.
-/

namespace PS4Droid.Memory

open OrderedMap IntervalMap Segments MemoryManager

namespace MemoryManager

/-- The uncommitted bytes of the pool. -/
def uncommitted (s : MemoryManager) : ℕ := total (PhysicalMemoryArea.bytesOf .pooled) s.dmemMap

/-- Pooled addresses have a committed byte of their own, direct mappings are not made of pool
memory, and the budget counts the uncommitted bytes. -/
structure PoolExact (s : MemoryManager) : Prop where
  committed : ∀ x p, s.cellAt x = some ⟨.pooled, some p⟩ → s.typeAt p = some .committed
  once : ∀ x y p, s.cellAt x = some ⟨.pooled, some p⟩ → s.cellAt y = some ⟨.pooled, some p⟩ → x = y
  direct : ∀ x p, s.cellAt x = some ⟨.direct, some p⟩ →
    s.typeAt p = some .allocated ∨ s.typeAt p = some .mapped
  budget : s.poolBudget = {p | s.typeAt p = some .pooled}.ncard

variable {c : Config} {s s' : MemoryManager}

theorem uncommitted_eq (hs : s.Sound) : s.uncommitted = {p | s.typeAt p = some .pooled}.ncard := by
  rw [uncommitted, total_bytesOf hs.dmem]
  congr 1
  ext p
  exact typeAt_eq_some.symm

namespace PoolExact

theorem frame (h : s.PoolExact)
    (hpool : ∀ x p, s'.cellAt x = some ⟨.pooled, some p⟩ → s.cellAt x = some ⟨.pooled, some p⟩)
    (hdirect : ∀ x p, s'.cellAt x = some ⟨.direct, some p⟩ →
      s'.typeAt p = some .allocated ∨ s'.typeAt p = some .mapped)
    (hpooled : ∀ p, s'.typeAt p = some .pooled ↔ s.typeAt p = some .pooled)
    (hcommitted : ∀ p, s.typeAt p = some .committed → s'.typeAt p = some .committed)
    (hb : s'.poolBudget = s.poolBudget) : s'.PoolExact where
  committed x p hx := hcommitted p (h.committed x p (hpool x p hx))
  once x y p hx hy := h.once x y p (hpool x p hx) (hpool y p hy)
  direct := hdirect
  budget := by
    rw [hb, h.budget]
    congr 1
    ext p
    exact (hpooled p).symm

theorem unmaps {R : ℕ → Prop} (h : s.PoolExact) (hu : Unmaps s R s') : s'.PoolExact := by
  -- Bytes of unmapped direct addresses are no pool memory.
  have hbacked : ∀ p, s.Backs R .direct p → s.typeAt p = some .allocated ∨
    s.typeAt p = some .mapped := by
    rintro p ⟨x, -, hx⟩
    exact h.direct x p hx
  refine h.frame (fun x p hx => (hu.cell_cases (by simp) hx).2) (fun x p hx => ?_) (fun p => ?_)
    (fun p hp => ?_) hu.budget
  · rcases hu.typeAt p with ⟨heq, -⟩ | ⟨heq, hb⟩
    · rw [heq]
      exact h.direct x p (hu.cell_cases (by simp) hx).2
    · left
      rcases hbacked p hb with ht | ht <;> simp [heq, ht]
  · rcases hu.typeAt p with ⟨heq, -⟩ | ⟨heq, hb⟩
    · rw [heq]
    · rcases hbacked p hb with ht | ht <;> simp [heq, ht]
  · rcases hu.typeAt p with ⟨heq, -⟩ | ⟨heq, hb⟩
    · rw [heq, hp]
    · rcases hbacked p hb with ht | ht <;> simp [ht] at hp

variable {addr size : ℕ} {m : PhysMap}

theorem cleared {flags : UInt32} (h : s.PoolExact)
    (hc : Cleared s addr size flags s') : s'.PoolExact := by
  rcases hc with ⟨-, hu⟩ | ⟨-, rfl⟩
  · exact h.unmaps hu
  · exact h

theorem plain {type : VMAType} (h : s.PoolExact) (hm : MapsPlain type s addr size s')
    (hb : s'.poolBudget = s.poolBudget) : s'.PoolExact := by
  have htype : ∀ p, s'.typeAt p = s.typeAt p :=
    fun p => typeAt_congr (by rw [dmemAt, hm.dmemMap, dmemAt])
  have hold : ∀ x t p, s'.cellAt x = some ⟨t, some p⟩ → s.cellAt x = some ⟨t, some p⟩ := by
    intro x t p hx
    by_cases hin : addr ≤ x ∧ x < addr + size
    · rw [hm.cell_in x hin] at hx
      cases hx
    · rwa [hm.cell_out x hin] at hx
  refine h.frame (fun x p => hold x _ p) (fun x p hx => ?_) (fun p => ?_) (fun p hp => ?_) hb
  · rw [htype]
    exact h.direct x p (hold x _ p hx)
  · rw [htype]
  · rwa [htype]

theorem mapped {q : MapRequest} (h : s.PoolExact) (hm : Mapped q s addr s')
    (hb : s'.poolBudget = s.poolBudget)
    (hrange : q.type = .direct → q.physAddr + q.size < 2 ^ 64 → ∀ p, q.physAddr ≤ p ∧
      p < q.physAddr + q.size → ∀ d, s.typeAt p = some d → d = .allocated ∨ d = .mapped) :
        s'.PoolExact := by
  cases hm with
  | flexible byte hq ha hh hd hu =>
    have htype : ∀ p, s'.typeAt p = s.typeAt p := fun p => typeAt_congr (by rw [dmemAt, hd, dmemAt])
    have hold : ∀ x t p, t ≠ .flexible → s'.cellAt x = some ⟨t, some p⟩ →
        s.cellAt x = some ⟨t, some p⟩ := by
      intro x t p ht hx
      exact (ha.cell_cases hx).resolve_left fun hin => ht hin.2.1
    refine h.frame (fun x p => hold x _ p (by simp)) (fun x p hx => ?_) (fun p => ?_)
      (fun p hp => ?_) hb
    · rw [htype]
      exact h.direct x p (hold x _ p (by simp) hx)
    · rw [htype]
    · rwa [htype]
  | direct hq hne hbound ha hh hf hu =>
    have ha := ha (fun d => d = .allocated ∨ d = .mapped) fun p t d hp hd =>
      hrange hq hbound p hp d (typeAt_of_dmemAt hd)
    -- A byte is either one of the range, which becomes mapped, or keeps its type.
    have htype : ∀ p, s'.typeAt p = s.typeAt p ∨ s'.typeAt p = some .mapped ∧
        (s.typeAt p = some .allocated ∨ s.typeAt p = some .mapped) := by
      intro p
      by_cases hp : ∃ x, (addr ≤ x ∧ x < addr + q.size) ∧ q.physAddr + (x - addr) = p
      · obtain ⟨x, hx, rfl⟩ := hp
        obtain ⟨t, d, hat, hd⟩ := ha.available x hx
        have hold : s.typeAt _ = some d := typeAt_of_dmemAt hat
        refine .inr ⟨?_, by rw [hold]; simpa using hd⟩
        rw [typeAt_retag (ha.attributes_in x hx), hold]
        rfl
      · exact .inl (typeAt_congr (ha.attributes_out p fun x hx heq => hp ⟨x, hx, heq⟩))
    refine h.frame (fun x p hx => ?_) (fun x p hx => ?_) (fun p => ?_) (fun p hp => ?_) hb
    · exact (ha.cell_cases hx).resolve_left fun hin => by cases hin.2.1
    · rcases ha.cell_cases hx with ⟨hin, -, rfl⟩ | hx
      · obtain ⟨t, d, hat, -⟩ := ha.available x hin
        right
        rw [typeAt_retag (ha.attributes_in x hin), typeAt_of_dmemAt hat]
        rfl
      · rcases htype p with heq | ⟨heq, -⟩
        · rw [heq]
          exact h.direct x p hx
        · exact .inr heq
    · rcases htype p with heq | ⟨heq, hold | hold⟩ <;> simp_all
    · rcases htype p with heq | ⟨heq, hold | hold⟩ <;> simp_all
  | plain hq hp => exact h.plain hp hb

theorem commits {mtype : ℤ} {mapped : ℕ} {byte : ℕ → ℕ} (h : s.PoolExact)
    (hc : Commits mtype s addr mapped size byte s') : s'.PoolExact := by
  have hin : ∀ x, addr ≤ x ∧ x < addr + size →
      s.typeAt (byte x) = some .pooled ∧ s'.typeAt (byte x) = some .committed := by
    intro x hx
    obtain ⟨t, d, hat, rfl⟩ := hc.available x hx
    refine ⟨typeAt_of_dmemAt hat, typeAt_of_dmemAt (u := mtype) ?_⟩
    rw [dmemAt, hc.attributes_in x hx, hat]
    rfl
  have hout : ∀ p, s.typeAt p ≠ some .pooled → s'.typeAt p = s.typeAt p := fun p hp =>
    typeAt_congr (hc.attributes_out p fun x hx heq => hp (heq ▸ (hin x hx).1))
  -- The new bytes were not committed, so no address had them before.
  have hnew : ∀ x y, addr ≤ x ∧ x < addr + size → s.cellAt y ≠ some ⟨.pooled, some (byte x)⟩ := by
    intro x y hx hy
    have := h.committed y _ hy
    rw [(hin x hx).1] at this
    cases this
  refine ⟨fun x p hx => ?_, fun x y p hx hy => ?_, fun x p hx => ?_, ?_⟩
  · rcases hc.cell_cases hx with ⟨hr, -, rfl⟩ | hx
    · exact (hin x hr).2
    · have ht := h.committed x p hx
      rw [hout p (by simp [ht]), ht]
  · exact hc.once hnew h.once hx hy
  · have ht := h.direct x p ((hc.cell_cases hx).resolve_left fun hin => by cases hin.2.1)
    rw [hout p (by rcases ht with ht | ht <;> simp [ht])]
    exact ht
  · have himage : {p | s'.typeAt p = some .pooled} =
        {p | s.typeAt p = some .pooled} \ byte '' {x | addr ≤ x ∧ x < addr + size} := by
      ext p
      by_cases hp : ∃ x, (addr ≤ x ∧ x < addr + size) ∧ byte x = p
      · obtain ⟨x, hx, rfl⟩ := hp
        simp only [Set.mem_ofPred_eq, (hin x hx).2, Set.mem_sdiff, Set.mem_image]
        constructor
        · intro habs
          cases habs
        · rintro ⟨-, habs⟩
          exact absurd ⟨x, hx, rfl⟩ habs
      · have heq : s'.typeAt p = s.typeAt p :=
          typeAt_congr (hc.attributes_out p fun x hx heq => hp ⟨x, hx, heq⟩)
        simp only [Set.mem_ofPred_eq, heq, Set.mem_sdiff, Set.mem_image, iff_self_and]
        exact fun _ => hp
    have hsub : byte '' {x | addr ≤ x ∧ x < addr + size} ⊆ {p | s.typeAt p = some .pooled} := by
      rintro p ⟨x, hx, rfl⟩
      exact (hin x hx).1
    have hinj : Set.InjOn byte {x | addr ≤ x ∧ x < addr + size} := fun x hx y hy heq =>
      hc.distinct x y hx hy heq
    rw [hc.budget, himage, Set.ncard_sdiff hsub ((finite_interval addr size).image byte),
      hinj.ncard_image, ncard_interval, h.budget]

/-- A count of direct bytes is far below the range of the counter. -/
theorem count_lt (hr : Regular c s) (d : PhysicalMemoryType) :
    {p | s.typeAt p = some d}.ncard < 2 ^ 63 := by
  have hsub : {p | s.typeAt p = some d} ⊆ (Finset.range s.totalDirectSize : Set ℕ) := by
    intro p hp
    obtain ⟨u, hu⟩ := typeAt_eq_some.mp hp
    have hcover := attributesAt_isSome_iff.mp (Option.isSome_iff_exists.mpr ⟨_, hu⟩)
    have := (hr.dmem.covers p).mp hcover
    simp only [Finset.coe_range, Set.mem_Iio]
    exact this.2
  have hle := Set.ncard_le_ncard hsub (Finset.finite_toSet _)
  rw [Set.ncard_coe_finset, Finset.card_range] at hle
  have := hr.direct_le
  have := c.directSize_lt
  omega

theorem budget_add {n : ℕ} {new : Set ℕ} (hr' : Regular c s')
    (h : s.PoolExact) (hnew : new.ncard = n) (hfin : new.Finite)
    (hdisj : ∀ p ∈ new, s.typeAt p ≠ some .pooled)
    (hset : ∀ p, s'.typeAt p = some .pooled ↔ s.typeAt p = some .pooled ∨ p ∈ new) :
    add64 s.poolBudget n = {p | s'.typeAt p = some .pooled}.ncard := by
  have hunion : {p | s'.typeAt p = some .pooled} = {p | s.typeAt p = some .pooled} ∪ new := by
    ext p
    exact hset p
  have hcount : {p | s'.typeAt p = some .pooled}.ncard = s.poolBudget + n := by
    have hd : Disjoint {p | s.typeAt p = some .pooled} new := Set.disjoint_right.mpr hdisj
    rw [hunion, Set.ncard_union_eq hd (finite_typed s _) hfin, hnew, h.budget]
  have hlt := count_lt hr' .pooled
  rw [add64_eq (by omega), hcount]

theorem decommits (hs : s.Sound) (hr' : Regular c s') (h : s.PoolExact)
    (hd : Decommits s addr size s') : s'.PoolExact := by
  have hback : ∀ p, s.Backs (fun x => addr ≤ x ∧ x < addr + size) .pooled p →
      s.typeAt p = some .committed ∧ s'.typeAt p = some .pooled := by
    intro p hp
    have htype := typeAt_retag (hd.dmem_in p hp)
    obtain ⟨x, -, hx⟩ := hp
    have hold := h.committed x p hx
    rw [hold] at htype
    exact ⟨hold, htype⟩
  have hout : ∀ p, ¬ s.Backs (fun x => addr ≤ x ∧ x < addr + size) .pooled p →
      s'.typeAt p = s.typeAt p := fun p hp => typeAt_congr (hd.dmem_out p hp)
  refine ⟨fun x p hx => ?_, fun x y p hx hy => ?_, fun x p hx => ?_, ?_⟩
  · obtain ⟨hxout, hx⟩ := hd.cell_iff.mp hx
    rw [hout p, h.committed x p hx]
    rintro ⟨y, hy, hcy⟩
    exact hxout (h.once y x p hcy hx ▸ hy)
  · exact h.once x y p (hd.cell_iff.mp hx).2 (hd.cell_iff.mp hy).2
  · have hx := h.direct x p (hd.cell_iff.mp hx).2
    rw [hout p]
    · exact hx
    · intro hp
      rw [(hback p hp).1] at hx
      simp at hx
  · rw [hd.budget]
    have hfin : {p | s.Backs (fun x => addr ≤ x ∧ x < addr + size) .pooled p}.Finite :=
      (finite_typed s .committed).subset fun p hp => (hback p hp).1
    refine h.budget_add hr' ?_ hfin (fun p hp => by simp [(hback p hp).1]) fun p => ?_
    · -- Each pooled address of the range has its own byte.
      symm
      have hbyte : ∀ x ∈ {x | (addr ≤ x ∧ x < addr + size) ∧ ∃ b, s.cellAt x = some ⟨.pooled, b⟩},
          ∃ p, s.cellAt x = some ⟨.pooled, some p⟩ := by
        rintro x ⟨-, b, hb⟩
        obtain ⟨p, rfl⟩ := hs.backed (by simp) hb
        exact ⟨p, hb⟩
      choose byte hbyte using hbyte
      refine Set.ncard_congr byte (fun x hx => ⟨x, hx.1, hbyte x hx⟩) (fun x y hx hy heq => ?_)
        fun p hp => ?_
      · refine h.once x y _ (hbyte x hx) ?_
        rw [heq]
        exact hbyte y hy
      · obtain ⟨x, hx, hcx⟩ := hp
        refine ⟨x, ⟨hx, _, hcx⟩, ?_⟩
        have heq := (hbyte x ⟨hx, _, hcx⟩).symm.trans hcx
        simpa using heq
    · by_cases hp : s.Backs (fun x => addr ≤ x ∧ x < addr + size) .pooled p
      · simp [(hback p hp).2, hp]
      · simp [hout p hp, hp]

theorem allocated {memoryType : ℤ} (h : s.PoolExact)
    (ht : TakesFree (memoryType, .allocated) s addr size m) :
    PoolExact { s with dmemMap := m } := by
  have htype := fun p => ht.typeAt (rfl : ({ s with dmemMap := m } : MemoryManager).dmemMap = m) p
  refine h.frame (fun _ _ hx => hx) (fun x p hx => ?_) (fun p => ?_) (fun p hp => ?_) rfl
  · rcases htype p with ⟨-, -, heq⟩ | ⟨-, heq⟩
    · exact .inl heq
    · rw [heq]
      exact h.direct x p hx
  · rcases htype p with ⟨-, hfree, heq⟩ | ⟨-, heq⟩
    · simp [hfree, heq]
    · rw [heq]
  · rcases htype p with ⟨-, hfree, -⟩ | ⟨-, heq⟩
    · rw [hfree] at hp
      cases hp
    · rw [heq, hp]

theorem expanded (h : s.PoolExact)
    (hr' : Regular c { s with dmemMap := m, poolBudget := add64 s.poolBudget size })
    (ht : TakesFree (3, .pooled) s addr size m) :
    PoolExact { s with dmemMap := m, poolBudget := add64 s.poolBudget size } := by
  have htype := fun p => ht.typeAt (rfl : ({ s with
    dmemMap := m, poolBudget := add64 s.poolBudget size } : MemoryManager).dmemMap = m) p
  refine ⟨fun x p hx => ?_, h.once, fun x p hx => ?_, ?_⟩
  · have hc := h.committed x p hx
    rcases htype p with ⟨-, hfree, -⟩ | ⟨-, heq⟩
    · rw [hfree] at hc
      cases hc
    · rw [heq, hc]
  · have hd := h.direct x p hx
    rcases htype p with ⟨-, hfree, -⟩ | ⟨-, heq⟩
    · simp [hfree] at hd
    · rwa [heq]
  · refine h.budget_add hr' (ncard_interval addr size) (finite_interval addr size) (fun p hp => ?_)
      fun p => ?_
    · rcases htype p with ⟨-, hfree, -⟩ | ⟨hout, -⟩
      · simp [hfree]
      · exact absurd hp hout
    · rcases htype p with ⟨hin, hfree, heq⟩ | ⟨hout, heq⟩
      · simp [heq, hin]
      · simp [heq, hout]

end PoolExact

theorem PoolExact.frees {physAddr size : ℕ} {isChecked : Bool} {s₁ : MemoryManager} {F : ℕ → Prop}
    (hs : s.Sound) (h : s.PoolExact) (hf : Frees s physAddr size isChecked s₁ F s')
    (hr : s.ReleaseUnmaps physAddr size) (hpool : ∀ p, s.MayFree physAddr size p →
      s.typeAt p ≠ some .pooled ∧ s.typeAt p ≠ some .committed) : s'.PoolExact := by
  have h₁ := h.unmaps hf.unmaps
  have hcell : ∀ x, s'.cellAt x = s₁.cellAt x := by
    intro x
    rw [hf.rest]
    rfl
  have hfree : ∀ p, F p → s'.typeAt p = some .free := fun p hp => typeAt_of_dmemAt (hf.dmem_in p hp)
  have hkeep : ∀ p, ¬ F p → s'.typeAt p = s₁.typeAt p := fun p hp => typeAt_congr (hf.dmem_out p hp)
  -- Freed bytes are not of the pool, also after unmapping.
  have hF : ∀ p, F p → s₁.typeAt p ≠ some .pooled ∧ s₁.typeAt p ≠ some .committed := by
    intro p hp
    obtain ⟨hle, hmay, t, ht, hne⟩ := hf.released p hp
    have hnot := hpool p ⟨hle, hmay⟩
    rcases hf.unmaps.typeAt p with ⟨heq, -⟩ | ⟨heq, -⟩
    · rwa [heq]
    · simp [heq, ht]
  refine h₁.frame (fun x p hx => by rwa [hcell] at hx) (fun x p hx => ?_) (fun p => ?_)
    (fun p hp => ?_)
    (by rw [hf.rest])
  · rw [hcell] at hx
    have hnot : ¬ F p := fun hp => hf.unmapped hs hr hp hx
    rw [hkeep p hnot]
    exact h₁.direct x p hx
  · by_cases hp : F p
    · simp [hfree p hp, (hF p hp).1]
    · rw [hkeep p hp]
  · have hnot : ¬ F p := fun hF' => (hF p hF').2 hp
    rw [hkeep p hnot, hp]

theorem SameBytes.poolExact (h : s.PoolExact) (hb : SameBytes s s') : s'.PoolExact := by
  refine h.frame (fun x p hx => by rwa [hb.cell] at hx) (fun x p hx => ?_) (fun p => ?_)
    (fun p hp => ?_) hb.budget
  · rw [hb.cell] at hx
    rw [hb.types]
    exact h.direct x p hx
  · rw [hb.types]
  · rwa [hb.types]

end MemoryManager

/-- A release that is accepted frees no pool memory and no memory that stays mapped, and the
search address of an expansion can be aligned. -/
def KeepsPool (s : MemoryManager) : Operation → Prop
  | .free physAddr size isChecked => s.ReleaseAccepted physAddr.toNat size.toNat isChecked →
    s.ReleaseUnmaps physAddr.toNat size.toNat ∧ ∀ p, s.MayFree physAddr.toNat size.toNat p →
      s.typeAt p ≠ some .pooled ∧ s.typeAt p ≠ some .committed
  | .poolExpand searchStart _ _ alignment => PoolSearchFits searchStart.toNat alignment.toNat
  | _ => True

variable {c : Config} {s s' : MemoryManager}

theorem Effect.poolExact {op : Operation} (hr : Regular c s) (hr' : Regular c s') (h : s.PoolExact)
    (hadm : op.Admitted) (hop : KeepsPool s op) (he : Effect s op s') : s'.PoolExact := by
  cases he with
  | unchanged => exact h
  | map hm haccept hmapped =>
    obtain ⟨-, hb⟩ := hm.cleared.totals
    refine (h.cleared hm.cleared).mapped hmapped (hm.budget.trans hb.symm) fun hq hbound p hp => ?_
    refine hm.cleared.allocated fun d hd => ?_
    obtain ⟨u, hu⟩ := typeAt_eq_some.mp hd
    exact (checkPhysicalRange_types hr.sound (hadm.2 hq) hbound haccept.range hp hu).1
  | file hm _ hp =>
    obtain ⟨-, hb⟩ := hm.cleared.totals
    exact (h.cleared hm.cleared).plain hp (hm.budget.trans hb.symm)
  | unmap hu => exact h.unmaps hu
  | free hf =>
    obtain ⟨hunmaps, hpool⟩ := hop hf.accepted
    exact h.frees hr.sound hf hunmaps hpool
  | commit hc => exact h.commits hc
  | decommit _ hd => exact h.decommits hr.sound hr' hd
  | attributes ha => exact ha.poolExact h
  | allocate ht => exact h.allocated ht
  | expand _ ht => exact h.expanded hr' (ht hop)

theorem Fresh.poolExact (h : Fresh c s) : s.PoolExact := by
  have hcell : ∀ x t p, s.cellAt x ≠ some ⟨t, some p⟩ := fun x t p hc => by cases h.cell_free hc
  refine ⟨fun x p hx => absurd hx (hcell x _ p), fun x y p hx => absurd hx (hcell x _ p),
    fun x p hx => absurd hx (hcell x _ p), ?_⟩
  have hempty : {p | s.typeAt p = some .pooled} = ∅ := by
    rw [Set.eq_empty_iff_forall_notMem]
    exact fun p hp => by cases h.type_free hp
  rw [h.poolBudget, hempty, Set.ncard_empty]

/-! ### The budget check of `PoolCommit` -/

namespace MemoryManager

/-- The area that `PoolCommit` finds for its aligned address can hold the memory. -/
structure RoomForCommit (s : MemoryManager) (addr size : ℕ) : Prop where
  valid : s.requireValidMapping addr size = .ok ()
  area : ∃ k v, s.findVMA (alignUp addr (kiB 64)) = .ok (k, v) ∧ v.type = .poolReserved ∧
    v.contains (alignUp addr (kiB 64)) size = true

variable {size : ℕ} {mtype : ℤ}

theorem poolCommit_enomem {addr : ℕ} {prot : UInt32} (h : s.RoomForCommit addr size) :
    (∃ s', s.poolCommit addr size prot mtype = .ok (s', .error .enomem)) ↔ s.poolBudget ≤ size := by
  obtain ⟨k, v, hf, htype, hcontains⟩ := h.area
  unfold poolCommit
  simp only [h.valid, ok_bind, hf, htype, hcontains]
  constructor
  · rintro ⟨s', hrun⟩
    by_contra hgt
    rw [if_neg (by simp), if_neg (by simp), if_neg hgt] at hrun
    obtain ⟨_, -, hrun⟩ := bind_ok hrun
    obtain ⟨_, -, hrun⟩ := bind_ok hrun
    obtain ⟨_, -, hrun⟩ := bind_ok hrun
    obtain ⟨_, -, hrun⟩ := bind_ok hrun
    obtain ⟨_, -, hrun⟩ := bind_ok hrun
    cases hrun
  · intro hle
    rw [if_neg (by simp), if_neg (by simp), if_pos hle]
    exact ⟨s, rfl⟩

theorem commitSearch_finds {mapped : ℕ} (hr : Regular c s)
    (hsize : size ≤ s.uncommitted) : ∃ g, s.commitSearch mapped size mtype = .ok (g, 0) := by
  have hlt := PoolExact.count_lt hr .pooled
  have hdirect := hr.direct_le
  have hbound := c.directSize_lt
  have hcount := uncommitted_eq hr.sound
  exact takeAreas_finds_all _ _ _ _ (fun _ => by simp) ⟨fun _ => rfl,
    fun _ => rfl⟩ hr.sound.dmem hr.dmem
    (by omega) (by omega) hsize

end MemoryManager

/-- In every state the budget is the size of the uncommitted pool areas, a commit fails for lack
of memory exactly when fewer bytes are uncommitted except that it also fails when exactly as many
are, and the search finds as many bytes as are uncommitted. -/
theorem Reachable.pool_accounting (hc : c.Usable) {k : Kernel}
    (h : Reachable c (Kernel.Meets KeepsPool) k) :
    k.memory.poolBudget = k.memory.uncommitted ∧
      ∀ (addr size : ℕ) (prot : UInt32) (mtype : ℤ), k.memory.RoomForCommit addr size →
        (((∃ s, k.memory.poolCommit addr size prot mtype = .ok (s, .error .enomem)) ↔
          k.memory.uncommitted < size) ↔ size ≠ k.memory.uncommitted) ∧
        (size ≤ k.memory.uncommitted →
          ∃ g, k.memory.commitSearch (alignUp addr (kiB 64)) size mtype = .ok (g, 0)) := by
  obtain ⟨hr, hi⟩ := Reachable.invariant hc (fun _ h => h.poolExact) (fun _ _ _ _ => trivial)
    (fun _ _ _ hr hr' hi hadm hop he => he.poolExact hr hr' hi hadm hop) h
  have hbudget : k.memory.poolBudget = k.memory.uncommitted := by
    rw [uncommitted_eq hr.sound, hi.budget]
  refine ⟨hbudget, fun addr size prot mtype hroom => ⟨?_, fun hle => commitSearch_finds hr hle⟩⟩
  rw [poolCommit_enomem hroom, hbudget]
  omega

/-- A pool area of 2 MiB and 64 KiB of pool memory. -/
def poolRun : List GuestCall :=
  [.memoryPoolReserve 0x200000000 0x200000 0 0x10, .memoryPoolExpand 0 0x10000000 0x10000 0 true]

theorem Reachable.pool_accounting_poolRun :
    ∃ k, Reachable Config.oneRegion (Kernel.Meets KeepsPool) k ∧ k.memory.poolBudget = 0x10000 ∧
      k.memory.uncommitted = 0x10000 := by
  obtain ⟨k, hcalls, hbudget⟩ := Kernel.exists_callAll poolRun ⟨Config.oneRegion.construct, false⟩
    (fun k => k.memory.poolBudget = 0x10000) (by decide)
  have hk : Reachable Config.oneRegion (Kernel.Meets KeepsPool) k := by
    refine (Reachable.boot .fresh).callAll ?_ hcalls
    intro call hcall k op hop
    fin_cases hcall <;> cases hop
    · trivial
    · exact show PoolSearchFits 0 0 by unfold PoolSearchFits; omega
  exact ⟨k, hk, hbudget, hbudget ▸ (hk.pool_accounting Config.oneRegion_usable).1.symm⟩

/-- A commit of all the memory of the pool fails. -/
theorem Reachable.not_pool_accounting :
    ¬ ∀ c : Config, c.Usable → ∀ k, Reachable c (fun _ _ => True) k →
      k.memory.poolBudget = k.memory.uncommitted ∧
        ∀ (addr size : ℕ) (prot : UInt32) (mtype : ℤ), k.memory.RoomForCommit addr size →
          ((∃ s, k.memory.poolCommit addr size prot mtype = .ok (s, .error .enomem)) ↔
            k.memory.uncommitted < size) := by
  intro hall
  obtain ⟨k, hcalls, hbudget, hvalid, hfind⟩ := Kernel.exists_callAll poolRun
    ⟨Config.oneRegion.construct, false⟩ (fun k => k.memory.poolBudget = 0x10000 ∧
      k.memory.requireValidMapping 0x200000000 0x10000 = .ok () ∧
      (k.memory.findVMA 0x200000000).toOption.any (fun e => e.2.type = .poolReserved ∧
        e.2.contains 0x200000000 0x10000 = true) = true) (by decide)
  have hk : Reachable Config.oneRegion (fun _ _ => True) k :=
    (Reachable.boot .fresh).callAll (fun _ _ _ => trivial) hcalls
  obtain ⟨heq, hcommit⟩ := hall _ Config.oneRegion_usable k hk
  have hroom : k.memory.RoomForCommit 0x200000000 0x10000 := by
    refine ⟨hvalid, ?_⟩
    cases hf : k.memory.findVMA 0x200000000 with
    | error e =>
      rw [hf] at hfind
      cases hfind
    | ok e =>
      rw [hf] at hfind
      exact ⟨e.1, e.2, hf, of_decide_eq_true hfind⟩
  have hfail := (hcommit _ _ 0 0 hroom).mp ((poolCommit_enomem hroom).mpr hbudget.le)
  omega

end PS4Droid.Memory
