import PS4Droid.Memory.PhysicalTypes

/-!
# The types of direct memory match the mappings

A direct byte is mapped when a direct mapping covers it, committed when a pooled
mapping covers it, and free only when nothing covers it. The map of direct memory
keeps no reference counts, so an address that is unmapped must not share its byte
with an address that stays mapped, and neither may a release or a decommit take
memory that is still in use.
-/

namespace PS4Droid.Memory

open OrderedMap IntervalMap Segments MemoryManager

namespace MemoryManager

/-- Some area of type `t` records the byte `p` in its physical areas. -/
def CoveredBy (s : MemoryManager) (t : VMAType) (p : ℕ) : Prop :=
  ∃ e ∈ s.vmaMap, e.2.type = t ∧ ∃ off, byteAt e.2.physAreas off = some p

/-- What the types of the direct bytes say about the mappings. -/
structure TypesMatch (s : MemoryManager) : Prop where
  mapped : ∀ p, s.typeAt p = some .mapped ↔ (s.typeAt p).isSome ∧ s.CoveredBy .direct p
  committed : ∀ p, s.typeAt p = some .committed ↔ (s.typeAt p).isSome ∧ s.CoveredBy .pooled p
  free : ∀ p t, s.typeAt p = some .free → ¬ s.CoveredBy t p

/-- The correspondence of types and addresses, up to mapped bytes in `E`. -/
structure DirectExact (c : Config) (s : MemoryManager) (E : ℕ → Prop) : Prop where
  mapped : ∀ p, ¬ E p → (s.typeAt p = some .mapped ↔ s.Backs (fun _ => True) .direct p)
  committed : ∀ p, s.typeAt p = some .committed ↔ s.Backs (fun _ => True) .pooled p
  once : ∀ x y p, s.cellAt x = some ⟨.pooled, some p⟩ → s.cellAt y = some ⟨.pooled, some p⟩ → x = y
  flexible : ∀ x p, s.cellAt x = some ⟨.flexible, some p⟩ → c.directSize ≤ p

variable {c : Config} {s s' : MemoryManager} {E : ℕ → Prop} {p : ℕ}

theorem coveredBy_iff (hs : s.Sound) {t : VMAType} :
    s.CoveredBy t p ↔ s.Backs (fun _ => True) t p := by
  constructor
  · rintro ⟨⟨k, v⟩, he, rfl, off, hoff⟩
    have hb : v.hasPhysicalBacking = true := by
      by_contra hb
      have hnil : v.physAreas = [] := (hs.vma.wf _ he).unbacked (by simpa using hb)
      simp only at hoff
      rw [hnil] at hoff
      cases hoff
    have hcont : Contiguous 0 v.physAreas v.size := (hs.vma.wf _ he).backed hb
    have hlt := (hcont.byteAt_isSome off).mp (Option.isSome_iff_exists.mpr ⟨p, hoff⟩)
    refine ⟨k + off, trivial, ?_⟩
    rw [cellAt, VMAMap.cellAt_mem hs.vma he (x := k + off) (by simp only; omega)]
    simp only [VirtualMemoryArea.cell, if_pos hb, Nat.add_sub_cancel_left] at hoff ⊢
    rw [hoff]
  · rintro ⟨x, -, hx⟩
    obtain ⟨⟨k, v⟩, he, -, heq⟩ := VMAMap.cellAt_some hx
    simp only [VirtualMemoryArea.cell, Cell.mk.injEq] at heq
    obtain ⟨rfl, hbyte⟩ := heq
    split_ifs at hbyte
    exact ⟨(k, v), he, rfl, _, hbyte⟩

theorem typeAt_lt (hr : Regular c s) {d : PhysicalMemoryType} (h : s.typeAt p = some d) :
    p < c.directSize := by
  obtain ⟨u, hu⟩ := typeAt_eq_some.mp h
  have hcover := attributesAt_isSome_iff.mp (Option.isSome_iff_exists.mpr ⟨_, hu⟩)
  have hlt := (hr.dmem.covers p).mp hcover
  exact lt_of_lt_of_le hlt.2 hr.direct_le

theorem DirectExact.types (hr : Regular c s) (h : DirectExact c s fun _ => False) :
    s.TypesMatch := by
  refine ⟨fun p => ?_, fun p => ?_, fun p t hfree => ?_⟩
  · rw [coveredBy_iff hr.sound, ← h.mapped p not_false]
    exact ⟨fun hp => ⟨by simp [hp], hp⟩, fun hp => hp.2⟩
  · rw [coveredBy_iff hr.sound, ← h.committed p]
    exact ⟨fun hp => ⟨by simp [hp], hp⟩, fun hp => hp.2⟩
  · rw [coveredBy_iff hr.sound]
    rintro ⟨x, -, hx⟩
    obtain ⟨⟨k, v⟩, he, -, heq⟩ := VMAMap.cellAt_some hx
    simp only [VirtualMemoryArea.cell, Cell.mk.injEq] at heq
    obtain ⟨rfl, hbyte⟩ := heq
    split_ifs at hbyte with hb
    simp only [VirtualMemoryArea.hasPhysicalBacking, Bool.or_eq_true, beq_iff_eq] at hb
    -- Only direct, flexible and pooled areas have bytes at all.
    rcases hb with (hd | hf) | hp
    · rw [hd] at hx
      have := (h.mapped p not_false).mpr ⟨x, trivial, hx⟩
      rw [hfree] at this
      cases this
    · rw [hf] at hx
      have := h.flexible x p hx
      have := typeAt_lt hr hfree
      omega
    · rw [hp] at hx
      have := (h.committed p).mpr ⟨x, trivial, hx⟩
      rw [hfree] at this
      cases this

/-! ### What keeps the correspondence -/

/-- No direct address of `R` shares its byte with one outside of `R`, except for bytes in `E`. -/
def Unshared (s : MemoryManager) (R E : ℕ → Prop) : Prop :=
  ∀ x y p, R x → ¬ R y → s.cellAt x = some ⟨.direct, some p⟩ → s.cellAt y = some ⟨.direct, some p⟩ →
    E p

namespace DirectExact

theorem mono {E' : ℕ → Prop} (h : DirectExact c s E) (hE : ∀ p, E p → E' p) : DirectExact c s E' :=
  { h with mapped := fun p hp => h.mapped p fun he => hp (hE p he) }

variable {R : ℕ → Prop} {addr size physAddr : ℕ} {byte : ℕ → ℕ}

theorem unmaps (h : DirectExact c s fun _ => False) (hu : Unmaps s R s')
    (hshare : s.Unshared R E) : DirectExact c s' E := by
  have hmapped : ∀ p, s.Backs R .direct p → s.typeAt p = some .mapped := by
    rintro p ⟨x, -, hx⟩
    exact (h.mapped p not_false).mpr ⟨x, trivial, hx⟩
  have hpooled : ∀ x p, s'.cellAt x = some ⟨.pooled, some p⟩ ↔
    s.cellAt x = some ⟨.pooled, some p⟩ := by
    intro x p
    constructor
    · exact fun hx => (hu.cell_cases (by simp) hx).2
    · intro hx
      have hxR : ¬ R x := by
        intro hR
        obtain ⟨cell, hcell, -, hne⟩ := hu.releasable x hR
        rw [hx] at hcell
        cases hcell
        exact hne rfl
      exact (hu.cell_out x hxR).trans hx
  refine ⟨fun p hp => ?_, fun p => ?_, fun x y p hx hy => ?_, fun x p hx => ?_⟩
  · constructor
    · intro ht
      rcases hu.typeAt p with ⟨heq, hnot⟩ | ⟨heq, hb⟩
      · rw [heq] at ht
        obtain ⟨x, -, hx⟩ := (h.mapped p not_false).mp ht
        exact ⟨x, trivial, (hu.cell_out x fun hR => hnot ⟨x, hR, hx⟩).trans hx⟩
      · simp [heq, hmapped p hb] at ht
    · rintro ⟨y, -, hy⟩
      obtain ⟨hyR, hy⟩ := hu.cell_cases (by simp) hy
      rcases hu.typeAt p with ⟨heq, -⟩ | ⟨-, x, hxR, hx⟩
      · rw [heq]
        exact (h.mapped p not_false).mpr ⟨y, trivial, hy⟩
      · exact absurd (hshare x y p hxR hyR hx hy) hp
  · have hbacks : s'.Backs (fun _ => True) .pooled p ↔ s.Backs (fun _ => True) .pooled p :=
      exists_congr fun x => and_congr_right fun _ => hpooled x p
    rw [hbacks, ← h.committed p]
    rcases hu.typeAt p with ⟨heq, -⟩ | ⟨heq, hb⟩
    · rw [heq]
    · simp [heq, hmapped p hb]
  · exact h.once x y p ((hpooled x p).mp hx) ((hpooled y p).mp hy)
  · exact h.flexible x p (hu.cell_cases (by simp) hx).2

/-- Steps that touch neither direct and pooled addresses nor the types. -/
theorem same (h : DirectExact c s E) (hcell : ∀ x t p, t = .direct ∨ t = .pooled →
      (s'.cellAt x = some ⟨t, some p⟩ ↔ s.cellAt x = some ⟨t, some p⟩))
    (hflex : ∀ x p, s'.cellAt x = some ⟨.flexible, some p⟩ → c.directSize ≤ p)
    (htype : ∀ p, s'.typeAt p = s.typeAt p) : DirectExact c s' E := by
  have hbacks : ∀ t p, t = .direct ∨ t = .pooled →
      (s'.Backs (fun _ => True) t p ↔ s.Backs (fun _ => True) t p) := fun t p ht =>
    exists_congr fun x => and_congr_right fun _ => hcell x t p ht
  refine ⟨fun p hp => ?_, fun p => ?_, fun x y p hx hy => ?_, hflex⟩
  · rw [htype, hbacks _ _ (.inl rfl)]
    exact h.mapped p hp
  · rw [htype, hbacks _ _ (.inr rfl)]
    exact h.committed p
  · exact h.once x y p ((hcell x _ p (.inr rfl)).mp hx) ((hcell y _ p (.inr rfl)).mp hy)

/-- Steps that change addresses which are neither direct nor pooled before and after. -/
theorem frame (h : DirectExact c s E) (hout : ∀ x, ¬ R x → s'.cellAt x = s.cellAt x)
    (hold : ∀ x, R x → ∀ t p, t = .direct ∨ t = .pooled → s.cellAt x ≠ some ⟨t, some p⟩)
    (hnew : ∀ x, R x → ∀ t p, t = .direct ∨ t = .pooled → s'.cellAt x ≠ some ⟨t, some p⟩)
    (hflex : ∀ x, R x → ∀ p, s'.cellAt x = some ⟨.flexible, some p⟩ → c.directSize ≤ p)
    (htype : ∀ p, s'.typeAt p = s.typeAt p) : DirectExact c s' E := by
  refine h.same (fun x t p ht => ?_) (fun x p hx => ?_) htype
  · by_cases hR : R x
    · exact ⟨fun hx => absurd hx (hnew x hR t p ht), fun hx => absurd hx (hold x hR t p ht)⟩
    · rw [hout x hR]
  · by_cases hR : R x
    · exact hflex x hR p hx
    · rw [hout x hR] at hx
      exact h.flexible x p hx

theorem plain {type : VMAType} (h : DirectExact c s E) (hm : MapsPlain type s addr size s')
    (hfree : ∀ x, addr ≤ x ∧ x < addr + size → s.cellAt x = some ⟨.free, none⟩) :
    DirectExact c s' E := by
  refine h.frame hm.cell_out (fun x hx t p _ hc => ?_) (fun x hx t p _ hc => ?_)
    (fun x hx p hc => ?_) fun p => typeAt_congr (by rw [dmemAt, hm.dmemMap, dmemAt])
  · rw [hfree x hx] at hc
    cases hc
  · rw [hm.cell_in x hx] at hc
    cases hc
  · rw [hm.cell_in x hx] at hc
    cases hc

/-- A direct mapping makes its bytes mapped, whatever was wrong with them before. -/
theorem direct (h : DirectExact c s E) (hE : ∀ p, E p → physAddr ≤ p ∧ p < physAddr + size)
    (ha : Attached .direct (fun d => d = .allocated ∨ d = .mapped) (retag .mapped) s.dmemMap
      s'.dmemMap s addr size (fun x => physAddr + (x - addr)) s')
    (hfree : ∀ x, addr ≤ x ∧ x < addr + size → s.cellAt x = some ⟨.free, none⟩) :
    DirectExact c s' fun _ => False := by
  have hin : ∀ p, physAddr ≤ p ∧ p < physAddr + size → s'.typeAt p = some .mapped ∧
      s.typeAt p ≠ some .committed ∧
        s'.cellAt (addr + (p - physAddr)) = some ⟨.direct, some p⟩ := by
    intro p hp
    have hx : addr ≤ addr + (p - physAddr) ∧ addr + (p - physAddr) < addr + size := by omega
    have hbyte : physAddr + (addr + (p - physAddr) - addr) = p := by omega
    obtain ⟨t, d, hat, hd⟩ := ha.available _ hx
    have hattr := ha.attributes_in _ hx
    have hcell := ha.cell_in _ hx
    simp only [hbyte] at hat hattr hcell
    have hold : s.typeAt p = some d := typeAt_of_dmemAt hat
    refine ⟨?_, ?_, hcell⟩
    · rw [typeAt_retag hattr, hold]
      rfl
    · rcases hd with rfl | rfl <;> simp [hold]
  have hout : ∀ p, ¬ (physAddr ≤ p ∧ p < physAddr + size) → s'.typeAt p = s.typeAt p := fun p hp =>
    typeAt_congr (ha.attributes_out p fun x hx heq => hp (by omega))
  have hcell : ∀ x t p, s'.cellAt x = some ⟨t, some p⟩ →
      t = .direct ∧ (physAddr ≤ p ∧ p < physAddr + size) ∨ s.cellAt x = some ⟨t, some p⟩ := by
    intro x t p hx
    exact (ha.cell_cases hx).imp_left fun ⟨hr, ht, hp⟩ => ⟨ht, by omega⟩
  have hkeep : ∀ x t p, s.cellAt x = some ⟨t, some p⟩ → s'.cellAt x = some ⟨t, some p⟩ := by
    intro x t p hx
    have hr : ¬ (addr ≤ x ∧ x < addr + size) := by
      intro hr
      rw [hfree x hr] at hx
      cases hx
    exact (ha.cell_out x hr).trans hx
  have hpool : ∀ x p, s'.cellAt x = some ⟨.pooled, some p⟩ → s.cellAt x = some ⟨.pooled, some p⟩ :=
    fun x p hx => (hcell x _ p hx).resolve_left fun hd => by cases hd.1
  refine ⟨fun p _ => ?_, fun p => ?_, fun x y p hx hy => ?_, fun x p hx => ?_⟩
  · by_cases hp : physAddr ≤ p ∧ p < physAddr + size
    · exact ⟨fun _ => ⟨_, trivial, (hin p hp).2.2⟩, fun _ => (hin p hp).1⟩
    · rw [hout p hp, h.mapped p fun he => hp (hE p he)]
      constructor
      · rintro ⟨x, -, hx⟩
        exact ⟨x, trivial, hkeep x _ p hx⟩
      · rintro ⟨x, -, hx⟩
        exact ⟨x, trivial, (hcell x _ p hx).resolve_left fun hd => hp hd.2⟩
  · have hbacks : s'.Backs (fun _ => True) .pooled p ↔ s.Backs (fun _ => True) .pooled p :=
      exists_congr fun x => and_congr_right fun _ => ⟨hpool x p, hkeep x _ p⟩
    rw [hbacks, ← h.committed p]
    by_cases hp : physAddr ≤ p ∧ p < physAddr + size
    · simp [(hin p hp).1, (hin p hp).2.1]
    · rw [hout p hp]
  · exact h.once x y p (hpool x p hx) (hpool y p hy)
  · rcases hcell x _ p hx with ⟨hd, -⟩ | hx
    · cases hd
    · exact h.flexible x p hx

/-- A flexible mapping takes its bytes from behind the direct memory. -/
theorem flexibleMapped (hr : Regular c s) (h : DirectExact c s E)
    (ha : Attached .flexible (· = .free) (retag .flexible) s.fmemMap s'.fmemMap s addr size byte s')
    (hd : s'.dmemMap = s.dmemMap)
    (hfree : ∀ x, addr ≤ x ∧ x < addr + size → s.cellAt x = some ⟨.free, none⟩) :
    DirectExact c s' E := by
  refine h.frame ha.cell_out (fun x hx t p _ hc => ?_) (fun x hx t p ht hc => ?_)
    (fun x hx p hc => ?_) fun p => typeAt_congr (by rw [dmemAt, hd, dmemAt])
  · rw [hfree x hx] at hc
    cases hc
  · rw [ha.cell_in x hx] at hc
    cases hc
    simp at ht
  · rw [ha.cell_in x hx] at hc
    cases hc
    obtain ⟨t, d, hat, -⟩ := ha.available x hx
    have hcover := attributesAt_isSome_iff.mp (Option.isSome_iff_exists.mpr ⟨_, hat⟩)
    exact ((hr.fmem.covers _).mp hcover).1

theorem mapped_by {q : MapRequest} (hr : Regular c s) (h : DirectExact c s E)
    (hm : Mapped q s addr s')
    (hfree : ∀ x, addr ≤ x ∧ x < addr + q.size → s.cellAt x = some ⟨.free, none⟩)
    (hE : ∀ p, E p → q.type = .direct ∧ q.physAddr ≤ p ∧ p < q.physAddr + q.size)
    (hrange : q.type = .direct → q.physAddr + q.size < 2 ^ 64 → ∀ p, q.physAddr ≤ p ∧
      p < q.physAddr + q.size → ∀ d, s.typeAt p = some d → d = .allocated ∨ d = .mapped) :
    DirectExact c s' fun _ => False := by
  cases hm with
  | flexible byte hq ha hh hd hu =>
    refine (h.flexibleMapped hr ha hd hfree).mono fun p hp => ?_
    have ht := (hE p hp).1
    rw [hq] at ht
    cases ht
  | direct hq hne hbound ha hh hf hu =>
    exact h.direct (fun p hp => (hE p hp).2) (ha _ fun p t d hp hd =>
      hrange hq hbound p hp d (typeAt_of_dmemAt hd)) hfree
  | plain hq hp =>
    refine (h.plain hp hfree).mono fun p hp => ?_
    exact hq.1 (hE p hp).1

theorem commits {mtype : ℤ} {mapped : ℕ} (h : DirectExact c s E)
    (hc : Commits mtype s addr mapped size byte s') : DirectExact c s' E := by
  have hin : ∀ x, addr ≤ x ∧ x < addr + size →
      s.typeAt (byte x) = some .pooled ∧ s'.typeAt (byte x) = some .committed := by
    intro x hx
    obtain ⟨t, d, hat, rfl⟩ := hc.available x hx
    have hattr := hc.attributes_in x hx
    rw [hat] at hattr
    exact ⟨typeAt_of_dmemAt hat, typeAt_of_dmemAt hattr⟩
  have hout : ∀ p, (∀ x, addr ≤ x ∧ x < addr + size → byte x ≠ p) → s'.typeAt p = s.typeAt p :=
    fun p hp => typeAt_congr (hc.attributes_out p hp)
  have hkeep : ∀ x t p, s.cellAt x = some ⟨t, some p⟩ → s'.cellAt x = some ⟨t, some p⟩ := by
    intro x t p hx
    have hr : ¬ (addr ≤ x ∧ x < addr + size) := by
      intro hr
      rw [hc.reserved x hr] at hx
      cases hx
    exact (hc.cell_out x hr).trans hx
  -- The new bytes were not committed, so no address had them before.
  have hnew : ∀ x y, addr ≤ x ∧ x < addr + size → s.cellAt y ≠ some ⟨.pooled, some (byte x)⟩ := by
    intro x y hx hy
    have ht := (h.committed _).mpr ⟨y, trivial, hy⟩
    rw [(hin x hx).1] at ht
    cases ht
  refine ⟨fun p hp => ?_, fun p => ?_, fun x y p hx hy => ?_, fun x p hx => ?_⟩
  · have hbacks : s'.Backs (fun _ => True) .direct p ↔ s.Backs (fun _ => True) .direct p :=
      exists_congr fun x => and_congr_right fun _ =>
        ⟨fun hx => (hc.cell_cases hx).resolve_left fun hd => by simp at hd, hkeep x _ p⟩
    rw [hbacks, ← h.mapped p hp]
    by_cases hb : ∃ x, (addr ≤ x ∧ x < addr + size) ∧ byte x = p
    · obtain ⟨x, hx, rfl⟩ := hb
      simp [(hin x hx).1, (hin x hx).2]
    · rw [hout p fun x hx heq => hb ⟨x, hx, heq⟩]
  · by_cases hb : ∃ x, (addr ≤ x ∧ x < addr + size) ∧ byte x = p
    · obtain ⟨x, hx, rfl⟩ := hb
      exact ⟨fun _ => ⟨x, trivial, hc.cell_in x hx⟩, fun _ => (hin x hx).2⟩
    · rw [hout p fun x hx heq => hb ⟨x, hx, heq⟩, h.committed p]
      exact exists_congr fun x => and_congr_right fun _ =>
        ⟨hkeep x _ p, fun hx => (hc.cell_cases hx).resolve_left fun hd => hb ⟨x, hd.1, hd.2.2⟩⟩
  · exact hc.once hnew h.once hx hy
  · rcases hc.cell_cases hx with ⟨-, hd, -⟩ | hx
    · cases hd
    · exact h.flexible x p hx

theorem decommits (h : DirectExact c s E) (hd : Decommits s addr size s')
    (hkept : ∀ x p, addr ≤ x ∧ x < addr + size → s.cellAt x = some ⟨.direct, some p⟩ →
      ∃ y, ¬ (addr ≤ y ∧ y < addr + size) ∧ s.cellAt y = some ⟨.direct, some p⟩) :
        DirectExact c s' E := by
  have hback : ∀ p, s.Backs (fun x => addr ≤ x ∧ x < addr + size) .pooled p →
      s.typeAt p = some .committed ∧ s'.typeAt p = some .pooled := by
    intro p hp
    have htype := typeAt_retag (hd.dmem_in p hp)
    obtain ⟨x, -, hx⟩ := hp
    have hold := (h.committed p).mpr ⟨x, trivial, hx⟩
    rw [hold] at htype
    exact ⟨hold, htype⟩
  have hout : ∀ p, ¬ s.Backs (fun x => addr ≤ x ∧ x < addr + size) .pooled p →
      s'.typeAt p = s.typeAt p := fun p hp => typeAt_congr (hd.dmem_out p hp)
  refine ⟨fun p hp => ?_, fun p => ?_, fun x y p hx hy => ?_, fun x p hx => ?_⟩
  · have hbacks : s'.Backs (fun _ => True) .direct p ↔ s.Backs (fun _ => True) .direct p := by
      constructor
      · rintro ⟨x, -, hx⟩
        exact ⟨x, trivial, (hd.cell_iff.mp hx).2⟩
      · rintro ⟨x, -, hx⟩
        by_cases hin : addr ≤ x ∧ x < addr + size
        · obtain ⟨y, hy⟩ := hkept x p hin hx
          exact ⟨y, trivial, hd.cell_iff.mpr hy⟩
        · exact ⟨x, trivial, hd.cell_iff.mpr ⟨hin, hx⟩⟩
    rw [hbacks, ← h.mapped p hp]
    by_cases hb : s.Backs (fun x => addr ≤ x ∧ x < addr + size) .pooled p
    · simp [(hback p hb).1, (hback p hb).2]
    · rw [hout p hb]
  · by_cases hb : s.Backs (fun x => addr ≤ x ∧ x < addr + size) .pooled p
    · rw [(hback p hb).2]
      constructor
      · intro habs
        cases habs
      · rintro ⟨y, -, hy⟩
        obtain ⟨hyout, hy⟩ := hd.cell_iff.mp hy
        obtain ⟨x, hx, hcx⟩ := hb
        exact absurd (h.once x y p hcx hy ▸ hx) hyout
    · rw [hout p hb, h.committed p]
      constructor
      · rintro ⟨x, -, hx⟩
        exact ⟨x, trivial, hd.cell_iff.mpr ⟨fun hin => hb ⟨x, hin, hx⟩, hx⟩⟩
      · rintro ⟨x, -, hx⟩
        exact ⟨x, trivial, (hd.cell_iff.mp hx).2⟩
  · exact h.once x y p (hd.cell_iff.mp hx).2 (hd.cell_iff.mp hy).2
  · exact h.flexible x p (hd.cell_iff.mp hx).2

theorem takesFree {t : ℤ × PhysicalMemoryType} {m : PhysMap} (h : DirectExact c s E)
    (ht : TakesFree t s addr size m) (hm : s'.dmemMap = m) (hcell : ∀ x, s'.cellAt x = s.cellAt x)
    (hne : t.2 ≠ .mapped ∧ t.2 ≠ .committed) : DirectExact c s' E := by
  have hbacks : ∀ t p, s'.Backs (fun _ => True) t p ↔ s.Backs (fun _ => True) t p := by
    intro t p
    simp only [Backs, hcell]
  refine ⟨fun p hp => ?_, fun p => ?_, fun x y p hx hy => ?_, fun x p hx => ?_⟩
  · rw [hbacks, ← h.mapped p hp]
    rcases ht.typeAt hm p with ⟨-, hfree, heq⟩ | ⟨-, heq⟩
    · simp [hfree, heq, hne.1]
    · rw [heq]
  · rw [hbacks, ← h.committed p]
    rcases ht.typeAt hm p with ⟨-, hfree, heq⟩ | ⟨-, heq⟩
    · simp [hfree, heq, hne.2]
    · rw [heq]
  · rw [hcell] at hx hy
    exact h.once x y p hx hy
  · rw [hcell] at hx
    exact h.flexible x p hx

theorem frees {isChecked : Bool} {s₁ : MemoryManager} {F : ℕ → Prop}
    (hs : s.Sound) (h : DirectExact c s fun _ => False)
    (hf : Frees s physAddr size isChecked s₁ F s') (hr : s.ReleaseUnmaps physAddr size)
    (hshare : s.Unshared (InRanges (removeList s.vmaMap physAddr size)) fun _ => False)
    (hpool : ∀ p, s.MayFree physAddr size p → s.typeAt p ≠ some .committed) :
    DirectExact c s' fun _ => False := by
  have h₁ := h.unmaps hf.unmaps hshare
  have hcell : ∀ x, s'.cellAt x = s₁.cellAt x := by
    intro x
    rw [hf.rest]
    rfl
  have hbacks : ∀ t p, s'.Backs (fun _ => True) t p ↔ s₁.Backs (fun _ => True) t p := by
    intro t p
    simp only [Backs, hcell]
  have hfree : ∀ p, F p → s'.typeAt p = some .free := fun p hp => typeAt_of_dmemAt (hf.dmem_in p hp)
  have hkeep : ∀ p, ¬ F p → s'.typeAt p = s₁.typeAt p := fun p hp => typeAt_congr (hf.dmem_out p hp)
  refine ⟨fun p hp => ?_, fun p => ?_, fun x y p hx hy => ?_, fun x p hx => ?_⟩
  · rw [hbacks]
    by_cases hF : F p
    · rw [hfree p hF]
      constructor
      · intro habs
        cases habs
      · rintro ⟨x, -, hx⟩
        exact absurd hx (hf.unmapped hs hr hF)
    · rw [hkeep p hF]
      exact h₁.mapped p hp
  · rw [hbacks, ← h₁.committed p]
    by_cases hF : F p
    · obtain ⟨hle, hmay, t, ht, -⟩ := hf.released p hF
      have hnot := hpool p ⟨hle, hmay⟩
      rcases hf.unmaps.typeAt p with ⟨heq, -⟩ | ⟨heq, -⟩
      · simp [hfree p hF, heq, hnot]
      · simp [hfree p hF, heq, ht]
    · rw [hkeep p hF]
  · rw [hcell] at hx hy
    exact h₁.once x y p hx hy
  · rw [hcell] at hx
    exact h₁.flexible x p hx

end DirectExact

theorem DirectExact.cleared {addr size : ℕ} {flags : UInt32} (h : DirectExact c s fun _ => False)
    (hc : Cleared s addr size flags s') (hshare : hasFlag flags MemoryMapFlags.fixed = true →
      s.Unshared (fun x => addr ≤ x ∧ x < addr + size) E) : DirectExact c s' E := by
  rcases hc with ⟨hfixed, hu⟩ | ⟨-, rfl⟩
  · refine h.unmaps hu fun x y p hx hy hcx hcy =>
      hshare hfixed x y p hx.1 (fun hin => hy ⟨hin, ?_⟩) hcx hcy
    exact ⟨_, hcy, by simp, by simp⟩
  · exact h.mono fun _ hp => hp.elim

end MemoryManager

/-- What the calls must respect: an unmapped address shares its direct byte with no address that
stays mapped, unless the call maps that byte again; a release frees no byte that is committed or
stays mapped; a decommit leaves no direct byte without an address; and the search address of an
expansion can be aligned. -/
def KeepsTypes (s : MemoryManager) : Operation → Prop
  | .mapMemory virtualAddr size prot flags type name validateDmem physAddr alignment =>
    ∀ addr, s.MapAccepted
        { virtualAddr := virtualAddr.toNat, size := size.toNat, prot, flags, type, name,
          validateDmem, physAddr := physAddr.toNat, alignment := alignment.toNat } addr →
      hasFlag flags MemoryMapFlags.fixed = true →
      s.Unshared (fun x => addr ≤ x ∧ x < addr + size.toNat) fun p =>
        type = .direct ∧ physAddr.toNat ≤ p ∧ p < physAddr.toNat + size.toNat
  | .mapFile virtualAddr size _ flags _ _ _ =>
    ∀ addr, s.placeMapping virtualAddr.toNat size.toNat flags (kiB 16) = .ok (some addr) →
      hasFlag flags MemoryMapFlags.fixed = true →
      s.Unshared (fun x => addr ≤ x ∧ x < addr + size.toNat) fun _ => False
  | .unmapMemory virtualAddr size =>
    s.Unshared (fun x => alignDown virtualAddr.toNat (kiB 16) ≤ x ∧
      x < alignDown virtualAddr.toNat (kiB 16) + alignUp size.toNat (kiB 16)) fun _ => False
  | .free physAddr size isChecked => s.ReleaseAccepted physAddr.toNat size.toNat isChecked →
    s.ReleaseUnmaps physAddr.toNat size.toNat ∧
      s.Unshared (InRanges (removeList s.vmaMap physAddr.toNat size.toNat)) (fun _ => False) ∧
      ∀ p, s.MayFree physAddr.toNat size.toNat p → s.typeAt p ≠ some .committed
  | .poolDecommit virtualAddr size => s.DecommitAccepted virtualAddr.toNat size.toNat →
    ∀ x p, virtualAddr.toNat ≤ x ∧ x < virtualAddr.toNat + size.toNat →
      s.cellAt x = some ⟨.direct, some p⟩ →
      ∃ y, ¬ (virtualAddr.toNat ≤ y ∧ y < virtualAddr.toNat + size.toNat) ∧
        s.cellAt y = some ⟨.direct, some p⟩
  | .poolExpand searchStart _ _ alignment => PoolSearchFits searchStart.toNat alignment.toNat
  | _ => True

variable {c : Config} {s s' : MemoryManager}

theorem Effect.directExact {op : Operation} (hr : Regular c s) (h : DirectExact c s fun _ => False)
    (hadm : op.Admitted) (hop : KeepsTypes s op) (he : Effect s op s') :
    DirectExact c s' fun _ => False := by
  cases he with
  | unchanged => exact h
  | map hm haccept hmapped =>
    have h₁ := h.cleared hm.cleared (hop _ haccept)
    refine h₁.mapped_by (hr.cleared hm.cleared) hmapped hm.free
      (fun p hp => hp) fun hq hbound p hp => ?_
    refine hm.cleared.allocated fun d hd => ?_
    obtain ⟨u, hu⟩ := typeAt_eq_some.mp hd
    exact (checkPhysicalRange_types hr.sound (hadm.2 hq) hbound haccept.range hp hu).1
  | file hm hplace hp => exact (h.cleared hm.cleared (hop _ hplace)).plain hp hm.free
  | unmap hu =>
    refine h.unmaps hu fun x y p hx hy hcx hcy => hop x y p hx.1 (fun hin => hy ⟨hin, ?_⟩) hcx hcy
    exact ⟨_, hcy, by simp, by simp⟩
  | free hf =>
    obtain ⟨hunmaps, hshare, hpool⟩ := hop hf.accepted
    exact h.frees hr.sound hf hunmaps hshare hpool
  | commit hc => exact h.commits hc
  | decommit haccept hd => exact h.decommits hd (hop haccept)
  | attributes ha =>
    refine h.same (fun x t p _ => by rw [ha.cell]) (fun x p hx => ?_) ha.types
    rw [ha.cell] at hx
    exact h.flexible x p hx
  | allocate ht => exact h.takesFree ht rfl (fun _ => rfl) ⟨by simp, by simp⟩
  | expand _ ht => exact h.takesFree (ht hop) rfl (fun _ => rfl) ⟨by simp, by simp⟩

theorem Fresh.directExact (h : Fresh c s) : DirectExact c s fun _ => False := by
  have hcell : ∀ x t p, s.cellAt x ≠ some ⟨t, some p⟩ := fun x t p hc => by cases h.cell_free hc
  have hbacks : ∀ t p, ¬ s.Backs (fun _ => True) t p := fun t p ⟨x, _, hx⟩ => hcell x t p hx
  refine ⟨fun p _ => ?_, fun p => ?_, fun x y p hx => absurd hx (hcell x _ p),
    fun x p hx => absurd hx (hcell x _ p)⟩
  · exact ⟨fun hp => absurd (h.type_free hp) (by simp), fun hp => absurd hp (hbacks _ p)⟩
  · exact ⟨fun hp => absurd (h.type_free hp) (by simp), fun hp => absurd hp (hbacks _ p)⟩

/-- In every state that such calls reach, the types of the direct bytes match the mappings. -/
theorem Reachable.typesMatch (hc : c.Usable) {k : Kernel}
    (h : Reachable c (Kernel.Meets KeepsTypes) k) : k.memory.TypesMatch := by
  obtain ⟨hr, hi⟩ := Reachable.invariant hc (fun _ h => h.directExact) (fun _ _ _ _ => trivial)
    (fun _ _ _ hr _ hi hadm hop he => he.directExact hr hi hadm hop) h
  exact hi.types hr

theorem Reachable.typesMatch_directMap :
    ∃ k, Reachable Config.oneRegion (Kernel.Meets KeepsTypes) k ∧
      k.memory.typeAt 0 = some .mapped ∧ k.memory.CoveredBy .direct 0 := by
  obtain ⟨k, hcalls, htype⟩ := Kernel.exists_callAll
    [.allocateDirectMemory 0 0x10000000 0x4000 0 0 true,
      .mapNamedDirectMemory 0x200000000 0x4000 3 0 0 0 "buffer"]
    ⟨Config.oneRegion.construct, false⟩ (fun k => k.memory.typeAt 0 = some .mapped)
    (by decide)
  have hk : Reachable Config.oneRegion (Kernel.Meets KeepsTypes) k := by
    refine (Reachable.boot .fresh).callAll ?_ hcalls
    intro call hcall k op hop
    fin_cases hcall <;> cases hop
    · trivial
    · intro addr _ hfixed
      cases hfixed
  exact ⟨k, hk, htype, ((hk.typesMatch Config.oneRegion_usable).mapped 0 |>.mp htype).2⟩

/-- A page of direct memory is mapped twice and one of the mappings is removed: the page counts as
allocated although the other mapping still covers it. -/
theorem Reachable.not_typesMatch :
    ¬ ∀ c : Config, c.Usable → ∀ k, Reachable c (fun _ _ => True) k → k.memory.TypesMatch := by
  intro hall
  obtain ⟨k, hcalls, htype, e, he, hdirect, hbyte⟩ := Kernel.exists_callAll
    [.enableDmemAliasing, .allocateDirectMemory 0 0x10000000 0x4000 0 0 true,
      .mapNamedDirectMemory 0x200000000 0x4000 3 0x10 0 0 "first",
      .mapNamedDirectMemory 0x200010000 0x4000 3 0x10 0 0 "second",
      .munmap 0x200000000 0x4000]
    ⟨Config.oneRegion.construct, false⟩ (fun k => k.memory.typeAt 0 = some .allocated ∧
      ∃ e ∈ k.memory.vmaMap, e.2.type = .direct ∧ byteAt e.2.physAreas 0 = some 0)
    (by decide +kernel)
  have hk : Reachable Config.oneRegion (fun _ _ => True) k :=
    (Reachable.boot .fresh).callAll (fun _ _ _ => trivial) hcalls
  have hmapped := ((hall _ Config.oneRegion_usable k hk).mapped 0).mpr
    ⟨by simp [htype], e, he, hdirect, 0, hbyte⟩
  rw [htype] at hmapped
  cases hmapped

end PS4Droid.Memory
