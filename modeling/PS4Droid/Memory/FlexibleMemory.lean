import PS4Droid.Memory.Gathering

/-!
# Flexible memory accounting

`flexible_usage` counts the flexible bytes of the flexible map and the addresses of
the flexible mappings, because each of these addresses has a flexible byte of its
own. Hence the size check of `MapMemory` leaves enough free bytes for its search.
`PoolDecommit` is the exception: it turns flexible addresses into reserved pool area
without returning their memory.
-/

namespace PS4Droid.Memory

open OrderedMap IntervalMap Segments MemoryManager

namespace MemoryManager

/-- The addresses of flexible mappings and the flexible bytes correspond one to one, and the usage
counts them. -/
structure FlexibleExact (s : MemoryManager) : Prop where
  typed : ∀ p, (∃ u, s.fmemAt p = some (u, .flexible)) ↔ s.Backs (fun _ => True) .flexible p
  types : ∀ p u d, s.fmemAt p = some (u, d) → d = .free ∨ d = .flexible
  once : ∀ x y p, s.cellAt x = some ⟨.flexible, some p⟩ → s.cellAt y = some ⟨.flexible, some p⟩ →
    x = y
  usage : s.flexibleUsage = s.countIn (fun _ => True) .flexible
  limit : s.flexibleUsage ≤ s.totalFlexibleSize

variable {c : Config} {s s' : MemoryManager}

namespace FlexibleExact

/-- Counted through the bytes, which correspond to the addresses. -/
theorem count_bytes (hs : s.Sound) (h : s.FlexibleExact) :
    {p | ∃ u, s.fmemAt p = some (u, .flexible)}.ncard = s.countIn (fun _ => True) .flexible := by
  symm
  have hback : ∀ x ∈ {x | True ∧ ∃ b, s.cellAt x = some ⟨.flexible, b⟩},
      ∃ p, s.cellAt x = some ⟨.flexible, some p⟩ := by
    rintro x ⟨-, b, hb⟩
    obtain ⟨p, rfl⟩ := hs.backed (by simp) hb
    exact ⟨p, hb⟩
  choose byte hbyte using hback
  refine Set.ncard_congr byte ?_ ?_ ?_
  · intro x hx
    exact (h.typed _).mpr ⟨x, trivial, hbyte x hx⟩
  · intro x y hx hy heq
    refine h.once x y _ (hbyte x hx) ?_
    rw [heq]
    exact hbyte y hy
  · intro p hp
    obtain ⟨x, -, hx⟩ := (h.typed p).mp hp
    have hmem : x ∈ {x | True ∧ ∃ b, s.cellAt x = some ⟨.flexible, b⟩} := ⟨trivial, _, hx⟩
    refine ⟨x, hmem, ?_⟩
    have heq := (hbyte x hmem).symm.trans hx
    simpa using heq

theorem usage_bytes (hs : s.Sound) (h : s.FlexibleExact) :
    s.flexibleUsage = total (PhysicalMemoryArea.bytesOf .flexible) s.fmemMap := by
  rw [total_bytesOf hs.fmem, h.usage, ← h.count_bytes hs]
  rfl

theorem free_bytes (hr : Regular c s) (h : s.FlexibleExact) :
    s.flexibleUsage + total (PhysicalMemoryArea.bytesOf .free) s.fmemMap = flexibleMemorySize := by
  have hall : {p | ∃ u, s.fmemAt p = some (u, .flexible)} ∪
      {p | ∃ u, s.fmemAt p = some (u, .free)} =
        {p | c.directSize ≤ p ∧ p < c.directSize + flexibleMemorySize} := by
    ext p
    have hcovers := hr.fmem.covers p
    rw [covers_iff_viewAt PhysicalMemoryArea.attributes] at hcovers
    constructor
    · rintro (⟨u, hu⟩ | ⟨u, hu⟩)
      all_goals exact hcovers.mp (Option.isSome_iff_exists.mpr ⟨_, hu⟩)
    · intro hp
      obtain ⟨⟨u, d⟩, hu⟩ := Option.isSome_iff_exists.mp (hcovers.mpr hp)
      rcases h.types p u d hu with rfl | rfl
      · exact .inr ⟨u, hu⟩
      · exact .inl ⟨u, hu⟩
  have hfin := finite_interval c.directSize flexibleMemorySize
  have hdisj : Disjoint {p | ∃ u, s.fmemAt p = some (u, .flexible)}
      {p | ∃ u, s.fmemAt p = some (u, .free)} := by
    rw [Set.disjoint_left]
    rintro p ⟨u, hu⟩ ⟨u', hu'⟩
    rw [hu] at hu'
    cases hu'
  have hcount := congrArg Set.ncard hall
  rw [ncard_interval, Set.ncard_union_eq hdisj
    (hfin.subset (hall ▸ Set.subset_union_left))
      (hfin.subset (hall ▸ Set.subset_union_right))] at hcount
  rw [h.usage_bytes hr.sound, total_bytesOf hr.sound.fmem, total_bytesOf hr.sound.fmem]
  exact hcount

theorem usage_le (hr : Regular c s) (h : s.FlexibleExact) :
    s.flexibleUsage ≤ flexibleMemorySize := by
  have := h.free_bytes hr
  omega

/-! ### What keeps the correspondence -/

/-- Steps that touch neither flexible addresses nor flexible memory. -/
theorem same (h : s.FlexibleExact)
    (hcell : ∀ x b, s'.cellAt x = some ⟨.flexible, b⟩ ↔ s.cellAt x = some ⟨.flexible, b⟩)
    (hf : s'.fmemMap = s.fmemMap) (hu : s'.flexibleUsage = s.flexibleUsage)
    (ht : s'.totalFlexibleSize = s.totalFlexibleSize) : s'.FlexibleExact where
  typed p := by
    rw [fmemAt, hf]
    refine (h.typed p).trans ?_
    simp only [Backs, true_and]
    exact exists_congr fun x => (hcell x (some p)).symm
  types p u d := by
    rw [fmemAt, hf]
    exact h.types p u d
  once x y p hx hy := h.once x y p ((hcell x _).mp hx) ((hcell y _).mp hy)
  usage := by
    rw [hu, h.usage]
    exact (countIn_congr fun x _ b => hcell x b).symm
  limit := by
    rw [hu, ht]
    exact h.limit

variable {R : ℕ → Prop} {addr size : ℕ} {flags : UInt32}

/-- Steps that change addresses which are not flexible before and after. -/
theorem frame (h : s.FlexibleExact) (hout : ∀ x, ¬ R x → s'.cellAt x = s.cellAt x)
    (hold : ∀ x, R x → ∀ b, s.cellAt x ≠ some ⟨.flexible, b⟩)
    (hnew : ∀ x, R x → ∀ b, s'.cellAt x ≠ some ⟨.flexible, b⟩)
    (hf : s'.fmemMap = s.fmemMap) (hu : s'.flexibleUsage = s.flexibleUsage)
    (ht : s'.totalFlexibleSize = s.totalFlexibleSize) : s'.FlexibleExact := by
  refine h.same (fun x b => ?_) hf hu ht
  by_cases hx : R x
  · exact ⟨fun hb => absurd hb (hnew x hx b), fun hb => absurd hb (hold x hx b)⟩
  · rw [hout x hx]

theorem unmaps (hs : s.Sound) (h : s.FlexibleExact) (hu : Unmaps s R s') :
    s'.FlexibleExact := by
  -- A flexible address of the new state is an old one outside of `R`.
  have hold : ∀ x b, s'.cellAt x = some ⟨.flexible, b⟩ →
      ¬ R x ∧ s.cellAt x = some ⟨.flexible, b⟩ := by
    intro x b hc
    by_cases hx : R x
    · rw [hu.cell_in x hx] at hc
      cases hc
    · exact ⟨hx, (hu.cell_out x hx).symm.trans hc⟩
  have hout : ∀ p, ¬ s.Backs R .flexible p → s'.fmemAt p = s.fmemAt p := hu.fmem_out
  have hsplit := countIn_split s R .flexible
  have hcount : s'.countIn (fun _ => True) .flexible = s.countIn (fun x => ¬ R x) .flexible := by
    unfold countIn
    congr 1
    ext x
    constructor
    · rintro ⟨-, b, hb⟩
      exact ⟨(hold x b hb).1, b, (hold x b hb).2⟩
    · rintro ⟨hx, b, hb⟩
      exact ⟨trivial, b, (hu.cell_out x hx).trans hb⟩
  have husage : s'.flexibleUsage = s.flexibleUsage - s.countIn R .flexible := by
    rw [hu.usage, sub64_eq hs.usage_lt (by rw [h.usage]; omega)]
  refine ⟨fun p => ?_, fun p u d hp => ?_, fun x y p hx hy => ?_, ?_, ?_⟩
  · constructor
    · rintro ⟨u, hp⟩
      by_cases hb : s.Backs R .flexible p
      · rw [hu.fmem_in p hb] at hp
        obtain ⟨a, -, ha⟩ := Option.map_eq_some_iff.mp hp
        cases ha
      · rw [hout p hb] at hp
        obtain ⟨x, -, hx⟩ := (h.typed p).mp ⟨u, hp⟩
        have hxR : ¬ R x := fun hR => hb ⟨x, hR, hx⟩
        exact ⟨x, trivial, (hu.cell_out x hxR).trans hx⟩
    · rintro ⟨x, -, hx⟩
      obtain ⟨hxR, hx⟩ := hold x _ hx
      have hb : ¬ s.Backs R .flexible p := by
        rintro ⟨y, hy, hcell⟩
        exact hxR (h.once y x p hcell hx ▸ hy)
      rw [hout p hb]
      exact (h.typed p).mpr ⟨x, trivial, hx⟩
  · by_cases hb : s.Backs R .flexible p
    · rw [hu.fmem_in p hb] at hp
      obtain ⟨a, -, ha⟩ := Option.map_eq_some_iff.mp hp
      cases ha
      exact .inl rfl
    · rw [hout p hb] at hp
      exact h.types p u d hp
  · exact h.once x y p (hold x _ hx).2 (hold y _ hy).2
  · rw [husage, hcount, h.usage]
    omega
  · rw [hu.totalFlexible, husage]
    have := h.limit
    omega

theorem cleared (hs : s.Sound) (h : s.FlexibleExact)
    (hc : Cleared s addr size flags s') : s'.FlexibleExact ∧ s'.flexibleUsage ≤ s.flexibleUsage ∧
      s'.totalFlexibleSize = s.totalFlexibleSize := by
  rcases hc with ⟨-, hu⟩ | ⟨-, rfl⟩
  · refine ⟨h.unmaps hs hu, ?_, hu.totalFlexible⟩
    have hle := countIn_split s (fun x => (addr ≤ x ∧ x < addr + size) ∧ s.Releasable x) .flexible
    rw [hu.usage, sub64_eq hs.usage_lt (by rw [h.usage]; omega)]
    exact Nat.sub_le _ _
  · exact ⟨h, le_rfl, rfl⟩

theorem attached {byte : ℕ → ℕ} (h : s.FlexibleExact)
    (ha : Attached .flexible (· = .free) (retag .flexible) s.fmemMap s'.fmemMap s addr size byte s')
    (hfree : ∀ x, addr ≤ x ∧ x < addr + size → s.cellAt x = some ⟨.free, none⟩)
    (hu : s'.flexibleUsage = s.flexibleUsage + size)
    (hl : s.flexibleUsage + size ≤ s'.totalFlexibleSize) : s'.FlexibleExact := by
  have hin : ∀ x, addr ≤ x ∧ x < addr + size → ∃ u, s'.fmemAt (byte x) = some (u, .flexible) := by
    intro x hx
    obtain ⟨u, d, hat, -⟩ := ha.available x hx
    refine ⟨u, ?_⟩
    rw [fmemAt, ha.attributes_in x hx, hat]
    rfl
  have hother : ∀ p, (∀ x, addr ≤ x ∧ x < addr + size → byte x ≠ p) → s'.fmemAt p = s.fmemAt p :=
    ha.attributes_out
  -- The new bytes were free, so no address had them before.
  have hnew : ∀ x y, addr ≤ x ∧ x < addr + size → s.cellAt y ≠ some ⟨.flexible, some (byte x)⟩ := by
    intro x y hx hy
    obtain ⟨u, hu⟩ := (h.typed _).mpr ⟨y, trivial, hy⟩
    obtain ⟨u', d, hat, rfl⟩ := ha.available x hx
    rw [fmemAt, hat] at hu
    cases hu
  have hout : ∀ x, ¬ (addr ≤ x ∧ x < addr + size) → ∀ b,
      s'.cellAt x = some ⟨.flexible, b⟩ ↔ s.cellAt x = some ⟨.flexible, b⟩ := by
    intro x hx b
    rw [ha.cell_out x hx]
  refine ⟨fun p => ?_, fun p u d hp => ?_, fun x y p hx hy => ?_, ?_, ?_⟩
  · by_cases hp : ∃ x, (addr ≤ x ∧ x < addr + size) ∧ byte x = p
    · obtain ⟨x, hx, rfl⟩ := hp
      exact ⟨fun _ => ⟨x, trivial, ha.cell_in x hx⟩, fun _ => hin x hx⟩
    · have hp' : ∀ x, addr ≤ x ∧ x < addr + size → byte x ≠ p := fun x hx heq => hp ⟨x, hx, heq⟩
      rw [hother p hp', h.typed p]
      constructor
      · rintro ⟨x, -, hx⟩
        have hxout : ¬ (addr ≤ x ∧ x < addr + size) := by
          intro hxin
          rw [hfree x hxin] at hx
          cases hx
        exact ⟨x, trivial, (ha.cell_out x hxout).trans hx⟩
      · rintro ⟨x, -, hx⟩
        rcases ha.cell_cases hx with ⟨hxin, -, rfl⟩ | hx
        · exact absurd rfl (hp' x hxin)
        · exact ⟨x, trivial, hx⟩
  · by_cases hp' : ∃ x, (addr ≤ x ∧ x < addr + size) ∧ byte x = p
    · obtain ⟨x, hx, rfl⟩ := hp'
      obtain ⟨u', hu'⟩ := hin x hx
      rw [hu'] at hp
      cases hp
      exact .inr rfl
    · rw [hother p fun x hx heq => hp' ⟨x, hx, heq⟩] at hp
      exact h.types p u d hp
  · exact ha.once hnew h.once hx hy
  · have hzero : s.countIn (fun x => addr ≤ x ∧ x < addr + size) .flexible = 0 := by
      refine countIn_eq_zero fun x hx b hb => ?_
      rw [hfree x hx] at hb
      cases hb
    rw [hu, h.usage, countIn_split s (fun x => addr ≤ x ∧ x < addr + size), hzero,
      countIn_split s' (fun x => addr ≤ x ∧ x < addr + size), countIn_congr hout,
      countIn_type fun x hx => ⟨_, ha.cell_in x hx⟩, if_pos rfl]
    omega
  · rw [hu]
    exact hl

/-- A mapping that passed the size check does not exceed the limit, and the sum does not wrap. -/
theorem checked {s₁ : MemoryManager} (hr : Regular c s)
    (h : s.FlexibleExact) (hc : Cleared s addr size flags s₁) (hpos : 0 < size)
    (hfree : ∀ x, addr ≤ x ∧ x < addr + size → s₁.cellAt x = some ⟨.free, none⟩)
    (hcheck : ¬ add64 s.flexibleUsage size > s.totalFlexibleSize) :
    s₁.flexibleUsage + size ≤ s₁.totalFlexibleSize ∧ s₁.flexibleUsage + size < 2 ^ 64 := by
  obtain ⟨h₁, hle, htotal⟩ := h.cleared hr.sound hc
  have hlast := (hr.cleared hc).low (addr + size - 1) (by rw [hfree _ (by omega)]; rfl)
  have husage := h.usage_le hr
  have hsmall : flexibleMemorySize < 2 ^ 63 := by norm_num [flexibleMemorySize, miB]
  rw [add64_eq (by omega)] at hcheck
  omega

theorem mapped {q : MapRequest} (h : s.FlexibleExact) (hm : Mapped q s addr s')
    (ht : SameTotals s s')
    (hfree : ∀ x, addr ≤ x ∧ x < addr + q.size → s.cellAt x = some ⟨.free, none⟩)
    (hcheck : q.type = .flexible →
      s.flexibleUsage + q.size ≤ s.totalFlexibleSize ∧ s.flexibleUsage + q.size < 2 ^ 64) :
    s'.FlexibleExact := by
  cases hm with
  | flexible byte hq ha hh hd hu =>
    obtain ⟨hlimit, hlt⟩ := hcheck hq
    rw [add64_eq hlt] at hu
    exact h.attached ha hfree hu (ht.totalFlexible ▸ hlimit)
  | direct hq hne hb ha hh hf hu =>
    have ha := ha (fun _ => True) fun _ _ _ _ _ => trivial
    exact h.frame ha.cell_out (fun x hx b => by simp [hfree x hx])
      (fun x hx b => by simp [ha.cell_in x hx]) hf hu ht.totalFlexible
  | plain hq hp =>
    exact h.frame hp.cell_out (fun x hx b => by simp [hfree x hx])
      (fun x hx b => by simp [hp.cell_in x hx, hq.2]) hp.fmemMap hp.usage ht.totalFlexible

end FlexibleExact

end MemoryManager

/-- An accepted `PoolDecommit` covers no flexible address. -/
def KeepsFlexible (s : MemoryManager) : Operation → Prop
  | .poolDecommit virtualAddr size =>
    s.DecommitAccepted virtualAddr.toNat size.toNat → ∀ x b,
      virtualAddr.toNat ≤ x ∧ x < virtualAddr.toNat + size.toNat → s.cellAt x ≠ some ⟨.flexible, b⟩
  | _ => True

variable {c : Config} {s s' : MemoryManager} {addr : ℕ}

theorem MemoryManager.MapsAt.totals {size : ℕ} {flags : UInt32} {s₁ : MemoryManager}
    (hm : MapsAt s addr size flags s₁ s') : SameTotals s₁ s' := by
  obtain ⟨ht, -⟩ := hm.cleared.totals
  exact ⟨hm.totalDirect.trans ht.totalDirect.symm, hm.totalFlexible.trans ht.totalFlexible.symm⟩

theorem Effect.flexibleExact {op : Operation} (hr : Regular c s) (h : s.FlexibleExact)
    (hop : KeepsFlexible s op) (he : Effect s op s') : s'.FlexibleExact := by
  cases he with
  | unchanged => exact h
  | map hm haccept hmapped =>
    obtain ⟨h₁, -, -⟩ := h.cleared hr.sound hm.cleared
    refine h₁.mapped hmapped hm.totals hm.free fun hq => ?_
    exact h.checked hr hm.cleared hm.bound.1 hm.free fun hgt => haccept.usage ⟨hq, hgt⟩
  | file hm _ hp =>
    obtain ⟨h₁, -, -⟩ := h.cleared hr.sound hm.cleared
    exact h₁.frame hp.cell_out (fun x hx b => by simp [hm.free x hx])
      (fun x hx b => by simp [hp.cell_in x hx]) hp.fmemMap hp.usage hm.totals.totalFlexible
  | unmap hu => exact h.unmaps hr.sound hu
  | free hf =>
    have hu := h.unmaps hr.sound hf.unmaps
    rw [hf.rest]
    exact hu.same (fun _ _ => Iff.rfl) rfl rfl rfl
  | commit hc =>
    exact h.frame hc.cell_out (fun x hx b => by simp [hc.reserved x hx])
      (fun x hx b => by simp [hc.cell_in x hx]) hc.fmemMap hc.usage hc.totalFlexible
  | decommit haccept hd =>
    exact h.frame hd.cell_out (fun x hx b => hop haccept x b hx)
      (fun x hx b => by simp [hd.cell_in x hx]) hd.fmemMap hd.usage hd.totalFlexible
  | attributes ha =>
    refine h.same (fun x b => ?_) ha.fmemMap ha.usage ha.totalFlexible
    rw [ha.cell x]
  | allocate | expand => exact h.same (fun _ _ => Iff.rfl) rfl rfl rfl

theorem Fresh.flexibleExact (h : Fresh c s) : s.FlexibleExact := by
  have hcell : ∀ x b, s.cellAt x ≠ some ⟨.flexible, b⟩ := fun x b hc => by cases h.cell_free hc
  have hfree : ∀ p u d, s.fmemAt p = some (u, d) → d = .free := by
    intro p u d hp
    obtain ⟨e, he, -, heq⟩ := viewAt_eq_some hp
    rw [h.fmemMap] at he
    obtain rfl := List.mem_singleton.mp he
    cases heq
    rfl
  refine ⟨fun p => ?_, fun p u d hp => .inl (hfree p u d hp), fun x y p hx => absurd hx (hcell x _),
    ?_, ?_⟩
  · constructor
    · rintro ⟨u, hu⟩
      cases hfree p u _ hu
    · rintro ⟨x, -, hx⟩
      exact absurd hx (hcell x _)
  · rw [h.flexibleUsage, countIn_eq_zero fun x _ b => hcell x b]
  · rw [h.flexibleUsage]
    exact Nat.zero_le _

/-! ### The search of `MapMemory` -/

/-- Once the size check has passed and the new area has been created, the search over the flexible
map finds all of its memory. -/
theorem MemoryManager.FlexibleExact.backArea {q : MapRequest} {handle : ℕ}
    (hr : Regular c s) (h : s.FlexibleExact) (hconf : s.totalFlexibleSize ≤ flexibleMemorySize)
    (hq : q.type = .flexible) (haddr : addr < 2 ^ 64) (hsize : q.size < 2 ^ 64)
    (hcheck : ¬ add64 s.flexibleUsage q.size > s.totalFlexibleSize)
    (hcreate : s.createArea addr q.size q.prot q.flags q.type q.name = .ok (s', handle)) :
    ∃ s₂, s'.backArea q handle = .ok s₂ := by
  obtain ⟨rfl, s₁, l, k, v, r, hp, rfl⟩ := createArea_spec hr.sound haddr hsize hcreate
  obtain ⟨h₁, -, htotal⟩ := h.cleared hr.sound hp.cleared
  have hr₁ := hr.cleared hp.cleared
  obtain ⟨hlimit, -⟩ := h.checked hr hp.cleared hp.bound.1 (fun x hx => hp.cell hx) hcheck
  have hfree := h₁.free_bytes hr₁
  have hstop : c.directSize + flexibleMemorySize < 2 ^ 64 := by
    have := c.directSize_lt
    norm_num [flexibleMemorySize, miB]
    omega
  obtain ⟨g, hg⟩ :=
    takeAreas_finds_all .free (fun a => { a with dmaType := .flexible }) handle s₁.host
    (fun _ => by simp) ⟨fun _ => rfl, fun _ => rfl⟩ hr₁.sound.fmem hr₁.fmem hstop hsize (by omega)
  have hnode := changed_node (f := newArea q.prot q.flags q.type q.name) hp.sound hp.around hp.part
  have hbase := (hp.newArea q.prot q.type q.name).1
  have hareas : (newArea q.prot q.flags q.type q.name (VMAMap.carved k v handle q.size)).physAreas =
      [] := rfl
  generalize newArea q.prot q.flags q.type q.name (VMAMap.carved k v handle q.size) = area at *
  unfold MemoryManager.backArea
  simp only [hnode, ok_bind]
  simp only [hq, hbase, hareas, hg, ok_bind]
  exact ⟨_, rfl⟩

/-- In every state the usage is the size of the flexible areas of both maps and stays within the
configured size, and the search of `MapMemory` finds all of its memory when that size does not
exceed the flexible map, as long as no flexible address is decommitted. -/
theorem Reachable.flexible_accounting (hc : c.Usable) {k : Kernel}
    (h : Reachable c (Kernel.Meets KeepsFlexible) k) :
    k.memory.flexibleUsage = total (PhysicalMemoryArea.bytesOf .flexible) k.memory.fmemMap ∧
      k.memory.flexibleUsage = total (VirtualMemoryArea.addressesOf .flexible) k.memory.vmaMap ∧
      k.memory.flexibleUsage ≤ k.memory.totalFlexibleSize ∧
      (k.memory.totalFlexibleSize ≤ flexibleMemorySize →
        ∀ (q : MapRequest) (addr : UInt64) (s : MemoryManager) (handle : ℕ), q.type = .flexible →
          q.size < 2 ^ 64 → ¬ add64 k.memory.flexibleUsage q.size > k.memory.totalFlexibleSize →
          k.memory.createArea addr.toNat q.size q.prot q.flags q.type q.name = .ok (s, handle) →
          ∃ s', s.backArea q handle = .ok s') := by
  obtain ⟨hr, hi⟩ := Reachable.invariant hc (fun _ h => h.flexibleExact) (fun _ _ _ _ => trivial)
    (fun _ _ _ hr _ hi _ hop he => he.flexibleExact hr hi hop) h
  refine ⟨hi.usage_bytes hr.sound, ?_, hi.limit, ?_⟩
  · rw [total_addressesOf hr.sound]
    exact hi.usage
  · intro hconf q addr s handle hq hsize hcheck hcreate
    exact hi.backArea hr hconf hq addr.toNat_lt hsize hcheck hcreate

/-- Flexible memory is mapped and its second half is unmapped. -/
theorem Reachable.flexible_accounting_halfUnmapped :
    ∃ k, Reachable Config.oneRegion (Kernel.Meets KeepsFlexible) k ∧
      k.memory.flexibleUsage = 0x4000 ∧
      total (VirtualMemoryArea.addressesOf .flexible) k.memory.vmaMap = 0x4000 := by
  obtain ⟨k, hcalls, husage⟩ := Kernel.exists_callAll
    [.mapNamedFlexibleMemory 0x200000000 0x8000 3 0x10 (some "heap"), .munmap 0x200004000 0x4000]
    ⟨Config.oneRegion.construct, false⟩ (fun k => k.memory.flexibleUsage = 0x4000)
    (by decide)
  have hk : Reachable Config.oneRegion (Kernel.Meets KeepsFlexible) k := by
    refine (Reachable.boot .fresh).callAll ?_ hcalls
    intro call hcall k op hop
    fin_cases hcall <;> cases hop <;> trivial
  exact ⟨k, hk, husage, husage ▸ (hk.flexible_accounting Config.oneRegion_usable).2.1.symm⟩

/-- The first half of a flexible mapping is decommitted: the area ends behind the range and passes
the check, and its memory is never returned. -/
theorem Reachable.not_flexible_accounting :
    ¬ ∀ c : Config, c.Usable → ∀ k, Reachable c (fun _ _ => True) k →
      k.memory.flexibleUsage = total (VirtualMemoryArea.addressesOf .flexible) k.memory.vmaMap := by
  intro hall
  obtain ⟨k, hcalls, hne⟩ := Kernel.exists_callAll
    [.mapNamedFlexibleMemory 0x200000000 0x20000 3 0x10 (some "heap"),
      .memoryPoolDecommit 0x200000000 0x10000]
    ⟨Config.oneRegion.construct, false⟩
    (fun k =>
      k.memory.flexibleUsage ≠ total (VirtualMemoryArea.addressesOf .flexible) k.memory.vmaMap)
    (by decide)
  have hk : Reachable Config.oneRegion (fun _ _ => True) k :=
    (Reachable.boot .fresh).callAll (fun _ _ _ => trivial) hcalls
  exact hne (hall _ Config.oneRegion_usable k hk)

end PS4Droid.Memory
