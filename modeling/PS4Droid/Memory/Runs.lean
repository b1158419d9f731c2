import PS4Droid.Memory.Steps

/-!
# Invariants of guest runs

A property of the memory manager holds in every state that the guest reaches when
it holds at the start and every effect keeps it. The guest's calls may be
restricted by a condition on the state in which they are made.
-/

namespace PS4Droid.Memory

open OrderedMap IntervalMap Segments MemoryManager

/-! ### The layout -/

variable {m : PhysMap} {x page : ℕ} {op : Operation} {reply : Reply} {flags : UInt32}
  {value : UInt64} {k k' : Kernel} {call : GuestCall} {I : MemoryManager → Prop}
  {P : Kernel → GuestCall → Prop}

theorem contiguous_of_covers {start stop : ℕ} (hv : PhysMap.Valid m)
    (hle : start ≤ stop) (h : ∀ p, Covers physKind.size m p ↔ start ≤ p ∧ p < stop) :
    Contiguous start m stop := by
  induction m generalizing start with
  | nil =>
    have := (h start).mpr.mt (by simp)
    change start = stop
    omega
  | cons e rest ih =>
    obtain ⟨k, a⟩ := e
    have hpos : 0 < a.size := hv.tiling.pos (k, a) (by simp)
    have hwf : a.Bounded := hv.wf (k, a) (by simp)
    have hlater : ∀ f ∈ rest, k + a.size ≤ f.1 := fun f hf =>
      (List.pairwise_cons.mp hv.tiling.apart).1 f hf
    have hcover : ∀ p, Covers physKind.size ((k, a) :: rest) p ↔
        (k ≤ p ∧ p < k + a.size) ∨ Covers physKind.size rest p := fun p => covers_cons
    have hrest : ∀ p, Covers physKind.size rest p → k + a.size ≤ p := by
      rintro p ⟨f, hf, hw⟩
      exact (hlater f hf).trans hw.1
    have hk := (h k).mp ((hcover k).mpr (.inl (by omega)))
    have hlast := (h (k + a.size - 1)).mp ((hcover _).mpr (.inl (by omega)))
    have hstart : k = start := by
      rcases (hcover start).mp ((h start).mpr (by omega)) with hin | hin
      · omega
      · have := hrest start hin
        omega
    refine ⟨hstart, hpos, hwf, ih (hv.right (l := [(k, a)])) (by omega) fun p => ?_⟩
    constructor
    · intro hp
      have hge := hrest p hp
      have := (h p).mp ((hcover p).mpr (.inr hp))
      omega
    · intro hp
      refine ((hcover p).mp ((h p).mpr (by omega))).resolve_left ?_
      omega

/-- What `AddressSpace::GetUsableRegions` promises: an interval set joins adjacent intervals, and
the user area ends far below half of the address range. -/
structure Config.Usable (c : Config) : Prop where
  separated : c.regions.Pairwise fun a b => a.2 < b.1
  below : ∀ region ∈ c.regions, region.2 ≤ 0x600000000000

theorem Config.oneRegion_usable : Config.oneRegion.Usable :=
  ⟨by simp [oneRegion], by simp [oneRegion]⟩

variable {c : Config} {s s' : MemoryManager}

theorem cellAt_isSome_iff : (s.cellAt x).isSome ↔ Covers vmaKind.size s.vmaMap x :=
  (covers_iff_viewAt _).symm

theorem construct_sound (c : Config) : VMAMap.SoundMap c.construct.vmaMap := by
  have hv := construct_valid c
  refine ⟨hv.tiling, hv.keyed, fun e he => ⟨hv.wf e he, hv.tiling.pos e he, ?_, ?_⟩⟩
  all_goals
    obtain ⟨region, -, rfl⟩ := List.mem_map.mp he
    intro h
  · simp [VirtualMemoryArea.ofRange, VirtualMemoryArea.hasPhysicalBacking] at h
  · rfl

/-- At the start every address is free. -/
theorem Fresh.cell_free {cell : Cell} (h : Fresh c s) (hx : s.cellAt x = some cell) :
    cell = ⟨.free, none⟩ := by
  obtain ⟨e, he, -, rfl⟩ := VMAMap.cellAt_some hx
  rw [h.vmaMap] at he
  obtain ⟨region, -, rfl⟩ := List.mem_map.mp he
  rfl

theorem Fresh.regular (hc : c.Usable) (h : Fresh c s) : Regular c s := by
  have ht := h.tiled
  have hb := c.memory_bounded
  have hpos := h.direct_pos
  refine ⟨⟨h.vmaMap ▸ construct_sound c, ht.dmem, ht.fmem, ?_, ?_⟩, ?_, h.direct_le, ?_, ?_⟩
  · rw [h.flexibleUsage]
    norm_num
  · rw [h.poolBudget]
    norm_num
  · refine contiguous_of_covers ht.dmem (by omega) fun p => ?_
    rw [h.dmemMap, covers_singleton]
    simp
  · refine contiguous_of_covers ht.fmem (by omega) fun p => ?_
    rw [h.fmemMap]
    exact covers_singleton
  · intro x hx
    rw [cellAt_isSome_iff, h.vmaMap, construct_covers] at hx
    obtain ⟨region, hr, hx⟩ := hx
    have := hc.below region hr
    omega

theorem Sound.tiled (h : s.Sound) : s.Tiled := ⟨h.vma.valid, h.dmem, h.fmem⟩

theorem Effect.sound (hs : s.Sound) (h : Effect s op s') : s'.Sound := by
  cases h with
  | unchanged => exact hs
  | map hm => exact hm.sound
  | file hm => exact hm.sound
  | unmap h => exact h.sound
  | free h => exact h.sound
  | commit h => exact h.sound
  | decommit _ h => exact h.sound
  | attributes h => exact h.sound
  | allocate h => exact ⟨hs.vma, h.changed.valid, hs.fmem, hs.usage_lt, hs.budget_lt⟩
  | expand h => exact ⟨hs.vma, h.valid, hs.fmem, hs.usage_lt, add64_lt _ _⟩

theorem Operation.run_regular (hr : Regular c s)
    (hop : op.Admitted) (h : op.run s = .ok (s', reply)) : Regular c s' := by
  have hs' := (run_effect hr hop h).sound hr.sound
  have hk := run_keeps (Sound.tiled hr.sound) h
  have hle := hr.dmem.le
  refine ⟨hs', ?_, ?_, ?_, ?_⟩
  · refine contiguous_of_covers hs'.dmem (Nat.zero_le _) fun p => ?_
    rw [hk.dmem.covers, hk.total]
    exact hr.dmem.covers p
  · rw [hk.total]
    exact hr.direct_le
  · refine contiguous_of_covers hs'.fmem (by omega) fun p => ?_
    rw [hk.fmem.covers]
    exact hr.fmem.covers p
  · intro x hx
    rw [cellAt_isSome_iff, hk.vma.covers, ← cellAt_isSome_iff] at hx
    exact hr.low x hx

theorem attributesAt_isSome_iff {p : ℕ} :
    (m.attributesAt p).isSome ↔ Covers physKind.size m p :=
  (covers_iff_viewAt _).symm

/-- The layout in the middle of an operation that has unmapped some addresses. -/
theorem Regular.unmaps {R : ℕ → Prop} (hr : Regular c s) (hu : Unmaps s R s') : Regular c s' := by
  have hle := hr.dmem.le
  refine ⟨hu.sound, ?_, ?_, ?_, ?_⟩
  · refine contiguous_of_covers hu.sound.dmem (Nat.zero_le _) fun p => ?_
    have hsame : (s'.dmemAt p).isSome ↔ (s.dmemAt p).isSome := by
      by_cases hb : s.Backs R .direct p
      · rw [hu.dmem_in p hb, Option.isSome_map]
      · rw [hu.dmem_out p hb]
    rw [hu.totalDirect]
    exact (attributesAt_isSome_iff.symm.trans (hsame.trans attributesAt_isSome_iff)).trans
      (hr.dmem.covers p)
  · rw [hu.totalDirect]
    exact hr.direct_le
  · refine contiguous_of_covers hu.sound.fmem (by omega) fun p => ?_
    have hsame : (s'.fmemAt p).isSome ↔ (s.fmemAt p).isSome := by
      by_cases hb : s.Backs R .flexible p
      · rw [hu.fmem_in p hb, Option.isSome_map]
      · rw [hu.fmem_out p hb]
    exact (attributesAt_isSome_iff.symm.trans (hsame.trans attributesAt_isSome_iff)).trans
      (hr.fmem.covers p)
  · intro x hx
    rw [hu.isSome] at hx
    exact hr.low x hx

theorem Regular.cleared {addr size : ℕ} (hr : Regular c s)
    (h : Cleared s addr size flags s') : Regular c s' := by
  rcases h with ⟨-, hu⟩ | ⟨-, rfl⟩
  · exact hr.unmaps hu
  · exact hr

/-! ### Guest calls -/

/-- The operation that a request performs first. -/
def Request.first : Request → Option Operation
  | .perform op | .performThen op _ => some op
  | .refuse _ | .done => none

theorem isAligned_dvd (h : isAligned value page = true) : page ∣ value.toNat :=
  Nat.dvd_of_mod_eq_zero (by simpa [isAligned] using h)

theorem toNat_pos (h : value ≠ 0) : 0 < value.toNat := by
  rcases Nat.eq_zero_or_pos value.toNat with h0 | hpos
  · exact absurd (UInt64.toNat_inj.mp (by simpa using h0)) h
  · exact hpos

theorem aligned_ne_noAddress (h : isAligned value (kiB 16) = true) :
    value.toNat ≠ noAddress := by
  intro heq
  have := isAligned_dvd h
  rw [heq] at this
  revert this
  norm_num [noAddress, kiB]

theorem fixedAtZero_cases {addr : UInt64} {f : UInt32 → Request}
    (h : (match k.fixedAtZero addr flags with
      | .error code => Request.refuse code
      | .ok flags => f flags).first = some op) : ∃ flags, (f flags).first = some op := by
  cases hf : k.fixedAtZero addr flags with
  | error code =>
    rw [hf] at h
    cases h
  | ok flags =>
    rw [hf] at h
    exact ⟨flags, h⟩

theorem dvd_of_length {len : UInt64} (h : ¬ (len = 0 || !isAligned len page) = true) :
    page ∣ len.toNat := by
  simp only [Bool.or_eq_true, decide_eq_true_eq, not_or] at h
  exact isAligned_dvd (by simpa using h.2)

/-- A mapping asks for whole pages, and not for a free area. -/
def Operation.MapsPages : Operation → Prop
  | mapMemory _ size _ _ type _ _ _ _ => kiB 16 ∣ size.toNat ∧ type ≠ .free
  | _ => True

/-- The calls reach the memory manager only with admitted arguments, and map whole pages. -/
theorem Kernel.request_admitted
    (h : (k.request call).first = some op) : op.Admitted ∧ op.MapsPages := by
  cases call with
  | enableDmemAliasing => cases h
  | allocateDirectMemory searchStart searchEnd len alignment memoryType out
  | allocateMainDirectMemory len alignment memoryType out =>
    simp only [request, allocateDirectMemory] at h
    split_ifs at h with hneg
    all_goals try cases h
    simp only [isNegative, Bool.or_eq_true, decide_eq_true_eq, not_or, not_le, ge_iff_le] at hneg
    exact ⟨hneg.1, trivial⟩
  | checkedReleaseDirectMemory start len | releaseDirectMemory start len =>
    simp only [request, releaseDirectMemory] at h
    split_ifs at h with halign hzero
    all_goals try cases h
    exact ⟨toNat_pos hzero, trivial⟩
  | reserveVirtualRange addr len flags alignment =>
    simp only [request, reserveVirtualRange] at h
    split_ifs at h with hlen
    all_goals try cases h
    obtain ⟨_, h⟩ := fixedAtZero_cases h
    cases h
    exact ⟨⟨by decide, by decide⟩, dvd_of_length hlen, by decide⟩
  | mapNamedDirectMemory addr len prot flags physAddr alignment name =>
    simp only [request, mapNamedDirectMemory] at h
    split_ifs at h with hlen h₂
    all_goals try cases h
    obtain ⟨_, h⟩ := fixedAtZero_cases h
    cases h
    exact ⟨⟨by decide, fun _ => aligned_ne_noAddress (by simpa using h₂)⟩,
      dvd_of_length hlen, by decide⟩
  | mapDirectMemory2 addr len type prot flags physAddr alignment =>
    simp only [request, mapDirectMemory2] at h
    split_ifs at h with hlen h₂
    all_goals try cases h
    exact ⟨⟨by decide, fun _ => aligned_ne_noAddress (by simpa using h₂)⟩,
      dvd_of_length hlen, by decide⟩
  | mapNamedFlexibleMemory addr len prot flags name =>
    simp only [request, mapNamedFlexibleMemory] at h
    split_ifs at h with hlen
    · cases h
    · cases name with
      | none => cases h
      | some name =>
        dsimp only at h
        split_ifs at h
        · cases h
        · obtain ⟨_, h⟩ := fixedAtZero_cases h
          cases h
          exact ⟨⟨by decide, by decide⟩, dvd_of_length hlen, by decide⟩
  | mprotect addr size prot | mtypeprotect addr size mtype prot | memoryPoolDecommit addr len
  | munmap addr len
  | memoryPoolExpand searchStart searchEnd len alignment out =>
    simp only [request, mprotect, mtypeprotect, memoryPoolDecommit, munmap, memoryPoolExpand] at h
    split_ifs at h
    all_goals try cases h
    all_goals exact ⟨trivial, trivial⟩
  | mmap addr len prot flags fd file physAddr =>
    have hsize : kiB 16 ∣ (UInt64.ofNat (alignUp len.toNat (kiB 16))).toNat := by
      rw [UInt64.toNat_ofNat_of_lt' (alignUp_lt _ len.toNat_lt)]
      unfold alignUp add64 kiB
      split_ifs <;> omega
    simp only [request, mmap] at h
    split_ifs at h
    all_goals try cases h
    all_goals first | exact ⟨⟨by decide, by decide⟩, hsize, by decide⟩ | exact ⟨trivial, trivial⟩
  | setVirtualRangeName addr len name =>
    cases name with
    | none => cases h
    | some name =>
      simp only [request, setVirtualRangeName] at h
      split_ifs at h
      all_goals try cases h
      exact ⟨trivial, trivial⟩
  | memoryPoolReserve addr len alignment flags =>
    simp only [request, memoryPoolReserve] at h
    split_ifs at h with hlen
    all_goals try cases h
    all_goals
      exact ⟨⟨by decide, by decide⟩,
        (show kiB 16 ∣ miB 2 by decide).trans (dvd_of_length hlen), by decide⟩
  | memoryPoolCommit addr len type prot =>
    simp only [request, memoryPoolCommit] at h
    split_ifs at h with h₁ h₂
    all_goals try cases h
    exact ⟨dvd_of_length h₂, trivial⟩

theorem Kernel.request_next
    {next : UInt64 → Operation} (h : k.request call = .performThen op next) (a : UInt64) :
    ∃ addr size memoryType, next a = .setDirectMemoryType addr size memoryType := by
  cases call <;> simp only [request] at h
  case mapDirectMemory2 =>
    unfold mapDirectMemory2 at h
    split_ifs at h
    cases h
    exact ⟨_, _, _, rfl⟩
  case mtypeprotect =>
    unfold mtypeprotect at h
    split_ifs at h
    cases h
    exact ⟨_, _, _, rfl⟩
  all_goals
    exfalso
    try simp only [allocateDirectMemory, releaseDirectMemory, reserveVirtualRange,
      mapNamedDirectMemory, mapNamedFlexibleMemory, mprotect, setVirtualRangeName, memoryPoolExpand,
      memoryPoolReserve, memoryPoolCommit, memoryPoolDecommit, mmap, munmap] at h
    repeat' split at h
    all_goals cases h

/-- The state behind a call: unchanged, behind one operation, or behind one operation and a
change of memory types. -/
theorem Kernel.call_cases (h : k.call call = .ok (k', reply)) :
    k'.memory = k.memory ∨ ∃ op s₁ reply₁, (k.request call).first = some op ∧
      op.run k.memory = .ok (s₁, reply₁) ∧ (k'.memory = s₁ ∨ ∃ addr size memoryType reply₂,
        (Operation.setDirectMemoryType addr size memoryType).run s₁ = .ok (k'.memory, reply₂)) := by
  unfold Kernel.call at h
  obtain ⟨⟨m, r⟩, hserve, h⟩ := bind_ok h
  cases h
  cases hreq : k.request call with
  | refuse code | done =>
    rw [hreq] at hserve
    cases hserve
    exact .inl rfl
  | perform op =>
    rw [hreq] at hserve
    exact .inr ⟨op, m, reply, rfl, hserve, .inl rfl⟩
  | performThen op next =>
    rw [hreq] at hserve
    obtain ⟨⟨s₁, reply₁⟩, hop, hnext⟩ := bind_ok hserve
    refine .inr ⟨op, s₁, reply₁, rfl, hop, ?_⟩
    dsimp only at hnext
    split at hnext
    · obtain ⟨⟨s₂, reply₂⟩, hrun, hret⟩ := bind_ok hnext
      cases hret
      obtain ⟨addr, size, memoryType, heq⟩ := request_next hreq _
      rw [heq] at hrun
      exact .inr ⟨addr, size, memoryType, reply₂, hrun⟩
    · cases hnext
      exact .inl rfl

/-- The first operation of a call meets the condition `C` in the state of the call. -/
def Kernel.Meets (C : MemoryManager → Operation → Prop) (k : Kernel) (call : GuestCall) : Prop :=
  ∀ op, (k.request call).first = some op → C k.memory op

/-- An invariant holds in every state that calls which meet `C` reach, if it holds at the start
and the effects of operations that meet `C` keep it. -/
theorem Reachable.invariant {C : MemoryManager → Operation → Prop}
    (hc : c.Usable) (hboot : ∀ s, Fresh c s → I s)
    (htype : ∀ s addr size memoryType, C s (.setDirectMemoryType addr size memoryType))
    (hstep : ∀ s op s', Regular c s → Regular c s' → I s → op.Admitted → C s op → Effect s op s' →
      I s')
    (h : Reachable c (Kernel.Meets C) k) : Regular c k.memory ∧ I k.memory := by
  induction h with
  | boot h => exact ⟨h.fresh_state.regular hc, hboot _ h.fresh_state⟩
  | @step k k' call reply _ hp hc ih =>
    obtain ⟨hr, hi⟩ := ih
    rcases Kernel.call_cases hc with heq | ⟨op, s₁, reply₁, hop, hrun, hlast⟩
    · rw [heq]
      exact ⟨hr, hi⟩
    · have hadm := (Kernel.request_admitted hop).1
      have hr₁ := op.run_regular hr hadm hrun
      have hi₁ := hstep _ _ _ hr hr₁ hi hadm (hp op hop) (op.run_effect hr hadm hrun)
      rcases hlast with heq | ⟨addr, size, memoryType, reply₂, hrun₂⟩
      · rw [heq]
        exact ⟨hr₁, hi₁⟩
      · have hadm₂ : (Operation.setDirectMemoryType addr size memoryType).Admitted := trivial
        have hr₂ := Operation.run_regular hr₁ hadm₂ hrun₂
        exact ⟨hr₂, hstep _ _ _ hr₁ hr₂ hi₁ hadm₂ (htype _ _ _ _)
          (Operation.run_effect hr₁ hadm₂ hrun₂)⟩

/-- An invariant that every returning operation keeps holds in every reachable state. -/
theorem Reachable.of_run (hc : c.Usable) (hboot : ∀ s, Fresh c s → I s)
    (hstep : ∀ s (op : Operation) s' reply, Regular c s → I s → op.Admitted →
      op.run s = .ok (s', reply) → I s')
    (h : Reachable c P k) : Regular c k.memory ∧ I k.memory := by
  induction h with
  | boot h => exact ⟨h.fresh_state.regular hc, hboot _ h.fresh_state⟩
  | @step k k' call reply _ _ hcall ih =>
    obtain ⟨hr, hi⟩ := ih
    rcases Kernel.call_cases hcall with heq | ⟨op, s₁, reply₁, hop, hrun, hlast⟩
    · rw [heq]
      exact ⟨hr, hi⟩
    · have hadm := (Kernel.request_admitted hop).1
      have hr₁ := op.run_regular hr hadm hrun
      have hi₁ := hstep _ _ _ _ hr hi hadm hrun
      rcases hlast with heq | ⟨addr, size, memoryType, reply₂, hrun₂⟩
      · rw [heq]
        exact ⟨hr₁, hi₁⟩
      · have hadm₂ : (Operation.setDirectMemoryType addr size memoryType).Admitted := trivial
        exact ⟨Operation.run_regular hr₁ hadm₂ hrun₂, hstep _ _ _ _ hr₁ hi₁ hadm₂ hrun₂⟩

theorem Reachable.direct_pos (hc : c.Usable)
    (h : Reachable c P k) : Regular c k.memory ∧ 0 < k.memory.totalDirectSize := by
  refine h.of_run hc (fun _ hfresh => hfresh.direct_pos) ?_
  intro s op s' reply hr hpos _ hrun
  rw [(Operation.run_keeps (Sound.tiled hr.sound) hrun).total]
  exact hpos

/-- A list of calls that all meet `P`, whatever state they are made in. -/
theorem Reachable.callAll {calls : List GuestCall}
    (h : Reachable c P k) (hp : ∀ call ∈ calls, ∀ k, P k call)
    (hrun : Kernel.callAll calls k = .ok k') : Reachable c P k' := by
  induction calls generalizing k with
  | nil =>
    cases hrun
    exact h
  | cons call calls ih =>
    obtain ⟨⟨k₁, reply⟩, hcall, hrest⟩ := bind_ok hrun
    exact ih (h.step (hp call (by simp) k) hcall) (fun c hc => hp c (by simp [hc])) hrest

/-- The state behind a run of calls, from an evaluation of the run. -/
theorem Kernel.exists_callAll (calls : List GuestCall) (k : Kernel) (p : Kernel → Prop)
    [DecidablePred p] (h : ((callAll calls k).toOption.any fun k => p k) = true) :
    ∃ k', callAll calls k = .ok k' ∧ p k' := ok_of_any h

end PS4Droid.Memory
