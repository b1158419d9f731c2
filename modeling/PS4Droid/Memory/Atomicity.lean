import PS4Droid.Memory.Tiling

/-!
# Failed operations leave the state alone

Every error return of the mapping, pool and release operations comes before the
first change. `Allocate` and `PoolExpand` report failure through the address
`-1`, which no successful search can return: the carved range lies inside the
64-bit range.
-/

namespace PS4Droid.Memory

open OrderedMap IntervalMap Segments

namespace MemoryManager

variable {s s' : MemoryManager} {status : Status}
  {addr size physAddr searchStart searchEnd alignment : ℕ} {prot : UInt32}

theorem mapMemory_failed {q : MapRequest}
    (h : s.mapMemory q = .ok (s', status, addr)) (hst : status ≠ .ok) : s' = s := by
  unfold mapMemory at h
  by_cases husage : q.type = .flexible ∧ add64 s.flexibleUsage q.size > s.totalFlexibleSize
  · rw [if_pos husage] at h
    cases h
    rfl
  · rw [if_neg husage] at h
    obtain ⟨check, -, h⟩ := bind_ok h
    cases check with
    | some code =>
      cases h
      rfl
    | none =>
      obtain ⟨place, -, h⟩ := bind_ok h
      cases place with
      | none =>
        cases h
        rfl
      | some found =>
        obtain ⟨⟨s₁, handle⟩, -, h⟩ := bind_ok h
        obtain ⟨vma, -, h⟩ := bind_ok h
        obtain ⟨s₂, -, h⟩ := bind_ok h
        obtain ⟨m, -, h⟩ := bind_ok h
        cases h
        exact absurd rfl hst

theorem mapFile_failed {out : ℕ} {flags : UInt32} {fd : ℤ} {file : Option OpenFile}
    (h : s.mapFile addr size prot flags fd file physAddr = .ok (s', status, out))
    (hst : status ≠ .ok) : s' = s := by
  unfold mapFile at h
  cases file with
  | none =>
    cases h
    rfl
  | some file =>
    dsimp only at h
    by_cases hreg : file.isRegular = false
    · rw [if_pos hreg] at h
      cases h
      rfl
    · rw [if_neg hreg] at h
      obtain ⟨_, -, h⟩ := bind_ok h
      obtain ⟨place, -, h⟩ := bind_ok h
      cases place with
      | none =>
        cases h
        rfl
      | some found =>
        obtain ⟨⟨s₁, handle⟩, -, h⟩ := bind_ok h
        obtain ⟨vma, -, h⟩ := bind_ok h
        cases h
        exact absurd rfl hst

theorem unmapMemory_ok (h : s.unmapMemory addr size = .ok (s', status)) : status = .ok := by
  unfold unmapMemory at h
  split_ifs at h
  · cases h
    rfl
  · obtain ⟨_, -, h⟩ := bind_ok h
    obtain ⟨s₁, -, h⟩ := bind_ok h
    cases h
    rfl

theorem free_failed {isChecked : Bool}
    (h : s.free physAddr size isChecked = .ok (s', status)) (hst : status ≠ .ok) : s' = s := by
  unfold free at h
  split_ifs at h with hout
  · cases h
    rfl
  · cases h
    rfl
  · obtain ⟨first, -, h⟩ := bind_ok h
    split at h
    · cases h
      rfl
    · obtain ⟨s₁, -, h⟩ := bind_ok h
      obtain ⟨m, -, h⟩ := bind_ok h
      cases h
      exact absurd rfl hst

theorem poolCommit_failed {mtype : ℤ}
    (h : s.poolCommit addr size prot mtype = .ok (s', status)) (hst : status ≠ .ok) : s' = s := by
  unfold poolCommit at h
  obtain ⟨_, -, h⟩ := bind_ok h
  obtain ⟨⟨k, vma⟩, -, h⟩ := bind_ok h
  dsimp only at h
  split_ifs at h
  · cases h
    rfl
  · cases h
    rfl
  · cases h
    rfl
  · obtain ⟨⟨m, handle⟩, -, h⟩ := bind_ok h
    obtain ⟨⟨g, left⟩, -, h⟩ := bind_ok h
    obtain ⟨_, -, h⟩ := bind_ok h
    obtain ⟨newVma, -, h⟩ := bind_ok h
    obtain ⟨⟨m₁, h₁⟩, -, h⟩ := bind_ok h
    cases h
    exact absurd rfl hst

theorem poolDecommit_failed
    (h : s.poolDecommit addr size = .ok (s', status)) (hst : status ≠ .ok) : s' = s := by
  unfold poolDecommit at h
  obtain ⟨_, -, h⟩ := bind_ok h
  obtain ⟨first, -, h⟩ := bind_ok h
  split_ifs at h
  · obtain ⟨s₁, -, h⟩ := bind_ok h
    cases h
    exact absurd rfl hst
  · cases h
    rfl

/-- A range that could be carved does not start at the address `-1`. -/
theorem carveWith_ne_noAddress {m m' : PhysMap} (hv : PhysMap.Valid m) {h : ℕ}
    {a : PhysicalMemoryArea} {f : PhysicalMemoryArea → PhysicalMemoryArea} (hsize : size < 2 ^ 64)
    (hc : PhysMap.carveWith m addr size f = .ok (m', h, a)) : addr ≠ noAddress := by
  obtain ⟨-, l, k, b, r, ha, hp, -⟩ := PhysMap.carveWith_shape hv hsize hc
  have hpos := hp.pos
  have hstop := hp.stop
  have hk : b.base = k := hv.keyed _ ha.mem
  have hb : b.base + b.size < 2 ^ 64 := hv.wf _ ha.mem
  unfold noAddress
  omega

theorem poolExpand_failed (ht : Tiled s) (hsize : size < 2 ^ 64)
    (h : s.poolExpand searchStart searchEnd size alignment = .ok (s', noAddress)) : s' = s := by
  unfold poolExpand at h
  obtain ⟨⟨k, area⟩, -, h⟩ := bind_ok h
  dsimp only at h
  split at h
  · cases h
    rfl
  · obtain ⟨⟨m, h₁, a⟩, hcarve, h⟩ := bind_ok h
    have hne := carveWith_ne_noAddress ht.dmem hsize hcarve
    have heq := congrArg Prod.snd (pure_ok h)
    exact absurd heq hne

theorem allocate_failed (ht : Tiled s) {memoryType : ℤ} (hsize : size < 2 ^ 64)
    (h : s.allocate searchStart searchEnd size alignment memoryType = .ok (s', noAddress)) :
    s' = s := by
  unfold allocate at h
  obtain ⟨⟨k, area⟩, -, h⟩ := bind_ok h
  dsimp only at h
  split at h
  · cases h
    rfl
  · split_ifs at h
    · cases h
      rfl
    · obtain ⟨⟨m, h₁, a⟩, hcarve, h⟩ := bind_ok h
      obtain ⟨⟨m₂, h₂⟩, -, h⟩ := bind_ok h
      have hne := carveWith_ne_noAddress ht.dmem hsize hcarve
      have heq := congrArg Prod.snd (pure_ok h)
      exact absurd heq hne

end MemoryManager

/-- The operations whose failure has to leave the state alone; the others change attributes of
areas one by one. -/
def Operation.isAtomic : Operation → Bool
  | mapMemory .. | mapFile .. | unmapMemory .. | free .. | poolCommit .. | poolDecommit ..
  | allocate .. | poolExpand .. => true
  | protect .. | setDirectMemoryType .. | nameVirtualRange .. => false

open MemoryManager in
theorem Operation.run_failed {s s' : MemoryManager} {op : Operation} {reply : Reply} (ht : Tiled s)
    (hop : op.isAtomic = true) (h : op.run s = .ok (s', reply)) (hf : reply.failed = true) :
    s' = s := by
  cases op <;> obtain ⟨p, hp, h⟩ := bind_ok h <;> cases h
  case mapMemory => exact mapMemory_failed hp (by simpa [Reply.failed] using hf)
  case mapFile => exact mapFile_failed hp (by simpa [Reply.failed] using hf)
  case unmapMemory =>
    have hst := unmapMemory_ok hp
    simp [Reply.failed, hst] at hf
  case free => exact free_failed hp (by simpa [Reply.failed] using hf)
  case poolCommit => exact poolCommit_failed hp (by simpa [Reply.failed] using hf)
  case poolDecommit => exact poolDecommit_failed hp (by simpa [Reply.failed] using hf)
  case allocate size _ _ =>
    obtain ⟨s₁, addr⟩ := p
    obtain rfl : addr = noAddress := by simpa [Reply.failed] using hf
    exact allocate_failed ht size.toNat_lt hp
  case poolExpand size _ =>
    obtain ⟨s₁, addr⟩ := p
    obtain rfl : addr = noAddress := by simpa [Reply.failed] using hf
    exact poolExpand_failed ht size.toNat_lt hp
  all_goals simp [isAtomic] at hop

/-- In every state that a run reaches, an operation that fails leaves the maps and the counters
as they were. -/
theorem Operation.failed_atomic (c : Config) {s₀ s s' : MemoryManager} (hboot : Boot c s₀)
    (ops : List Operation) (hs : runAll ops s₀ = .ok s) (op : Operation) (hop : op.isAtomic = true)
    {reply : Reply} (h : op.run s = .ok (s', reply)) (hf : reply.failed = true) :
    s'.vmaMap = s.vmaMap ∧ s'.dmemMap = s.dmemMap ∧ s'.fmemMap = s.fmemMap ∧
      s'.flexibleUsage = s.flexibleUsage ∧ s'.poolBudget = s.poolBudget := by
  have ht := (runAll_keeps hboot.fresh_state.tiled hs).tiled
  rw [op.run_failed ht hop h hf]
  exact ⟨rfl, rfl, rfl, rfl, rfl⟩

/-- Mapping direct memory that was never allocated fails with `ENOMEM`. -/
theorem Operation.failed_atomic_unallocated :
    ∃ s s' reply, runAll mixedRun Config.oneRegion.construct = .ok s ∧
      (mapMemory 0 0x4000 3 0 .direct "dmem" false 0x100000 0).run s = .ok (s', reply) ∧
      reply.failed = true ∧ s'.vmaMap = s.vmaMap := by
  have hrun : (do
      let s ← runAll mixedRun Config.oneRegion.construct
      let answer ← (mapMemory 0 0x4000 3 0 .direct "dmem" false 0x100000 0).run s
      require (answer.2.failed = true) .splitOffset).isOk = true := by decide
  obtain ⟨_, hrun⟩ := exists_of_isOk hrun
  obtain ⟨s, hs, hrun⟩ := bind_ok hrun
  obtain ⟨⟨s', reply⟩, hop, hrun⟩ := bind_ok hrun
  have hf := require_ok hrun
  exact ⟨s, s', reply, hs, hop, hf,
    (failed_atomic Config.oneRegion .fresh mixedRun hs _ rfl hop hf).1⟩

end PS4Droid.Memory
