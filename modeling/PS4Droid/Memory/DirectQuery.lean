import PS4Droid.Memory.Cuts
import PS4Droid.Memory.Search

/-!
# Queries about direct memory

`DirectMemoryQuery` takes the start of its answer from the area that holds the byte, and the end
from a loop over that area and the ones behind it. The loop goes over mapped and allocated areas
only, so the areas of the pool have a start but no end: the answer keeps the end that the caller's
structure had.
-/

namespace PS4Droid.Memory

open OrderedMap IntervalMap Segments

/-- The structure that the guest hands in; `stop` is its `end`. -/
structure OrbisQueryInfo where
  start : ℕ
  stop : ℕ
  memoryType : ℤ
  deriving DecidableEq

/-- The loop over the areas that have the type and are mapped or allocated. -/
def queryEnd (memoryType : ℤ) : PhysMap → ℕ → ℕ
  | [], stop => stop
  | (_, area) :: rest, stop =>
    if area.memoryType = memoryType ∧ (area.dmaType = .mapped ∨ area.dmaType = .allocated) then
      queryEnd memoryType rest area.getEnd
    else stop

def MemoryManager.directMemoryQuery (s : MemoryManager) (addr : ℕ) (findNext : Bool)
    (outInfo : OrbisQueryInfo) :
    Except Fault (OrbisQueryInfo × Status) := do
  if addr ≥ s.totalDirectSize then return (outInfo, .error .eacces)
  let first ← s.findDmemArea addr
  let areas := first :: above s.dmemMap first.1
  match if findNext then areas.dropWhile fun e => e.2.dmaType == .free else areas with
  | [] => return (outInfo, .error .eacces)
  | (key, area) :: rest =>
    if area.dmaType = .free then return (outInfo, .error .eacces)
    else
      return ({ start := area.base
                stop := queryEnd area.memoryType ((key, area) :: rest) outInfo.stop
                memoryType := area.memoryType }, .ok)

/-- The queried byte lies in the range of the answer, and no byte of the range is free or has
another type. -/
structure MemoryManager.Describes (s : MemoryManager) (addr : ℕ) (info : OrbisQueryInfo) :
    Prop where
  start_le : info.start ≤ addr
  lt_stop : addr < info.stop
  uniform : ∀ x, info.start ≤ x ∧ x < info.stop → ∃ t,
    t ≠ .free ∧ s.dmemAt x = some (info.memoryType, t)

namespace PhysMap

variable {m areas rest : PhysMap} {e : ℕ × PhysicalMemoryArea} {start stop x : ℕ} {memoryType : ℤ}

theorem attributesAt_tail (hv : Valid (e :: rest)) {a : ℤ × PhysicalMemoryType}
    (h : rest.attributesAt x = some a) :
    attributesAt (e :: rest) x = some a := by
  obtain ⟨f, hf, hx, rfl⟩ := viewAt_eq_some h
  exact attributesAt_mem hv (List.mem_cons_of_mem _ hf) hx

theorem getEnd_eq (hv : Valid (e :: rest)) : e.2.getEnd = e.1 + e.2.size := by
  have hbase : e.2.base = e.1 := hv.keyed e (by simp)
  rw [PhysicalMemoryArea.getEnd, add64_eq (hv.wf e (by simp)), hbase]

/-- Between the end so far, which is where the next area starts, and the new end all bytes have the
type and none is free. -/
theorem queryEnd_spec (memoryType : ℤ) (hv : Valid areas) (hc : Contiguous start areas stop) :
    start ≤ queryEnd memoryType areas start ∧ ∀ x, start ≤ x ∧ x < queryEnd memoryType areas start →
      ∃ t, t ≠ .free ∧ attributesAt areas x = some (memoryType, t) := by
  induction areas generalizing start with
  | nil => exact ⟨le_rfl, fun x hx => absurd hx.2 (not_lt.mpr hx.1)⟩
  | cons e rest ih =>
    have hend := getEnd_eq hv
    have hin := @attributesAt_mem _ hv e (by simp)
    obtain ⟨k, a⟩ := e
    obtain ⟨rfl, -, -, hrest⟩ := hc
    obtain ⟨hle, hcov⟩ := ih (hv.right (l := [(k, a)])) hrest
    unfold queryEnd
    split_ifs with hmatch
    · obtain ⟨rfl, htype⟩ := hmatch
      rw [hend]
      refine ⟨by simp only; omega, fun x hx => ?_⟩
      by_cases hlt : x < k + a.size
      · refine ⟨a.dmaType, ?_, hin ⟨hx.1, hlt⟩⟩
        rcases htype with htype | htype <;> rw [htype] <;> decide
      · obtain ⟨t, ht, hat⟩ := hcov x ⟨by omega, hx.2⟩
        exact ⟨t, ht, attributesAt_tail hv hat⟩
    · exact ⟨le_rfl, fun x hx => absurd hx.2 (not_lt.mpr hx.1)⟩

end PhysMap

namespace MemoryManager

open PhysMap

variable {c : Config} {s : MemoryManager} {addr : ℕ} {outInfo info : OrbisQueryInfo}

/-- The area of a byte of direct memory, with the ones behind it. -/
theorem exists_direct_area (hr : Regular c s) (haddr : addr < s.totalDirectSize) :
    ∃ l k area rest, s.dmemMap = l ++ (k, area) :: rest ∧ s.findDmemArea addr = .ok (k, area) ∧
      above s.dmemMap k = rest ∧ k ≤ addr ∧ addr < k + area.size := by
  obtain ⟨l, ⟨k, area⟩, r, ha, hfind, -, hle, hbehind⟩ := areasFrom_spec hr (by omega) addr
  refine ⟨l, k, area, r, ha.eq, hfind, ha.above, hle, ?_⟩
  obtain ⟨e, he, hin⟩ := (hr.dmem.covers addr).mpr ⟨Nat.zero_le _, haddr⟩
  have htiling := hr.dmem.tiling
  rw [ha.eq] at he htiling
  rcases List.mem_append.mp he with he | he
  · have := htiling.mem_left_lt he (List.mem_cons_self (a := (k, area)))
    simp only [Within] at hin this
    omega
  · rcases List.mem_cons.mp he with rfl | he
    · exact hin.2
    · have := hbehind e he
      unfold Within at hin
      omega

theorem directMemoryQuery_eq (hr : Regular c s) (haddr : addr < s.totalDirectSize)
    (outInfo : OrbisQueryInfo) :
    ∃ l k area rest, s.dmemMap = l ++ (k, area) :: rest ∧ k ≤ addr ∧ addr < k + area.size ∧
      s.dmemAt addr = some (area.attributes 0) ∧
      s.directMemoryQuery addr false outInfo = .ok (if area.dmaType = .free then
        (outInfo, .error .eacces) else
        ({ start := k, stop := queryEnd area.memoryType ((k, area) :: rest) outInfo.stop,
           memoryType := area.memoryType }, .ok)) := by
  obtain ⟨l, k, area, rest, hmap, hfind, habove, hle, hlt⟩ := exists_direct_area hr haddr
  have hmem : (k, area) ∈ s.dmemMap := hmap ▸ List.mem_append_right _ (.head _)
  have hbase : area.base = k := hr.sound.dmem.keyed _ hmem
  refine ⟨l, k, area, rest, hmap, hle, hlt, attributesAt_mem hr.sound.dmem hmem ⟨hle, hlt⟩, ?_⟩
  unfold directMemoryQuery
  rw [if_neg (by omega), hfind]
  simp only [ok_bind, habove, hbase, Bool.false_eq_true, if_false]
  split_ifs <;> rfl

/-- The end of an answer about a byte of the pool is that of the caller's structure, here zero. -/
theorem not_describes_of_pool (hr : Regular c s) (haddr : addr < s.totalDirectSize)
    {a : ℤ × PhysicalMemoryType}
    (ha : s.dmemAt addr = some a) (htype : ¬(a.2 = .free ∨ a.2 = .mapped ∨ a.2 = .allocated)) :
    ∃ info, s.directMemoryQuery addr false ⟨0, 0, 0⟩ = .ok (info, .ok) ∧
      ¬s.Describes addr info := by
  obtain ⟨l, k, area, rest, -, -, -, hat, hquery⟩ := directMemoryQuery_eq hr haddr ⟨0, 0, 0⟩
  obtain rfl := Option.some.inj (ha.symm.trans hat)
  simp only [PhysicalMemoryArea.attributes, not_or] at htype
  rw [if_neg htype.1, queryEnd, if_neg fun hmatch => not_or.mpr htype.2 hmatch.2] at hquery
  exact ⟨_, hquery, fun h => absurd h.lt_stop (Nat.not_lt_zero _)⟩

theorem describes_of_loop (hr : Regular c s) (haddr : addr < s.totalDirectSize)
    (htype : ∀ a, s.dmemAt addr = some a → a.2 = .free ∨ a.2 = .mapped ∨ a.2 = .allocated)
    (hok : s.directMemoryQuery addr false outInfo = .ok (info, .ok)) : s.Describes addr info := by
  obtain ⟨l, k, area, rest, hmap, hle, hlt, hat, hquery⟩ := directMemoryQuery_eq hr haddr outInfo
  rw [hquery] at hok
  by_cases hfree : area.dmaType = .free
  · rw [if_pos hfree] at hok
    cases hok
  rw [if_neg hfree] at hok
  cases hok
  have hmatch : area.dmaType = .mapped ∨ area.dmaType = .allocated :=
    (htype _ hat).resolve_left hfree
  have hmem : ∀ f ∈ (k, area) :: rest, f ∈ s.dmemMap :=
    fun f hf => hmap ▸ List.mem_append_right l hf
  have hv : Valid ((k, area) :: rest) :=
    (hmap ▸ hr.sound.dmem : Valid (l ++ (k, area) :: rest)).right
  obtain ⟨mid, -, hkey, -, -, hrest⟩ :=
    (hmap ▸ hr.dmem : Contiguous 0 (l ++ (k, area) :: rest) _).of_append
  have hstop : queryEnd area.memoryType ((k, area) :: rest) outInfo.stop =
      queryEnd area.memoryType rest (k + area.size) := by
    rw [queryEnd, if_pos ⟨rfl, hmatch⟩]
    exact congrArg _ (getEnd_eq hv)
  obtain ⟨hend, hcov⟩ := queryEnd_spec area.memoryType (hv.right (l := [(k, area)])) (hkey ▸ hrest)
  refine ⟨hle, by simp only [hstop]; omega, fun x hx => ?_⟩
  simp only [hstop] at hx
  by_cases hin : x < k + area.size
  · exact ⟨area.dmaType, hfree,
      attributesAt_mem hr.sound.dmem (hmem (k, area) (.head _)) ⟨hx.1, hin⟩⟩
  · obtain ⟨t, ht, hattr⟩ := hcov x ⟨by omega, hx.2⟩
    obtain ⟨f, hf, hfx, heq⟩ := viewAt_eq_some hattr
    refine ⟨t, ht, ?_⟩
    rw [dmemAt, attributesAt_mem hr.sound.dmem (hmem f (.tail _ hf)) hfx, ← heq]
    rfl

/-- Every answer about the byte describes it exactly if the byte is free, mapped or allocated. -/
theorem describes_iff (hr : Regular c s) :
    (∀ outInfo info, s.directMemoryQuery addr false outInfo = .ok (info, .ok) →
      s.Describes addr info) ↔
      ∀ a, s.dmemAt addr = some a → a.2 = .free ∨ a.2 = .mapped ∨ a.2 = .allocated := by
  by_cases haddr : addr < s.totalDirectSize
  · refine ⟨fun h a ha => ?_, fun htype outInfo info hok => describes_of_loop hr haddr htype hok⟩
    by_contra htype
    obtain ⟨info, hquery, hnot⟩ := not_describes_of_pool hr haddr ha htype
    exact hnot (h _ _ hquery)
  · have hnone : s.dmemAt addr = none := by
      rw [dmemAt, attributesAt]
      exact viewAt_eq_none.mpr fun hcov => haddr ((hr.dmem.covers addr).mp hcov).2
    refine iff_of_true (fun outInfo info hok => ?_) (fun a ha => ?_)
    · unfold directMemoryQuery at hok
      rw [if_pos (by omega)] at hok
      cases hok
    · rw [hnone] at ha
      cases ha

end MemoryManager

section Guest

variable {c : Config} {P : Kernel → GuestCall → Prop} {k : Kernel}

/-- In every reachable state the answers to a query about one byte describe it, whatever the
caller's structure held, exactly if the byte is free, mapped or allocated. -/
theorem direct_query_describes_iff (hc : c.Usable) (h : Reachable c P k) (addr : UInt64) :
    (∀ outInfo info, k.memory.directMemoryQuery addr.toNat false outInfo = .ok (info, .ok) →
      k.memory.Describes addr.toNat info) ↔
    ∀ a, k.memory.dmemAt addr.toNat = some a → a.2 = .free ∨ a.2 = .mapped ∨ a.2 = .allocated :=
  MemoryManager.describes_iff (h.direct_pos hc).1

theorem direct_query_describes_iff_allocated :
    ∃ k, Reachable Config.oneRegion (fun _ _ => True) k ∧
      k.memory.dmemAt 0x4000 = some (3, .allocated) ∧
      ∀ outInfo info, k.memory.directMemoryQuery 0x4000 false outInfo = .ok (info, .ok) →
        k.memory.Describes 0x4000 info := by
  obtain ⟨k, hcalls, hat⟩ :=
    Kernel.exists_callAll [.allocateDirectMemory 0 0x40000000 0x8000 0 3 true] startedKernel
    (fun k => k.memory.dmemAt 0x4000 = some (3, .allocated)) (by decide +kernel)
  have hk : Reachable Config.oneRegion (fun _ _ => True) k :=
    startedKernel_reachable.callAll (fun _ _ _ => trivial) hcalls
  refine ⟨k, hk, hat, (direct_query_describes_iff Config.oneRegion_usable hk 0x4000).mpr fun a ha =>
    ?_⟩
  obtain rfl := Option.some.inj (hat.symm.trans ha)
  exact .inr (.inr rfl)

/-- The answer about a page of the pool ends where the caller's structure did, at zero. -/
theorem direct_query_describes_fails :
    ∃ k info, Reachable Config.oneRegion (fun _ _ => True) k ∧ 0x4000 < k.memory.totalDirectSize ∧
      k.memory.directMemoryQuery 0x4000 false ⟨0, 0, 0⟩ = .ok (info, .ok) ∧
        ¬k.memory.Describes 0x4000 info := by
  obtain ⟨k, hcalls, hlt, hquery⟩ :=
    Kernel.exists_callAll [.memoryPoolExpand 0 0x40000000 0x10000 0 true]
    startedKernel (fun k => 0x4000 < k.memory.totalDirectSize ∧
      (k.memory.directMemoryQuery 0x4000 false ⟨0, 0, 0⟩).toOption = some (⟨0, 0, 3⟩, .ok))
        (by decide +kernel)
  have hk : Reachable Config.oneRegion (fun _ _ => True) k :=
    startedKernel_reachable.callAll (fun _ _ _ => trivial) hcalls
  cases hresult : k.memory.directMemoryQuery 0x4000 false ⟨0, 0, 0⟩ with
  | error fault =>
    rw [hresult] at hquery
    cases hquery
  | ok result =>
    rw [hresult] at hquery
    obtain rfl := Option.some.inj hquery
    exact ⟨k, _, hk, hlt, hresult, fun h => absurd h.lt_stop (Nat.not_lt_zero _)⟩

end Guest

end PS4Droid.Memory
