import PS4Droid.Memory.Runs
import PS4Droid.Foundations.FirstFit

/-!
# The searches for free direct memory

`Allocate` and `PoolExpand` share one search loop: the least aligned address of each area is tried,
from the area of the search address on. Its outcome is that of a first fit, except that the end of a
candidate wraps at 64 bits.
-/

namespace PS4Droid.Memory

open OrderedMap IntervalMap Segments

theorem alignUp_eq_roundUp {value alignment : ℕ} (ha : 0 < alignment ∧ alignment < 2 ^ 64)
    (hv : value < 2 ^ 64) (hle : value ≤ alignUp value alignment) :
    alignUp value alignment = roundUp value alignment := by
  unfold alignUp at hle ⊢
  split_ifs at hle ⊢ with hmod
  · exact (roundUp_of_dvd ha.1 (Nat.dvd_of_mod_eq_zero hmod)).symm
  · rw [roundUp_of_mod_ne ha.1 hmod]
    have hlt := Nat.mod_lt value ha.1
    have hmodle := Nat.mod_le value alignment
    unfold add64 at hle ⊢
    omega

/-- An aligned block of `size` bytes in one free area, at or behind `searchStart`. -/
def FreeBlock (alignment size searchStart : ℕ) (areas : PhysMap) (addr : ℕ) : Prop :=
  Fits PhysicalMemoryArea.size (·.dmaType = .free) alignment size searchStart areas addr

/-- The least aligned address of a free area is so high that the end of the block wraps, to an
address in front of the end of the area. -/
def Overruns (alignment size searchStart : ℕ) (e : ℕ × PhysicalMemoryArea) : Prop :=
  e.2.dmaType = .free ∧ 2 ^ 64 ≤ roundUp (max searchStart e.1) alignment + size ∧
    roundUp (max searchStart e.1) alignment + size ≤ 2 ^ 64 + (e.1 + e.2.size)

/-- What the search finds: nothing, the least block, or, when there is no block, an overrun. -/
inductive Finds (alignment size searchStart : ℕ) (areas : PhysMap) : Option (ℕ × ℕ) → Prop
  | nothing (hnone : ∀ a, ¬FreeBlock alignment size searchStart areas a)
      (hover : ∀ e ∈ areas, ¬Overruns alignment size searchStart e) :
        Finds alignment size searchStart areas none
  | block {key addr : ℕ} (hleast : IsLeast {a | FreeBlock alignment size searchStart areas a} addr)
      (harea : ∃ area, (key, area) ∈ areas ∧ key ≤ addr ∧ addr + size ≤ key + area.size) :
      Finds alignment size searchStart areas (some (key, addr))
  | overrun {key addr : ℕ} (hnone : ∀ a, ¬FreeBlock alignment size searchStart areas a)
      (hover : ∃ e ∈ areas, Overruns alignment size searchStart e) (hwrap : 2 ^ 64 ≤ addr + size)
      (hlt : addr < 2 ^ 64) : Finds alignment size searchStart areas (some (key, addr))

section Search

variable {alignment size searchStart : ℕ} {e : ℕ × PhysicalMemoryArea} {rest : PhysMap}

theorem Finds.cons {found : Option (ℕ × ℕ)}
    (h : Finds alignment size searchStart rest found) (ha : 0 < alignment)
    (hnot :
      ¬(e.2.dmaType = .free ∧ roundUp (max searchStart e.1) alignment + size ≤ e.1 + e.2.size))
    (hover : ¬Overruns alignment size searchStart e) :
    Finds alignment size searchStart (e :: rest) found := by
  have hiff (a : ℕ) : FreeBlock alignment size searchStart (e :: rest) a ↔
      FreeBlock alignment size searchStart rest a := fits_cons_of_not ha hnot
  cases h with
  | nothing hnone hover' =>
    refine .nothing (fun a h => hnone a ((hiff a).mp h)) fun f hf => ?_
    rcases List.mem_cons.mp hf with rfl | hf
    · exact hover
    · exact hover' f hf
  | block hleast harea =>
    obtain ⟨area, hmem, hfit⟩ := harea
    refine .block ⟨(hiff _).mpr hleast.1, fun a h => hleast.2 ((hiff a).mp h)⟩ ⟨area, ?_, hfit⟩
    exact List.mem_cons_of_mem _ hmem
  | overrun hnone hover' hwrap hlt =>
    obtain ⟨f, hf, hfover⟩ := hover'
    exact .overrun (fun a h => hnone a ((hiff a).mp h)) ⟨f, List.mem_cons_of_mem _ hf,
      hfover⟩ hwrap hlt

/-- A block would lie at or behind the candidate, so none fits once the candidate overruns. -/
theorem not_freeBlock_of_overrun (ha : 0 < alignment)
    (hv : PhysMap.Valid (e :: rest)) (hbehind : ∀ f ∈ rest, searchStart ≤ f.1)
    (hwrap : 2 ^ 64 ≤ roundUp (max searchStart e.1) alignment + size) (a : ℕ) :
    ¬FreeBlock alignment size searchStart (e :: rest) a := by
  have hbound : ∀ f ∈ e :: rest, f.1 + f.2.size < 2 ^ 64 := by
    intro f hf
    have hwf : f.2.base + f.2.size < 2 ^ 64 := hv.wf f hf
    have hkey : f.2.base = f.1 := hv.keyed f hf
    omega
  intro h
  rcases fits_cons ha h with ⟨-, hle, hend⟩ | ⟨-, haligned, f, hf, -, hfa, hend⟩
  · have := hbound e (by simp)
    omega
  · have hafter := (List.pairwise_cons.mp hv.tiling.apart).1 f hf
    simp only [physKind_size] at hafter
    have hle : roundUp (max searchStart e.1) alignment ≤ a :=
      roundUp_le ha (max_le ((hbehind f hf).trans hfa) (by omega)) haligned
    have := hbound f (by simp [hf])
    omega

/-- One step of the search: the candidate of the head is taken, or the rest decides. -/
theorem finds_step {next : ℕ}
    (ha : 0 < alignment) (hsize : size < 2 ^ 64) (hv : PhysMap.Valid (e :: rest))
    (hbehind : ∀ f ∈ rest, searchStart ≤ f.1)
    (hlt : roundUp (max searchStart e.1) alignment < 2 ^ 64)
    (hnext : next = alignUp ((rest.head?.map (·.2.base)).getD 0) alignment)
    (hrest :
      Finds alignment size searchStart rest (MemoryManager.findFreeArea size alignment rest next)) :
    Finds alignment size searchStart (e :: rest)
      (MemoryManager.findFreeArea size alignment (e :: rest)
        (roundUp (max searchStart e.1) alignment)) := by
  have hwf : e.2.base + e.2.size < 2 ^ 64 := hv.wf e (by simp)
  have hkey : e.2.base = e.1 := hv.keyed e (by simp)
  have hend : e.2.getEnd = e.1 + e.2.size := by rw [PhysicalMemoryArea.getEnd, add64_eq hwf, hkey]
  unfold MemoryManager.findFreeArea
  rw [hend, ← hnext]
  split_ifs with hskip
  · refine hrest.cons ha ?_ ?_
    · rintro ⟨hfree, hfits⟩
      rcases hskip with hskip | hskip
      · exact hskip hfree
      · rw [add64_eq (by omega)] at hskip
        omega
    · rintro ⟨hfree, hwrap, hfits⟩
      rcases hskip with hskip | hskip
      · exact hskip hfree
      · unfold add64 at hskip
        omega
  · rw [not_or, not_not, not_lt] at hskip
    obtain ⟨hfree, hle⟩ := hskip
    by_cases hwrap : roundUp (max searchStart e.1) alignment + size < 2 ^ 64
    · rw [add64_eq hwrap] at hle
      refine .block (isLeast_fits_cons ha hv.tiling hfree hle) ⟨e.2, by simp, ?_, hle⟩
      exact (le_max_right _ _).trans (le_roundUp _ ha)
    · have hwrap : 2 ^ 64 ≤ roundUp (max searchStart e.1) alignment + size := not_lt.mp hwrap
      refine .overrun (not_freeBlock_of_overrun ha hv hbehind hwrap) ⟨e, by simp, hfree, hwrap,
        ?_⟩ hwrap hlt
      unfold add64 at hle
      omega

theorem findFreeArea_finds (ha : 0 < alignment ∧ alignment < 2 ^ 64) (hsize : size < 2 ^ 64)
    (hv : PhysMap.Valid (e :: rest))
    (hlow : ∀ f ∈ rest, f.2.base < 2 ^ 63) (hbehind : ∀ f ∈ rest, searchStart ≤ f.1)
    (hlt : roundUp (max searchStart e.1) alignment < 2 ^ 64) :
    Finds alignment size searchStart (e :: rest)
      (MemoryManager.findFreeArea size alignment (e :: rest)
        (roundUp (max searchStart e.1) alignment)) := by
  induction rest generalizing e with
  | nil =>
    exact finds_step ha.1 hsize hv hbehind hlt rfl (.nothing (fun _ => not_fits_nil) nofun)
  | cons f rest ih =>
    have hv' : PhysMap.Valid (f :: rest) := hv.right (l := [e])
    have hbase : f.2.base < 2 ^ 63 := hlow f (by simp)
    have hkey : f.2.base = f.1 := hv'.keyed f (by simp)
    have hmax : max searchStart f.1 = f.1 := max_eq_right (hbehind f (by simp))
    have hnext : alignUp f.2.base alignment = roundUp (max searchStart f.1) alignment := by
      rw [hmax, ← hkey]
      exact alignUp_eq_roundUp ha (by omega) (le_alignUp hbase ha)
    refine finds_step ha.1 hsize hv hbehind hlt hnext.symm ?_
    refine ih hv' (fun g hg => hlow g (List.mem_cons_of_mem _ hg))
      (fun g hg => hbehind g (List.mem_cons_of_mem _ hg)) ?_
    rw [← hnext]
    exact MemoryManager.alignUp_lt _ (by omega)

end Search

namespace MemoryManager

variable {s s' : MemoryManager} {c : Config} {addr size searchStart searchEnd alignment : ℕ}

/-- The areas from the one that is found for `addr` on. -/
def areasFrom (s : MemoryManager) (addr : ℕ) : PhysMap :=
  match floor s.dmemMap addr with
  | some first => first :: above s.dmemMap first.1
  | none => []

theorem areasFrom_spec (hr : Regular c s) (hpos : 0 < s.totalDirectSize) (addr : ℕ) :
    ∃ l first r, Around s.dmemMap l first r ∧ s.findDmemArea addr = .ok first ∧
      s.areasFrom addr = first :: r ∧ first.1 ≤ addr ∧ ∀ f ∈ r, addr < f.1 := by
  cases hfloor : floor s.dmemMap addr with
  | none =>
    have habove := floor_eq_none hr.sound.dmem.sorted hfloor
    obtain ⟨e, he, hle, -⟩ := (hr.dmem.covers 0).mpr ⟨le_rfl, hpos⟩
    have := habove e he
    omega
  | some first =>
    obtain ⟨l, r, ha, hle, hafter⟩ := floor_around hr.sound.dmem.sorted hfloor
    refine ⟨l, first, r, ha, ?_, ?_, hle, hafter⟩
    · rw [findDmemArea, findEntry, hfloor, deref]
    · rw [areasFrom, hfloor]
      exact congrArg _ ha.above

/-- Areas in front of the search address hold no block behind it. -/
theorem freeBlock_areasFrom (hr : Regular c s) (hpos : 0 < s.totalDirectSize) (hsize : 0 < size)
    (a : ℕ) :
    FreeBlock alignment size searchStart (s.areasFrom searchStart) a ↔
      FreeBlock alignment size searchStart s.dmemMap a := by
  obtain ⟨l, first, r, ha, -, hareas, hle, -⟩ := areasFrom_spec hr hpos searchStart
  rw [hareas, ha.eq]
  constructor
  · exact fun h => h.of_mem fun e he => List.mem_append_right _ he
  · rintro ⟨habove, haligned, e, he, hfree, hea, hend⟩
    refine ⟨habove, haligned, e, ?_, hfree, hea, hend⟩
    refine (List.mem_append.mp he).resolve_left fun hl => ?_
    have htiling := ha.eq ▸ hr.sound.dmem.tiling
    have := htiling.mem_left_lt hl (by simp : first ∈ first :: r)
    simp only [physKind_size] at this
    omega

variable {a b : PhysicalMemoryArea} {f : PhysicalMemoryArea → PhysicalMemoryArea} {m m' : PhysMap}
  {memoryType : ℤ}

/-- A key of a map is still one after a part of its node was carved and changed. -/
theorem exists_mem_changed {l r : PhysMap} {k : ℕ} (hle : k ≤ addr) :
    ∃ b, (k, b) ∈ PhysMap.changed l k a r addr size f := by
  by_cases heq : addr = k
  · subst heq
    exact ⟨_, List.mem_append_right _ (List.mem_cons_self ..)⟩
  · have hne : addr - k ≠ 0 := by omega
    refine ⟨physKind.front (physKind.trimmed a (addr - k + size)) (addr - k), ?_⟩
    refine List.mem_append_left _ (List.mem_append_right _ ?_)
    rw [Segments.leading, if_pos hne]
    exact List.mem_singleton_self _

theorem carveWith_block {k : ℕ} (hv : PhysMap.Valid m) (hmem : (k, a) ∈ m)
    (hsize : 0 < size) (hle : k ≤ addr) (hend : addr + size ≤ k + a.size) :
    ∃ m' b, PhysMap.carveWith m addr size f = .ok (m', addr, b) ∧ ∃ b', (k, b') ∈ m' := by
  obtain ⟨l, r, ha⟩ := hv.sorted.around hmem
  exact ⟨_, _, PhysMap.carveWith_ok hv ha ⟨hsize, hle, hend⟩, exists_mem_changed hle⟩

theorem carveWith_overrun {h : ℕ} (hv : PhysMap.Valid m) (hsize : size < 2 ^ 64)
    (hwrap : 2 ^ 64 ≤ addr + size) : PhysMap.carveWith m addr size f ≠ .ok (m', h, b) := by
  intro hc
  obtain ⟨-, l, k, a, r, ha, hp, -⟩ := PhysMap.carveWith_shape hv hsize hc
  have hwf : a.base + a.size < 2 ^ 64 := hv.wf _ ha.mem
  have hkey : a.base = k := hv.keyed _ ha.mem
  have hstop := hp.stop
  omega

/-! ### Allocation -/

/-- The alignment that a search uses. -/
def usedAlignment (alignment page : ℕ) : ℕ := if alignment > 0 then alignment else page

/-- The arguments that pass the checks in front of `Allocate`. -/
structure AllocateArgs (searchStart searchEnd size alignment : ℕ) : Prop where
  start : searchStart < 2 ^ 63
  stop : searchEnd < 2 ^ 63
  pos : 0 < size
  le : size ≤ searchEnd
  aligned : alignment < 2 ^ 64

/-- How `Allocate` ends. -/
inductive Allocates (s : MemoryManager) (searchStart searchEnd size alignment : ℕ)
    (memoryType : ℤ) :
    Except Fault (MemoryManager × ℕ) → Prop
  | block {a : ℕ} {m : PhysMap}
      (hleast : IsLeast {a | FreeBlock alignment size searchStart s.dmemMap a} a)
      (hend : a + size ≤ searchEnd)
      (hchanged : PhysMap.Changed s.dmemMap a size (fun _ => (memoryType, .allocated)) m) :
      Allocates s searchStart searchEnd size alignment memoryType (.ok ({ s with dmemMap := m }, a))
  | outside {a : ℕ} (hleast : IsLeast {a | FreeBlock alignment size searchStart s.dmemMap a} a)
      (hend : searchEnd < a + size) :
      Allocates s searchStart searchEnd size alignment memoryType (.ok (s, noAddress))
  | nothing (hnone : ∀ a, ¬FreeBlock alignment size searchStart s.dmemMap a)
      (hover : ∀ e ∈ s.areasFrom searchStart, ¬Overruns alignment size searchStart e) :
      Allocates s searchStart searchEnd size alignment memoryType (.ok (s, noAddress))
  | overrun {fault : Fault} (hnone : ∀ a, ¬FreeBlock alignment size searchStart s.dmemMap a)
      (hover : ∃ e ∈ s.areasFrom searchStart, Overruns alignment size searchStart e) :
      Allocates s searchStart searchEnd size alignment memoryType (.error fault)

theorem allocate_allocates (hr : Regular c s) (hpos : 0 < s.totalDirectSize)
    (hargs : AllocateArgs searchStart searchEnd size alignment) :
    Allocates s searchStart searchEnd size (usedAlignment alignment (kiB 16)) memoryType
      (s.allocate searchStart searchEnd size alignment memoryType) := by
  obtain ⟨hstart, hstop, hsize, hle, halign⟩ := hargs
  have ha : 0 < usedAlignment alignment (kiB 16) ∧ usedAlignment alignment (kiB 16) < 2 ^ 64 :=
    alignment_bounds halign (by norm_num [kiB])
  have hv := hr.sound.dmem
  have hlow := hr.lowDirect
  have hlt : size < 2 ^ 64 := by omega
  obtain ⟨l, ⟨k, area⟩, r, haround, hfind, hareas, hfirst, hbehind⟩ :=
    areasFrom_spec hr hpos searchStart
  have hblock (a : ℕ) : FreeBlock (usedAlignment alignment (kiB 16)) size searchStart
    ((k, area) :: r) a ↔
      FreeBlock (usedAlignment alignment (kiB 16)) size searchStart s.dmemMap a := by
    rw [← hareas]
    exact freeBlock_areasFrom hr hpos hsize a
  have hkey : area.base = k := hv.keyed _ haround.mem
  have hmem : ∀ e ∈ (k, area) :: r, e ∈ s.dmemMap :=
    fun e he => haround.eq ▸ List.mem_append_right _ he
  have hmax : max searchStart k = searchStart := max_eq_left hfirst
  have hcandidate : alignUp (max searchStart area.base) (usedAlignment alignment (kiB 16)) =
      roundUp (max searchStart k) (usedAlignment alignment (kiB 16)) := by
    rw [hkey, hmax]
    exact alignUp_eq_roundUp ha (by omega) (le_alignUp hstart ha)
  have hfinds := findFreeArea_finds (e := (k, area)) ha hlt
    (haround.eq ▸ hv).right (fun f hf => hlow f (hmem f (List.mem_cons_of_mem _ hf)))
    (fun f hf => (hbehind f hf).le) (hcandidate ▸ alignUp_lt _ (by omega))
  rw [allocate, hfind, ok_bind]
  simp only [show above s.dmemMap k = r from haround.above]
  rw [← usedAlignment, hcandidate]
  generalize findFreeArea size _ _ _ = found at hfinds ⊢
  cases hfinds with
  | nothing hnone hover => exact .nothing (fun a h => hnone a ((hblock a).mpr h)) (hareas ▸ hover)
  | @block key a hleast harea =>
    have hleast' :
      IsLeast {a | FreeBlock (usedAlignment alignment (kiB 16)) size searchStart s.dmemMap a} a :=
      ⟨(hblock a).mp hleast.1, fun b h => hleast.2 ((hblock b).mpr h)⟩
    obtain ⟨area', hmem', hle', hend'⟩ := harea
    obtain ⟨m, b, hcarve, b', hb'⟩ :=
      carveWith_block (f := ({ · with memoryType, dmaType := .allocated })) hv
      (hmem _ hmem') hsize hle' hend'
    have hwf : area'.base + area'.size < 2 ^ 64 := hv.wf _ (hmem _ hmem')
    have hkey' : area'.base = key := hv.keyed _ (hmem _ hmem')
    dsimp only
    rw [add64_eq (by omega)]
    split_ifs with hout
    · exact .outside hleast' hout
    · have hchanged :=
        PhysMap.carveWith_changed (g := fun _ => (memoryType, .allocated)) hv hlt hcarve
        ⟨fun _ => rfl, fun _ => rfl⟩ fun _ => rfl
      obtain ⟨_, _, hat⟩ := hchanged.valid.sorted.around hb'
      obtain ⟨m', h', hmerge⟩ := mergeAdjacent_ok physKind_lawful hchanged.valid hat
        fun a b _ _ => physKind_canMerge_total a b
      rw [hcarve, ok_bind]
      dsimp only
      rw [PhysMap.mergeAdjacent, hmerge]
      obtain ⟨hv', hattr⟩ := PhysMap.merge_attributes hchanged.valid hmerge
      exact .block hleast' (not_lt.mp hout) ⟨hv', hchanged.pos, hchanged.uniform,
        fun p => (hattr p).trans (hchanged.attributes p)⟩
  | @overrun key a hnone hover hwrap hlt' =>
    dsimp only
    rw [if_neg (by unfold add64; omega)]
    cases hcarve : PhysMap.carveWith s.dmemMap a size
      ({ · with memoryType, dmaType := .allocated }) with
    | error fault => exact .overrun (fun a h => hnone a ((hblock a).mpr h)) (hareas ▸ hover)
    | ok result => exact absurd hcarve (carveWith_overrun hv hlt hwrap)

/-- An aligned block of free bytes in the window, whatever areas the bytes lie in. -/
structure WindowBlock (s : MemoryManager) (alignment size searchStart searchEnd addr : ℕ) :
    Prop where
  above : searchStart ≤ addr
  aligned : alignment ∣ addr
  free : ∀ p, addr ≤ p ∧ p < addr + size → s.typeAt p = some .free
  below : addr + size ≤ searchEnd

theorem windowBlock_of_freeBlock (hs : s.Sound)
    (h : FreeBlock alignment size searchStart s.dmemMap addr) (hend : addr + size ≤ searchEnd) :
    s.WindowBlock alignment size searchStart searchEnd addr := by
  obtain ⟨habove, haligned, e, he, hfree, hle, hfit⟩ := h
  refine ⟨habove, haligned, fun p hp => ?_, hend⟩
  rw [typeAt_of_mem hs he ⟨by omega, by omega⟩, hfree]

/-- The result of `Allocate` is right: the least block of free bytes, which gets the memory type and
nothing else changes, or `-1` without a change when no area holds a block. -/
def AllocatesLeast (s : MemoryManager) (alignment size searchStart searchEnd : ℕ) (memoryType : ℤ)
    (result : Except Fault (MemoryManager × ℕ)) : Prop :=
  (∃ s' a, result = .ok (s', a) ∧
    IsLeast {a | s.WindowBlock alignment size searchStart searchEnd a} a ∧
    (∀ p, s'.dmemAt p = if a ≤ p ∧ p < a + size then some (memoryType, .allocated)
      else s.dmemAt p) ∧
    s' = { s with dmemMap := s'.dmemMap }) ∨
  result = .ok (s, noAddress) ∧
    ∀ a, FreeBlock alignment size searchStart s.dmemMap a → searchEnd < a + size

/-- The candidate of no free area overruns, unless some area holds a block; and no block of the
window that crosses from one area to the next lies in front of all blocks of one area. -/
structure AllocateFits (s : MemoryManager) (alignment size searchStart searchEnd : ℕ) : Prop where
  search : (∃ a, FreeBlock alignment size searchStart s.dmemMap a) ∨
    ∀ e ∈ s.areasFrom searchStart, ¬Overruns alignment size searchStart e
  whole : ∀ a, s.WindowBlock alignment size searchStart searchEnd a →
    (∃ b, FreeBlock alignment size searchStart s.dmemMap b ∧ b + size ≤ searchEnd) →
    ∃ b ≤ a, FreeBlock alignment size searchStart s.dmemMap b

theorem changed_dmemAt {t : ℤ × PhysicalMemoryType}
    (h : PhysMap.Changed s.dmemMap addr size (fun _ => t) m) (p : ℕ) :
    ({ s with dmemMap := m } : MemoryManager).dmemAt p =
      if addr ≤ p ∧ p < addr + size then some t else s.dmemAt p := by
  obtain ⟨a, ha⟩ := h.uniform
  have hattr := h.attributes p
  split_ifs at hattr ⊢ with hp
  · rw [ha p hp] at hattr
    exact hattr
  · exact hattr

theorem allocatesLeast_iff {result : Except Fault (MemoryManager × ℕ)} (hs : s.Sound)
    (hstop : searchEnd < 2 ^ 63)
    (h : Allocates s searchStart searchEnd size alignment memoryType result) :
    s.AllocatesLeast alignment size searchStart searchEnd memoryType result ↔
      s.AllocateFits alignment size searchStart searchEnd := by
  have hne {a : ℕ} (ha : s.WindowBlock alignment size searchStart searchEnd a) : a ≠ noAddress := by
    have := ha.below
    unfold noAddress
    omega
  cases h with
  | @block a m hleast hend hchanged =>
    have hwindow := windowBlock_of_freeBlock hs hleast.1 hend
    constructor
    · rintro (⟨_, _, ⟨⟩, hleast', -⟩ | ⟨hfailed, -⟩)
      · exact ⟨.inl ⟨a, hleast.1⟩, fun b hb _ => ⟨a, hleast'.2 hb, hleast.1⟩⟩
      · exact absurd (congrArg Prod.snd (Except.ok.inj hfailed)) (hne hwindow)
    · intro hfits
      refine .inl ⟨_, a, rfl, ⟨hwindow, fun b hb => ?_⟩, changed_dmemAt hchanged, rfl⟩
      obtain ⟨b', hle, hb'⟩ := hfits.whole b hb ⟨a, hleast.1, hend⟩
      exact (hleast.2 hb').trans hle
  | @outside a hleast hend =>
    have hnone : ∀ b, FreeBlock alignment size searchStart s.dmemMap b → searchEnd < b + size := by
      intro b hb
      have := hleast.2 hb
      omega
    refine iff_of_true (.inr ⟨rfl, hnone⟩) ⟨.inl ⟨a, hleast.1⟩, ?_⟩
    rintro b - ⟨b', hb', hend'⟩
    exact absurd hend' (not_le.mpr (hnone b' hb'))
  | nothing hnone hover =>
    refine iff_of_true (.inr ⟨rfl, fun a ha => absurd ha (hnone a)⟩) ⟨.inr hover, ?_⟩
    rintro b - ⟨b', hb', -⟩
    exact absurd hb' (hnone b')
  | overrun hnone hover =>
    refine iff_of_false ?_ ?_
    · rintro (⟨_, _, ⟨⟩, -⟩ | ⟨⟨⟩, -⟩)
    · rintro ⟨⟨a, ha⟩ | hnot, -⟩
      · exact hnone a ha
      · obtain ⟨e, he, hover⟩ := hover
        exact hnot e he hover

/-! ### Pool expansion -/

/-- When `PoolExpand` returns an address, the block lies in the window and turns from free to
pooled. -/
def ExpandsInWindow (s : MemoryManager) (alignment size searchStart searchEnd : ℕ)
    (result : Except Fault (MemoryManager × ℕ)) : Prop :=
  ∀ s' a, result = .ok (s', a) → a ≠ noAddress →
    alignment ∣ a ∧ searchStart ≤ a ∧ a + size ≤ searchEnd ∧
    (∀ p, a ≤ p ∧ p < a + size → s.typeAt p = some .free) ∧
    ∀ p, s'.dmemAt p = if a ≤ p ∧ p < a + size then some (3, .pooled) else s.dmemAt p

/-- The search address can be aligned, and no area holds a block unless one holds a block of the
window; or aligning it wraps, and the last area is not free or the wrapped block is not inside of
one area. -/
def ExpandFits (s : MemoryManager) (alignment size searchStart searchEnd : ℕ) : Prop :=
  if searchStart ≤ alignUp searchStart alignment then
    ∀ a, FreeBlock alignment size searchStart s.dmemMap a →
      ∃ b, FreeBlock alignment size searchStart s.dmemMap b ∧ b + size ≤ searchEnd
  else
    ∀ last, s.findDmemArea searchStart = .ok last → last.2.dmaType = .free →
      ¬Inside PhysicalMemoryArea.size s.dmemMap (alignUp searchStart alignment) size

theorem poolExpand_eq (hr : Regular c s) (hpos : 0 < s.totalDirectSize) :
    s.poolExpand searchStart searchEnd size alignment =
      match findFreeArea size (usedAlignment alignment (kiB 64)) (s.areasFrom searchStart)
        (alignUp searchStart (usedAlignment alignment (kiB 64))) with
      | none => .ok (s, noAddress)
      | some (_, mappingStart) => do
        let (dmemMap, _, _) ← PhysMap.carveWith s.dmemMap mappingStart size
          ({ · with dmaType := .pooled, memoryType := 3 })
        return ({ s with dmemMap, poolBudget := add64 s.poolBudget size }, mappingStart) := by
  obtain ⟨l, ⟨k, area⟩, r, haround, hfind, hareas, hfirst, -⟩ := areasFrom_spec hr hpos searchStart
  have hkey : area.base = k := hr.sound.dmem.keyed _ haround.mem
  have hstart :
    (if searchStart > area.base then alignUp searchStart (usedAlignment alignment (kiB 64))
      else alignUp area.base (usedAlignment alignment (kiB 64))) =
      alignUp searchStart (usedAlignment alignment (kiB 64)) := by
    split_ifs with hgt
    · rfl
    · have heq : area.base = searchStart := by
        simp only at hfirst
        omega
      rw [heq]
  rw [poolExpand, hfind, ok_bind, hareas]
  simp only [show above s.dmemMap k = r from haround.above]
  rw [← usedAlignment, hstart]
  rfl

theorem expand_ok {h : ℕ} (hs : s.Sound) (hsize : size < 2 ^ 64)
    (hc : PhysMap.carveWith s.dmemMap addr size ({ · with dmaType := .pooled, memoryType := 3 }) =
      .ok (m, h, b))
    (p : ℕ) :
      ({ s with dmemMap := m, poolBudget := add64 s.poolBudget size } : MemoryManager).dmemAt p =
      if addr ≤ p ∧ p < addr + size then some (3, .pooled) else s.dmemAt p :=
  changed_dmemAt (PhysMap.carveWith_changed (g := fun _ => (3, .pooled)) hs.dmem hsize hc
    ⟨fun _ => rfl, fun _ => rfl⟩ fun _ => rfl) p

theorem inside_of_carveWith {h : ℕ} (hv : PhysMap.Valid m) (hsize : size < 2 ^ 64)
    (hc : PhysMap.carveWith m addr size f = .ok (m', h, b)) :
    Inside PhysicalMemoryArea.size m addr size := by
  obtain ⟨-, l, k, a, r, ha, hp, -⟩ := PhysMap.carveWith_shape hv hsize hc
  exact ⟨_, ha.mem, hp.start, hp.stop⟩

/-- What the search finds when the search address can be aligned. -/
theorem areasFrom_finds (hr : Regular c s) (hpos : 0 < s.totalDirectSize)
    (hstart : searchStart < 2 ^ 64)
    (hsize : 0 < size ∧ size < 2 ^ 64) (ha : 0 < alignment ∧ alignment < 2 ^ 64)
    (hfits : searchStart ≤ alignUp searchStart alignment) :
    Finds alignment size searchStart (s.areasFrom searchStart)
      (findFreeArea size alignment (s.areasFrom searchStart) (alignUp searchStart alignment)) := by
  obtain ⟨l, ⟨k, area⟩, r, haround, -, hareas, hfirst, hbehind⟩ :=
    areasFrom_spec hr hpos searchStart
  have hmem : ∀ e ∈ (k, area) :: r, e ∈ s.dmemMap :=
    fun e he => haround.eq ▸ List.mem_append_right _ he
  have hcandidate : alignUp searchStart alignment = roundUp (max searchStart k) alignment := by
    rw [max_eq_left hfirst]
    exact alignUp_eq_roundUp ha hstart hfits
  rw [hareas, hcandidate]
  exact findFreeArea_finds (e := (k, area)) ha hsize.2 (haround.eq ▸ hr.sound.dmem).right
    (fun f hf => hr.lowDirect f (hmem f (List.mem_cons_of_mem _ hf)))
      (fun f hf => (hbehind f hf).le)
    (hcandidate ▸ alignUp_lt _ hstart)

theorem expandsInWindow_of_fits (hr : Regular c s) (hpos : 0 < s.totalDirectSize)
    (hstart : searchStart < 2 ^ 64) (hsize : 0 < size ∧ size < 2 ^ 64) (halign : alignment < 2 ^ 64)
    (hfits : searchStart ≤ alignUp searchStart (usedAlignment alignment (kiB 64))) :
    s.ExpandsInWindow (usedAlignment alignment (kiB 64)) size searchStart searchEnd
        (s.poolExpand searchStart searchEnd size alignment) ↔
      ∀ a, FreeBlock (usedAlignment alignment (kiB 64)) size searchStart s.dmemMap a →
        ∃ b, FreeBlock (usedAlignment alignment (kiB 64)) size searchStart s.dmemMap b ∧
          b + size ≤ searchEnd := by
  have ha : 0 < usedAlignment alignment (kiB 64) ∧ usedAlignment alignment (kiB 64) < 2 ^ 64 :=
    alignment_bounds halign (by norm_num [kiB])
  have hfinds := areasFrom_finds hr hpos hstart hsize ha hfits
  rw [poolExpand_eq hr hpos]
  generalize usedAlignment alignment (kiB 64) = al at ha hfinds ⊢
  have hblock : ∀ a, FreeBlock al size searchStart (s.areasFrom searchStart) a ↔
      FreeBlock al size searchStart s.dmemMap a := freeBlock_areasFrom hr hpos hsize.1
  generalize findFreeArea size al (s.areasFrom searchStart) (alignUp searchStart al) =
    found at hfinds
  cases hfinds with
  | nothing hnone hover =>
    refine iff_of_true ?_ fun a ha' => absurd ((hblock a).mpr ha') (hnone a)
    rintro _ _ ⟨⟩ hne
    exact absurd rfl hne
  | @block key a hleast harea =>
    obtain ⟨area', hmem', hle', hend'⟩ := harea
    obtain ⟨e, he, hfit⟩ := ((hblock a).mp hleast.1).inside
    obtain ⟨m, b, hcarve, -⟩ :=
      carveWith_block (f := ({ · with dmaType := .pooled, memoryType := 3 }))
      hr.sound.dmem he hsize.1 hfit.2.1 hfit.2.2
    have hwf : e.2.base + e.2.size < 2 ^ 64 := hr.sound.dmem.wf _ he
    have hkey : e.2.base = e.1 := hr.sound.dmem.keyed _ he
    dsimp only
    rw [hcarve, ok_bind]
    constructor
    · intro h a' ha'
      obtain ⟨-, -, hend, -⟩ := h _ _ rfl (by unfold noAddress; omega)
      exact ⟨a, (hblock a).mp hleast.1, hend⟩
    · rintro h _ _ ⟨⟩ -
      obtain ⟨b', hb', hend⟩ := h a ((hblock a).mp hleast.1)
      have hle := hleast.2 ((hblock b').mpr hb')
      have hwindow : s.WindowBlock al size searchStart searchEnd a :=
        windowBlock_of_freeBlock hr.sound ((hblock a).mp hleast.1) (by omega)
      exact ⟨hwindow.aligned, hwindow.above, hwindow.below, hwindow.free,
        expand_ok hr.sound hsize.2 hcarve⟩
  | @overrun key a hnone hover hwrap hlt =>
    refine iff_of_true ?_ fun a ha' => absurd ((hblock a).mpr ha') (hnone a)
    intro s' a' hok
    dsimp only at hok
    obtain ⟨⟨m, h, b⟩, hcarve, -⟩ := bind_ok hok
    exact absurd hcarve (carveWith_overrun hr.sound.dmem hsize.2 hwrap)

/-- When aligning the search address wraps, only the last area is looked at. -/
theorem expandsInWindow_of_wraps (hr : Regular c s) (hpos : 0 < s.totalDirectSize)
    (hsize : 0 < size ∧ size < 2 ^ 64) (halign : alignment < 2 ^ 64)
    (hwraps : ¬searchStart ≤ alignUp searchStart (usedAlignment alignment (kiB 64))) :
    s.ExpandsInWindow (usedAlignment alignment (kiB 64)) size searchStart searchEnd
        (s.poolExpand searchStart searchEnd size alignment) ↔
      ∀ last, s.findDmemArea searchStart = .ok last → last.2.dmaType = .free →
        ¬Inside PhysicalMemoryArea.size s.dmemMap
          (alignUp searchStart (usedAlignment alignment (kiB 64))) size := by
  have ha : 0 < usedAlignment alignment (kiB 64) ∧ usedAlignment alignment (kiB 64) < 2 ^ 64 :=
    alignment_bounds halign (by norm_num [kiB])
  rw [poolExpand_eq hr hpos]
  generalize usedAlignment alignment (kiB 64) = al at ha hwraps ⊢
  have hhigh : 2 ^ 63 ≤ searchStart := not_lt.mp fun hlt => hwraps (le_alignUp hlt ha)
  obtain ⟨l, ⟨k, area⟩, r, haround, hfind, hareas, hfirst, hbehind⟩ :=
    areasFrom_spec hr hpos searchStart
  have hr' : r = [] := by
    refine List.eq_nil_iff_forall_not_mem.mpr fun f hf => ?_
    have hf' : f ∈ s.dmemMap := haround.eq ▸ List.mem_append_right _ (List.mem_cons_of_mem _ hf)
    have hlow := hr.lowDirect f hf'
    have hkey : f.2.base = f.1 := hr.sound.dmem.keyed f hf'
    have := hbehind f hf
    omega
  subst hr'
  have hwf : area.base + area.size < 2 ^ 64 := hr.sound.dmem.wf _ haround.mem
  have hkey : area.base = k := hr.sound.dmem.keyed _ haround.mem
  have hlast : ∀ e ∈ s.dmemMap, e.1 + e.2.size ≤ k + area.size := by
    intro e he
    rw [haround.eq] at he
    rcases List.mem_append.mp he with hl | hl
    · have htiling := haround.eq ▸ hr.sound.dmem.tiling
      have := htiling.mem_left_lt hl (List.mem_singleton_self (k, area))
      simp only [physKind_size] at this
      omega
    · rw [List.mem_singleton.mp hl]
  have hend : area.getEnd = k + area.size := by rw [PhysicalMemoryArea.getEnd, add64_eq hwf, hkey]
  rw [hareas, hfind, findFreeArea, hend]
  generalize alignUp searchStart al = a at hwraps ⊢
  by_cases hskip : area.dmaType ≠ .free ∨ k + area.size < add64 a size
  · rw [if_pos hskip]
    refine iff_of_true ?_ ?_
    · rintro _ _ ⟨⟩ hne
      exact absurd rfl hne
    · rintro _ ⟨⟩ hfree ⟨e, he, hle, hfit⟩
      have := hlast e he
      rcases hskip with hskip | hskip
      · exact hskip hfree
      · rw [add64_eq (by omega)] at hskip
        omega
  · rw [if_neg hskip]
    rw [not_or, not_not] at hskip
    dsimp only
    cases hcarve : PhysMap.carveWith s.dmemMap a size
      ({ · with dmaType := .pooled, memoryType := 3 }) with
    | error fault =>
      refine iff_of_true (by rintro _ _ ⟨⟩) ?_
      rintro _ - - ⟨e, he, hle, hfit⟩
      obtain ⟨m, b, hok, -⟩ :=
        carveWith_block (f := ({ · with dmaType := .pooled, memoryType := 3 }))
        hr.sound.dmem he hsize.1 hle hfit
      rw [hcarve] at hok
      cases hok
    | ok result =>
      obtain ⟨m, h, b⟩ := result
      have hinside := inside_of_carveWith hr.sound.dmem hsize.2 hcarve
      obtain ⟨e, he, hle, hfit⟩ := hinside
      have hbound := hlast e he
      refine iff_of_false ?_ fun hnot => hnot _ rfl hskip.1 ⟨e, he, hle, hfit⟩
      intro hwindow
      exact hwraps (hwindow _ a rfl (by unfold noAddress; omega)).2.1

/-- `PoolExpand` stays in the window exactly under the condition. -/
theorem expandsInWindow_iff (hr : Regular c s) (hpos : 0 < s.totalDirectSize)
    (hstart : searchStart < 2 ^ 64)
    (hsize : 0 < size ∧ size < 2 ^ 64) (halign : alignment < 2 ^ 64) :
    s.ExpandsInWindow (usedAlignment alignment (kiB 64)) size searchStart searchEnd
        (s.poolExpand searchStart searchEnd size alignment) ↔
      s.ExpandFits (usedAlignment alignment (kiB 64)) size searchStart searchEnd := by
  rw [ExpandFits]
  split_ifs with hfits
  · exact expandsInWindow_of_fits hr hpos hstart hsize halign hfits
  · exact expandsInWindow_of_wraps hr hpos hsize halign hfits

end MemoryManager

open MemoryManager

section Guest

variable {c : Config} {P : Kernel → GuestCall → Prop} {k : Kernel}
  {searchStart searchEnd len alignment : UInt64}
  {out : Bool}

theorem allocateArgs_of_request {memoryType : Int32}
    (h : Kernel.allocateDirectMemory searchStart searchEnd len alignment memoryType out =
      .perform (.allocate searchStart searchEnd len alignment memoryType.toInt)) :
    AllocateArgs searchStart.toNat searchEnd.toNat len.toNat alignment.toNat := by
  unfold Kernel.allocateDirectMemory at h
  split_ifs at h with h₁ h₂ h₃ h₄ h₅ h₆
  simp only [isNegative, Bool.or_eq_true, decide_eq_true_eq, not_or, not_le] at h₁ h₂ h₆
  have hlen : len ≠ 0 := h₂.1
  exact ⟨h₁.1, h₁.2, toNat_pos hlen, UInt64.le_iff_toNat_le.mp (UInt64.not_lt.mp h₆.1.2),
    alignment.toNat_lt⟩

/-- `Allocate` returns the least block of the window, or `-1` when there is none, exactly when no
candidate overruns and no block across areas comes first. -/
theorem allocate_least_iff {memoryType : Int32} (hc : c.Usable) (h : Reachable c P k)
    (hargs : Kernel.allocateDirectMemory searchStart searchEnd len alignment memoryType out =
      .perform (.allocate searchStart searchEnd len alignment memoryType.toInt)) :
    k.memory.AllocatesLeast (usedAlignment alignment.toNat (kiB 16)) len.toNat searchStart.toNat
      searchEnd.toNat
        memoryType.toInt
        (k.memory.allocate searchStart.toNat searchEnd.toNat len.toNat alignment.toNat
          memoryType.toInt) ↔
      k.memory.AllocateFits (usedAlignment alignment.toNat (kiB 16)) len.toNat searchStart.toNat
        searchEnd.toNat := by
  obtain ⟨hr, hpos⟩ := h.direct_pos hc
  have hargs := allocateArgs_of_request hargs
  exact allocatesLeast_iff hr.sound hargs.stop (allocate_allocates hr hpos hargs)

theorem poolExpand_args (h : Kernel.memoryPoolExpand searchStart searchEnd len alignment out =
    .perform (.poolExpand searchStart searchEnd len alignment)) : 0 < len.toNat := by
  unfold Kernel.memoryPoolExpand at h
  split_ifs at h with h₁ h₂
  simp only [Bool.or_eq_true, decide_eq_true_eq, not_or] at h₂
  exact toNat_pos h₂.1

/-- `PoolExpand` returns only blocks of the window exactly when there is no block at all or one of
the window; the search address must not be so high that aligning it wraps to a block of the last
area. -/
theorem poolExpand_window_iff (hc : c.Usable) (h : Reachable c P k)
    (hargs : Kernel.memoryPoolExpand searchStart searchEnd len alignment out =
      .perform (.poolExpand searchStart searchEnd len alignment)) :
    k.memory.ExpandsInWindow (usedAlignment alignment.toNat (kiB 64)) len.toNat searchStart.toNat
      searchEnd.toNat
        (k.memory.poolExpand searchStart.toNat searchEnd.toNat len.toNat alignment.toNat) ↔
      k.memory.ExpandFits (usedAlignment alignment.toNat (kiB 64)) len.toNat searchStart.toNat
        searchEnd.toNat := by
  obtain ⟨hr, hpos⟩ := h.direct_pos hc
  exact expandsInWindow_iff hr hpos searchStart.toNat_lt ⟨poolExpand_args hargs,
    len.toNat_lt⟩ alignment.toNat_lt

/-- The kernel after start, with all of its direct memory free. -/
def startedKernel : Kernel := { memory := Config.oneRegion.construct, aliasDmem := false }

theorem startedKernel_reachable : Reachable Config.oneRegion P startedKernel := .boot .fresh

theorem allocate_least_iff_started :
    startedKernel.memory.AllocatesLeast (usedAlignment 0 (kiB 16)) 0x10000 0 0x10000000 3
        (startedKernel.memory.allocate 0 0x10000000 0x10000 0 3) ↔
      startedKernel.memory.AllocateFits (usedAlignment 0 (kiB 16)) 0x10000 0 0x10000000 :=
  @allocate_least_iff _ (fun _ _ => True) _ 0 0x10000000 0x10000 0 true 3 Config.oneRegion_usable
    startedKernel_reachable rfl

/-- The last multiple of the page size as an alignment ends the emulator. -/
theorem allocate_least_fails :
    ∃ k, Reachable Config.oneRegion (fun _ _ => True) k ∧
      Kernel.allocateDirectMemory 0x4000 0x10000 0x8000 0xffffffffffffc000 3 true =
        .perform (.allocate 0x4000 0x10000 0x8000 0xffffffffffffc000 3) ∧
      ¬k.memory.AllocatesLeast 0xffffffffffffc000 0x8000 0x4000 0x10000 3
        (k.memory.allocate 0x4000 0x10000 0x8000 0xffffffffffffc000 3) := by
  refine ⟨startedKernel, startedKernel_reachable, rfl, ?_⟩
  have hfault : startedKernel.memory.allocate 0x4000 0x10000 0x8000 0xffffffffffffc000 3 =
    .error (.assertion .physicalAddressNotInMap) := rfl
  rw [hfault]
  rintro (⟨_, _, ⟨⟩, -⟩ | ⟨⟨⟩, -⟩)

theorem poolExpand_window_iff_started :
    startedKernel.memory.ExpandsInWindow (usedAlignment 0 (kiB 64)) 0x10000 0 0x10000000
        (startedKernel.memory.poolExpand 0 0x10000000 0x10000 0) ↔
      startedKernel.memory.ExpandFits (usedAlignment 0 (kiB 64)) 0x10000 0 0x10000000 :=
  @poolExpand_window_iff _ (fun _ _ => True) _ 0 0x10000000 0x10000 0 true Config.oneRegion_usable
    startedKernel_reachable rfl

/-- The window of one block is used up by an allocation, and the pool gets the block behind it. -/
theorem poolExpand_window_fails :
    ∃ k, Reachable Config.oneRegion (fun _ _ => True) k ∧
      Kernel.memoryPoolExpand 0 0x10000 0x10000 0 true =
        .perform (.poolExpand 0 0x10000 0x10000 0) ∧
      ¬k.memory.ExpandsInWindow 0x10000 0x10000 0 0x10000
        (k.memory.poolExpand 0 0x10000 0x10000 0) := by
  obtain ⟨k, hcall, hk⟩ :=
    Kernel.exists_callAll [.allocateDirectMemory 0 0x10000 0x10000 0 3 true] startedKernel
    (fun k => (k.memory.poolExpand 0 0x10000 0x10000 0).toOption.map Prod.snd = some 0x10000)
      (by decide)
  refine ⟨k, startedKernel_reachable.callAll (fun _ _ _ => trivial) hcall, rfl, ?_⟩
  intro hwindow
  cases hresult : k.memory.poolExpand 0 0x10000 0x10000 0 with
  | error fault =>
    rw [hresult] at hk
    cases hk
  | ok result =>
    rw [hresult] at hk
    have haddr : result.2 = 0x10000 := Option.some.inj hk
    have hend := (hwindow result.1 result.2 hresult (haddr ▸ by decide)).2.2.1
    omega

end Guest

end PS4Droid.Memory
