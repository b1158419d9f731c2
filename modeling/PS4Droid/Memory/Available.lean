import PS4Droid.Memory.Search

/-!
# The largest free block of direct memory

`DirectQueryAvailable` counts the aligned room of every free area in a window and reports the first
area with the most. The room of the area that the window starts in is counted with the padding of
the area's base, not with that of the address it reports.
-/

namespace PS4Droid.Memory

open OrderedMap IntervalMap Segments

/-- The address and the size that are counted for one free area. -/
def availableIn (searchStart searchEnd alignment : ℕ) (area : PhysicalMemoryArea) : ℕ × ℕ :=
  let alignedBase := if alignment > 0 then alignUp area.base alignment else area.base
  let alignmentSize := sub64 alignedBase area.base
  let remainingSize := if area.size ≥ alignmentSize then area.size - alignmentSize else 0
  let (alignedBase, remainingSize) :=
    if area.base < searchStart then
      (if alignment > 0 then alignUp searchStart alignment else searchStart,
        if remainingSize > searchStart - area.base then remainingSize - (searchStart - area.base)
          else 0)
    else
      (alignedBase, remainingSize)
  let remainingSize :=
    if area.getEnd > searchEnd then
      if remainingSize > area.getEnd - searchEnd then remainingSize - (area.getEnd - searchEnd)
        else 0
    else
      remainingSize
  (alignedBase, remainingSize)

def directQueryLoop (searchStart searchEnd alignment : ℕ) : PhysMap → ℕ → ℕ → ℕ × ℕ
  | [], paddr, maxSize => (paddr, maxSize)
  | (_, area) :: rest, paddr, maxSize =>
    if area.dmaType ≠ .free then
      directQueryLoop searchStart searchEnd alignment rest paddr maxSize
    else
      let (alignedBase, remainingSize) := availableIn searchStart searchEnd alignment area
      if remainingSize > maxSize then
        directQueryLoop searchStart searchEnd alignment rest alignedBase remainingSize
      else
        directQueryLoop searchStart searchEnd alignment rest paddr maxSize

def MemoryManager.directQueryAvailable (s : MemoryManager) (searchStart searchEnd alignment : ℕ) :
    Except Fault (ℕ × ℕ) := do
  let first ← s.findDmemArea searchStart
  return directQueryLoop searchStart searchEnd alignment (first :: above s.dmemMap first.1) 0 0

/-- The room that is counted for an area: up to the end of the area or of the window, behind the
start and the padding of the area's base. -/
def countedRoom (alignment searchStart searchEnd : ℕ) (e : ℕ × PhysicalMemoryArea) : ℕ :=
  if e.2.dmaType = .free then
    min (e.1 + e.2.size) searchEnd - (max searchStart e.1 + (roundUp e.1 alignment - e.1))
  else
    0

/-- The most room that is counted for an area of the list. -/
def mostRoom (alignment searchStart searchEnd : ℕ) (areas : PhysMap) : ℕ :=
  (areas.map (countedRoom alignment searchStart searchEnd)).foldr max 0

open MemoryManager

section Count

variable {searchStart searchEnd alignment : ℕ}

theorem alignUp_usedAlignment {value : ℕ} (hlow : value < 2 ^ 63) (halign : alignment < 2 ^ 64) :
    (if alignment > 0 then alignUp value alignment else value) =
      roundUp value (usedAlignment alignment 1) := by
  unfold usedAlignment
  split_ifs with hpos
  · exact alignUp_eq_roundUp ⟨hpos, halign⟩ (by omega) (le_alignUp hlow ⟨hpos, halign⟩)
  · exact (roundUp_of_dvd Nat.one_pos (one_dvd _)).symm

theorem usedAlignment_pos {page : ℕ} (hpage : 0 < page) : 0 < usedAlignment alignment page := by
  unfold usedAlignment
  split_ifs with h
  · exact h
  · exact hpage

/-- An entry of a direct map: its base is its key, and it lies in the lower half. -/
structure LowArea (e : ℕ × PhysicalMemoryArea) : Prop where
  keyed : e.2.base = e.1
  bounded : e.2.Bounded
  low : e.1 < 2 ^ 63

theorem availableIn_size {e : ℕ × PhysicalMemoryArea} (he : LowArea e) (halign : alignment < 2 ^ 64)
    (hfree : e.2.dmaType = .free) : (availableIn searchStart searchEnd alignment e.2).2 =
      countedRoom (usedAlignment alignment 1) searchStart searchEnd e := by
  obtain ⟨hkey, hwf, hlow⟩ := he
  unfold PhysicalMemoryArea.Bounded at hwf
  have hle : e.1 ≤ roundUp e.1 (usedAlignment alignment 1) :=
    le_roundUp e.1 (usedAlignment_pos Nat.one_pos)
  have hlt : roundUp e.1 (usedAlignment alignment 1) < 2 ^ 64 := by
    rw [← alignUp_usedAlignment hlow halign]
    split_ifs
    · exact alignUp_lt _ (by omega)
    · omega
  rw [countedRoom, if_pos hfree, availableIn, PhysicalMemoryArea.getEnd, add64_eq hwf, hkey,
    alignUp_usedAlignment hlow halign]
  dsimp only
  rw [sub64_eq hlt hle]
  split_ifs <;> try dsimp only
  all_goals omega

theorem availableIn_addr {e : ℕ × PhysicalMemoryArea} (he : LowArea e) (halign : alignment < 2 ^ 64)
    (hstart : searchStart < 2 ^ 63) : (availableIn searchStart searchEnd alignment e.2).1 =
      roundUp (max searchStart e.1) (usedAlignment alignment 1) := by
  rw [availableIn, he.keyed]
  by_cases hlt : e.1 < searchStart
  · simp only [if_pos hlt, max_eq_left hlt.le]
    exact alignUp_usedAlignment hstart halign
  · simp only [if_neg hlt, max_eq_right (not_lt.mp hlt)]
    exact alignUp_usedAlignment he.low halign

theorem mostRoom_cons (al : ℕ) (e : ℕ × PhysicalMemoryArea) (rest : PhysMap) :
    mostRoom al searchStart searchEnd (e :: rest) =
      max (countedRoom al searchStart searchEnd e) (mostRoom al searchStart searchEnd rest) := rfl

/-- One area replaces the best one exactly when more room is counted for it. -/
theorem directQueryLoop_cons {e : ℕ × PhysicalMemoryArea} {rest : PhysMap} {paddr maxSize : ℕ}
    (he : LowArea e) (halign : alignment < 2 ^ 64) :
    directQueryLoop searchStart searchEnd alignment (e :: rest) paddr maxSize =
      if maxSize < countedRoom (usedAlignment alignment 1) searchStart searchEnd e then
        directQueryLoop searchStart searchEnd alignment rest
          (availableIn searchStart searchEnd alignment e.2).1
          (countedRoom (usedAlignment alignment 1) searchStart searchEnd e)
      else
        directQueryLoop searchStart searchEnd alignment rest paddr maxSize := by
  obtain ⟨k, area⟩ := e
  rw [directQueryLoop]
  by_cases hfree : area.dmaType = .free
  · rw [if_neg (not_not.mpr hfree), ← availableIn_size he halign hfree]
  · have hzero : countedRoom (usedAlignment alignment 1) searchStart searchEnd (k, area) = 0 :=
      if_neg hfree
    rw [if_pos hfree, hzero, if_neg (Nat.not_lt_zero _)]

theorem directQueryLoop_of_le {areas : PhysMap} {paddr maxSize : ℕ} (hlow : ∀ e ∈ areas, LowArea e)
    (halign : alignment < 2 ^ 64)
    (hle : mostRoom (usedAlignment alignment 1) searchStart searchEnd areas ≤ maxSize) :
    directQueryLoop searchStart searchEnd alignment areas paddr maxSize = (paddr, maxSize) := by
  induction areas with
  | nil => rfl
  | cons e rest ih =>
    rw [mostRoom_cons, max_le_iff] at hle
    rw [directQueryLoop_cons (hlow e (by simp)) halign, if_neg (not_lt.mpr hle.1)]
    exact ih (fun f hf => hlow f (List.mem_cons_of_mem _ hf)) hle.2

theorem directQueryLoop_of_lt {areas : PhysMap} {paddr maxSize : ℕ} (hlow : ∀ e ∈ areas, LowArea e)
    (halign : alignment < 2 ^ 64)
    (hlt : maxSize < mostRoom (usedAlignment alignment 1) searchStart searchEnd areas) :
    ∃ e ∈ areas, countedRoom (usedAlignment alignment 1) searchStart searchEnd e =
        mostRoom (usedAlignment alignment 1) searchStart searchEnd areas ∧
      directQueryLoop searchStart searchEnd alignment areas paddr maxSize =
        ((availableIn searchStart searchEnd alignment e.2).1,
          mostRoom (usedAlignment alignment 1) searchStart searchEnd areas) := by
  induction areas generalizing paddr maxSize with
  | nil => cases hlt
  | cons e rest ih =>
    have hrest : ∀ f ∈ rest, LowArea f := fun f hf => hlow f (List.mem_cons_of_mem _ hf)
    rw [directQueryLoop_cons (hlow e (by simp)) halign]
    rw [mostRoom_cons] at hlt ⊢
    by_cases hle : mostRoom (usedAlignment alignment 1) searchStart searchEnd rest ≤
        countedRoom (usedAlignment alignment 1) searchStart searchEnd e
    · rw [max_eq_left hle] at hlt ⊢
      rw [if_pos hlt, directQueryLoop_of_le hrest halign hle]
      exact ⟨e, by simp, rfl, rfl⟩
    · rw [not_le] at hle
      rw [max_eq_right hle.le] at hlt ⊢
      split_ifs with htake
      · obtain ⟨f, hf, hroom, hloop⟩ := ih hrest hle
        exact ⟨f, List.mem_cons_of_mem _ hf, hroom, hloop⟩
      · obtain ⟨f, hf, hroom, hloop⟩ := ih hrest hlt
        exact ⟨f, List.mem_cons_of_mem _ hf, hroom, hloop⟩

end Count

namespace MemoryManager

variable {s : MemoryManager} {c : Config} {searchStart searchEnd alignment : ℕ}

/-- The report is a block of free bytes in the window, and none is larger. -/
def ReportsLargest (s : MemoryManager) (alignment searchStart searchEnd : ℕ) (report : ℕ × ℕ) :
    Prop :=
  0 < report.2 → s.WindowBlock alignment report.2 searchStart searchEnd report.1 ∧
    ∀ n a, s.WindowBlock alignment n searchStart searchEnd a → n ≤ report.2

/-- The largest aligned block of the window that lies in a free area. -/
def room (alignment searchStart searchEnd : ℕ) (e : ℕ × PhysicalMemoryArea) : ℕ :=
  if e.2.dmaType = .free then
    min (e.1 + e.2.size) searchEnd - roundUp (max searchStart e.1) alignment
  else
    0

def padding (alignment addr : ℕ) : ℕ := roundUp addr alignment - addr

/-- A block of the window that lies in no single area. -/
def CrossingBlock (s : MemoryManager) (alignment size searchStart searchEnd addr : ℕ) : Prop :=
  s.WindowBlock alignment size searchStart searchEnd addr ∧
    ∀ e ∈ s.dmemMap, ¬(e.1 ≤ addr ∧ addr + size ≤ e.1 + e.2.size)

/-- Of the area of the search address and the areas behind it: the first one ends, or the window, in
front of the search address with the padding of the area's base, and no other has room; or the
search address needs the same padding as the base; or a later area has more room than the first one
has behind that padding; or free areas touch the first one and make up for the smaller padding. In
all cases but the first, no block that crosses areas is larger than those inside one area. -/
inductive QueryFits (s : MemoryManager) (alignment searchStart searchEnd : ℕ)
    (first : ℕ × PhysicalMemoryArea) (rest : PhysMap) : Prop
  | nothing (hfirst : first.2.dmaType = .free →
        min (first.1 + first.2.size) searchEnd ≤ searchStart + padding alignment first.1)
      (hlater : ∀ e ∈ rest, room alignment searchStart searchEnd e = 0)
  | same (hpadding : first.2.dmaType = .free →
        padding alignment searchStart = padding alignment first.1)
      (hcross : ∀ n a, s.CrossingBlock alignment n searchStart searchEnd a →
        ∃ e ∈ first :: rest, n ≤ room alignment searchStart searchEnd e)
  | later {e : ℕ × PhysicalMemoryArea} (he : e ∈ rest)
      (hroom : room alignment searchStart searchEnd first ≤ room alignment searchStart searchEnd e)
      (hcount : 0 < room alignment searchStart searchEnd e ∧ (first.2.dmaType = .free →
        min (first.1 + first.2.size) searchEnd <
          searchStart + padding alignment first.1 + room alignment searchStart searchEnd e))
      (hcross : ∀ n a, s.CrossingBlock alignment n searchStart searchEnd a →
        ∃ e ∈ first :: rest, n ≤ room alignment searchStart searchEnd e)
  | touching (hfirst : first.2.dmaType = .free)
      (hpadding : padding alignment first.1 < padding alignment searchStart)
      (hend : first.1 + first.2.size + padding alignment searchStart ≤
        searchEnd + padding alignment first.1)
      (hfree : ∀ p, first.1 + first.2.size ≤ p → roundUp searchStart alignment ≤ p →
        p + padding alignment first.1 < first.1 + first.2.size + padding alignment searchStart →
        s.typeAt p = some .free)
      (hlater : ∀ e ∈ rest, room alignment searchStart searchEnd e +
        (searchStart + padding alignment first.1) ≤ first.1 + first.2.size)
      (hcross : ∀ n a, s.CrossingBlock alignment n searchStart searchEnd a →
        n + (searchStart + padding alignment first.1) ≤ first.1 + first.2.size)

variable {first e : ℕ × PhysicalMemoryArea} {rest : PhysMap} {al n a : ℕ}

theorem countedRoom_behind (ha : 0 < alignment) (hbehind : searchStart ≤ e.1) :
    countedRoom alignment searchStart searchEnd e = room alignment searchStart searchEnd e := by
  have hle := le_roundUp e.1 ha
  rw [countedRoom, room, max_eq_right hbehind, Nat.add_sub_cancel' hle]

theorem windowBlock_of_room (hs : s.Sound) (he : e ∈ s.dmemMap) (ha : 0 < alignment)
    (hpos : 0 < room alignment searchStart searchEnd e) :
    s.WindowBlock alignment (room alignment searchStart searchEnd e) searchStart searchEnd
      (roundUp (max searchStart e.1) alignment) := by
  have hle := le_roundUp (max searchStart e.1) ha
  unfold room at hpos ⊢
  split_ifs at hpos ⊢ with hfree
  · refine ⟨(le_max_left _ _).trans hle, dvd_roundUp _ _, fun p hp => ?_, by omega⟩
    rw [typeAt_of_mem hs he ⟨by omega, by omega⟩, hfree]
  · cases hpos

/-- A block of the window crosses areas, or is not larger than the room of one area. -/
theorem WindowBlock.crosses_or_le {l r : PhysMap}
    (h : s.WindowBlock alignment n searchStart searchEnd a)
    (hs : s.Sound) (haround : Around s.dmemMap l first r) (hfirst : first.1 ≤ searchStart)
    (ha : 0 < alignment) : s.CrossingBlock alignment n searchStart searchEnd a ∨
      ∃ e ∈ first :: r, n ≤ room alignment searchStart searchEnd e := by
  by_cases hwithin : ∃ e ∈ s.dmemMap, e.1 ≤ a ∧ a + n ≤ e.1 + e.2.size
  · refine .inr ?_
    obtain ⟨f, hf, hle, hend⟩ := hwithin
    rcases Nat.eq_zero_or_pos n with rfl | hpos
    · exact ⟨first, by simp, Nat.zero_le _⟩
    · have hbyte := h.free a ⟨le_rfl, by omega⟩
      obtain ⟨e, he, hin, hfree⟩ := mem_of_typeAt hs haround hfirst h.above hbyte
      have hsame : e = f := within_unique hs.dmem.tiling
        (haround.eq ▸ List.mem_append_right _ he) hf hin ⟨hle, (by omega : a < f.1 + f.2.size)⟩
      subst hsame
      have hround := roundUp_le ha (max_le h.above hle) h.aligned
      have hbelow := h.below
      refine ⟨e, he, ?_⟩
      rw [room, if_pos hfree]
      omega
  · exact .inl ⟨h, fun e he hin => hwithin ⟨e, he, hin⟩⟩

theorem mostRoom_le {areas : PhysMap} : mostRoom al searchStart searchEnd areas ≤ n ↔
    ∀ e ∈ areas, countedRoom al searchStart searchEnd e ≤ n := by
  induction areas with
  | nil => simp [mostRoom]
  | cons e rest ih => rw [mostRoom_cons, max_le_iff, ih, List.forall_mem_cons]

theorem exists_mostRoom {areas : PhysMap} (hpos : 0 < mostRoom al searchStart searchEnd areas) :
    ∃ e ∈ areas,
      countedRoom al searchStart searchEnd e = mostRoom al searchStart searchEnd areas := by
  induction areas with
  | nil => cases hpos
  | cons e rest ih =>
    rw [mostRoom_cons] at hpos ⊢
    rcases le_total (mostRoom al searchStart searchEnd rest)
      (countedRoom al searchStart searchEnd e)
      with hle | hle
    · exact ⟨e, by simp, (max_eq_left hle).symm⟩
    · rw [max_eq_right hle] at hpos ⊢
      obtain ⟨f, hf, heq⟩ := ih hpos
      exact ⟨f, List.mem_cons_of_mem _ hf, heq⟩

/-- The report of the loop, by the room counted for the first area and for the later ones. -/
theorem directQueryAvailable_eq (hr : Regular c s) (hpos : 0 < s.totalDirectSize)
    (halign : alignment < 2 ^ 64) (hal : al = usedAlignment alignment 1) :
    ∃ l first r addr size, Around s.dmemMap l first r ∧ s.areasFrom searchStart = first :: r ∧
      first.1 ≤ searchStart ∧ (∀ e ∈ r, searchStart < e.1) ∧
      s.directQueryAvailable searchStart searchEnd alignment = .ok (addr, size) ∧
      size = max (countedRoom al searchStart searchEnd first)
      (mostRoom al searchStart searchEnd r) ∧
      (countedRoom al searchStart searchEnd first < mostRoom al searchStart searchEnd r →
        s.WindowBlock al size searchStart searchEnd addr) ∧
      (mostRoom al searchStart searchEnd r ≤ countedRoom al searchStart searchEnd first →
        0 < size → addr = roundUp searchStart al) := by
  subst hal
  obtain ⟨l, first, r, haround, hfind, hareas, hfirst, hbehind⟩ :=
    areasFrom_spec hr hpos searchStart
  have hmem : ∀ e ∈ first :: r, e ∈ s.dmemMap := fun e he => haround.eq ▸ List.mem_append_right _ he
  have hlow : ∀ e ∈ first :: r, LowArea e := by
    intro e he
    have hkey : e.2.base = e.1 := hr.sound.dmem.keyed e (hmem e he)
    exact ⟨hkey, hr.sound.dmem.wf e (hmem e he), hkey ▸ hr.lowDirect e (hmem e he)⟩
  have hrest : ∀ e ∈ r, LowArea e := fun e he => hlow e (List.mem_cons_of_mem _ he)
  have hquery : s.directQueryAvailable searchStart searchEnd alignment =
      .ok (directQueryLoop searchStart searchEnd alignment (first :: r) 0 0) := by
    rw [directQueryAvailable, hfind, ok_bind, haround.above]
    rfl
  suffices hloop : ∃ addr size, directQueryLoop searchStart searchEnd alignment (first :: r) 0 0 =
      (addr, size) ∧ _ ∧ _ ∧ _ by
    obtain ⟨addr, size, heq, hspec⟩ := hloop
    exact ⟨l, first, r, addr, size, haround, hareas, hfirst, hbehind, hquery.trans (congrArg _ heq),
      hspec⟩
  have hpage : 0 < usedAlignment alignment 1 := usedAlignment_pos Nat.one_pos
  have hcons :=
    @directQueryLoop_cons searchStart searchEnd alignment _ r 0 0 (hlow first (by simp)) halign
  by_cases hlt : countedRoom (usedAlignment alignment 1) searchStart searchEnd first <
      mostRoom (usedAlignment alignment 1) searchStart searchEnd r
  · -- A later area is reported, whatever the first one counted.
    have hloop : ∃ paddr, directQueryLoop searchStart searchEnd alignment (first :: r) 0 0 =
        directQueryLoop searchStart searchEnd alignment r paddr
          (countedRoom (usedAlignment alignment 1) searchStart searchEnd first) := by
      rw [hcons]
      split_ifs with hroom
      · exact ⟨_, rfl⟩
      · exact ⟨0, by rw [Nat.eq_zero_of_not_pos hroom]⟩
    obtain ⟨paddr, hloop⟩ := hloop
    obtain ⟨e, he, hroom, hreport⟩ :=
      @directQueryLoop_of_lt searchStart searchEnd alignment _ paddr _ hrest halign hlt
    rw [hloop, hreport]
    refine ⟨_, _, rfl, (max_eq_right hlt.le).symm, fun _ => ?_,
      fun hle => absurd hlt (not_lt.mpr hle)⟩
    have hstart := hbehind e he
    have hblock := @windowBlock_of_room _ searchStart searchEnd _ e hr.sound
      (hmem e (List.mem_cons_of_mem _ he)) hpage
    rw [← countedRoom_behind hpage hstart.le, hroom] at hblock
    rw [availableIn_addr (hrest e he) halign (hstart.trans (hrest e he).low)]
    exact hblock (by omega)
  · rw [not_lt] at hlt
    rw [hcons, max_eq_left hlt]
    split_ifs with hroom
    · rw [directQueryLoop_of_le hrest halign hlt]
      refine ⟨_, _, rfl, rfl, fun hlt' => absurd hlt' (not_lt.mpr hlt), fun _ _ => ?_⟩
      have hend := (hr.dmem.mem (hmem first (by simp))).2.2.1
      have hdirect := hr.direct_le
      have hsmall := c.directSize_lt
      have hstart : searchStart < 2 ^ 63 := by
        unfold countedRoom at hroom
        split_ifs at hroom
        · omega
        · cases hroom
      rw [availableIn_addr (hlow first (by simp)) halign hstart, max_eq_left hfirst]
    · have hzero := Nat.eq_zero_of_not_pos hroom
      rw [directQueryLoop_of_le hrest halign (hzero ▸ hlt), hzero]
      exact ⟨0, 0, rfl, rfl, fun hlt' => absurd hlt' (not_lt.mpr (hzero ▸ hlt)),
        fun _ hpos => absurd hpos (by omega)⟩

theorem reportsLargest_iff {l r : PhysMap} {addr size counted most : ℕ} (hs : s.Sound)
    (haround : Around s.dmemMap l first r) (hstart : first.1 ≤ searchStart)
    (hbehind : ∀ e ∈ r, searchStart < e.1) (hal : 0 < al)
    (hcount : countedRoom al searchStart searchEnd first = counted)
    (hmost : mostRoom al searchStart searchEnd r = most) (hsize : size = max (counted) (most))
    (hlater : counted < most →
      s.WindowBlock al size searchStart searchEnd addr)
    (hfirst : most ≤ counted →
      0 < size → addr = roundUp searchStart al) :
    s.ReportsLargest al searchStart searchEnd (addr, size) ↔
      s.QueryFits al searchStart searchEnd first r := by
  have hmem : ∀ e ∈ first :: r, e ∈ s.dmemMap := fun e he => haround.eq ▸ List.mem_append_right _ he
  have hroom : ∀ e ∈ r, countedRoom al searchStart searchEnd e = room al searchStart searchEnd e :=
    fun e he => countedRoom_behind hal (hbehind e he).le
  have hle_most : ∀ e ∈ r, room al searchStart searchEnd e ≤ most :=
    fun e he => hroom e he ▸ mostRoom_le.mp hmost.le e he
  -- the room that is counted for the first area and the room it has
  have hround : roundUp searchStart al = searchStart + padding al searchStart :=
    (Nat.add_sub_cancel' (le_roundUp searchStart hal)).symm
  have hcounted : counted = if first.2.dmaType = .free then
      min (first.1 + first.2.size) searchEnd - (searchStart + padding al first.1) else 0 := by
    rw [← hcount, countedRoom, max_eq_left hstart, padding]
  have hactual : room al searchStart searchEnd first = if first.2.dmaType = .free then
      min (first.1 + first.2.size) searchEnd - (searchStart + padding al searchStart) else 0 := by
    rw [room, max_eq_left hstart, hround]
  constructor
  · intro h
    rcases Nat.eq_zero_or_pos size with hzero | hpos
    · refine .nothing (fun hfree => ?_) fun e he => ?_
      · rw [if_pos hfree] at hcounted
        omega
      · have := hle_most e he
        omega
    obtain ⟨hblock, hlargest⟩ := h hpos
    dsimp only at hblock hlargest
    have hrooms : ∀ e ∈ first :: r, room al searchStart searchEnd e ≤ size := by
      intro e he
      rcases Nat.eq_zero_or_pos (room al searchStart searchEnd e) with hzero | hpos
      · omega
      · exact hlargest _ _ (windowBlock_of_room hs (hmem e he) hal hpos)
    by_cases hlt : counted < most
    · obtain ⟨e, he, heq⟩ := exists_mostRoom (hmost.symm ▸ hlt.trans_le' (Nat.zero_le _))
      rw [hroom e he, hmost] at heq
      rw [max_eq_right hlt.le] at hsize
      refine .later he ?_ ⟨by omega, fun hfree => ?_⟩ fun n a hcross =>
        ⟨e, List.mem_cons_of_mem _ he, ?_⟩
      · exact (hrooms first (by simp)).trans (by omega)
      · rw [if_pos hfree] at hcounted
        omega
      · exact (hlargest n a hcross.1).trans (by omega)
    · rw [not_lt] at hlt
      rw [max_eq_left hlt] at hsize
      rw [hfirst hlt hpos] at hblock
      have hbelow := hblock.below
      have hle := hrooms first (by simp)
      by_cases hfree : first.2.dmaType = .free
      · rw [if_pos hfree] at hcounted hactual
        rcases lt_trichotomy (padding al first.1) (padding al searchStart) with hpad | hpad | hpad
        · refine .touching hfree hpad (by omega) (fun p hend hp hbound => ?_) (fun e he => ?_)
            fun n a hcross => ?_
          · exact hblock.free p ⟨hp, by omega⟩
          · have := hle_most e he
            omega
          · have := hlargest n a hcross.1
            omega
        · refine .same (fun _ => hpad.symm) fun n a hcross => ⟨first, by simp, ?_⟩
          have := hlargest n a hcross.1
          rw [← hpad] at hactual
          omega
        · omega
      · rw [if_neg hfree] at hcounted
        omega
  · intro h hpos
    dsimp only at hpos ⊢
    -- with no larger block across areas, the largest block lies in one area
    have hwithin (hcross : ∀ n a, s.CrossingBlock al n searchStart searchEnd a →
        ∃ e ∈ first :: r, n ≤ room al searchStart searchEnd e)
        (hle : room al searchStart searchEnd first ≤ size) :
        ∀ n a, s.WindowBlock al n searchStart searchEnd a → n ≤ size := by
      intro n a hblock
      obtain ⟨e, he, hn⟩ := (hblock.crosses_or_le hs haround hstart hal).elim (hcross n a) id
      rcases List.mem_cons.mp he with rfl | he
      · exact hn.trans hle
      · have := hle_most e he
        omega
    cases h with
    | nothing hnone hrest =>
      have hzero : most ≤ 0 :=
        hmost ▸ mostRoom_le.mpr fun e he => (hroom e he).trans_le (hrest e he).le
      split_ifs at hcounted with hfree
      · have := hnone hfree
        omega
      · omega
    | same hpadding hcross =>
      have heq : counted = room al searchStart searchEnd first := by
        rw [hcounted, hactual]
        split_ifs with hfree
        · rw [hpadding hfree]
        · rfl
      refine ⟨?_, hwithin hcross (by omega)⟩
      by_cases hlt : counted < most
      · exact hlater hlt
      · rw [not_lt] at hlt
        rw [max_eq_left hlt, heq] at hsize
        have hblock :=
          @windowBlock_of_room _ searchStart searchEnd _ first hs (hmem first (by simp)) hal
        rw [← hsize, max_eq_left hstart] at hblock
        rw [hfirst hlt hpos]
        exact hblock hpos
    | @later e he hle hmore hcross =>
      have := hle_most e he
      have hlt : counted < most := by
        split_ifs at hcounted with hfree
        · have := hmore.2 hfree
          omega
        · omega
      exact ⟨hlater hlt, hwithin hcross (by omega)⟩
    | touching hfree hpadding hend htouch hrest hcross =>
      rw [if_pos hfree] at hcounted hactual
      have hle : most ≤ counted := by
        refine hmost ▸ mostRoom_le.mpr fun e he => ?_
        have := hrest e he
        rw [hroom e he]
        omega
      rw [max_eq_left hle] at hsize
      rw [hfirst hle hpos]
      refine ⟨⟨le_roundUp _ hal, dvd_roundUp _ _, fun p hp => ?_, by omega⟩, fun n a hblock => ?_⟩
      · by_cases hin : p < first.1 + first.2.size
        · rw [typeAt_of_mem hs (hmem first (by simp)) ⟨by omega, hin⟩, hfree]
        · exact htouch p (by omega) hp.1 (by omega)
      · rcases hblock.crosses_or_le hs haround hstart hal with hblock | ⟨e, he, hn⟩
        · have := hcross n a hblock
          omega
        · rcases List.mem_cons.mp he with rfl | he
          · omega
          · have := hle_most e he
            omega

end MemoryManager

section Guest

variable {c : Config} {P : Kernel → GuestCall → Prop} {k : Kernel}

/-- `DirectQueryAvailable` reports the largest block of the window exactly when the padding of the
first area's base is the right one for the search address too, or does not matter, and no larger
block crosses areas. -/
theorem directQuery_largest_iff (hc : c.Usable) (h : Reachable c P k)
    (searchStart searchEnd alignment : UInt64) :
    ∃ first rest report, k.memory.areasFrom searchStart.toNat = first :: rest ∧
      k.memory.directQueryAvailable searchStart.toNat searchEnd.toNat alignment.toNat = .ok report ∧
      (k.memory.ReportsLargest (usedAlignment alignment.toNat 1) searchStart.toNat searchEnd.toNat
          report ↔
        k.memory.QueryFits (usedAlignment alignment.toNat 1) searchStart.toNat searchEnd.toNat
          first rest) := by
  obtain ⟨hr, hpos⟩ := h.direct_pos hc
  obtain ⟨l, first, r, addr, size, haround, hareas, hstart, hbehind, hquery, hsize, hlater,
    hfirst⟩ :=
    @directQueryAvailable_eq _ _ searchStart.toNat searchEnd.toNat _ _ hr hpos alignment.toNat_lt
      rfl
  exact ⟨first, r, _, hareas, hquery, reportsLargest_iff hr.sound haround hstart hbehind
    (usedAlignment_pos Nat.one_pos) rfl rfl hsize hlater hfirst⟩

/-- After the start, a search address with the alignment of the window: all its room is reported. -/
theorem directQuery_largest_iff_started :
    ∃ report, startedKernel.memory.directQueryAvailable 0x4000 0x20000 0x4000 = .ok report ∧
      startedKernel.memory.ReportsLargest (usedAlignment 0x4000 1) 0x4000 0x20000 report := by
  obtain ⟨first, rest, report, hareas, hquery, hiff⟩ := directQuery_largest_iff
    (P := fun _ _ => True) Config.oneRegion_usable startedKernel_reachable 0x4000 0x20000 0x4000
  refine ⟨report, hquery, hiff.mpr (.same (fun _ => ?_) fun n a hcross => ?_)⟩
  · obtain ⟨rfl, -⟩ := List.cons.inj (hareas.symm.trans rfl)
    decide
  · exact absurd ⟨Nat.zero_le _, hcross.1.below.trans (by decide)⟩ (hcross.2 _ (.head _))

/-- The room behind `0x4000` is reported at `0x10000`, so it ends behind the window. -/
theorem directQuery_largest_fails :
    ∃ k report, Reachable Config.oneRegion (fun _ _ => True) k ∧
      k.memory.directQueryAvailable 0x4000 0x20000 0x10000 = .ok report ∧
      ¬k.memory.ReportsLargest 0x10000 0x4000 0x20000 report := by
  have hreport : (startedKernel.memory.directQueryAvailable 0x4000 0x20000 0x10000).toOption =
      some (0x10000, 0x1c000) := by decide
  cases hquery : startedKernel.memory.directQueryAvailable 0x4000 0x20000 0x10000 with
  | error fault =>
    rw [hquery] at hreport
    cases hreport
  | ok report =>
    rw [hquery] at hreport
    cases hreport
    refine ⟨startedKernel, _, startedKernel_reachable, hquery, fun h => ?_⟩
    have hend := (h (by decide)).1.below
    dsimp only at hend
    omega

end Guest

end PS4Droid.Memory
