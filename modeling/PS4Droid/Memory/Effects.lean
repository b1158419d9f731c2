import PS4Droid.Memory.Backing
import PS4Droid.Memory.Tiling

/-!
# What the pieces of an operation do to every byte

A state is read through three views: the cell of a virtual address and the
attributes of a direct and of a flexible byte. The loops that the operations are
made of change these views on a range and nowhere else. One specification per
loop says how; everything about reachable states is derived from these.
-/

namespace PS4Droid.Memory

open OrderedMap IntervalMap Segments

namespace VMAMap

/-- Valid maps of sound areas. -/
abbrev SoundMap (m : VMAMap) : Prop := vmaKind.Valid VirtualMemoryArea.Sound m

/-- The cell of the address `x`. -/
def cellAt (m : VMAMap) (x : ℕ) : Option Cell := viewAt vmaKind.size VirtualMemoryArea.cell m x

variable {m m' l r : VMAMap} {addr size k h : ℕ} {v : VirtualMemoryArea}
  {f : VirtualMemoryArea → VirtualMemoryArea}

theorem SoundMap.valid (h : SoundMap m) : Valid m :=
  ⟨h.tiling, h.keyed, fun e he => (h.wf e he).bounded⟩

variable {x : ℕ} {a : VirtualMemoryArea}

theorem cellAt_mem (hv : SoundMap m) {e : ℕ × VirtualMemoryArea} (he : e ∈ m)
    (hx : e.1 ≤ x ∧ x < e.1 + e.2.size) : cellAt m x = some (e.2.cell (x - e.1)) :=
  viewAt_eq _ hv.tiling he hx

theorem cellAt_some {c : Cell} (h : cellAt m x = some c) :
    ∃ e ∈ m, (e.1 ≤ x ∧ x < e.1 + e.2.size) ∧ e.2.cell (x - e.1) = c :=
  viewAt_eq_some h

/-- The cells of a carved part are those of the area it was carved from. -/
theorem carved_cell (hv : SoundMap m) (ha : Around m l (k, v) r) (hp : Part k v.size addr size)
    (hx : addr ≤ x ∧ x < addr + size) :
    (carved k v addr size).cell (x - addr) = v.cell (x - k) := by
  have hrw := changed_rewritten (f := id) vmaKind_sound hv ⟨fun _ => rfl, fun _ => rfl⟩ ha hp
    (carved_extent vmaKind_sound hv ha hp).2.2
  have hold := hrw.viewAt_old vmaKind_sound vmaKind_cell hv hx
  have hstart := hp.start
  have hstop := hp.stop
  have hcell := cellAt_mem hv ha.mem (x := x) (by simp only; omega)
  rw [cellAt, hold] at hcell
  exact Option.some.inj hcell

theorem rewritten_cellAt (hv : SoundMap m) {b : VirtualMemoryArea}
    (h : Rewritten vmaKind VirtualMemoryArea.Sound m addr size a b m') (x : ℕ) :
    cellAt m' x = if addr ≤ x ∧ x < addr + size then some (b.cell (x - addr)) else cellAt m x :=
  h.viewAt_new vmaKind_sound vmaKind_cell hv x

/-- A successful `retype` found its range inside one area and changed its cells. -/
theorem retype_cells (hv : SoundMap m) (haddr : addr < 2 ^ 64) (hsize : size < 2 ^ 64)
    (hr : retype m addr size f = .ok m') (hf : Reattributes f)
    (hw : ∀ v : VirtualMemoryArea, v.Sound → (f v).Sound) :
    SoundMap m' ∧ ∃ k v, (k, v) ∈ m ∧ Part k v.size addr size ∧ ∀ x, cellAt m' x =
        if addr ≤ x ∧ x < addr + size then some ((f (carved k v addr size)).cell (x - addr))
        else cellAt m x := by
  obtain ⟨l, k, v, r, ha, hp, hrw⟩ := retype_shape vmaKind_sound (fun _ h => h.bounded) hv haddr
    hsize hf hr fun l k v r ha hp => hw _ (carved_extent vmaKind_sound hv ha hp).2.2
  exact ⟨hrw.valid vmaKind_sound hv, k, v, ha.mem, hp, rewritten_cellAt hv hrw⟩

/-- `f` changes protection, name and the like, but neither the extent nor the backing. -/
structure KeepsCells (f : VirtualMemoryArea → VirtualMemoryArea) : Prop extends Reattributes f where
  type_eq : ∀ v, (f v).type = v.type
  areas_eq : ∀ v, (f v).physAreas = v.physAreas

theorem KeepsCells.sound (hf : KeepsCells f) (hs : v.Sound) : (f v).Sound := by
  refine ⟨hf.toReattributes.bounded hs.bounded, by rw [hf.size_eq]; exact hs.pos, ?_, ?_⟩
  all_goals
    intro hb
    rw [hasPhysicalBacking_congr (hf.type_eq v)] at hb
    rw [hf.areas_eq v]
  · rw [hf.size_eq v]
    exact hs.backed hb
  · exact hs.unbacked hb

theorem KeepsCells.cell (hf : KeepsCells f) (off : ℕ) : (f v).cell off = v.cell off :=
  cell_eq (hf.type_eq v) fun _ => by rw [hf.areas_eq v]

/-- Giving a carved part a value with the same cells changes no cell. -/
theorem rewritten_same_cells (hv : SoundMap m) (ha : Around m l (k, v) r)
    (hp : Part k v.size addr size) {b : VirtualMemoryArea}
    (hrw : Rewritten vmaKind VirtualMemoryArea.Sound m addr size a b m')
    (hb : ∀ x, addr ≤ x ∧ x < addr + size →
      b.cell (x - addr) = (carved k v addr size).cell (x - addr)) :
    SoundMap m' ∧ ∀ x, cellAt m' x = cellAt m x := by
  refine ⟨hrw.valid vmaKind_sound hv, fun x => ?_⟩
  rw [rewritten_cellAt hv hrw]
  split_ifs with hx
  · have hstart := hp.start
    have hstop := hp.stop
    rw [hb x hx, carved_cell hv ha hp hx]
    exact (cellAt_mem hv ha.mem (by simp only; omega)).symm
  · rfl

theorem retype_same_cells (hv : SoundMap m) (haddr : addr < 2 ^ 64) (hsize : size < 2 ^ 64)
    (hr : retype m addr size f = .ok m') (hf : KeepsCells f) :
    SoundMap m' ∧ ∀ x, cellAt m' x = cellAt m x := by
  obtain ⟨l, k, v, r, ha, hp, hrw⟩ := retype_shape vmaKind_sound (fun _ h => h.bounded) hv haddr
    hsize hf.toReattributes hr fun l k v r ha hp =>
      hf.sound (carved_extent vmaKind_sound hv ha hp).2.2
  exact rewritten_same_cells hv ha hp hrw fun x _ => hf.cell _

theorem carveWith_same_cells (hv : SoundMap m) (haddr : addr < 2 ^ 64) (hsize : size < 2 ^ 64)
    (hc : carveWith m addr size f = .ok (m', h)) (hf : KeepsCells f) :
    SoundMap m' ∧ ∀ x, cellAt m' x = cellAt m x := by
  obtain ⟨-, l, k, v, r, ha, hp, rfl⟩ := carveWith_shape vmaKind_sound (fun _ h => h.bounded) hv
    haddr hsize hc
  have hw := hf.sound (carved_extent vmaKind_sound hv ha hp).2.2
  exact rewritten_same_cells hv ha hp
    (changed_rewritten vmaKind_sound hv hf.toReattributes ha hp hw)
    fun x _ => hf.cell _

theorem assign_same_cells (hv : SoundMap m) (hd : deref (get? m h) = .ok v) (hf : KeepsCells f) :
    SoundMap (assign m h (f v)) ∧ ∀ x, cellAt (assign m h (f v)) x = cellAt m x := by
  obtain ⟨l, r, ha⟩ := deref_get?_around hv.sorted hd
  have hassign := ha.assign (f v)
  simp only at hassign
  have hv' : SoundMap (l ++ (h, v) :: r) := ha.eq ▸ hv
  rw [hassign]
  refine ⟨hv'.rewrite (hf.base_eq v) (hf.size_eq v) (hf.sound (hv.wf _ ha.mem)), fun x => ?_⟩
  rw [cellAt, viewAt_rewrite hv' (hf.size_eq v)]
  split_ifs with hx
  · rw [hf.cell]
    exact (cellAt_mem hv ha.mem hx).symm
  · rw [cellAt, ha.eq]

theorem merge_cells (hv : SoundMap m) {h' : ℕ} (hm : mergeAdjacent m h = .ok (m', h')) :
    SoundMap m' ∧ ∀ x, cellAt m' x = cellAt m x := by
  have hrecut := mergeAdjacent_recut vmaKind_sound hv hm
  exact ⟨hrecut.valid vmaKind_sound hv, hrecut.viewAt_eq vmaKind_sound vmaKind_cell⟩

end VMAMap

/-! ### Physical maps -/

namespace PhysMap

variable {m m' : PhysMap} {addr size h : ℕ} {b : PhysicalMemoryArea}
  {f : PhysicalMemoryArea → PhysicalMemoryArea}
  {g : ℤ × PhysicalMemoryType → ℤ × PhysicalMemoryType}

/-- The attributes after a change of the range `[addr, addr + size)`. -/
structure Changed (m : PhysMap) (addr size : ℕ)
    (g : ℤ × PhysicalMemoryType → ℤ × PhysicalMemoryType) (m' : PhysMap) : Prop where
  valid : Valid m'
  pos : 0 < size
  /-- The range lies inside one area, so its bytes have the same attributes. -/
  uniform : ∃ a, ∀ p, addr ≤ p ∧ p < addr + size → attributesAt m p = some a
  attributes : ∀ p, attributesAt m' p =
    if addr ≤ p ∧ p < addr + size then (attributesAt m p).map g else attributesAt m p

theorem rewritten_changed (hv : Valid m) {a : PhysicalMemoryArea} (hpos : 0 < size)
    (hrw : Rewritten m addr size a b m') (hg : b.attributes 0 = g (a.attributes 0)) :
    Changed m addr size g m' := by
  have hold : ∀ p, addr ≤ p ∧ p < addr + size → attributesAt m p = some (a.attributes 0) :=
    fun p hp => hrw.viewAt_old physKind_lawful physKind_attributes hv hp
  refine ⟨hrw.valid physKind_lawful hv, hpos, ⟨_, hold⟩, fun p => ?_⟩
  have hnew := hrw.viewAt_new physKind_lawful physKind_attributes hv p
  rw [attributesAt, hnew]
  split_ifs with hp
  · rw [hold p hp, Option.map_some, ← hg]
    rfl
  · rfl

theorem carveWith_changed (hv : Valid m) (hsize : size < 2 ^ 64)
    (hc : carveWith m addr size f = .ok (m', h, b)) (hf : Reattributes f)
    (hg : ∀ a : PhysicalMemoryArea, (f a).attributes 0 = g (a.attributes 0)) :
    Changed m addr size g m' := by
  obtain ⟨-, l, k, a, r, ha, hp, rfl, rfl⟩ := carveWith_shape hv hsize hc
  exact rewritten_changed hv hp.pos (changed_rewritten hv hf ha hp) (hg _)

theorem retype_changed (hv : Valid m) (hsize : size < 2 ^ 64)
    (hr : retype m addr size f = .ok (m', h, b)) (hf : Reattributes f)
    (hg : ∀ a : PhysicalMemoryArea, (f a).attributes 0 = g (a.attributes 0)) :
    Changed m addr size g m' ∧ b.base = addr ∧ b.size = size ∧ b.Bounded ∧
      ∀ p, addr ≤ p ∧ p < addr + size → attributesAt m' p = some (b.attributes 0) := by
  obtain ⟨l, k, a, r, ha, hp, rfl, hrw, -⟩ := retype_shape hv hsize hf hr
  refine ⟨rewritten_changed hv hp.pos hrw (hg _), hf.base_eq _, hf.size_eq _, hrw.wf_new, ?_⟩
  intro p hp
  have hnew := hrw.viewAt_new physKind_lawful physKind_attributes hv p
  rw [if_pos hp] at hnew
  exact hnew

theorem merge_attributes (hv : Valid m) {h' : ℕ} (hm : mergeAdjacent m h = .ok (m', h')) :
    Valid m' ∧ ∀ p, attributesAt m' p = attributesAt m p := by
  have hrecut := mergeAdjacent_recut physKind_lawful hv hm
  exact ⟨hrecut.valid physKind_lawful hv, hrecut.viewAt_eq physKind_lawful physKind_attributes⟩

end PhysMap

/-- Give the memory type `t` to a byte. -/
def retag (t : PhysicalMemoryType) (a : ℤ × PhysicalMemoryType) : ℤ × PhysicalMemoryType :=
  (a.1, t)

namespace MemoryManager

/-- The bytes recorded for the offsets `[first, first + n)`. -/
def Records (areas : PhysMap) (first n p : ℕ) : Prop :=
  ∃ off, (first ≤ off ∧ off < first + n) ∧ byteAt areas off = some p

/-- The effect of retyping the physical pieces behind `n` offsets from `first` on. -/
structure BackingRetyped (t : PhysicalMemoryType) (areas : PhysMap) (first n : ℕ)
    (m m' : PhysMap) : Prop where
  valid : PhysMap.Valid m'
  recorded : ∀ p, Records areas first n p → m'.attributesAt p = (m.attributesAt p).map (retag t)
  other : ∀ p, ¬ Records areas first n p → m'.attributesAt p = m.attributesAt p
  present : ∀ p, Records areas first n p → (m.attributesAt p).isSome

variable {t : PhysicalMemoryType} {a : PhysicalMemoryArea} {start n' fuel : ℕ} {areas : PhysMap}

theorem BackingRetyped.cons {k n cur sz taken : ℕ}
    {rest m m₁ m' : PhysMap} (hc : Contiguous (k + a.size) rest n) (hcur : k ≤ cur)
    (hsz : cur + sz ≤ k + a.size) (htaken : taken = 0 ∨ cur + sz = k + a.size)
    (h₁ : PhysMap.Changed m (a.base + (cur - k)) sz (retag t) m₁)
    (h₂ : BackingRetyped t rest (k + a.size) taken m₁ m') :
    BackingRetyped t ((k, a) :: rest) cur (sz + taken) m m' := by
  have hnone : ∀ off, off < k + a.size → byteAt rest off = none := by
    intro off ho
    rw [byteAt, viewAt_eq_none, hc.covers]
    omega
  -- A byte is recorded in the first piece or in the remaining ones.
  have hsplit : ∀ p, Records ((k, a) :: rest) cur (sz + taken) p ↔
      (a.base + (cur - k) ≤ p ∧ p < a.base + (cur - k) + sz) ∨
        Records rest (k + a.size) taken p := by
    intro p
    constructor
    · rintro ⟨off, ho, hb⟩
      rw [byteAt_cons] at hb
      split_ifs at hb with hin
      · obtain rfl := Option.some.inj hb
        left
        rcases htaken with rfl | htaken <;> omega
      · right
        have hge : k + a.size ≤ off := by omega
        refine ⟨off, ⟨hge, ?_⟩, hb⟩
        rcases htaken with rfl | htaken <;> omega
    · rintro (hp | ⟨off, ho, hb⟩)
      · refine ⟨cur + (p - (a.base + (cur - k))), by omega, ?_⟩
        rw [byteAt_cons, if_pos (by omega)]
        simp only [Option.some.injEq]
        omega
      · refine ⟨off, ?_, ?_⟩
        · rcases htaken with rfl | htaken <;> omega
        · rw [byteAt_cons, if_neg (by omega), hb]
  refine ⟨h₂.valid, ?_, ?_, ?_⟩
  · intro p hp
    have hattr := h₁.attributes p
    by_cases hr : Records rest (k + a.size) taken p
    · rw [h₂.recorded p hr, hattr]
      split_ifs
      · cases m.attributesAt p <;> rfl
      · rfl
    · have hin := ((hsplit p).mp hp).resolve_right hr
      rw [h₂.other p hr, hattr, if_pos hin]
  · intro p hp
    rw [hsplit] at hp
    rw [h₂.other p fun hr => hp (.inr hr), h₁.attributes p, if_neg fun hin => hp (.inl hin)]
  · intro p hp
    rcases (hsplit p).mp hp with hin | hr
    · obtain ⟨b, hb⟩ := h₁.uniform
      rw [hb p hin]
      rfl
    · have := h₂.present p hr
      rw [h₁.attributes p] at this
      split_ifs at this
      · simpa using this
      · exact this

theorem retypePiece_changed {physAddr size : ℕ} {m m' : PhysMap}
    (hv : PhysMap.Valid m) (hsize : size < 2 ^ 64) (h : retypePiece t physAddr size m = .ok m') :
    PhysMap.Changed m physAddr size (retag t) m' := by
  obtain ⟨⟨m₁, h₁, a⟩, hr, rfl⟩ := map_ok h
  exact (PhysMap.retype_changed hv hsize hr ⟨fun _ => rfl, fun _ => rfl⟩ fun _ => rfl).1

theorem forEachPiece_retyped {n : ℕ} (hn : n < 2 ^ 64)
    {k left left' : ℕ} {m m' : PhysMap} (hv : PhysMap.Valid m)
    (hc : Contiguous k areas n) (hstart : ∀ e ∈ areas.head?, start < e.1 + e.2.size)
    (h : forEachPiece (retypePiece t) start areas left m = .ok (m', left')) :
    ∃ taken, taken + left' = left ∧ BackingRetyped t areas (max k start) taken m m' := by
  induction areas generalizing k left m with
  | nil =>
    cases h
    exact ⟨0, by omega, hv, by rintro p ⟨off, ho, -⟩; omega, fun _ _ => rfl,
      by rintro p ⟨off, ho, -⟩; omega⟩
  | cons e rest ih =>
    obtain ⟨rfl, hpos, hb, hrest⟩ := hc
    obtain ⟨k, a⟩ := e
    simp only [PhysicalMemoryArea.Bounded, List.head?_cons, Option.mem_def, Option.some.injEq,
      forall_eq'] at hstart hpos hb hrest
    have hle := hrest.le
    unfold forEachPiece at h
    split_ifs at h with h0
    · cases h
      exact ⟨0, by omega, hv, by rintro p ⟨off, ho, -⟩; omega, fun _ _ => rfl,
        by rintro p ⟨off, ho, -⟩; omega⟩
    · have hoff : sub64 (max k start) k = max k start - k := sub64_eq (by omega) (by omega)
      have hsz : sub64 a.size (max k start - k) = a.size - (max k start - k) :=
        sub64_eq (by omega) (by omega)
      have haddr : add64 a.base (max k start - k) = a.base + (max k start - k) :=
        add64_eq (by omega)
      simp only [hoff, hsz, haddr] at h
      obtain ⟨m₁, hm₁, h⟩ := bind_ok h
      have hchanged := retypePiece_changed hv (by omega) hm₁
      have hhead : ∀ e ∈ rest.head?, start < e.1 + e.2.size := by
        intro e he
        have := hrest.mem (List.mem_of_mem_head? he)
        omega
      obtain ⟨taken, htaken, hret⟩ := ih hchanged.valid hrest hhead h
      have hmax : max (k + a.size) start = k + a.size := by omega
      rw [hmax] at hret
      refine ⟨min left (a.size - (max k start - k)) + taken, by omega, ?_⟩
      exact .cons hrest (by omega) (by omega) (by omega) hchanged hret

/-- The physical areas around the one that is found for an offset. -/
theorem contiguous_findEntry {n k : ℕ} (hc : Contiguous 0 areas n)
    (hstart : start < n) (hfind : findEntry areas start = .ok (k, a)) :
    ∃ l r, Around areas l (k, a) r ∧ Contiguous 0 l k ∧ Contiguous k ((k, a) :: r) n ∧ k ≤ start ∧
      start < k + a.size := by
  obtain ⟨l, r, ha, hk, hlater⟩ := findEntry_around hc.tiling.sorted hfind
  obtain ⟨mid, hl, hr⟩ := (ha.eq ▸ hc : Contiguous 0 (l ++ (k, a) :: r) n).of_append
  obtain rfl : k = mid := hr.1
  refine ⟨l, r, ha, hl, hr, hk, ?_⟩
  obtain ⟨-, -, -, hr'⟩ := hr
  cases r with
  | nil =>
    obtain rfl := hr'
    exact hstart
  | cons f r =>
    obtain ⟨hf, -⟩ := hr'
    have := hlater f (by simp)
    omega

theorem retypeBacking_spec {m m' : PhysMap} {size n : ℕ}
    (hn : n < 2 ^ 64) (hv : PhysMap.Valid m) (hc : Contiguous 0 areas n) (hstart : start < n)
    (h : retypeBacking t areas start size m = .ok (m', true)) :
    BackingRetyped t areas start size m m' := by
  unfold retypeBacking at h
  obtain ⟨⟨k, a⟩, hfind, h⟩ := bind_ok h
  obtain ⟨⟨m₁, left⟩, hpiece, h⟩ := bind_ok h
  have hpair := pure_ok h
  simp only [Prod.mk.injEq, beq_iff_eq] at hpair
  obtain ⟨rfl, rfl⟩ := hpair
  obtain ⟨l, r, ha, hl, hr, hk, hend⟩ := contiguous_findEntry hc hstart hfind
  have habove := ha.above
  simp only at habove
  rw [habove] at hpiece
  obtain ⟨taken, htaken, hret⟩ := forEachPiece_retyped hn hv hr (by simpa using hend) hpiece
  rw [show max k start = start by omega, show taken = size by omega] at hret
  have hsame : ∀ p, Records areas start size p ↔ Records ((k, a) :: r) start size p := by
    intro p
    refine exists_congr fun off => and_congr_right fun ho => ?_
    rw [ha.eq, hl.byteAt_append, if_neg (by omega)]
  exact ⟨hret.valid, fun p hp => hret.recorded p ((hsame p).mp hp),
    fun p hp => hret.other p fun hr => hp ((hsame p).mpr hr),
    fun p hp => hret.present p ((hsame p).mp hp)⟩

/-! ### Unmapping -/

/-- All maps are valid and every backed area has its physical areas. -/
structure Sound (s : MemoryManager) : Prop where
  vma : VMAMap.SoundMap s.vmaMap
  dmem : PhysMap.Valid s.dmemMap
  fmem : PhysMap.Valid s.fmemMap
  usage_lt : s.flexibleUsage < 2 ^ 64
  budget_lt : s.poolBudget < 2 ^ 64

def cellAt (s : MemoryManager) (x : ℕ) : Option Cell := s.vmaMap.cellAt x

def dmemAt (s : MemoryManager) (p : ℕ) : Option (ℤ × PhysicalMemoryType) := s.dmemMap.attributesAt p

def fmemAt (s : MemoryManager) (p : ℕ) : Option (ℤ × PhysicalMemoryType) := s.fmemMap.attributesAt p

/-- The byte `p` is recorded by an address of type `t` in `R`. -/
def Backs (s : MemoryManager) (R : ℕ → Prop) (t : VMAType) (p : ℕ) : Prop :=
  ∃ x, R x ∧ s.cellAt x = some ⟨t, some p⟩

/-- The number of addresses of type `t` in `R`. -/
noncomputable def countIn (s : MemoryManager) (R : ℕ → Prop) (t : VMAType) : ℕ :=
  {x | R x ∧ ∃ b, s.cellAt x = some ⟨t, b⟩}.ncard

/-- Unmapping acts on this address: it belongs to an area that is neither free nor pooled. -/
def Releasable (s : MemoryManager) (x : ℕ) : Prop :=
  ∃ c, s.cellAt x = some c ∧ c.type ≠ .free ∧ c.type ≠ .pooled

/-- What unmapping the addresses `R` does to a state. -/
structure Unmaps (s : MemoryManager) (R : ℕ → Prop) (s' : MemoryManager) : Prop where
  sound : s'.Sound
  releasable : ∀ x, R x → s.Releasable x
  finite : {x | R x}.Finite
  cell_in : ∀ x, R x → s'.cellAt x = some ⟨.free, none⟩
  cell_out : ∀ x, ¬ R x → s'.cellAt x = s.cellAt x
  host_out : ∀ x, ¬ R x → s'.host x = s.host x
  dmem_in : ∀ p, s.Backs R .direct p → s'.dmemAt p = (s.dmemAt p).map (retag .allocated)
  dmem_out : ∀ p, ¬ s.Backs R .direct p → s'.dmemAt p = s.dmemAt p
  fmem_in : ∀ p, s.Backs R .flexible p → s'.fmemAt p = (s.fmemAt p).map (retag .free)
  fmem_out : ∀ p, ¬ s.Backs R .flexible p → s'.fmemAt p = s.fmemAt p
  usage : s'.flexibleUsage = sub64 s.flexibleUsage (s.countIn R .flexible)
  budget : s'.poolBudget = s.poolBudget
  totalDirect : s'.totalDirectSize = s.totalDirectSize
  totalFlexible : s'.totalFlexibleSize = s.totalFlexibleSize

variable {s s' s₁ s₂ : MemoryManager}

theorem sub64_sub64 (a b c : ℕ) : sub64 (sub64 a b) c = sub64 a (b + c) := by
  unfold sub64
  omega

/-! What one step does to the addresses `R₁` and a second one to `R₂` is what both do to `R`. -/

section Composition

variable {R R₁ R₂ : ℕ → Prop}

theorem backs_or (hR : ∀ x, R x ↔ R₁ x ∨ R₂ x) (hcell : ∀ x, R₂ x → s₁.cellAt x = s.cellAt x)
    (t : VMAType) (p : ℕ) :
    s.Backs R t p ↔ s.Backs R₁ t p ∨ s₁.Backs R₂ t p := by
  constructor
  · rintro ⟨x, hx, hc⟩
    rcases (hR x).mp hx with hx | hx
    · exact .inl ⟨x, hx, hc⟩
    · exact .inr ⟨x, hx, (hcell x hx).trans hc⟩
  · rintro (⟨x, hx, hc⟩ | ⟨x, hx, hc⟩)
    · exact ⟨x, (hR x).mpr (.inl hx), hc⟩
    · exact ⟨x, (hR x).mpr (.inr hx), (hcell x hx).symm.trans hc⟩

theorem countIn_or (hR : ∀ x, R x ↔ R₁ x ∨ R₂ x) (hcell : ∀ x, R₂ x → s₁.cellAt x = s.cellAt x)
    (hd : ∀ x, R₁ x → ¬ R₂ x) (h₁ : {x | R₁ x}.Finite) (h₂ : {x | R₂ x}.Finite) (t : VMAType) :
    s.countIn R t = s.countIn R₁ t + s₁.countIn R₂ t := by
  unfold countIn
  rw [← Set.ncard_union_eq _ (h₁.subset fun x hx => hx.1) (h₂.subset fun x hx => hx.1)]
  · congr 1
    ext x
    constructor
    · rintro ⟨hx, hb⟩
      exact ((hR x).mp hx).imp (fun hx => ⟨hx, hb⟩) fun hx => ⟨hx, by rwa [hcell x hx]⟩
    · rintro (⟨hx, hb⟩ | ⟨hx, hb⟩)
      · exact ⟨(hR x).mpr (.inl hx), hb⟩
      · exact ⟨(hR x).mpr (.inr hx), by rwa [hcell x hx] at hb⟩
  · rw [Set.disjoint_left]
    rintro x ⟨hx, -⟩ ⟨hx', -⟩
    exact hd x hx hx'

/-- Bytes retagged by both steps get the same tag twice. -/
theorem retag_or {d : PhysicalMemoryType} {f f₁ f₂ : ℕ → Option (ℤ × PhysicalMemoryType)}
    (hR : ∀ p, R p ↔ R₁ p ∨ R₂ p) (hin₁ : ∀ p, R₁ p → f₁ p = (f p).map (retag d))
    (hout₁ : ∀ p, ¬ R₁ p → f₁ p = f p)
    (hin₂ : ∀ p, R₂ p → f₂ p = (f₁ p).map (retag d)) (hout₂ : ∀ p, ¬ R₂ p → f₂ p = f₁ p) :
    (∀ p, R p → f₂ p = (f p).map (retag d)) ∧ ∀ p, ¬ R p → f₂ p = f p := by
  constructor
  · intro p hp
    by_cases hp₂ : R₂ p
    · rw [hin₂ p hp₂]
      by_cases hp₁ : R₁ p
      · rw [hin₁ p hp₁]
        cases f p <;> rfl
      · rw [hout₁ p hp₁]
    · rw [hout₂ p hp₂, hin₁ p (((hR p).mp hp).resolve_right hp₂)]
  · intro p hp
    rw [hR, not_or] at hp
    rw [hout₂ p hp.2, hout₁ p hp.1]

end Composition

theorem Unmaps.trans {R₁ R₂ : ℕ → Prop} (h₁ : Unmaps s R₁ s₁) (h₂ : Unmaps s₁ R₂ s₂) :
    Unmaps s (fun x => R₁ x ∨ R₂ x) s₂ := by
  -- What has been unmapped is free and will not be unmapped again.
  have hd : ∀ x, R₁ x → ¬ R₂ x := by
    intro x hx hx'
    obtain ⟨c, hc, hfree, -⟩ := h₂.releasable x hx'
    rw [h₁.cell_in x hx] at hc
    cases hc
    exact hfree rfl
  have hcell : ∀ x, R₂ x → s₁.cellAt x = s.cellAt x := fun x hx =>
    h₁.cell_out x fun h => hd x h hx
  have hbacks := backs_or (R := fun x => R₁ x ∨ R₂ x) (fun _ => Iff.rfl) hcell
  have hcount :=
    countIn_or (R := fun x => R₁ x ∨ R₂ x) (fun _ => Iff.rfl) hcell hd h₁.finite h₂.finite .flexible
  have hdmem := retag_or (hbacks .direct) h₁.dmem_in h₁.dmem_out h₂.dmem_in h₂.dmem_out
  have hfmem := retag_or (hbacks .flexible) h₁.fmem_in h₁.fmem_out h₂.fmem_in h₂.fmem_out
  refine
    { sound := h₂.sound
      releasable := ?_
      finite := (h₁.finite.union h₂.finite).subset fun x hx => hx
      budget := h₂.budget.trans h₁.budget
      totalDirect := h₂.totalDirect.trans h₁.totalDirect
      totalFlexible := h₂.totalFlexible.trans h₁.totalFlexible
      usage := by rw [h₂.usage, h₁.usage, sub64_sub64, hcount]
      dmem_in := hdmem.1, dmem_out := hdmem.2, fmem_in := hfmem.1, fmem_out := hfmem.2
      cell_in := ?_, cell_out := ?_, host_out := ?_ }
  · rintro x (hx | hx)
    · exact h₁.releasable x hx
    · obtain ⟨c, hc, hrel⟩ := h₂.releasable x hx
      exact ⟨c, (hcell x hx).symm.trans hc, hrel⟩
  · intro x hx
    by_cases hx₂ : R₂ x
    · exact h₂.cell_in x hx₂
    · rw [h₂.cell_out x hx₂, h₁.cell_in x (hx.resolve_right hx₂)]
  · intro x hx
    rw [h₂.cell_out x fun h => hx (.inr h), h₁.cell_out x fun h => hx (.inl h)]
  · intro x hx
    rw [h₂.host_out x fun h => hx (.inr h), h₁.host_out x fun h => hx (.inl h)]

theorem Unmaps.refl (h : s.Sound) : Unmaps s (fun _ => False) s where
  sound := h
  releasable := by simp
  finite := by simp
  cell_in := by simp
  cell_out := fun _ _ => rfl
  host_out := fun _ _ => rfl
  dmem_in := by simp [Backs]
  dmem_out := fun _ _ => rfl
  fmem_in := by simp [Backs]
  fmem_out := fun _ _ => rfl
  usage := by
    have := h.usage_lt
    simp only [countIn, false_and, Set.ofPred_false, Set.ncard_empty, sub64]
    omega
  budget := rfl
  totalDirect := rfl
  totalFlexible := rfl

section Entry

variable {addr n k : ℕ} {vma : VirtualMemoryArea} {x first : ℕ}

theorem cellAt_part (hs : s.Sound) (hmem : (k, vma) ∈ s.vmaMap) (hp : Part k vma.size addr n)
    (hx : addr ≤ x ∧ x < addr + n) : s.cellAt x = some (vma.cell (x - k)) := by
  have hstart := hp.start
  have hstop := hp.stop
  exact VMAMap.cellAt_mem hs.vma hmem (by simp only; omega)

/-- The bytes recorded behind a part are those that back its addresses. -/
theorem records_iff_backs (hs : s.Sound) (hmem : (k, vma) ∈ s.vmaMap)
    (hp : Part k vma.size addr n) (hb : vma.hasPhysicalBacking = true) (p : ℕ) :
    Records vma.physAreas (addr - k) n p ↔
      s.Backs (fun x => addr ≤ x ∧ x < addr + n) vma.type p := by
  have hstart := hp.start
  constructor
  · rintro ⟨off, ho, hbyte⟩
    refine ⟨k + off, by omega, ?_⟩
    rw [cellAt_part hs hmem hp (by omega)]
    simp [VirtualMemoryArea.cell, hb, hbyte]
  · rintro ⟨x, hx, hcell⟩
    rw [cellAt_part hs hmem hp hx] at hcell
    simp only [VirtualMemoryArea.cell, hb, ↓reduceIte, Option.some.injEq, Cell.mk.injEq,
      true_and] at hcell
    exact ⟨x - k, by omega, hcell⟩

theorem not_backs_of_type (hs : s.Sound) (hmem : (k, vma) ∈ s.vmaMap)
    (hp : Part k vma.size addr n) {t : VMAType} (ht : vma.type ≠ t) (p : ℕ) :
    ¬ s.Backs (fun x => addr ≤ x ∧ x < addr + n) t p := by
  rintro ⟨x, hx, hcell⟩
  rw [cellAt_part hs hmem hp hx] at hcell
  simp only [VirtualMemoryArea.cell, Option.some.injEq, Cell.mk.injEq] at hcell
  exact ht hcell.1

/-- The area that holds a range is the one that is found for its start. -/
theorem findVMA_part {k' : ℕ} {v : VirtualMemoryArea} (hs : s.Sound) (hmem : (k', v) ∈ s.vmaMap)
    (hp : Part k' v.size addr n) (hx : addr ≤ x ∧ x < addr + n) (hf : s.findVMA x = .ok (k, vma)) :
    k' = k ∧ v = vma := by
  have hstart := hp.start
  have hstop := hp.stop
  rw [findVMA,
    findEntry_covering hs.vma.tiling hmem (by simp only [Within, vmaKind_size]; omega)] at hf
  simpa using hf

theorem ncard_interval (addr n : ℕ) : {x | addr ≤ x ∧ x < addr + n}.ncard = n := by
  have : {x | addr ≤ x ∧ x < addr + n} = (Finset.Ico addr (addr + n) : Set ℕ) := by
    ext x
    simp
  rw [this, Set.ncard_coe_finset, Nat.card_Ico]
  omega

theorem finite_interval (addr n : ℕ) : {x | addr ≤ x ∧ x < addr + n}.Finite :=
  (Set.finite_Ico addr (addr + n)).subset fun _ hx => hx

/-- An interval whose addresses all have one type. -/
theorem countIn_type {type : VMAType}
    (hcell : ∀ x, addr ≤ x ∧ x < addr + n → ∃ b, s.cellAt x = some ⟨type, b⟩)
    (t : VMAType) : s.countIn (fun x => addr ≤ x ∧ x < addr + n) t = if type = t then n else 0 := by
  have hset : {x | (addr ≤ x ∧ x < addr + n) ∧ ∃ b, s.cellAt x = some ⟨t, b⟩} =
      {x | (addr ≤ x ∧ x < addr + n) ∧ type = t} := by
    ext x
    refine and_congr_right fun hx => ?_
    obtain ⟨b, hb⟩ := hcell x hx
    simp [hb]
  rw [countIn, hset]
  split_ifs with ht
  · simp only [ht, and_true, ncard_interval]
  · simp [ht]

theorem countIn_part (hs : s.Sound) (hmem : (k, vma) ∈ s.vmaMap) (hp : Part k vma.size addr n)
    (t : VMAType) :
    s.countIn (fun x => addr ≤ x ∧ x < addr + n) t = if vma.type = t then n else 0 :=
  countIn_type (fun _ hx => ⟨_, cellAt_part hs hmem hp hx⟩) t

/-- What releasing the memory behind a part changes. -/
structure Releases (s : MemoryManager) (vma : VirtualMemoryArea) (first n : ℕ)
    (s' : MemoryManager) : Prop where
  vmaMap : s'.vmaMap = s.vmaMap
  host : s'.host = s.host
  budget : s'.poolBudget = s.poolBudget
  totalDirect : s'.totalDirectSize = s.totalDirectSize
  totalFlexible : s'.totalFlexibleSize = s.totalFlexibleSize
  direct : vma.type = .direct →
    BackingRetyped .allocated vma.physAreas first n s.dmemMap s'.dmemMap
  not_direct : vma.type ≠ .direct → s'.dmemMap = s.dmemMap
  flexible : vma.type = .flexible →
    BackingRetyped .free vma.physAreas first n s.fmemMap s'.fmemMap
  not_flexible : vma.type ≠ .flexible → s'.fmemMap = s.fmemMap
  usage : s'.flexibleUsage =
    if vma.type = .flexible then sub64 s.flexibleUsage n else s.flexibleUsage

theorem Releases.dmem_valid (hr : Releases s vma first n s') (hs : s.Sound) :
    PhysMap.Valid s'.dmemMap := by
  by_cases ht : vma.type = .direct
  · exact (hr.direct ht).valid
  · rw [hr.not_direct ht]
    exact hs.dmem

theorem Releases.fmem_valid (hr : Releases s vma first n s') (hs : s.Sound) :
    PhysMap.Valid s'.fmemMap := by
  by_cases ht : vma.type = .flexible
  · exact (hr.flexible ht).valid
  · rw [hr.not_flexible ht]
    exact hs.fmem

theorem releaseBacking_vmaMap (h : s.releaseBacking vma first n = .ok s') :
    s'.vmaMap = s.vmaMap := by
  unfold releaseBacking at h
  split_ifs at h
  · cases htype : vma.type <;> simp only [htype] at h <;>
      obtain ⟨_, -, h⟩ := bind_ok h <;> obtain ⟨_, -, h⟩ := bind_ok h
    case direct | flexible =>
      cases h
      rfl
    all_goals
      obtain ⟨_, -, h⟩ := bind_ok h
      cases h
      rfl
  · cases h
    rfl

theorem releaseBacking_spec (hs : s.Sound) (hmem : (k, vma) ∈ s.vmaMap)
    (hp : Part k vma.size addr n) (h : s.releaseBacking vma (addr - k) n = .ok s') :
    Releases s vma (addr - k) n s' := by
  have hsound : vma.Sound := hs.vma.wf _ hmem
  have hbound : vma.base + vma.size < 2 ^ 64 := hsound.bounded
  have hstart := hp.start
  have hstop := hp.stop
  have hpos := hp.pos
  -- A backed area has at least one physical area.
  have hlen : vma.hasPhysicalBacking = true → vma.physAreas.length > 0 := by
    intro hb
    obtain ⟨a, rest, ha⟩ := (hsound.backed hb).head hsound.pos
    simp [ha]
  have hsame : ∀ s'', s'' = s → vma.type ≠ .direct → vma.type ≠ .flexible →
      Releases s vma (addr - k) n s'' := by
    rintro s'' rfl hd hf
    exact ⟨rfl, rfl, rfl, rfl, rfl, fun h => absurd h hd, fun _ => rfl, fun h => absurd h hf,
      fun _ => rfl, by rw [if_neg hf]⟩
  unfold releaseBacking at h
  split_ifs at h with hl
  · cases htype : vma.type <;> simp only [htype] at h
    case direct =>
      obtain ⟨⟨m, done⟩, hr, h⟩ := bind_ok h
      obtain ⟨_, hdone, h⟩ := bind_ok h
      obtain rfl : done = true := require_ok hdone
      cases h
      have hb : vma.hasPhysicalBacking = true := by
        simp [VirtualMemoryArea.hasPhysicalBacking, htype]
      have hret := retypeBacking_spec (by omega) hs.dmem (hsound.backed hb) (by omega) hr
      exact ⟨rfl, rfl, rfl, rfl, rfl, fun _ => hret, fun h => absurd htype h,
        fun h => by simp [htype] at h, fun _ => rfl, by simp [htype]⟩
    case flexible =>
      obtain ⟨⟨m, done⟩, hr, h⟩ := bind_ok h
      obtain ⟨_, hdone, h⟩ := bind_ok h
      obtain rfl : done = true := require_ok hdone
      cases h
      have hb : vma.hasPhysicalBacking = true := by
        simp [VirtualMemoryArea.hasPhysicalBacking, htype]
      have hret := retypeBacking_spec (by omega) hs.fmem (hsound.backed hb) (by omega) hr
      exact ⟨rfl, rfl, rfl, rfl, rfl, fun h => by simp [htype] at h, fun _ => rfl,
        fun _ => hret, fun h => absurd htype h, by simp [htype]⟩
    all_goals
      obtain ⟨first, -, h⟩ := bind_ok h
      obtain ⟨p, -, h⟩ := bind_ok h
      obtain ⟨_, -, h⟩ := bind_ok h
      cases h
      exact hsame s rfl (by simp [htype]) (by simp [htype])
  · cases h
    refine hsame s rfl ?_ ?_
    · intro htype
      exact hl (hlen (by simp [VirtualMemoryArea.hasPhysicalBacking, htype]))
    · intro htype
      exact hl (hlen (by simp [VirtualMemoryArea.hasPhysicalBacking, htype]))

theorem freed_sound (hv : vma.Sound) : (freed vma).Sound :=
  ⟨hv.bounded, hv.pos, fun h => by simp [freed, VirtualMemoryArea.hasPhysicalBacking] at h,
    fun _ => rfl⟩

/-- Unmapping from the area found at `addr`: free and pooled areas are skipped, of any other
area the addresses `[addr, addr + n)` are unmapped. -/
theorem unmapBytesFromEntry_spec (hs : s.Sound) {size : ℕ} (haddr : addr < 2 ^ 64)
    (hsize : size < 2 ^ 64) (hf : s.findVMA addr = .ok (k, vma))
    (h : s.unmapBytesFromEntry addr vma size = .ok (s', n)) :
    n = min (sub64 vma.size (sub64 addr vma.base)) size ∧
      ((vma.type = .free ∨ vma.type = .pooled) ∧ s' = s ∨
        (vma.type ≠ .free ∧ vma.type ≠ .pooled) ∧ (k, vma) ∈ s.vmaMap ∧
          Part k vma.size addr n ∧ Unmaps s (fun x => addr ≤ x ∧ x < addr + n) s') := by
  unfold unmapBytesFromEntry at h
  dsimp only at h
  by_cases hskip : vma.type = .free ∨ vma.type = .pooled
  · rw [if_pos hskip] at h
    cases h
    exact ⟨rfl, .inl ⟨hskip, rfl⟩⟩
  · rw [if_neg hskip] at h
    obtain ⟨s₁, hrel, h⟩ := bind_ok h
    obtain ⟨m, hr, h⟩ := bind_ok h
    cases h
    refine ⟨rfl, .inr ⟨not_or.mp hskip, ?_⟩⟩
    obtain ⟨l, r, ha, hk, -⟩ := findEntry_around hs.vma.sorted hf
    have hmem := ha.mem
    have hbase : vma.base = k := hs.vma.keyed _ hmem
    rw [releaseBacking_vmaMap hrel] at hr
    obtain ⟨hsound', k', v', hmem', hp, hcells⟩ := VMAMap.retype_cells hs.vma haddr (by omega) hr
      ⟨fun _ => rfl, fun _ => rfl⟩ fun v hv => freed_sound hv
    -- The carve finds the same area again.
    have hpos := hp.pos
    obtain ⟨rfl, rfl⟩ := findVMA_part hs hmem' hp ⟨le_rfl, by omega⟩ hf
    have hstart : sub64 addr v'.base = addr - k' := by
      rw [sub64_eq haddr (by omega), hbase]
    rw [hstart] at hrel hp hcells ⊢
    have hrels := releaseBacking_spec hs hmem hp hrel
    refine ⟨hmem, hp, ?_⟩
    have hb : v'.type = .direct ∨ v'.type = .flexible → v'.hasPhysicalBacking = true := by
      rintro (h | h) <;> simp [VirtualMemoryArea.hasPhysicalBacking, h]
    set n := min (sub64 v'.size (addr - k')) size
    have hcount := countIn_part hs hmem hp .flexible
    refine
      { sound := ⟨hsound', hrels.dmem_valid hs, hrels.fmem_valid hs, ?_, ?_⟩
        releasable := ?_
        finite := finite_interval addr n
        budget := hrels.budget
        totalDirect := hrels.totalDirect
        totalFlexible := hrels.totalFlexible
        cell_in := ?_, cell_out := ?_, host_out := ?_, dmem_in := ?_, dmem_out := ?_
        fmem_in := ?_, fmem_out := ?_, usage := ?_ }
    · have := hs.usage_lt
      simp only [hrels.usage]
      split_ifs
      · exact sub64_lt _ _
      · exact this
    · simp only [hrels.budget]
      exact hs.budget_lt
    · intro x hx
      exact ⟨_, cellAt_part hs hmem hp hx, not_or.mp hskip⟩
    · intro x hx
      simp only [cellAt, hcells x, if_pos hx]
      rfl
    · intro x hx
      simp only [cellAt, hcells x, if_neg hx]
    · intro x hx
      split_ifs
      · simp only [AddressSpace.unmap, if_neg hx, hrels.host]
      · simp only [hrels.host]
    · rintro p hp'
      by_cases ht : v'.type = .direct
      · have hrec := records_iff_backs hs hmem hp (hb (.inl ht)) p
        rw [ht] at hrec
        exact (hrels.direct ht).recorded p (hrec.mpr hp')
      · exact absurd hp' (not_backs_of_type hs hmem hp ht p)
    · rintro p hp'
      by_cases ht : v'.type = .direct
      · have hrec := records_iff_backs hs hmem hp (hb (.inl ht)) p
        rw [ht] at hrec
        exact (hrels.direct ht).other p fun h => hp' (hrec.mp h)
      · simp only [dmemAt, hrels.not_direct ht]
    · rintro p hp'
      by_cases ht : v'.type = .flexible
      · have hrec := records_iff_backs hs hmem hp (hb (.inr ht)) p
        rw [ht] at hrec
        exact (hrels.flexible ht).recorded p (hrec.mpr hp')
      · exact absurd hp' (not_backs_of_type hs hmem hp ht p)
    · rintro p hp'
      by_cases ht : v'.type = .flexible
      · have hrec := records_iff_backs hs hmem hp (hb (.inr ht)) p
        rw [ht] at hrec
        exact (hrels.flexible ht).other p fun h => hp' (hrec.mp h)
      · simp only [fmemAt, hrels.not_flexible ht]
    · simp only [hrels.usage, hcount]
      split_ifs
      · rfl
      · have := hs.usage_lt
        unfold sub64
        omega

end Entry

/-- Some addresses are unmapped. -/
def UnmapsSome (s : MemoryManager) (s' : MemoryManager) : Prop := ∃ R, Unmaps s R s'

/-- Exactly the releasable addresses of `[addr, addr + size)` are unmapped. -/
def UnmapsRange (s : MemoryManager) (addr size : ℕ) (s' : MemoryManager) : Prop :=
  Unmaps s (fun x => (addr ≤ x ∧ x < addr + size) ∧ s.Releasable x) s'

/-- Every address of the range belongs to an area. -/
def Covered (s : MemoryManager) (addr size : ℕ) : Prop :=
  ∀ x, addr ≤ x ∧ x < addr + size → (s.cellAt x).isSome

theorem UnmapsSome.refl (hs : s.Sound) : UnmapsSome s s := ⟨_, .refl hs⟩

theorem UnmapsSome.trans (h₁ : UnmapsSome s s₁) (h₂ : UnmapsSome s₁ s₂) : UnmapsSome s s₂ := by
  obtain ⟨R₁, h₁⟩ := h₁
  obtain ⟨R₂, h₂⟩ := h₂
  exact ⟨_, h₁.trans h₂⟩

theorem UnmapsSome.sound (h : UnmapsSome s s') : s'.Sound := by
  obtain ⟨R, h⟩ := h
  exact h.sound

theorem Unmaps.congr {R R' : ℕ → Prop} (h : Unmaps s R s') (hR : ∀ x, R x ↔ R' x) :
    Unmaps s R' s' := by
  rw [show R' = R from funext fun x => propext (hR x).symm]
  exact h

theorem Unmaps.isSome {R : ℕ → Prop} (h : Unmaps s R s') (x : ℕ) :
    (s'.cellAt x).isSome = (s.cellAt x).isSome := by
  by_cases hx : R x
  · obtain ⟨c, hc, -⟩ := h.releasable x hx
    rw [h.cell_in x hx, hc]
    rfl
  · rw [h.cell_out x hx]

theorem findVMA_covered (hs : s.Sound) {addr k : ℕ} {vma : VirtualMemoryArea}
    (hcov : (s.cellAt addr).isSome) (hf : s.findVMA addr = .ok (k, vma)) :
    (k, vma) ∈ s.vmaMap ∧ vma.base = k ∧ k ≤ addr ∧ addr < k + vma.size ∧
      k + vma.size < 2 ^ 64 := by
  obtain ⟨c, hc⟩ := Option.isSome_iff_exists.mp hcov
  obtain ⟨e, he, hx, -⟩ := VMAMap.cellAt_some hc
  have hfloor := findEntry_covering hs.vma.tiling he (x := addr) hx
  rw [findVMA, hfloor] at hf
  cases hf
  have hbase : vma.base = k := hs.vma.keyed _ he
  have hbound : vma.base + vma.size < 2 ^ 64 := (hs.vma.wf _ he).bounded
  exact ⟨he, hbase, hx.1, hx.2, by omega⟩

theorem unmapBytesFromEntry_range (hs : s.Sound) {addr size n k : ℕ} {vma : VirtualMemoryArea}
    (hpos : 0 < size) (hcov : s.Covered addr size) (hsize : addr + size < 2 ^ 64)
    (hf : s.findVMA addr = .ok (k, vma)) (h : s.unmapBytesFromEntry addr vma size = .ok (s', n)) :
    0 < n ∧ n ≤ size ∧ UnmapsRange s addr n s' := by
  obtain ⟨hn, hcase⟩ := unmapBytesFromEntry_spec hs (by omega) (by omega) hf h
  obtain ⟨hmem, hbase, hk, hlt, hend⟩ := findVMA_covered hs (hcov addr (by omega)) hf
  have hstart : sub64 addr vma.base = addr - k := by
    rw [sub64_eq (by omega) (by omega), hbase]
  have hrest : sub64 vma.size (addr - k) = vma.size - (addr - k) :=
    sub64_eq (by omega) (by omega)
  rw [hstart, hrest] at hn
  refine ⟨by omega, by omega, ?_⟩
  have hp : Part k vma.size addr n := ⟨by omega, hk, by omega⟩
  rcases hcase with ⟨hskip, rfl⟩ | ⟨hkeep, -, -, hu⟩
  · refine (Unmaps.refl hs).congr fun x => ?_
    refine iff_of_false id ?_
    rintro ⟨hx, c, hc, hfree, hpool⟩
    rw [cellAt_part hs hmem hp hx] at hc
    cases hc
    exact hskip.elim hfree hpool
  · refine hu.congr fun x => ?_
    constructor
    · exact fun hx => ⟨hx, _, cellAt_part hs hmem hp hx, hkeep⟩
    · exact fun hx => hx.1

theorem UnmapsRange.append {addr n : ℕ} (h₁ : UnmapsRange s addr n s₁)
    (h₂ : UnmapsRange s₁ (addr + n) n' s₂) : UnmapsRange s addr (n + n') s₂ := by
  refine (Unmaps.trans h₁ h₂).congr fun x => ?_
  have hrel : addr + n ≤ x → (s₁.Releasable x ↔ s.Releasable x) := by
    intro hx
    unfold Releasable
    rw [h₁.cell_out x fun h => by omega]
  constructor
  · rintro (⟨hx, hr⟩ | ⟨hx, hr⟩)
    · exact ⟨by omega, hr⟩
    · exact ⟨by omega, (hrel (by omega)).mp hr⟩
  · rintro ⟨hx, hr⟩
    by_cases hlt : x < addr + n
    · exact .inl ⟨by omega, hr⟩
    · exact .inr ⟨by omega, (hrel (by omega)).mpr hr⟩

theorem UnmapsRange.covered {addr n addr' : ℕ} (h : UnmapsRange s addr n s')
    (hc : s.Covered addr' n') : s'.Covered addr' n' := by
  intro x hx
  rw [h.isSome]
  exact hc x hx

theorem unmapRange_some (hs : s.Sound) {addr size : ℕ} (haddr : addr < 2 ^ 64)
    (hsize : size < 2 ^ 64) (h : unmapRange fuel s addr size = .ok s') : UnmapsSome s s' := by
  induction fuel generalizing s addr size with
  | zero => cases h
  | succ fuel ih =>
    unfold unmapRange at h
    split_ifs at h with h0
    · cases h
      exact .refl hs
    · obtain ⟨⟨k, vma⟩, hf, h⟩ := bind_ok h
      obtain ⟨⟨s₁, n⟩, hu, h⟩ := bind_ok h
      obtain ⟨-, hcase⟩ := unmapBytesFromEntry_spec hs haddr hsize hf hu
      have h₁ : UnmapsSome s s₁ := by
        rcases hcase with ⟨-, rfl⟩ | ⟨-, -, -, hu⟩
        · exact .refl hs
        · exact ⟨_, hu⟩
      exact h₁.trans (ih h₁.sound (add64_lt _ _) (by omega) h)

theorem unmapRange_range (hs : s.Sound) {addr size : ℕ} (hcov : s.Covered addr size)
    (hsize : addr + size < 2 ^ 64) (h : unmapRange fuel s addr size = .ok s') :
    UnmapsRange s addr size s' := by
  induction fuel generalizing s addr size with
  | zero => cases h
  | succ fuel ih =>
    unfold unmapRange at h
    split_ifs at h with h0
    · cases h
      refine (Unmaps.refl hs).congr fun x => ?_
      exact iff_of_false id fun hx => by omega
    · obtain ⟨⟨k, vma⟩, hf, h⟩ := bind_ok h
      obtain ⟨⟨s₁, n⟩, hu, h⟩ := bind_ok h
      obtain ⟨hpos, hle, h₁⟩ := unmapBytesFromEntry_range hs (by omega) hcov hsize hf hu
      have haddr : add64 addr n = addr + n := add64_eq (by omega)
      simp only [haddr] at h
      have hcov' : s₁.Covered (addr + n) (size - n) :=
        h₁.covered fun x hx => hcov x (by omega)
      have h₂ := ih h₁.sound hcov' (by omega) h
      have := h₁.append h₂
      rwa [show n + (size - n) = size by omega] at this

theorem unmapMemoryLoop_range (hs : s.Sound) {addr size n : ℕ} (hn : n < size)
    (hcov : s.Covered (addr + n) (size - n)) (hsize : addr + size < 2 ^ 64)
    (h : unmapMemoryLoop fuel s addr size n = .ok s') : UnmapsRange s (addr + n) (size - n) s' := by
  induction fuel generalizing s n with
  | zero => cases h
  | succ fuel ih =>
    unfold unmapMemoryLoop at h
    obtain ⟨⟨k, vma⟩, hf, h⟩ := bind_ok h
    obtain ⟨⟨s₁, n₁⟩, hu, h⟩ := bind_ok h
    obtain ⟨_, -, h⟩ := bind_ok h
    have haddr : add64 addr n = addr + n := add64_eq (by omega)
    have hleft : sub64 size n = size - n := sub64_eq (by omega) (by omega)
    rw [haddr] at hf hu
    rw [hleft] at hu
    obtain ⟨hpos, hle, h₁⟩ := unmapBytesFromEntry_range hs (by omega) hcov (by omega) hf hu
    have hsum : add64 n n₁ = n + n₁ := add64_eq (by omega)
    simp only [hsum] at h
    split_ifs at h with hmore
    · have hcov' : s₁.Covered (addr + (n + n₁)) (size - (n + n₁)) :=
        h₁.covered fun x hx => hcov x (by omega)
      have h₂ := ih h₁.sound hmore hcov' h
      rw [← Nat.add_assoc addr] at h₂
      have := h₁.append h₂
      rwa [show n₁ + (size - (n + n₁)) = size - n by omega] at this
    · cases h
      rwa [show size - n = n₁ by omega]

end MemoryManager

end PS4Droid.Memory
