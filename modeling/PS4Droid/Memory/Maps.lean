import PS4Droid.Foundations.Lockstep
import PS4Droid.Memory.Carving

/-!
# What the map operations do

Physical areas and virtual areas obey the laws of `Segments`, so carving,
retyping and merging are described by what they do to the points of a map. Each
operation has one specification for its success and, where later proofs need it,
one condition under which it succeeds.
-/

namespace PS4Droid.Memory

open OrderedMap IntervalMap Segments

variable {p : Prop} {which : Assertion} {γ : Type} {x : ℕ}

theorem require_ok [Decidable p] {u : Unit} (h : require p which = .ok u) : p := by
  unfold require at h
  split_ifs at h with hp
  exact hp

@[simp] theorem ok_bind {ε α β : Type} (a : α) (f : α → Except ε β) :
    ((Except.ok a : Except ε α) >>= f) = f a := rfl

theorem require_pos [Decidable p] (h : p) :
    require p which = .ok () := if_pos h

theorem deref_ok {o : Option γ} {c : γ} (h : deref o = .ok c) : o = some c := by
  cases o with
  | none => simp [deref] at h
  | some d =>
    simp only [deref, Except.ok.injEq] at h
    rw [h]

theorem deref_get?_around {m : List (ℕ × γ)} {h : ℕ} {a : γ} (hm : Sorted m)
    (hd : deref (get? m h) = .ok a) : ∃ l r, Around m l (h, a) r :=
  get?_around hm (deref_ok hd)

theorem findEntry_around {m : List (ℕ × γ)} {e : ℕ × γ} (hm : Sorted m)
    (h : findEntry m x = .ok e) : ∃ l r, Around m l e r ∧ e.1 ≤ x ∧ ∀ f ∈ r, x < f.1 :=
  floor_around hm (deref_ok h)

theorem findEntry_covering {size : γ → ℕ} {m : List (ℕ × γ)} {e : ℕ × γ}
    (hm : Tiling size m) (he : e ∈ m) (hx : Within size e x) : findEntry m x = .ok e := by
  simp [findEntry, floor_covering hm he hx, deref]

/-- `[addr, addr + size)` is a non-empty part of `[k, k + n)`. -/
structure Part (k n addr size : ℕ) : Prop where
  pos : 0 < size
  start : k ≤ addr
  stop : addr + size ≤ k + n

/-! ### Physical maps -/

/-- An area lies inside the 64-bit address range. -/
def PhysicalMemoryArea.Bounded (a : PhysicalMemoryArea) : Prop := a.base + a.size < 2 ^ 64

section PhysKind

variable (a b : PhysicalMemoryArea) (c : ℕ)

@[simp] theorem physKind_base : physKind.base a = a.base := rfl

@[simp] theorem physKind_size : physKind.size a = a.size := rfl

@[simp] theorem physKind_front : physKind.front a c = { a with size := c } := rfl

@[simp] theorem physKind_back :
    physKind.back a c = { a with base := add64 a.base c, size := sub64 a.size c } := rfl

@[simp] theorem physKind_join : physKind.join a b = { a with size := add64 a.size b.size } := rfl

theorem physKind_canMerge_total : ∃ v, physKind.canMerge a b = .ok v := ⟨_, rfl⟩

end PhysKind

theorem physKind_canMerge {a b : PhysicalMemoryArea} (h : physKind.canMerge a b = .ok true) :
    add64 a.base a.size = b.base ∧ a.memoryType = b.memoryType ∧ a.dmaType = b.dmaType := by
  have hm : a.canMergeWith b = true := by simpa [physKind] using h
  simpa [PhysicalMemoryArea.canMergeWith, and_assoc] using hm

theorem physKind_adjacent {a b : PhysicalMemoryArea} (hw : a.Bounded)
    (h : physKind.canMerge a b = .ok true) : a.base + a.size = b.base := by
  rw [← add64_eq hw]
  exact (physKind_canMerge h).1

theorem physKind_lawful : physKind.Lawful PhysicalMemoryArea.Bounded where
  front_base := fun _ _ _ => rfl
  front_size := fun _ _ _ => rfl
  front_wf := by
    intro a c hw _ hs
    simp only [PhysicalMemoryArea.Bounded, physKind_front, physKind_size] at *
    omega
  back_base := by
    intro a c hw _ hs
    simp only [PhysicalMemoryArea.Bounded, physKind_size] at hw hs
    exact add64_eq (by omega)
  back_size := by
    intro a c hw _ hs
    simp only [PhysicalMemoryArea.Bounded, physKind_size] at hw hs
    exact sub64_eq (by omega) (by omega)
  back_wf := by
    intro a c hw _ hs
    simp only [PhysicalMemoryArea.Bounded, physKind_back, physKind_size] at *
    rw [add64_eq (by omega), sub64_eq (by omega) (by omega)]
    omega
  join_adjacent := fun hw _ hm => physKind_adjacent hw hm
  join_base := fun _ _ _ => rfl
  join_size := by
    intro a b hw hw' hm
    have := physKind_adjacent hw hm
    simp only [PhysicalMemoryArea.Bounded] at hw'
    exact add64_eq (by omega)
  join_wf := by
    intro a b hw hw' hm
    have := physKind_adjacent hw hm
    simp only [PhysicalMemoryArea.Bounded, physKind_join] at *
    rw [add64_eq (by omega)]
    omega

/-- The attributes of every byte of a physical area. -/
def PhysicalMemoryArea.attributes (a : PhysicalMemoryArea) (_off : ℕ) : ℤ × PhysicalMemoryType :=
  (a.memoryType, a.dmaType)

theorem physKind_attributes :
    physKind.LawfulView PhysicalMemoryArea.Bounded PhysicalMemoryArea.attributes where
  front := fun _ _ _ _ _ => rfl
  back := fun _ _ _ _ _ => rfl
  join_left := fun _ _ _ _ _ => rfl
  join_right := by
    intro a b _ _ hm off _
    obtain ⟨-, hmem, hdma⟩ := physKind_canMerge hm
    exact Prod.ext hmem.symm hdma.symm

/-- The number of bytes an area contributes to the memory of type `t`. -/
def PhysicalMemoryArea.bytesOf (t : PhysicalMemoryType) (a : PhysicalMemoryArea) : ℕ :=
  if a.dmaType = t then a.size else 0

namespace PhysMap

/-- The invariant of a physical map. -/
abbrev Valid (m : PhysMap) : Prop := physKind.Valid PhysicalMemoryArea.Bounded m

abbrev Recut (m m' : PhysMap) : Prop := physKind.Recut PhysicalMemoryArea.Bounded m m'

abbrev Rewritten (m : PhysMap) (addr size : ℕ) (a b : PhysicalMemoryArea) (m' : PhysMap) : Prop :=
  Segments.Rewritten physKind PhysicalMemoryArea.Bounded m addr size a b m'

/-- The attributes of the byte `p`. -/
def attributesAt (m : PhysMap) (p : ℕ) : Option (ℤ × PhysicalMemoryType) :=
  viewAt physKind.size PhysicalMemoryArea.attributes m p

variable {m m' l r : PhysMap} {addr size h : ℕ} {a : PhysicalMemoryArea}

/-- The carved area: the attributes of `a` for the range. -/
def carved (a : PhysicalMemoryArea) (addr size : ℕ) : PhysicalMemoryArea :=
  { a with base := addr, size }

theorem slice_eq_carved {k : ℕ} (hw : a.Bounded) (hk : a.base = k) (hp : Part k a.size addr size) :
    physKind.slice a (addr - k) (addr - k + size) = carved a addr size := by
  have hstart := hp.start
  have hstop := hp.stop
  have hpos := hp.pos
  have hlast : addr - k + size ≤ physKind.size a := by
    rw [physKind_size]
    omega
  have hbase := slice_base physKind_lawful hw (show addr - k < addr - k + size by omega) hlast
  have hsize := slice_size physKind_lawful hw (show addr - k < addr - k + size by omega) hlast
  have hattr : (physKind.slice a (addr - k) (addr - k + size)).memoryType = a.memoryType ∧
      (physKind.slice a (addr - k) (addr - k + size)).dmaType = a.dmaType := by
    unfold slice trimmed
    split_ifs <;> simp
  simp only [physKind_base, physKind_size] at hbase hsize
  cases hs : physKind.slice a (addr - k) (addr - k + size)
  simp only [hs] at hbase hsize hattr
  obtain ⟨hmem, hdma⟩ := hattr
  rw [carved, PhysicalMemoryArea.mk.injEq]
  exact ⟨by omega, by omega, hmem, hdma⟩

theorem carvePhysArea_shape (hv : Valid m) (hsize : size < 2 ^ 64)
    (hc : carvePhysArea m addr size = .ok (m', h)) :
    h = addr ∧ ∃ l k a r, Around m l (k, a) r ∧ Part k a.size addr size ∧
      m' = (l ++ physKind.leading k a (addr - k) (addr - k + size)) ++
        (addr, carved a addr size) :: (physKind.trailing k a (addr - k + size) ++ r) := by
  unfold carvePhysArea at hc
  obtain ⟨⟨k, a⟩, hf, hc⟩ := bind_ok hc
  obtain ⟨_, h₁, hc⟩ := bind_ok hc
  obtain ⟨_, h₂, hc⟩ := bind_ok hc
  obtain ⟨_, h₃, hc⟩ := bind_ok hc
  obtain ⟨l, r, ha, hka, -⟩ := findEntry_around hv.sorted hf
  have hend := require_ok h₁
  have hfit := require_ok h₃
  have hw : a.base + a.size < 2 ^ 64 := hv.wf _ ha.mem
  have hk : a.base = k := hv.keyed _ ha.mem
  simp only at hka hend hfit
  rw [PhysicalMemoryArea.getEnd, add64_eq hw] at hend
  have hstart : sub64 addr a.base = addr - k := by
    rw [sub64_eq (by omega) (by omega), hk]
  rw [hstart] at hc hfit
  have hcarve := carve_eq physKind_lawful hv ha (addr - k) hfit
  rw [physKind_size] at hcarve
  rw [hcarve] at hc
  split_ifs at hc with hlt
  -- A wrapped end lies in front of the start, so here the end is the plain sum.
  have hsum : add64 (addr - k) size = addr - k + size := by
    unfold add64 at hlt ⊢
    omega
  rw [hsum] at hc hfit hlt
  have hp : Part k a.size addr size := ⟨by omega, hka, by omega⟩
  simp only [Except.ok.injEq, Prod.mk.injEq] at hc
  obtain ⟨rfl, rfl⟩ := hc
  rw [slice_eq_carved hw hk hp, show k + (addr - k) = addr by omega]
  exact ⟨rfl, l, k, a, r, ha, hp, rfl⟩


theorem carvePhysArea_ok {k : ℕ} (hv : Valid m) (ha : Around m l (k, a) r)
    (hp : Part k a.size addr size) : carvePhysArea m addr size =
      .ok ((l ++ physKind.leading k a (addr - k) (addr - k + size)) ++
        (addr, carved a addr size) :: (physKind.trailing k a (addr - k + size) ++ r), addr) := by
  have hw : a.base + a.size < 2 ^ 64 := hv.wf _ ha.mem
  have hk : a.base = k := hv.keyed _ ha.mem
  have hstart := hp.start
  have hstop := hp.stop
  have hpos := hp.pos
  have hf : findEntry m addr = .ok (k, a) :=
    findEntry_covering hv.tiling ha.mem (by simp only [Within, physKind_size]; omega)
  have hsub : sub64 addr a.base = addr - k := by
    rw [sub64_eq (by omega) (by omega), hk]
  have hsum : add64 (addr - k) size = addr - k + size := add64_eq (by omega)
  have h₁ : addr ≤ a.getEnd := by
    rw [PhysicalMemoryArea.getEnd, add64_eq hw]
    omega
  have h₂ : a.base ≤ addr := by omega
  have h₃ : addr - k + size ≤ a.size := by omega
  have hcarve := carve_eq physKind_lawful hv ha (addr - k) h₃
  rw [if_pos (by omega), physKind_size, slice_eq_carved hw hk hp] at hcarve
  have haddr : k + (addr - k) = addr := by omega
  rw [haddr] at hcarve
  unfold carvePhysArea
  rw [hf]
  simp only [ok_bind, require_pos h₁, require_pos h₂, hsub, hsum, require_pos h₃, hcarve]


theorem carve_around (hv : Valid m) {k : ℕ} (ha : Around m l (k, a) r)
    (hp : Part k a.size addr size) :
    Recut m ((l ++ physKind.leading k a (addr - k) (addr - k + size)) ++
        (addr, carved a addr size) :: (physKind.trailing k a (addr - k + size) ++ r)) := by
  have hstart := hp.start
  have hstop := hp.stop
  have hpos := hp.pos
  have hw : a.Bounded := hv.wf _ ha.mem
  have hk : a.base = k := hv.keyed _ ha.mem
  have hrecut := carve_recut physKind_lawful hw hk (show addr - k < addr - k + size by omega)
    (by rw [physKind_size]; omega) l r
  rw [slice_eq_carved hw hk hp, show k + (addr - k) = addr by omega] at hrecut
  rw [ha.eq]
  exact hrecut

theorem carved_bounded (hv : Valid m) {k : ℕ} (ha : Around m l (k, a) r)
    (hp : Part k a.size addr size) : (carved a addr size).Bounded := by
  have hstop := hp.stop
  have hw : a.base + a.size < 2 ^ 64 := hv.wf _ ha.mem
  have hk : a.base = k := hv.keyed _ ha.mem
  simp only [PhysicalMemoryArea.Bounded, carved]
  omega

/-- `f` changes attributes only. -/
structure Reattributes (f : PhysicalMemoryArea → PhysicalMemoryArea) : Prop where
  base_eq : ∀ a, (f a).base = a.base
  size_eq : ∀ a, (f a).size = a.size

theorem Reattributes.bounded {f : PhysicalMemoryArea → PhysicalMemoryArea} (hf : Reattributes f)
    (ha : a.Bounded) : (f a).Bounded := by
  rw [PhysicalMemoryArea.Bounded, hf.base_eq, hf.size_eq]
  exact ha

variable {f : PhysicalMemoryArea → PhysicalMemoryArea} {b : PhysicalMemoryArea}

/-- The map after carving `[addr, addr + size)` out of `(k, a)` and changing it by `f`. -/
def changed (l : PhysMap) (k : ℕ) (a : PhysicalMemoryArea) (r : PhysMap) (addr size : ℕ)
    (f : PhysicalMemoryArea → PhysicalMemoryArea) : PhysMap :=
  (l ++ physKind.leading k a (addr - k) (addr - k + size)) ++
    (addr, f (carved a addr size)) :: (physKind.trailing k a (addr - k + size) ++ r)

theorem changed_rewritten (hv : Valid m) (hf : Reattributes f) {k : ℕ} (ha : Around m l (k, a) r)
    (hp : Part k a.size addr size) :
    Rewritten m addr size (carved a addr size) (f (carved a addr size))
      (changed l k a r addr size f) where
  size_eq := rfl
  base_eq := rfl
  wf := carved_bounded hv ha hp
  size_new := hf.size_eq _
  base_new := hf.base_eq _
  wf_new := hf.bounded (carved_bounded hv ha hp)
  steps := ⟨_, _, carve_around hv ha hp, .refl _⟩

theorem changed_around (hv : Valid m) (hf : Reattributes f) {k : ℕ} (ha : Around m l (k, a) r)
    (hp : Part k a.size addr size) : Around (changed l k a r addr size f)
      (l ++ physKind.leading k a (addr - k) (addr - k + size)) (addr, f (carved a addr size))
      (physKind.trailing k a (addr - k + size) ++ r) :=
  ((changed_rewritten hv hf ha hp).valid physKind_lawful hv).sorted.around_of_eq

theorem carveWith_shape (hv : Valid m) (hsize : size < 2 ^ 64)
    (hc : carveWith m addr size f = .ok (m', h, b)) :
    h = addr ∧ ∃ l k a r, Around m l (k, a) r ∧ Part k a.size addr size ∧
      b = f (carved a addr size) ∧ m' = changed l k a r addr size f := by
  unfold carveWith at hc
  obtain ⟨⟨m₁, h₁⟩, hcarve, hc⟩ := bind_ok hc
  obtain ⟨c, hd, hc⟩ := bind_ok hc
  obtain ⟨rfl, l, k, a, r, ha, hp, rfl⟩ := carvePhysArea_shape hv hsize hcarve
  have ha₁ := ((carve_around hv ha hp).valid physKind_lawful hv).around
  have hget := ha₁.get?
  simp only at hget
  rw [hget] at hd
  cases hd
  have hassign := ha₁.assign (f (carved a h₁ size))
  simp only at hassign
  rw [hassign] at hc
  cases hc
  exact ⟨rfl, l, k, a, r, ha, hp, rfl, rfl⟩

theorem carveWith_ok (hv : Valid m) {k : ℕ} (ha : Around m l (k, a) r)
    (hp : Part k a.size addr size) :
    carveWith m addr size f = .ok (changed l k a r addr size f, addr, f (carved a addr size)) := by
  have ha₁ := ((carve_around hv ha hp).valid physKind_lawful hv).around
  have hget := ha₁.get?
  have hassign := ha₁.assign (f (carved a addr size))
  simp only at hget hassign
  rw [carveWith, carvePhysArea_ok hv ha hp, ok_bind]
  simp only [hget, deref, ok_bind, hassign]
  rfl

/-- What is left after `retype` of the part `[addr, addr + size)` of `(k, a)`: the carved area
has been changed by `f` and merged into its neighbours. -/
structure Retyped (l : PhysMap) (k : ℕ) (a : PhysicalMemoryArea) (r : PhysMap) (addr size : ℕ)
    (f : PhysicalMemoryArea → PhysicalMemoryArea) (m' : PhysMap) (h : ℕ) : Prop where
  shape : ∃ l' b a' r', Around m' l' (h, a') r' ∧
    AbsorbsNext physKind (f (carved a addr size)) (physKind.trailing k a (addr - k + size) ++ r)
      b r' ∧
    AbsorbsPrev physKind addr b (l ++ physKind.leading k a (addr - k) (addr - k + size)) l' h a'

theorem retype_shape (hv : Valid m) (hsize : size < 2 ^ 64) (hf : Reattributes f)
    (hr : retype m addr size f = .ok (m', h, b)) :
    ∃ l k a r, Around m l (k, a) r ∧ Part k a.size addr size ∧ b = f (carved a addr size) ∧
      Rewritten m addr size (carved a addr size) b m' ∧ Retyped l k a r addr size f m' h := by
  unfold retype at hr
  obtain ⟨⟨m₁, h₁, b₁⟩, hcarve, hr⟩ := bind_ok hr
  obtain ⟨⟨m₂, h₂⟩, hmerge, hr⟩ := bind_ok hr
  cases hr
  obtain ⟨rfl, l, k, a, r, ha, hp, rfl, rfl⟩ := carveWith_shape hv hsize hcarve
  have hrw := changed_rewritten hv hf ha hp
  have hv₁ := hrw.valid physKind_lawful hv
  refine ⟨l, k, a, r, ha, hp, rfl, ?_, ⟨?_⟩⟩
  · exact hrw.trans_recut (mergeAdjacent_recut physKind_lawful hv₁ hmerge)
  · exact mergeAdjacent_shape hv₁.sorted (changed_around hv hf ha hp) hmerge

theorem retype_ok (hv : Valid m) (hf : Reattributes f) {k : ℕ} (ha : Around m l (k, a) r)
    (hp : Part k a.size addr size) :
    ∃ m' h, retype m addr size f = .ok (m', h, f (carved a addr size)) ∧
      Rewritten m addr size (carved a addr size) (f (carved a addr size)) m' ∧
      Retyped l k a r addr size f m' h := by
  have hrw := changed_rewritten hv hf ha hp
  have hv₁ := hrw.valid physKind_lawful hv
  obtain ⟨m', h, hm⟩ := mergeAdjacent_ok physKind_lawful hv₁ (changed_around hv hf ha hp)
    fun a b _ _ => physKind_canMerge_total a b
  refine ⟨m', h, ?_, hrw.trans_recut (mergeAdjacent_recut physKind_lawful hv₁ hm),
    ⟨mergeAdjacent_shape hv₁.sorted (changed_around hv hf ha hp) hm⟩⟩
  rw [retype, carveWith_ok hv ha hp, ok_bind]
  simp only [mergeAdjacent, hm, ok_bind]
  rfl

end PhysMap

/-! ### Virtual maps -/

def VirtualMemoryArea.Bounded (v : VirtualMemoryArea) : Prop := v.base + v.size < 2 ^ 64

section VmaKind

variable (v w : VirtualMemoryArea) (c : ℕ)

@[simp] theorem vmaKind_base : vmaKind.base v = v.base := rfl
@[simp] theorem vmaKind_size : vmaKind.size v = v.size := rfl
@[simp] theorem vmaKind_canMerge : vmaKind.canMerge v w = v.canMergeWith w := rfl

@[simp] theorem vmaKind_front_base : (vmaKind.front v c).base = v.base := by
  simp only [vmaKind]
  split_ifs <;> rfl

@[simp] theorem vmaKind_front_size : (vmaKind.front v c).size = c := by
  simp only [vmaKind]
  split_ifs <;> rfl

@[simp] theorem vmaKind_front_type : (vmaKind.front v c).type = v.type := by
  simp only [vmaKind]
  split_ifs <;> rfl

@[simp] theorem vmaKind_back_base : (vmaKind.back v c).base = add64 v.base c := by
  simp only [vmaKind]
  split_ifs <;> rfl

@[simp] theorem vmaKind_back_size : (vmaKind.back v c).size = sub64 v.size c := by
  simp only [vmaKind]
  split_ifs <;> rfl

@[simp] theorem vmaKind_back_type : (vmaKind.back v c).type = v.type := by
  simp only [vmaKind]
  split_ifs <;> rfl

@[simp] theorem vmaKind_join_base : (vmaKind.join v w).base = v.base := rfl

@[simp] theorem vmaKind_join_size : (vmaKind.join v w).size = add64 v.size w.size := rfl
@[simp] theorem vmaKind_join_type : (vmaKind.join v w).type = v.type := rfl

end VmaKind

theorem vmaKind_canMerge_ok {v w : VirtualMemoryArea} (h : vmaKind.canMerge v w = .ok true) :
    add64 v.base v.size = w.base ∧ v.type = w.type ∧ v.prot = w.prot ∧ v.name = w.name := by
  rw [vmaKind_canMerge, VirtualMemoryArea.canMergeWith] at h
  split_ifs at h with h₁ h₂
  · cases h
  · cases h
  · obtain ⟨c, -, hc⟩ := bind_ok h
    have hand := pure_ok hc
    simp only [Bool.and_eq_true, beq_iff_eq] at hand
    exact ⟨by omega, hand.1.2, hand.1.1.2, hand.2⟩

theorem vmaKind_adjacent {v w : VirtualMemoryArea} (hw : v.Bounded)
    (h : vmaKind.canMerge v w = .ok true) : v.base + v.size = w.base := by
  rw [← add64_eq hw]
  exact (vmaKind_canMerge_ok h).1

theorem vmaKind_lawful : vmaKind.Lawful VirtualMemoryArea.Bounded where
  front_base := fun _ _ _ => vmaKind_front_base _ _
  front_size := fun _ _ _ => vmaKind_front_size _ _
  front_wf := by
    intro a c hw _ hs
    simp only [VirtualMemoryArea.Bounded, vmaKind_front_base, vmaKind_front_size,
      vmaKind_size] at *
    omega
  back_base := by
    intro a c hw _ hs
    simp only [VirtualMemoryArea.Bounded, vmaKind_size] at hw hs
    rw [vmaKind_base, vmaKind_back_base]
    exact add64_eq (by omega)
  back_size := by
    intro a c hw _ hs
    simp only [VirtualMemoryArea.Bounded, vmaKind_size] at hw hs
    rw [vmaKind_size, vmaKind_back_size]
    exact sub64_eq (by omega) (by omega)
  back_wf := by
    intro a c hw _ hs
    simp only [VirtualMemoryArea.Bounded, vmaKind_back_base, vmaKind_back_size,
      vmaKind_size] at *
    rw [add64_eq (by omega), sub64_eq (by omega) (by omega)]
    omega
  join_adjacent := fun hw _ hm => vmaKind_adjacent hw hm
  join_base := fun _ _ _ => rfl
  join_size := by
    intro a b hw hw' hm
    have := vmaKind_adjacent hw hm
    simp only [VirtualMemoryArea.Bounded] at hw'
    exact add64_eq (by omega)
  join_wf := by
    intro a b hw hw' hm
    have := vmaKind_adjacent hw hm
    simp only [VirtualMemoryArea.Bounded, vmaKind_join_base, vmaKind_join_size] at *
    rw [add64_eq (by omega)]
    omega

namespace VMAMap

/-- `f` keeps the extent of an area. -/
structure Reattributes (f : VirtualMemoryArea → VirtualMemoryArea) : Prop where
  base_eq : ∀ v, (f v).base = v.base
  size_eq : ∀ v, (f v).size = v.size

variable {Wf : VirtualMemoryArea → Prop} {m m' l r : VMAMap} {addr size k h : ℕ}
  {v : VirtualMemoryArea} {f : VirtualMemoryArea → VirtualMemoryArea}

/-- The part `[addr, addr + size)` of the area `(k, v)` after the two cuts. -/
def carved (k : ℕ) (v : VirtualMemoryArea) (addr size : ℕ) : VirtualMemoryArea :=
  vmaKind.slice v (addr - k) (addr - k + size)

/-- The map after carving `[addr, addr + size)` out of `(k, v)` and changing it by `f`. -/
def changed (l : VMAMap) (k : ℕ) (v : VirtualMemoryArea) (r : VMAMap) (addr size : ℕ)
    (f : VirtualMemoryArea → VirtualMemoryArea) : VMAMap :=
  (l ++ vmaKind.leading k v (addr - k) (addr - k + size)) ++
    (addr, f (carved k v addr size)) :: (vmaKind.trailing k v (addr - k + size) ++ r)

section Carve

variable (L : vmaKind.Lawful Wf) (hB : ∀ v, Wf v → v.Bounded)

include L hB

theorem carveVMA_shape (hv : vmaKind.Valid Wf m) (haddr : addr < 2 ^ 64) (hsize : size < 2 ^ 64)
    (hc : carveVMA m addr size = .ok (m', h)) :
    h = addr ∧ ∃ l k v r, Around m l (k, v) r ∧ Part k v.size addr size ∧
      m' = changed l k v r addr size id := by
  unfold carveVMA at hc
  obtain ⟨⟨k, v⟩, hf, hc⟩ := bind_ok hc
  obtain ⟨_, h₁, hc⟩ := bind_ok hc
  obtain ⟨l, r, ha, hka, -⟩ := findEntry_around hv.sorted hf
  have hw : v.base + v.size < 2 ^ 64 := hB _ (hv.wf _ ha.mem)
  have hk : v.base = k := hv.keyed _ ha.mem
  have hpos : 0 < v.size := hv.tiling.pos _ ha.mem
  simp only at hka
  have hstart : sub64 addr v.base = addr - k := by
    rw [sub64_eq haddr (by omega), hk]
  simp only [hstart] at hc
  split_ifs at hc with hwhole
  · cases hc
    obtain ⟨h0, rfl⟩ := hwhole
    obtain rfl : addr = h := by omega
    refine ⟨rfl, l, addr, v, r, ha, ⟨hpos, le_rfl, le_rfl⟩, ?_⟩
    simp [changed, carved, leading, trailing, slice, trimmed, ha.eq]
  · obtain ⟨_, h₂, hc⟩ := bind_ok hc
    have hfit := require_ok h₂
    have hcarve := carve_eq L hv ha (addr - k) hfit
    rw [vmaKind_size] at hcarve
    rw [hcarve] at hc
    split_ifs at hc with hlt
    have hsum : add64 (addr - k) size = addr - k + size := by
      unfold add64 at hlt ⊢
      omega
    rw [hsum] at hc hfit hlt
    have haddr' : k + (addr - k) = addr := by omega
    rw [haddr'] at hc
    cases hc
    exact ⟨rfl, l, k, v, r, ha, ⟨by omega, hka, by omega⟩, rfl⟩

theorem carveVMA_ok (hv : vmaKind.Valid Wf m) (ha : Around m l (k, v) r)
    (hp : Part k v.size addr size) :
    carveVMA m addr size = .ok (changed l k v r addr size id, addr) := by
  have hw : v.base + v.size < 2 ^ 64 := hB _ (hv.wf _ ha.mem)
  have hk : v.base = k := hv.keyed _ ha.mem
  have hstart := hp.start
  have hstop := hp.stop
  have hpos := hp.pos
  have hf : findEntry m addr = .ok (k, v) :=
    findEntry_covering hv.tiling ha.mem (by simp only [Within, vmaKind_size]; omega)
  have hsub : sub64 addr v.base = addr - k := by
    rw [sub64_eq (by omega) (by omega), hk]
  have hsum : add64 (addr - k) size = addr - k + size := add64_eq (by omega)
  have h₁ : v.base ≤ addr := by omega
  have h₃ : addr - k + size ≤ v.size := by omega
  have hcarve := carve_eq L hv ha (addr - k) h₃
  have haddr : k + (addr - k) = addr := by omega
  rw [if_pos (by omega), vmaKind_size, haddr] at hcarve
  rw [carveVMA, hf]
  simp only [ok_bind, require_pos h₁, hsub, hsum]
  split_ifs with hwhole
  · obtain ⟨h0, rfl⟩ := hwhole
    obtain rfl : addr = k := by omega
    simp [changed, carved, leading, trailing, slice, trimmed, ha.eq, pure, Except.pure]
  · simp only [require_pos h₃, ok_bind, hcarve]
    rfl

omit hB in
theorem carve_around (hv : vmaKind.Valid Wf m) (ha : Around m l (k, v) r)
    (hp : Part k v.size addr size) : vmaKind.Recut Wf m (changed l k v r addr size id) := by
  have hstart := hp.start
  have hstop := hp.stop
  have hpos := hp.pos
  have hrecut := carve_recut L (hv.wf _ ha.mem) (hv.keyed _ ha.mem)
    (show addr - k < addr - k + size by omega) (show addr - k + size ≤ v.size by omega) l r
  have haddr : k + (addr - k) = addr := by omega
  rw [haddr] at hrecut
  rw [ha.eq]
  exact hrecut

omit hB in
theorem carved_extent (hv : vmaKind.Valid Wf m) (ha : Around m l (k, v) r)
    (hp : Part k v.size addr size) :
    (carved k v addr size).base = addr ∧ (carved k v addr size).size = size ∧
      Wf (carved k v addr size) := by
  have hstart := hp.start
  have hstop := hp.stop
  have hpos := hp.pos
  have hwf := hv.wf _ ha.mem
  have hk : v.base = k := hv.keyed _ ha.mem
  have hlt : addr - k < addr - k + size := by omega
  have hlast : addr - k + size ≤ vmaKind.size v := by rw [vmaKind_size]; omega
  have hbase := slice_base L hwf hlt hlast
  have hsize := slice_size L hwf hlt hlast
  simp only [vmaKind_base, vmaKind_size] at hbase hsize
  exact ⟨by rw [carved, hbase]; omega, by rw [carved, hsize]; omega, slice_wf L hwf hlt hlast⟩

omit hB in
theorem changed_rewritten (hv : vmaKind.Valid Wf m) (hf : Reattributes f)
    (ha : Around m l (k, v) r) (hp : Part k v.size addr size) (hw : Wf (f (carved k v addr size))) :
    Rewritten vmaKind Wf m addr size (carved k v addr size) (f (carved k v addr size))
      (changed l k v r addr size f) := by
  obtain ⟨hbase, hsize, hwf⟩ := carved_extent L hv ha hp
  exact
    { size_eq := hsize
      base_eq := hbase
      wf := hwf
      size_new := (hf.size_eq _).trans hsize
      base_new := (hf.base_eq _).trans hbase
      wf_new := hw
      steps := ⟨_, _, carve_around L hv ha hp, .refl _⟩ }

theorem carveWith_shape (hv : vmaKind.Valid Wf m) (haddr : addr < 2 ^ 64) (hsize : size < 2 ^ 64)
    (hc : carveWith m addr size f = .ok (m', h)) :
    h = addr ∧ ∃ l k v r, Around m l (k, v) r ∧ Part k v.size addr size ∧
      m' = changed l k v r addr size f := by
  unfold carveWith at hc
  obtain ⟨⟨m₁, h₁⟩, hcarve, hc⟩ := bind_ok hc
  obtain ⟨c, hd, hc⟩ := bind_ok hc
  obtain ⟨rfl, l, k, v, r, ha, hp, rfl⟩ := carveVMA_shape L hB hv haddr hsize hcarve
  have ha₁ := ((carve_around L hv ha hp).valid L hv).around
  have hget := ha₁.get?
  have hassign := ha₁.assign (f (carved k v h₁ size))
  simp only [id_eq] at hget hassign
  simp only [changed, id_eq, hget] at hd
  cases hd
  simp only [changed, id_eq, hassign] at hc
  cases hc
  exact ⟨rfl, l, k, v, r, ha, hp, rfl⟩

theorem carveWith_ok (hv : vmaKind.Valid Wf m) (ha : Around m l (k, v) r)
    (hp : Part k v.size addr size) :
    carveWith m addr size f = .ok (changed l k v r addr size f, addr) := by
  have ha₁ := ((carve_around L hv ha hp).valid L hv).around
  have hget := ha₁.get?
  have hassign := ha₁.assign (f (carved k v addr size))
  simp only [id_eq] at hget hassign
  rw [carveWith, carveVMA_ok L hB hv ha hp, ok_bind]
  simp only [changed, id_eq, hget, deref, ok_bind, hassign]
  rfl

theorem retype_shape (hv : vmaKind.Valid Wf m) (haddr : addr < 2 ^ 64) (hsize : size < 2 ^ 64)
    (hf : Reattributes f) (hr : retype m addr size f = .ok m')
    (hw : ∀ l k v r, Around m l (k, v) r → Part k v.size addr size →
      Wf (f (carved k v addr size))) : ∃ l k v r, Around m l (k, v) r ∧ Part k v.size addr size ∧
      Rewritten vmaKind Wf m addr size (carved k v addr size) (f (carved k v addr size)) m' := by
  unfold retype at hr
  obtain ⟨⟨m₁, h₁⟩, hcarve, hr⟩ := bind_ok hr
  obtain ⟨⟨m₂, h₂⟩, hmerge, rfl⟩ := map_ok hr
  obtain ⟨rfl, l, k, v, r, ha, hp, rfl⟩ := carveWith_shape L hB hv haddr hsize hcarve
  have hrw := changed_rewritten L hv hf ha hp (hw l k v r ha hp)
  refine ⟨l, k, v, r, ha, hp, ?_⟩
  exact hrw.trans_recut (mergeAdjacent_recut L (hrw.valid L hv) hmerge)

end Carve

end VMAMap

end PS4Droid.Memory
