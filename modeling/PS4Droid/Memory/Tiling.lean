import PS4Droid.Memory.Maps
import PS4Droid.Memory.System

/-!
# The maps stay tilings

Every operation changes the three maps only by carving, by changing attributes of
single nodes and by merging. `Keeps` says that a map is still valid and still
covers the same addresses; it holds of every such change and composes, so it
holds of every operation that returns and of every run.
-/

namespace PS4Droid.Memory

open OrderedMap IntervalMap Segments

/-- `m'` is a valid map of the addresses of `m`. -/
structure KeepsMap {γ : Type} (K : Segments Fault γ) (Wf : γ → Prop) (m m' : List (ℕ × γ)) :
    Prop where
  valid : K.Valid Wf m'
  covers : ∀ x, Covers K.size m' x ↔ Covers K.size m x

namespace KeepsMap

variable {γ : Type} {K : Segments Fault γ} {Wf : γ → Prop} {m m' m'' l r : List (ℕ × γ)}

theorem refl (h : K.Valid Wf m) : KeepsMap K Wf m m := ⟨h, fun _ => Iff.rfl⟩

theorem trans (h : KeepsMap K Wf m m') (h' : KeepsMap K Wf m' m'') : KeepsMap K Wf m m'' :=
  ⟨h'.valid, fun x => (h'.covers x).trans (h.covers x)⟩

theorem of_recut (L : K.Lawful Wf) (hv : K.Valid Wf m) (h : K.Recut Wf m m') :
    KeepsMap K Wf m m' := ⟨h.valid L hv, h.covers L⟩

theorem of_merge (L : K.Lawful Wf) (hv : K.Valid Wf m) {h h' : ℕ}
    (hm : K.mergeAdjacent m h = .ok (m', h')) : KeepsMap K Wf m m' :=
  .of_recut L hv (mergeAdjacent_recut L hv hm)

theorem of_assign (hv : K.Valid Wf m) {h : ℕ} {a b : γ} (ha : Around m l (h, a) r)
    (hb : K.base b = K.base a) (hs : K.size b = K.size a) (hw : Wf b) :
    KeepsMap K Wf m (assign m h b) := by
  have hassign := ha.assign b
  simp only at hassign
  rw [hassign]
  rw [ha.eq] at hv ⊢
  exact ⟨hv.rewrite hb hs hw, covers_rewrite hs⟩

/-- Carving recuts the map, whatever the range is, once the checks have passed. -/
theorem of_carve (L : K.Lawful Wf) (hv : K.Valid Wf m) {k first last h : ℕ} {a : γ}
    (ha : Around m l (k, a) r) (hlast : last ≤ K.size a)
    (hc : K.carve m k (K.size a) first last = .ok (m', h)) : KeepsMap K Wf m m' := by
  rw [carve_eq L hv ha _ hlast] at hc
  split_ifs at hc with hlt
  cases hc
  have hrecut := carve_recut L (hv.wf _ ha.mem) (hv.keyed _ ha.mem) hlt hlast l r
  rw [← ha.eq] at hrecut
  exact .of_recut L hv hrecut

end KeepsMap

namespace PhysMap

abbrev Keeps (m m' : PhysMap) : Prop := KeepsMap physKind PhysicalMemoryArea.Bounded m m'

variable {m m' : PhysMap} {addr size h : ℕ} {a : PhysicalMemoryArea}
  {f : PhysicalMemoryArea → PhysicalMemoryArea}

theorem carvePhysArea_keeps (hv : Valid m) (h : carvePhysArea m addr size = .ok (m', h)) :
    Keeps m m' := by
  unfold carvePhysArea at h
  obtain ⟨⟨k, a⟩, hf, hc⟩ := bind_ok h
  obtain ⟨_, -, hc⟩ := bind_ok hc
  obtain ⟨_, -, hc⟩ := bind_ok hc
  obtain ⟨_, h₃, hc⟩ := bind_ok hc
  obtain ⟨l, r, ha, -⟩ := findEntry_around hv.sorted hf
  exact .of_carve physKind_lawful hv ha (require_ok h₃) hc

theorem carveWith_keeps (hv : Valid m) (h : carveWith m addr size f = .ok (m', h, a))
    (hf : Reattributes f) : Keeps m m' := by
  unfold carveWith at h
  obtain ⟨⟨m₁, h₁⟩, hcarve, h⟩ := bind_ok h
  obtain ⟨b, hd, h⟩ := bind_ok h
  cases h
  have hk := carvePhysArea_keeps hv hcarve
  obtain ⟨l, r, ha⟩ := deref_get?_around hk.valid.sorted hd
  exact hk.trans (.of_assign hk.valid ha (hf.base_eq b) (hf.size_eq b)
    (hf.bounded (hk.valid.wf _ ha.mem)))

theorem retype_keeps (hv : Valid m) (h : retype m addr size f = .ok (m', h, a))
    (hf : Reattributes f) : Keeps m m' := by
  unfold retype at h
  obtain ⟨⟨m₁, h₁, b⟩, hcarve, h⟩ := bind_ok h
  obtain ⟨⟨m₂, h₂⟩, hmerge, h⟩ := bind_ok h
  cases h
  have hk := carveWith_keeps hv hcarve hf
  exact hk.trans (.of_merge physKind_lawful hk.valid hmerge)

end PhysMap

namespace VMAMap

abbrev Valid (m : VMAMap) : Prop := vmaKind.Valid VirtualMemoryArea.Bounded m

abbrev Keeps (m m' : VMAMap) : Prop := KeepsMap vmaKind VirtualMemoryArea.Bounded m m'

variable {m m' : VMAMap} {addr size h : ℕ} {f : VirtualMemoryArea → VirtualMemoryArea}
  {v : VirtualMemoryArea}

theorem Reattributes.bounded (hf : Reattributes f) (hv : v.Bounded) :
    (f v).Bounded := by
  rw [VirtualMemoryArea.Bounded, hf.base_eq, hf.size_eq]
  exact hv

theorem carveVMA_keeps (hv : Valid m) (h : carveVMA m addr size = .ok (m', h)) : Keeps m m' := by
  unfold carveVMA at h
  obtain ⟨⟨k, v⟩, hf, hc⟩ := bind_ok h
  obtain ⟨_, -, hc⟩ := bind_ok hc
  dsimp only at hc
  split_ifs at hc
  · cases hc
    exact .refl hv
  · obtain ⟨_, h₂, hc⟩ := bind_ok hc
    obtain ⟨l, r, ha, -⟩ := findEntry_around hv.sorted hf
    exact .of_carve vmaKind_lawful hv ha (require_ok h₂) hc

theorem assign_keeps (hv : Valid m) {w : VirtualMemoryArea} (hd : deref (get? m h) = .ok v)
    (hb : w.base = v.base) (hs : w.size = v.size) : Keeps m (assign m h w) := by
  obtain ⟨l, r, ha⟩ := deref_get?_around hv.sorted hd
  refine .of_assign hv ha hb hs ?_
  have : v.Bounded := hv.wf _ ha.mem
  rw [VirtualMemoryArea.Bounded, hb, hs]
  exact this

theorem carveWith_keeps (hv : Valid m) (h : carveWith m addr size f = .ok (m', h))
    (hf : Reattributes f) : Keeps m m' := by
  unfold carveWith at h
  obtain ⟨⟨m₁, h₁⟩, hcarve, h⟩ := bind_ok h
  obtain ⟨v, hd, h⟩ := bind_ok h
  cases h
  have hk := carveVMA_keeps hv hcarve
  exact hk.trans (assign_keeps hk.valid hd (hf.base_eq v) (hf.size_eq v))

theorem mergeAdjacent_keeps (hv : Valid m) {h' : ℕ} (hm : mergeAdjacent m h = .ok (m', h')) :
    Keeps m m' := .of_merge vmaKind_lawful hv hm

theorem retype_keeps (hv : Valid m) (h : retype m addr size f = .ok m') (hf : Reattributes f) :
    Keeps m m' := by
  unfold retype at h
  obtain ⟨⟨m₁, h₁⟩, hcarve, h⟩ := bind_ok h
  obtain ⟨⟨m₂, h₂⟩, hmerge, rfl⟩ := map_ok h
  have hk := carveWith_keeps hv hcarve hf
  exact hk.trans (mergeAdjacent_keeps hk.valid hmerge)

end VMAMap

/-! ### States -/

namespace MemoryManager

/-- The three maps of a state are valid. -/
structure Tiled (s : MemoryManager) : Prop where
  vma : VMAMap.Valid s.vmaMap
  dmem : PhysMap.Valid s.dmemMap
  fmem : PhysMap.Valid s.fmemMap

/-- `s'` has valid maps of the same addresses as `s`, and the same direct memory size. -/
structure Keeps (s s' : MemoryManager) : Prop where
  vma : VMAMap.Keeps s.vmaMap s'.vmaMap
  dmem : PhysMap.Keeps s.dmemMap s'.dmemMap
  fmem : PhysMap.Keeps s.fmemMap s'.fmemMap
  total : s'.totalDirectSize = s.totalDirectSize

variable {s s' s'' : MemoryManager}

theorem Keeps.tiled (h : Keeps s s') : Tiled s' := ⟨h.vma.valid, h.dmem.valid, h.fmem.valid⟩

theorem Keeps.refl (h : Tiled s) : Keeps s s := ⟨.refl h.vma, .refl h.dmem, .refl h.fmem, rfl⟩

theorem Keeps.trans (h : Keeps s s') (h' : Keeps s' s'') : Keeps s s'' :=
  ⟨h.vma.trans h'.vma, h.dmem.trans h'.dmem, h.fmem.trans h'.fmem, h'.total.trans h.total⟩

theorem Keeps.of_vma (h : Tiled s) {m : VMAMap} (hm : VMAMap.Keeps s.vmaMap m) {usage : ℕ}
    {host : AddressSpace} : Keeps s { s with vmaMap := m, flexibleUsage := usage, host } :=
  ⟨hm, .refl h.dmem, .refl h.fmem, rfl⟩

/-! ### Unmapping -/

variable {start left n fuel remaining physAddr searchStart searchEnd alignment : ℕ}
  {areas : PhysMap} {vma : VirtualMemoryArea} {flags prot : UInt32} {type : VMAType} {name : String}
  {q : MapRequest} {status : Status} {memoryType : ℤ}

theorem forEachPiece_keeps {visit : ℕ → ℕ → PhysMap → Except Fault PhysMap}
    (hvisit : ∀ addr size m m', PhysMap.Valid m → visit addr size m = .ok m' → PhysMap.Keeps m m')
    {left' : ℕ} {m m' : PhysMap}
    (hv : PhysMap.Valid m) (h : forEachPiece visit start areas left m = .ok (m', left')) :
    PhysMap.Keeps m m' := by
  induction areas generalizing left m with
  | nil =>
    cases h
    exact .refl hv
  | cons e rest ih =>
    unfold forEachPiece at h
    split_ifs at h with h0
    · cases h
      exact .refl hv
    · obtain ⟨m₁, hm₁, h⟩ := bind_ok h
      have hk := hvisit _ _ _ _ hv hm₁
      exact hk.trans (ih hk.valid h)

theorem retypeBacking_keeps {t : PhysicalMemoryType} {m m' : PhysMap} {size : ℕ}
    {done : Bool} (hv : PhysMap.Valid m)
    (h : retypeBacking t areas start size m = .ok (m', done)) : PhysMap.Keeps m m' := by
  unfold retypeBacking at h
  obtain ⟨first, -, h⟩ := bind_ok h
  obtain ⟨⟨m₁, left⟩, hp, h⟩ := bind_ok h
  cases h
  refine forEachPiece_keeps ?_ hv hp
  intro addr size m m' hv h
  obtain ⟨⟨m₁, h₁, a⟩, hr, rfl⟩ := map_ok h
  exact PhysMap.retype_keeps hv hr ⟨fun _ => rfl, fun _ => rfl⟩

theorem releaseBacking_keeps (ht : Tiled s) {size : ℕ}
    (h : s.releaseBacking vma start size = .ok s') : Keeps s s' := by
  unfold releaseBacking at h
  split_ifs at h with hlen
  · cases htype : vma.type <;> simp only [htype] at h
    case direct =>
      obtain ⟨⟨m, done⟩, hr, h⟩ := bind_ok h
      obtain ⟨_, -, h⟩ := bind_ok h
      cases h
      exact ⟨.refl ht.vma, retypeBacking_keeps ht.dmem hr, .refl ht.fmem, rfl⟩
    case flexible =>
      obtain ⟨⟨m, done⟩, hr, h⟩ := bind_ok h
      obtain ⟨_, -, h⟩ := bind_ok h
      cases h
      exact ⟨.refl ht.vma, .refl ht.dmem, retypeBacking_keeps ht.fmem hr, rfl⟩
    all_goals
      obtain ⟨first, -, h⟩ := bind_ok h
      obtain ⟨p, -, h⟩ := bind_ok h
      obtain ⟨_, -, h⟩ := bind_ok h
      cases h
      exact .refl ht
  · cases h
    exact .refl ht

theorem unmapBytesFromEntry_keeps (ht : Tiled s) {addr size : ℕ}
   
    (h : s.unmapBytesFromEntry addr vma size = .ok (s', n)) : Keeps s s' := by
  unfold unmapBytesFromEntry at h
  dsimp only at h
  by_cases hfree : vma.type = .free ∨ vma.type = .pooled
  · rw [if_pos hfree] at h
    cases h
    exact .refl ht
  · rw [if_neg hfree] at h
    obtain ⟨s₁, hrel, h⟩ := bind_ok h
    obtain ⟨m, hr, h⟩ := bind_ok h
    cases h
    have hk := releaseBacking_keeps ht hrel
    refine hk.trans (.of_vma hk.tiled ?_)
    exact VMAMap.retype_keeps hk.tiled.vma hr ⟨fun _ => rfl, fun _ => rfl⟩

theorem unmapMemoryLoop_keeps (ht : Tiled s) {addr size : ℕ}
    (h : unmapMemoryLoop fuel s addr size n = .ok s') : Keeps s s' := by
  induction fuel generalizing s n with
  | zero => cases h
  | succ fuel ih =>
    unfold unmapMemoryLoop at h
    obtain ⟨⟨k, vma⟩, -, h⟩ := bind_ok h
    obtain ⟨⟨s₁, n₁⟩, hu, h⟩ := bind_ok h
    obtain ⟨_, -, h⟩ := bind_ok h
    have hk := unmapBytesFromEntry_keeps ht hu
    simp only at h
    split_ifs at h
    · exact hk.trans (ih hk.tiled h)
    · cases h
      exact hk

theorem unmapRange_keeps (ht : Tiled s) {addr size : ℕ}
    (h : unmapRange fuel s addr size = .ok s') : Keeps s s' := by
  induction fuel generalizing s addr size with
  | zero => cases h
  | succ fuel ih =>
    unfold unmapRange at h
    split_ifs at h with h0
    · cases h
      exact .refl ht
    · obtain ⟨⟨k, vma⟩, -, h⟩ := bind_ok h
      obtain ⟨⟨s₁, n⟩, hu, h⟩ := bind_ok h
      have hk := unmapBytesFromEntry_keeps ht hu
      exact hk.trans (ih hk.tiled h)

/-! ### Mapping -/

theorem clearRange_keeps (ht : Tiled s) {addr size : ℕ}
    (h : s.clearRange addr size flags = .ok s') : Keeps s s' := by
  unfold clearRange at h
  split_ifs at h
  · exact unmapRange_keeps ht h
  · cases h
    exact .refl ht

theorem createArea_keeps (ht : Tiled s) {addr size h : ℕ}
    (hc : s.createArea addr size prot flags type name = .ok (s', h)) : Keeps s s' := by
  unfold createArea at hc
  obtain ⟨s₁, hu, hc⟩ := bind_ok hc
  obtain ⟨⟨k, vma⟩, -, hc⟩ := bind_ok hc
  obtain ⟨_, -, hc⟩ := bind_ok hc
  obtain ⟨⟨m, h₁⟩, hcarve, hc⟩ := bind_ok hc
  cases hc
  have hk := clearRange_keeps ht hu
  refine hk.trans (.of_vma hk.tiled ?_)
  exact VMAMap.carveWith_keeps hk.tiled.vma hcarve ⟨fun _ => rfl, fun _ => rfl⟩

theorem takeAreas_keeps {source : PhysicalMemoryType}
    {change : PhysicalMemoryArea → PhysicalMemoryArea} {mapped : ℕ} {handle : Option ℕ}
    {g g' : Gathered} {offset : ℕ}
    (hv : PhysMap.Valid g.map)
    (h : takeAreas source change mapped fuel handle g offset remaining = .ok (g', left))
    (hchange : PhysMap.Reattributes change) : PhysMap.Keeps g.map g'.map := by
  induction fuel generalizing handle g offset remaining with
  | zero => cases handle <;> cases h
  | succ fuel ih =>
    cases handle with
    | none =>
      cases h
      exact .refl hv
    | some handle =>
      unfold takeAreas at h
      by_cases h0 : remaining = 0
      · rw [if_pos h0] at h
        cases h
        exact .refl hv
      · rw [if_neg h0] at h
        obtain ⟨area, -, h⟩ := bind_ok h
        by_cases hs : area.dmaType ≠ source
        · rw [if_pos hs] at h
          exact ih hv h
        · rw [if_neg hs] at h
          obtain ⟨⟨m, h₁, taken⟩, hr, h⟩ := bind_ok h
          obtain ⟨⟨areas, h₂⟩, -, h⟩ := bind_ok h
          have hk := PhysMap.retype_keeps hv hr hchange
          exact hk.trans (ih hk.valid h)

theorem mapDirectAreas_keeps {m m' areas' : PhysMap} {current : ℕ} (hv : PhysMap.Valid m)
    (h : mapDirectAreas physAddr fuel m areas current remaining = .ok (m', areas', left)) :
    PhysMap.Keeps m m' := by
  induction fuel generalizing m areas current remaining with
  | zero => cases h
  | succ fuel ih =>
    unfold mapDirectAreas at h
    by_cases h0 : remaining = 0
    · rw [if_pos h0] at h
      cases h
      exact .refl hv
    · rw [if_neg h0] at h
      obtain ⟨⟨k, area⟩, -, h⟩ := bind_ok h
      obtain ⟨⟨m₁, h₁, taken⟩, hr, h⟩ := bind_ok h
      obtain ⟨⟨areas₁, h₂⟩, -, h⟩ := bind_ok h
      have hk := PhysMap.retype_keeps hv hr ⟨fun _ => rfl, fun _ => rfl⟩
      exact hk.trans (ih hk.valid h)

theorem backArea_keeps (ht : Tiled s) {h : ℕ} (hb : s.backArea q h = .ok s') : Keeps s s' := by
  unfold backArea at hb
  obtain ⟨vma, hd, hb⟩ := bind_ok hb
  cases htype : q.type <;> simp only [htype] at hb
  case flexible =>
    obtain ⟨⟨g, left⟩, htake, hb⟩ := bind_ok hb
    obtain ⟨_, -, hb⟩ := bind_ok hb
    cases hb
    have hf := takeAreas_keeps ht.fmem htake ⟨fun _ => rfl, fun _ => rfl⟩
    exact ⟨VMAMap.assign_keeps ht.vma hd rfl rfl, .refl ht.dmem, hf, rfl⟩
  case direct =>
    obtain ⟨⟨m, areas, left⟩, hmap, hb⟩ := bind_ok hb
    obtain ⟨_, -, hb⟩ := bind_ok hb
    cases hb
    exact ⟨VMAMap.assign_keeps ht.vma hd rfl rfl, mapDirectAreas_keeps ht.dmem hmap,
      .refl ht.fmem, rfl⟩
  all_goals
    cases hb
    exact .refl ht

theorem coalesce_keeps (ht : Tiled s) {h : ℕ} {m : VMAMap}
    (hc : s.coalesce type h = .ok m) : VMAMap.Keeps s.vmaMap m := by
  unfold coalesce at hc
  split_ifs at hc
  · obtain ⟨⟨m', h'⟩, hm, rfl⟩ := map_ok hc
    exact VMAMap.mergeAdjacent_keeps ht.vma hm
  · cases hc
    exact .refl ht.vma

theorem mapMemory_keeps (ht : Tiled s) {addr : ℕ}
    (h : s.mapMemory q = .ok (s', status, addr)) : Keeps s s' := by
  unfold mapMemory at h
  by_cases husage : q.type = .flexible ∧ add64 s.flexibleUsage q.size > s.totalFlexibleSize
  · rw [if_pos husage] at h
    cases h
    exact .refl ht
  · rw [if_neg husage] at h
    obtain ⟨check, -, h⟩ := bind_ok h
    cases check with
    | some code =>
      cases h
      exact .refl ht
    | none =>
      obtain ⟨place, hplace, h⟩ := bind_ok h
      cases place with
      | none =>
        cases h
        exact .refl ht
      | some found =>
        obtain ⟨⟨s₁, handle⟩, hcreate, h⟩ := bind_ok h
        obtain ⟨vma, -, h⟩ := bind_ok h
        obtain ⟨s₂, hback, h⟩ := bind_ok h
        obtain ⟨m, hmerge, h⟩ := bind_ok h
        cases h
        have hk₁ := createArea_keeps ht hcreate
        have hk₂ := backArea_keeps hk₁.tiled hback
        exact hk₁.trans (hk₂.trans (.of_vma hk₂.tiled (coalesce_keeps hk₂.tiled hmerge)))

theorem mapFile_keeps (ht : Tiled s) {addr size out : ℕ} {fd : ℤ} {file : Option OpenFile}
    (h : s.mapFile addr size prot flags fd file physAddr = .ok (s', status, out)) : Keeps s s' := by
  unfold mapFile at h
  cases file with
  | none =>
    cases h
    exact .refl ht
  | some file =>
    dsimp only at h
    by_cases hreg : file.isRegular = false
    · rw [if_pos hreg] at h
      cases h
      exact .refl ht
    · rw [if_neg hreg] at h
      obtain ⟨_, -, h⟩ := bind_ok h
      obtain ⟨place, hplace, h⟩ := bind_ok h
      cases place with
      | none =>
        cases h
        exact .refl ht
      | some found =>
        obtain ⟨⟨s₁, handle⟩, hcreate, h⟩ := bind_ok h
        obtain ⟨vma, hd, h⟩ := bind_ok h
        cases h
        have hk₁ := createArea_keeps ht hcreate
        have hvma := VMAMap.assign_keeps (w := { vma with fd }) hk₁.tiled.vma hd rfl rfl
        exact hk₁.trans (.of_vma hk₁.tiled hvma)

/-! ### Release and pools -/

theorem unmapMemory_keeps (ht : Tiled s) {addr size : ℕ}
    (h : s.unmapMemory addr size = .ok (s', status)) : Keeps s s' := by
  unfold unmapMemory at h
  split_ifs at h
  · cases h
    exact .refl ht
  · obtain ⟨_, -, h⟩ := bind_ok h
    obtain ⟨s₁, hu, h⟩ := bind_ok h
    cases h
    exact unmapMemoryLoop_keeps ht hu

theorem unmapAll_keeps {ranges : List (ℕ × ℕ)} (ht : Tiled s) (h : unmapAll ranges s = .ok s') :
    Keeps s s' := by
  induction ranges generalizing s with
  | nil =>
    cases h
    exact .refl ht
  | cons range rest ih =>
    obtain ⟨s₁, hu, h⟩ := bind_ok h
    have hk := unmapMemoryLoop_keeps ht hu
    exact hk.trans (ih hk.tiled h)

theorem freeAll_keeps {pieces : List (ℕ × ℕ)} {m m' : PhysMap} (hv : PhysMap.Valid m)
    (h : freeAll pieces m = .ok m') : PhysMap.Keeps m m' := by
  induction pieces generalizing m with
  | nil =>
    cases h
    exact .refl hv
  | cons piece rest ih =>
    obtain ⟨⟨m₁, h₁, a⟩, hr, h⟩ := bind_ok h
    have hk := PhysMap.retype_keeps hv hr ⟨fun _ => rfl, fun _ => rfl⟩
    exact hk.trans (ih hk.valid h)

theorem free_keeps (ht : Tiled s) {size : ℕ} {isChecked : Bool}
    (h : s.free physAddr size isChecked = .ok (s', status)) : Keeps s s' := by
  unfold free at h
  split_ifs at h with hout
  · cases h
    exact .refl ht
  · cases h
    exact .refl ht
  · obtain ⟨first, -, h⟩ := bind_ok h
    cases hlist : freeList isChecked physAddr (first :: above s.dmemMap first.1) size with
    | none =>
      simp only [hlist] at h
      cases h
      exact .refl ht
    | some released =>
      simp only [hlist] at h
      obtain ⟨s₁, hu, h⟩ := bind_ok h
      obtain ⟨m, hf, h⟩ := bind_ok h
      cases h
      have hk := unmapAll_keeps ht hu
      refine hk.trans ⟨.refl hk.tiled.vma, ?_, .refl hk.tiled.fmem, rfl⟩
      exact freeAll_keeps hk.tiled.dmem hf

theorem poolCommit_keeps (ht : Tiled s) {addr size : ℕ} {mtype : ℤ}
    (h : s.poolCommit addr size prot mtype = .ok (s', status)) : Keeps s s' := by
  unfold poolCommit at h
  obtain ⟨_, -, h⟩ := bind_ok h
  obtain ⟨⟨k, vma⟩, -, h⟩ := bind_ok h
  dsimp only at h
  split_ifs at h
  · cases h
    exact .refl ht
  · cases h
    exact .refl ht
  · cases h
    exact .refl ht
  · obtain ⟨⟨m, handle⟩, hcarve, h⟩ := bind_ok h
    obtain ⟨⟨g, left⟩, htake, h⟩ := bind_ok h
    obtain ⟨_, -, h⟩ := bind_ok h
    obtain ⟨newVma, hd, h⟩ := bind_ok h
    obtain ⟨⟨m₁, h₁⟩, hmerge, h⟩ := bind_ok h
    cases h
    have hk₁ := VMAMap.carveWith_keeps ht.vma hcarve ⟨fun _ => rfl, fun _ => rfl⟩
    have hk₂ := VMAMap.assign_keeps (w := { newVma with physAreas := g.areas }) hk₁.valid hd
      rfl rfl
    refine ⟨hk₁.trans (hk₂.trans (VMAMap.mergeAdjacent_keeps hk₂.valid hmerge)), ?_,
      .refl ht.fmem, rfl⟩
    exact takeAreas_keeps ht.dmem htake ⟨fun _ => rfl, fun _ => rfl⟩

theorem decommitBacking_keeps (ht : Tiled s) {size : ℕ}
    (h : s.decommitBacking vma start size = .ok s') : Keeps s s' := by
  unfold decommitBacking at h
  split_ifs at h
  · obtain ⟨⟨dm, done⟩, hb, h⟩ := bind_ok h
    obtain ⟨_, -, h⟩ := bind_ok h
    cases h
    exact ⟨.refl ht.vma, retypeBacking_keeps ht.dmem hb, .refl ht.fmem, rfl⟩
  · cases h
    exact .refl ht

theorem decommitLoop_keeps (ht : Tiled s) {addr : ℕ}
    (h : decommitLoop fuel s addr remaining = .ok s') : Keeps s s' := by
  induction fuel generalizing s addr remaining with
  | zero => cases h
  | succ fuel ih =>
    unfold decommitLoop at h
    by_cases h0 : remaining = 0
    · rw [if_pos h0] at h
      cases h
      exact .refl ht
    · rw [if_neg h0] at h
      obtain ⟨⟨k, vma⟩, -, h⟩ := bind_ok h
      obtain ⟨s₁, hs₁, h⟩ := bind_ok h
      obtain ⟨m, hr, h⟩ := bind_ok h
      have hk₁ := decommitBacking_keeps ht hs₁
      have hvma := VMAMap.retype_keeps hk₁.tiled.vma hr
        ⟨fun _ => rfl, fun _ => rfl⟩
      have hk₂ : Keeps s { s₁ with vmaMap := m } := hk₁.trans (.of_vma hk₁.tiled hvma)
      exact hk₂.trans (ih hk₂.tiled h)

theorem poolDecommit_keeps (ht : Tiled s) {addr size : ℕ}
    (h : s.poolDecommit addr size = .ok (s', status)) : Keeps s s' := by
  unfold poolDecommit at h
  obtain ⟨_, -, h⟩ := bind_ok h
  obtain ⟨first, -, h⟩ := bind_ok h
  split_ifs at h
  · obtain ⟨s₁, hl, h⟩ := bind_ok h
    cases h
    have hk := decommitLoop_keeps ht hl
    exact hk.trans (.of_vma hk.tiled (.refl hk.tiled.vma))
  · cases h
    exact .refl ht

/-! ### Attributes -/

theorem protectBytes_keeps (ht : Tiled s) {addr size : ℕ}
    (h : s.protectBytes addr vma size prot = .ok (s', n)) : Keeps s s' := by
  unfold protectBytes at h
  dsimp only at h
  split_ifs at h
  · cases h
    exact .refl ht
  · obtain ⟨m, hr, h⟩ := bind_ok h
    cases h
    exact .of_vma ht (VMAMap.retype_keeps ht.vma hr ⟨fun _ => rfl, fun _ => rfl⟩)

theorem protectLoop_keeps (ht : Tiled s) {addr size : ℕ}
    (h : protectLoop addr size prot fuel s n = .ok (s', status)) : Keeps s s' := by
  induction fuel generalizing s n with
  | zero => cases h
  | succ fuel ih =>
    unfold protectLoop at h
    by_cases hn : n < size
    · rw [if_pos hn] at h
      obtain ⟨⟨k, vma⟩, -, h⟩ := bind_ok h
      obtain ⟨⟨s₁, result⟩, hp, h⟩ := bind_ok h
      have hk := protectBytes_keeps ht hp
      dsimp only at h
      by_cases hneg : result ≥ 2 ^ 63
      · rw [if_pos hneg] at h
        cases h
        exact hk
      · rw [if_neg hneg] at h
        exact hk.trans (ih hk.tiled h)
    · rw [if_neg hn] at h
      cases h
      exact .refl ht

theorem protect_keeps (ht : Tiled s) {addr size : ℕ}
    (h : s.protect addr size prot = .ok (s', status)) : Keeps s s' := by
  unfold protect at h
  split_ifs at h
  · cases h
    exact .refl ht
  · obtain ⟨_, -, h⟩ := bind_ok h
    exact protectLoop_keeps ht h

theorem setAreaTypes_keeps {m m' : PhysMap} (hv : PhysMap.Valid m)
    (h : setAreaTypes memoryType areas m = .ok m') : PhysMap.Keeps m m' := by
  induction areas generalizing m with
  | nil =>
    cases h
    exact .refl hv
  | cons e rest ih =>
    obtain ⟨⟨m₁, h₁, a⟩, hr, h⟩ := bind_ok h
    have hk := PhysMap.carveWith_keeps hv hr ⟨fun _ => rfl, fun _ => rfl⟩
    exact hk.trans (ih hk.valid h)

theorem setPieceType_keeps (ht : Tiled s) {handle addr size h' : ℕ}
    (h : s.setPieceType memoryType handle vma addr size = .ok (s', h')) : Keeps s s' := by
  unfold setPieceType at h
  split_ifs at h
  · obtain ⟨⟨m, h₁⟩, hcarve, h⟩ := bind_ok h
    obtain ⟨carved, hd, h⟩ := bind_ok h
    obtain ⟨dm, hset, h⟩ := bind_ok h
    cases h
    have hk := VMAMap.carveVMA_keeps ht.vma hcarve
    exact ⟨hk.trans (VMAMap.assign_keeps hk.valid hd rfl rfl), setAreaTypes_keeps ht.dmem hset,
      .refl ht.fmem, rfl⟩
  · cases h
    exact .refl ht

theorem setDirectMemoryTypeLoop_keeps {handle : Option ℕ} (ht : Tiled s)
    {addr : ℕ} (h : setDirectMemoryTypeLoop memoryType fuel s handle addr remaining = .ok s') :
    Keeps s s' := by
  induction fuel generalizing s handle addr remaining with
  | zero => cases handle <;> cases h
  | succ fuel ih =>
    cases handle with
    | none =>
      cases h
      exact .refl ht
    | some handle =>
      unfold setDirectMemoryTypeLoop at h
      by_cases h0 : remaining = 0
      · rw [if_pos h0] at h
        cases h
        exact .refl ht
      · rw [if_neg h0] at h
        obtain ⟨vma, -, h⟩ := bind_ok h
        obtain ⟨⟨s₁, h₁⟩, hset, h⟩ := bind_ok h
        obtain ⟨⟨m, h₂⟩, hmerge, h⟩ := bind_ok h
        obtain ⟨h₃, -, h⟩ := bind_ok h
        have hk₁ := setPieceType_keeps ht hset
        have hvma := VMAMap.mergeAdjacent_keeps hk₁.tiled.vma hmerge
        have hk₂ : Keeps s { s₁ with vmaMap := m } := hk₁.trans (.of_vma hk₁.tiled hvma)
        exact hk₂.trans (ih hk₂.tiled h)

theorem setDirectMemoryType_keeps (ht : Tiled s) {addr size : ℕ}
    (h : s.setDirectMemoryType addr size memoryType = .ok (s', status)) : Keeps s s' := by
  unfold setDirectMemoryType at h
  obtain ⟨_, -, h⟩ := bind_ok h
  obtain ⟨⟨k, vma⟩, -, h⟩ := bind_ok h
  obtain ⟨s₁, hl, h⟩ := bind_ok h
  cases h
  exact setDirectMemoryTypeLoop_keeps ht hl

theorem namePiece_keeps {m m' : VMAMap} (hv : VMAMap.Valid m)
    {handle addr size h' : ℕ} (hd : deref (get? m handle) = .ok vma)
    (h : namePiece m name handle vma addr size = .ok (m', h')) : VMAMap.Keeps m m' := by
  unfold namePiece at h
  split_ifs at h
  · cases h
    exact .refl hv
  · exact VMAMap.carveWith_keeps hv h ⟨fun _ => rfl, fun _ => rfl⟩
  · cases h
    exact VMAMap.assign_keeps hv hd rfl rfl

theorem nameVirtualRangeLoop_keeps {handle : Option ℕ} (ht : Tiled s)
    {addr : ℕ} (h : nameVirtualRangeLoop name fuel s handle addr remaining = .ok s') :
    Keeps s s' := by
  induction fuel generalizing s handle addr remaining with
  | zero => cases handle <;> cases h
  | succ fuel ih =>
    cases handle with
    | none =>
      cases h
      exact .refl ht
    | some handle =>
      unfold nameVirtualRangeLoop at h
      by_cases h0 : remaining = 0
      · rw [if_pos h0] at h
        cases h
        exact .refl ht
      · rw [if_neg h0] at h
        obtain ⟨vma, hd, h⟩ := bind_ok h
        obtain ⟨⟨m₁, h₁⟩, hname, h⟩ := bind_ok h
        obtain ⟨⟨m₂, h₂⟩, hmerge, h⟩ := bind_ok h
        obtain ⟨h₃, -, h⟩ := bind_ok h
        have hk₁ := namePiece_keeps ht.vma hd hname
        have hvma := hk₁.trans (VMAMap.mergeAdjacent_keeps hk₁.valid hmerge)
        have hk : Keeps s { s with vmaMap := m₂ } := .of_vma ht hvma
        exact hk.trans (ih hk.tiled h)

theorem nameVirtualRange_keeps (ht : Tiled s) {addr size : ℕ}
    (h : s.nameVirtualRange addr size name = .ok s') : Keeps s s' := by
  unfold nameVirtualRange at h
  obtain ⟨_, -, h⟩ := bind_ok h
  obtain ⟨⟨k, vma⟩, -, h⟩ := bind_ok h
  exact nameVirtualRangeLoop_keeps ht h

/-! ### Direct memory -/

theorem poolExpand_keeps (ht : Tiled s) {size addr : ℕ}
    (h : s.poolExpand searchStart searchEnd size alignment = .ok (s', addr)) : Keeps s s' := by
  unfold poolExpand at h
  obtain ⟨⟨k, area⟩, -, h⟩ := bind_ok h
  dsimp only at h
  split at h
  · cases h
    exact .refl ht
  · obtain ⟨⟨m, h₁, a⟩, hcarve, h⟩ := bind_ok h
    cases h
    exact ⟨.refl ht.vma, PhysMap.carveWith_keeps ht.dmem hcarve ⟨fun _ => rfl, fun _ => rfl⟩,
      .refl ht.fmem, rfl⟩

theorem allocate_keeps (ht : Tiled s) {size addr : ℕ}
    (h : s.allocate searchStart searchEnd size alignment memoryType = .ok (s', addr)) :
    Keeps s s' := by
  unfold allocate at h
  obtain ⟨⟨k, area⟩, -, h⟩ := bind_ok h
  dsimp only at h
  split at h
  · cases h
    exact .refl ht
  · split_ifs at h
    · cases h
      exact .refl ht
    · obtain ⟨⟨m, h₁, a⟩, hcarve, h⟩ := bind_ok h
      obtain ⟨⟨m₂, h₂⟩, hmerge, h⟩ := bind_ok h
      cases h
      have hk := PhysMap.carveWith_keeps ht.dmem hcarve ⟨fun _ => rfl, fun _ => rfl⟩
      exact ⟨.refl ht.vma, hk.trans (.of_merge physKind_lawful hk.valid hmerge), .refl ht.fmem, rfl⟩

end MemoryManager

/-! ### Runs -/

open MemoryManager in
theorem Operation.run_keeps {s s' : MemoryManager} {op : Operation} {reply : Reply}
    (ht : Tiled s) (h : op.run s = .ok (s', reply)) : Keeps s s' := by
  cases op <;> obtain ⟨p, hp, h⟩ := bind_ok h <;> cases h
  case mapMemory => exact mapMemory_keeps ht hp
  case mapFile => exact mapFile_keeps ht hp
  case unmapMemory => exact unmapMemory_keeps ht hp
  case free => exact free_keeps ht hp
  case poolCommit => exact poolCommit_keeps ht hp
  case poolDecommit => exact poolDecommit_keeps ht hp
  case protect => exact protect_keeps ht hp
  case setDirectMemoryType => exact setDirectMemoryType_keeps ht hp
  case nameVirtualRange => exact nameVirtualRange_keeps ht hp
  case allocate => exact allocate_keeps ht hp
  case poolExpand => exact poolExpand_keeps ht hp

/-! ### The start -/

variable {c : Config} {s₀ : MemoryManager}

theorem Config.directSize_pos (c : Config) : 0 < c.directSize := by
  simp only [directSize, totalMemDevPro, miB]
  omega

theorem Config.memory_bounded (c : Config) : c.directSize + flexibleMemorySize < 2 ^ 64 := by
  have := c.extra_lt
  simp only [directSize, totalMemDevPro, flexibleMemorySize, miB]
  omega

/-- What the two ways to start agree on. -/
structure Fresh (c : Config) (s : MemoryManager) : Prop where
  vmaMap : s.vmaMap = c.construct.vmaMap
  dmemMap : s.dmemMap =
    [(0, { base := 0, size := s.totalDirectSize, memoryType := 0, dmaType := .free })]
  fmemMap : s.fmemMap = c.construct.fmemMap
  flexibleUsage : s.flexibleUsage = 0
  poolBudget : s.poolBudget = 0
  host : s.host = c.construct.host
  direct_pos : 0 < s.totalDirectSize
  direct_le : s.totalDirectSize ≤ c.directSize

theorem Boot.fresh_state (h : Boot c s₀) : Fresh c s₀ := by
  cases h with
  | fresh => exact ⟨rfl, rfl, rfl, rfl, rfl, rfl, c.directSize_pos, le_rfl⟩
  | configured flexibleSize mem1 mem2 h hpos =>
    unfold MemoryManager.setupMemoryRegions at h
    obtain ⟨_, -, h⟩ := bind_ok h
    obtain ⟨⟨k, area⟩, hfind, h⟩ := bind_ok h
    obtain ⟨_, hreq, h⟩ := bind_ok h
    have hnew := sub64_lt (c.consoleMemory mem1 mem2) flexibleSize.toNat
    generalize sub64 (c.consoleMemory mem1 mem2) flexibleSize.toNat = new at hfind hreq h hnew
    -- The fresh direct map has one area, and the new size has to lie below the old one.
    obtain ⟨rfl, rfl⟩ : k = 0 ∧ area = ⟨0, c.directSize, 0, .free⟩ := by
      rw [MemoryManager.findDmemArea, findEntry] at hfind
      have hfloor := deref_ok hfind
      simp only [Config.construct, floor, Nat.zero_le, ↓reduceIte, Option.getD_none,
        Option.some.injEq, Prod.mk.injEq] at hfloor
      exact ⟨hfloor.1.symm, hfloor.2.symm⟩
    have hle : c.directSize ≥ sub64 c.directSize new := (require_ok hreq).2
    have hbound := c.memory_bounded
    have hold : new ≤ c.directSize := by
      unfold sub64 at hle
      omega
    have hdiff : sub64 c.directSize new = c.directSize - new := sub64_eq (by omega) hold
    have hsize : sub64 c.directSize (c.directSize - new) = new := by
      rw [sub64_eq (by omega) (by omega)]
      omega
    have hs := pure_ok h
    subst hs
    refine ⟨rfl, ?_, rfl, rfl, rfl, rfl, hpos, hold⟩
    simp only [Config.construct, OrderedMap.assign, lt_self_iff_false, ↓reduceIte, hdiff, hsize]

theorem construct_covers (c : Config) (x : ℕ) :
    Covers vmaKind.size c.construct.vmaMap x ↔ ∃ region ∈ c.regions, region.1 ≤ x ∧
      x < region.2 := by
  simp only [Covers, Config.construct, List.mem_map, exists_exists_and_eq_and, Within,
    vmaKind_size, VirtualMemoryArea.ofRange]
  constructor
  · rintro ⟨region, hr, hx⟩
    exact ⟨region, hr, by omega⟩
  · rintro ⟨region, hr, hx⟩
    have := c.nonempty region hr
    exact ⟨region, hr, by omega⟩

theorem construct_valid (c : Config) : VMAMap.Valid c.construct.vmaMap := by
  refine ⟨⟨?_, ?_⟩, ?_, ?_⟩
  · intro e he
    obtain ⟨region, hr, rfl⟩ := List.mem_map.mp he
    have := c.nonempty region hr
    simp only [vmaKind_size, VirtualMemoryArea.ofRange]
    omega
  · refine List.pairwise_map.mpr (c.disjoint.imp_of_mem ?_)
    intro a b ha _ hab
    have := c.nonempty a ha
    simp only [vmaKind_size, VirtualMemoryArea.ofRange]
    omega
  · intro e he
    obtain ⟨region, hr, rfl⟩ := List.mem_map.mp he
    rfl
  · intro e he
    obtain ⟨region, hr, rfl⟩ := List.mem_map.mp he
    have := c.nonempty region hr
    have := c.bounded region hr
    simp only [VirtualMemoryArea.Bounded, VirtualMemoryArea.ofRange]
    omega

theorem Fresh.tiled (h : Fresh c s₀) : s₀.Tiled := by
  have hpos := h.direct_pos
  have hle := h.direct_le
  have hbound := c.memory_bounded
  refine ⟨h.vmaMap ▸ construct_valid c, ?_, ?_⟩
  · rw [h.dmemMap]
    refine Valid.singleton hpos rfl ?_
    simp only [PhysicalMemoryArea.Bounded]
    omega
  · rw [h.fmemMap]
    refine Valid.singleton ?_ rfl hbound
    simp [flexibleMemorySize, miB]

/-! ### Every run -/

/-- The nodes are keyed by their base, not empty, disjoint, and together cover exactly the
addresses with `P`. -/
structure TilesExactly {γ : Type} (base size : γ → ℕ) (m : List (ℕ × γ)) (P : ℕ → Prop) :
    Prop where
  keyed : ∀ e ∈ m, base e.2 = e.1
  nonempty : ∀ e ∈ m, 0 < size e.2
  disjoint : m.Pairwise fun e f => e.1 + size e.2 ≤ f.1
  union : ∀ x, (∃ e ∈ m, e.1 ≤ x ∧ x < e.1 + size e.2) ↔ P x

theorem KeepsMap.tilesExactly {γ : Type} {K : Segments Fault γ} {Wf : γ → Prop}
    {m m' : List (ℕ × γ)} {P : ℕ → Prop} (h : KeepsMap K Wf m m')
    (hP : ∀ x, Covers K.size m x ↔ P x) : TilesExactly K.base K.size m' P :=
  ⟨h.valid.keyed, h.valid.tiling.pos, h.valid.tiling.apart, fun x => (h.covers x).trans (hP x)⟩

theorem Operation.runAll_keeps {ops : List Operation} {s s' : MemoryManager} (ht : s.Tiled)
    (h : runAll ops s = .ok s') : s.Keeps s' := by
  induction ops generalizing s with
  | nil =>
    cases h
    exact .refl ht
  | cons op ops ih =>
    obtain ⟨⟨s₁, reply⟩, hop, h⟩ := bind_ok h
    have hk := op.run_keeps ht hop
    exact hk.trans (ih hk.tiled h)

/-- Whatever operations run, as long as all of them return, the virtual map tiles exactly the
usable regions, and the direct and flexible maps tile exactly their physical ranges. -/
theorem Operation.runAll_tiles (c : Config) {s₀ s : MemoryManager} (hboot : Boot c s₀)
    (ops : List Operation) (h : runAll ops s₀ = .ok s) :
    TilesExactly VirtualMemoryArea.base VirtualMemoryArea.size s.vmaMap
        (fun x => ∃ region ∈ c.regions, region.1 ≤ x ∧ x < region.2) ∧
      TilesExactly PhysicalMemoryArea.base PhysicalMemoryArea.size s.dmemMap
        (fun p => p < s.totalDirectSize) ∧
      TilesExactly PhysicalMemoryArea.base PhysicalMemoryArea.size s.fmemMap
        (fun p => c.directSize ≤ p ∧ p < c.directSize + flexibleMemorySize) := by
  have hfresh := hboot.fresh_state
  have hk := runAll_keeps hfresh.tiled h
  refine ⟨hk.vma.tilesExactly ?_, hk.dmem.tilesExactly ?_, hk.fmem.tilesExactly ?_⟩
  · intro x
    rw [hfresh.vmaMap, construct_covers]
  · intro p
    rw [hfresh.dmemMap, covers_singleton, hk.total]
    simp
  · intro p
    rw [hfresh.fmemMap]
    exact covers_singleton

theorem exists_of_isOk {ε α : Type} {x : Except ε α} (h : x.isOk = true) : ∃ a, x = .ok a := by
  cases x with
  | error e => cases h
  | ok a => exact ⟨a, rfl⟩

/-- Flexible memory that is partly unmapped, direct memory mapped at a fixed address and partly
released. -/
def Operation.mixedRun : List Operation :=
  [.mapMemory 0 0x8000 3 0 .flexible "heap" false 0xffffffffffffffff 0,
    .unmapMemory 0x200000000 0x4000,
    .allocate 0 0x10000000 0x8000 0 0,
    .mapMemory 0x200100000 0x8000 3 0x10 .direct "dmem" false 0 0,
    .free 0x4000 0x4000 false]

theorem Operation.runAll_tiles_mixedRun :
    ∃ s, runAll mixedRun Config.oneRegion.construct = .ok s ∧
      TilesExactly PhysicalMemoryArea.base PhysicalMemoryArea.size s.dmemMap
        (fun p => p < s.totalDirectSize) := by
  obtain ⟨s, hs⟩ := exists_of_isOk
    (by decide : (runAll mixedRun Config.oneRegion.construct).isOk = true)
  exact ⟨s, hs, (runAll_tiles Config.oneRegion .fresh mixedRun hs).2.1⟩

end PS4Droid.Memory
