import PS4Droid.Memory.Attributes

/-!
# Labels of addresses

The label of an address is what its area says about it besides the backing: type, protection and
name. Operations that change labels over a range do so area by area, with areas split and merged
behind them.
-/

namespace PS4Droid.Memory

open OrderedMap IntervalMap Segments

structure Label where
  type : VMAType
  prot : UInt32
  name : String
  deriving DecidableEq

def VirtualMemoryArea.label (v : VirtualMemoryArea) (_off : ℕ) : Label := ⟨v.type, v.prot, v.name⟩

theorem vmaKind_label : vmaKind.LawfulView VirtualMemoryArea.Sound VirtualMemoryArea.label where
  front := by
    intro a c _ _ _ off _
    simp only [vmaKind, VirtualMemoryArea.label]
    split_ifs <;> rfl
  back := by
    intro a c _ _ _ off _
    simp only [vmaKind, VirtualMemoryArea.label]
    split_ifs <;> rfl
  join_left := fun _ _ _ _ _ => rfl
  join_right := by
    intro a b _ _ hm off _
    obtain ⟨-, htype, hprot, hname⟩ := vmaKind_canMerge_ok hm
    simp only [VirtualMemoryArea.label, Label.mk.injEq]
    exact ⟨htype.symm, hprot.symm, hname.symm⟩

namespace VMAMap

variable {m m' m₁ l r : VMAMap} {addr size n h k : ℕ} {v : VirtualMemoryArea}
  {f : VirtualMemoryArea → VirtualMemoryArea} {g : Label → Label}

def labelAt (m : VMAMap) (x : ℕ) : Option Label := viewAt vmaKind.size VirtualMemoryArea.label m x

variable {x : ℕ}

theorem labelAt_mem (hv : SoundMap m) {e : ℕ × VirtualMemoryArea} (he : e ∈ m)
    (hx : e.1 ≤ x ∧ x < e.1 + e.2.size) : labelAt m x = some (e.2.label 0) :=
  viewAt_eq _ hv.tiling he hx

theorem labelAt_some {label : Label} (h : labelAt m x = some label) :
    ∃ e ∈ m, (e.1 ≤ x ∧ x < e.1 + e.2.size) ∧ e.2.label 0 = label :=
  viewAt_eq_some h

theorem labelAt_type (m : VMAMap) (x : ℕ) :
    (m.labelAt x).map Label.type = (m.cellAt x).map Cell.type := by
  rw [labelAt, cellAt, viewAt, viewAt, Option.map_map, Option.map_map]
  rfl

theorem labelAt_isSome (m : VMAMap) (x : ℕ) : (m.labelAt x).isSome = (m.cellAt x).isSome := by
  have := congrArg Option.isSome (labelAt_type m x)
  rwa [Option.isSome_map, Option.isSome_map] at this

/-- The labels of `[addr, addr + size)` have been changed by `g`. -/
structure Relabels (m : VMAMap) (addr size : ℕ) (g : Label → Label) (m' : VMAMap) : Prop where
  sound : SoundMap m'
  labels : ∀ x, m'.labelAt x = if addr ≤ x ∧ x < addr + size then (m.labelAt x).map g
    else m.labelAt x

theorem Relabels.nil (hv : SoundMap m) (addr : ℕ) (g : Label → Label) : Relabels m addr 0 g m :=
  ⟨hv, fun x => by rw [if_neg (by omega)]⟩

theorem Relabels.append {n' : ℕ} (h₁ : Relabels m addr n g m₁)
    (h₂ : Relabels m₁ (addr + n) n' g m') :
    Relabels m addr (n + n') g m' := by
  refine ⟨h₂.sound, fun x => ?_⟩
  rw [h₂.labels, h₁.labels]
  by_cases hx : addr ≤ x ∧ x < addr + n
  · rw [if_neg (by omega), if_pos hx, if_pos (by omega)]
  · rw [if_neg hx]
    by_cases hx' : addr + n ≤ x ∧ x < addr + n + n'
    · rw [if_pos hx', if_pos (by omega)]
    · rw [if_neg hx', if_neg (by omega)]

theorem Relabels.covers (h : Relabels m addr size g m') (x : ℕ) :
    (m'.labelAt x).isSome = (m.labelAt x).isSome := by
  rw [h.labels]
  split_ifs
  · exact Option.isSome_map
  · rfl

theorem Relabels.of_recut (h : Relabels m addr size g m₁)
    (hr : vmaKind.Recut VirtualMemoryArea.Sound m₁ m') :
    Relabels m addr size g m' :=
  ⟨hr.valid vmaKind_sound h.sound,
    fun x => (hr.viewAt_eq vmaKind_sound vmaKind_label x).trans (h.labels x)⟩

theorem Relabels.merge {h' : ℕ} (hr : Relabels m addr size g m₁)
    (hm : mergeAdjacent m₁ h = .ok (m', h')) :
    Relabels m addr size g m' :=
  hr.of_recut (mergeAdjacent_recut vmaKind_sound hr.sound hm)

theorem rewritten_relabels (hv : SoundMap m) {a : VirtualMemoryArea}
    (h : Rewritten vmaKind VirtualMemoryArea.Sound m addr size a (f a) m')
    (hg : (f a).label 0 = g (a.label 0)) : Relabels m addr size g m' := by
  refine ⟨h.valid vmaKind_sound hv, fun x => ?_⟩
  rw [labelAt, h.viewAt_new vmaKind_sound vmaKind_label hv]
  split_ifs with hx
  · rw [labelAt, h.viewAt_old vmaKind_sound vmaKind_label hv hx, Option.map_some]
    exact congrArg some hg
  · rfl

/-- The label of a carved part is that of the area it was carved from. -/
theorem carved_label (hv : SoundMap m) (ha : Around m l (k, v) r) (hp : Part k v.size addr size) :
    (carved k v addr size).label 0 = v.label 0 := by
  have hrw := changed_rewritten (f := id) vmaKind_sound hv ⟨fun _ => rfl, fun _ => rfl⟩ ha hp
    (carved_extent vmaKind_sound hv ha hp).2.2
  have hpos := hp.pos
  have hstart := hp.start
  have hstop := hp.stop
  have hold := hrw.viewAt_old vmaKind_sound vmaKind_label hv (x := addr) (by omega)
  have hlabel := labelAt_mem hv ha.mem (x := addr) (by simp only; omega)
  rw [labelAt, hold] at hlabel
  exact Option.some.inj hlabel

/-- `f` changes the labels of the areas that `[addr, addr + size)` is a part of by `g`. -/
def Labels (m : VMAMap) (addr size : ℕ) (f : VirtualMemoryArea → VirtualMemoryArea)
    (g : Label → Label) : Prop :=
  ∀ k v a, (k, v) ∈ m → Part k v.size addr size → a.label 0 = v.label 0 →
    (f a).label 0 = g (a.label 0)

theorem carveWith_relabels (hv : SoundMap m) (haddr : addr < 2 ^ 64) (hsize : size < 2 ^ 64)
    (hc : carveWith m addr size f = .ok (m', h)) (hf : Reattributes f)
    (hw : ∀ v : VirtualMemoryArea, v.Sound → (f v).Sound) (hg : Labels m addr size f g) :
    h = addr ∧ Relabels m addr size g m' ∧ ∃ a, a.size = size ∧ (addr, a) ∈ m' := by
  obtain ⟨rfl, l, k, v, r, ha, hp, rfl⟩ :=
    carveWith_shape vmaKind_sound (fun _ h => h.bounded) hv haddr hsize hc
  obtain ⟨-, hsz, hsound⟩ := carved_extent vmaKind_sound hv ha hp
  refine ⟨rfl, rewritten_relabels hv (changed_rewritten vmaKind_sound hv hf ha hp (hw _ hsound))
    (hg k v _ ha.mem hp (carved_label hv ha hp)), f (carved k v h size), (hf.size_eq _).trans hsz,
      ?_⟩
  simp [changed]

theorem retype_relabels (hv : SoundMap m) (haddr : addr < 2 ^ 64) (hsize : size < 2 ^ 64)
    (hr : retype m addr size f = .ok m') (hf : Reattributes f)
    (hw : ∀ v : VirtualMemoryArea, v.Sound → (f v).Sound) (hg : Labels m addr size f g) :
    Relabels m addr size g m' := by
  obtain ⟨⟨m₁, h₁⟩, hc, hr⟩ := bind_ok hr
  obtain ⟨⟨m₂, h₂⟩, hm, rfl⟩ := map_ok hr
  exact (carveWith_relabels hv haddr hsize hc hf hw hg).2.1.merge hm

theorem part_unique (hv : SoundMap m) {w : VirtualMemoryArea} {k' : ℕ} (hmem : (k, v) ∈ m)
    (hmem' : (k', w) ∈ m)
    (hp : Part k' w.size addr size) (hin : k ≤ addr ∧ addr < k + v.size) : (k', w) = (k, v) := by
  have hpos := hp.pos
  have hstart := hp.start
  have hstop := hp.stop
  exact within_unique hv.tiling hmem' hmem (x := addr)
    (by simp only [Within, vmaKind_size]; omega) hin

theorem deref_get? (hv : SoundMap m) (hmem : (h, v) ∈ m) : deref (get? m h) = .ok v := by
  rw [get?_eq_some_of_mem hv.sorted hmem, deref]

theorem assign_relabels (hv : SoundMap m) (hd : deref (get? m h) = .ok v) (hf : Reattributes f)
    (hw : (f v).Sound) (hg : (f v).label 0 = g (v.label 0)) :
    Relabels m h v.size g (assign m h (f v)) := by
  obtain ⟨l, r, ha⟩ := deref_get?_around hv.sorted hd
  have hassign := ha.assign (f v)
  simp only at hassign
  have hv' : SoundMap (l ++ (h, v) :: r) := ha.eq ▸ hv
  rw [hassign]
  refine ⟨hv'.rewrite (hf.base_eq v) (hf.size_eq v) hw, fun x => ?_⟩
  rw [labelAt, viewAt_rewrite hv' (hf.size_eq v), vmaKind_size]
  by_cases hx : h ≤ x ∧ x < h + v.size
  · rw [if_pos hx, if_pos hx, labelAt_mem hv ha.mem hx, Option.map_some]
    exact congrArg some hg
  · rw [if_neg hx, if_neg hx, labelAt, ha.eq]

/-- The area at a handle after merging contains the area that was merged. -/
theorem merge_extent (hv : SoundMap m) {h' : ℕ} (hmem : (h, v) ∈ m)
    (hm : mergeAdjacent m h = .ok (m', h')) :
    ∃ b, (h', b) ∈ m' ∧ h' ≤ h ∧ h + v.size ≤ h' + b.size := by
  obtain ⟨l, r, ha⟩ := hv.sorted.around hmem
  obtain ⟨l', b, a', r', ha', hnext, hprev⟩ := mergeAdjacent_shape hv.sorted ha hm
  have hv₁ : SoundMap (l ++ (h, v) :: r) := ha.eq ▸ hv
  have hv₂ : SoundMap (l ++ (h, b) :: r') := (hnext.recut hv₁).valid vmaKind_sound hv₁
  have hb : v.size ≤ b.size := by
    cases hnext with
    | keep => exact le_rfl
    | absorb k w _ hc =>
      have := vmaKind_sound.join_size (hv₁.wf (h, v) (by simp)) (hv₁.wf (k, w) (by simp)) hc
      simp only [vmaKind_size] at this
      omega
  refine ⟨a', ha'.mem, ?_⟩
  cases hprev with
  | keep => exact ⟨le_rfl, by omega⟩
  | absorb _ k w hc =>
    have hw := hv₂.wf (h', w) (by simp)
    have hwb := hv₂.wf (h, b) (by simp)
    have hjoin := vmaKind_sound.join_size hw hwb hc
    have hadj := vmaKind_sound.join_adjacent hw hwb hc
    have hk := hv₂.keyed (h', w) (by simp)
    have hk' := hv₂.keyed (h, b) (by simp)
    simp only [vmaKind_size, vmaKind_base] at hjoin hadj hk hk'
    omega

end VMAMap

namespace MemoryManager

variable {m : VMAMap} {addr h : ℕ} {v : VirtualMemoryArea} {handle : Option ℕ}

/-- From the area that the walk ends in, the next handle is that of the area of the next address. -/
theorem stepHandle_spec (hv : VMAMap.SoundMap m) (hmem : (h, v) ∈ m) (hle : h ≤ addr)
    (hend : addr ≤ h + v.size)
    (hcov : (m.labelAt addr).isSome) (hstep : stepHandle m h addr = .ok handle) :
    ∃ k w, handle = some k ∧ (k, w) ∈ m ∧ k ≤ addr ∧ addr < k + w.size := by
  obtain ⟨w, hd, hstep⟩ := bind_ok hstep
  obtain ⟨l, r, ha⟩ := hv.sorted.around hmem
  rw [VMAMap.deref_get? hv hmem] at hd
  cases hd
  have hbase : v.base = h := hv.keyed _ hmem
  have hbound : v.base + v.size < 2 ^ 64 := (hv.wf _ hmem).bounded
  simp only [hbase] at hbound hstep
  rw [add64_eq hbound] at hstep
  split_ifs at hstep with hdone
  · obtain ⟨label, hlabel⟩ := Option.isSome_iff_exists.mp hcov
    obtain ⟨⟨k, w⟩, he, hx, -⟩ := VMAMap.labelAt_some hlabel
    have hv' : VMAMap.SoundMap (l ++ (h, v) :: r) := ha.eq ▸ hv
    have hpos : 0 < v.size := hv.tiling.pos _ hmem
    have hr : (k, w) ∈ r := by
      rw [ha.eq] at he
      rcases List.mem_append.mp he with he | he
      · have : k + w.size ≤ h := hv'.tiling.mem_left_lt he (by simp : (h, v) ∈ (h, v) :: r)
        simp only at hx
        omega
      · refine (List.mem_cons.mp he).resolve_left fun heq => ?_
        cases heq
        simp only at hx
        omega
    have hnext := ha.next
    simp only at hnext
    rw [hnext] at hstep
    cases r with
    | nil => cases hr
    | cons f r =>
      cases hstep
      have hbehind : ∀ e ∈ f :: r, h + v.size ≤ e.1 :=
        (List.pairwise_cons.mp hv'.tiling.right.apart).1
      have hf := hbehind f (by simp)
      rcases List.mem_cons.mp hr with rfl | hr
      · exact ⟨k, w, rfl, he, hx.1, hx.2⟩
      · have hlater : ∀ e ∈ r, f.1 < e.1 :=
          (List.pairwise_cons.mp
            (List.pairwise_cons.mp (List.pairwise_append.mp hv'.sorted).2.1).2).1
        have := hlater _ hr
        simp only at hx this
        omega
  · cases hstep
    exact ⟨h, v, rfl, hmem, hle, by omega⟩

end MemoryManager

end PS4Droid.Memory
