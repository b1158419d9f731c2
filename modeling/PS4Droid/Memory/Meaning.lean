import PS4Droid.Memory.Labels

/-!
# What an address means, across cuts and merges

The meaning of an address is everything its area says about it: label, merge flag, backing byte and,
in a file mapping, the descriptor. Cutting keeps the meaning of every address. Merging keeps one
descriptor for two areas, and `CanMergeWith` does not look at descriptors.
-/

namespace PS4Droid.Memory

open OrderedMap IntervalMap Segments

structure Meaning where
  label : Label
  disallowMerge : Bool
  cell : Cell
  fd : Option ℤ
  deriving DecidableEq

def VirtualMemoryArea.meaning (v : VirtualMemoryArea) (off : ℕ) : Meaning :=
  ⟨v.label off, v.disallowMerge, v.cell off, if v.type = .file then some v.fd else none⟩

/-- `vmaKind`, with file mappings of different descriptors kept apart. -/
def fileKind : Segments Fault VirtualMemoryArea :=
  { vmaKind with
    canMerge := fun v w => (· && (v.type != .file || v.fd == w.fd)) <$> v.canMergeWith w }

section FileKind

variable {v w : VirtualMemoryArea}

theorem fileKind_canMerge :
    fileKind.canMerge v w = .ok true ↔ v.canMergeWith w = .ok true ∧
      (v.type = .file → v.fd = w.fd) := by
  cases h : v.canMergeWith w with
  | error e => simp [fileKind, h, Functor.map, Except.map]
  | ok b => simp [fileKind, h, Functor.map, Except.map, imp_iff_not_or]

theorem fileKind_stricter (h : fileKind.canMerge v w = .ok true) :
    vmaKind.canMerge v w = .ok true :=
  (fileKind_canMerge.mp h).1

theorem fileKind_sound : fileKind.Lawful VirtualMemoryArea.Sound where
  front_base := vmaKind_sound.front_base
  front_size := vmaKind_sound.front_size
  front_wf := vmaKind_sound.front_wf
  back_base := vmaKind_sound.back_base
  back_size := vmaKind_sound.back_size
  back_wf := vmaKind_sound.back_wf
  join_adjacent := fun hv hw h => vmaKind_sound.join_adjacent hv hw (fileKind_stricter h)
  join_base := fun _ _ _ => rfl
  join_size := fun hv hw h => vmaKind_sound.join_size hv hw (fileKind_stricter h)
  join_wf := fun hv hw h => vmaKind_sound.join_wf hv hw (fileKind_stricter h)

theorem canMergeWith_allowed (h : v.canMergeWith w = .ok true) :
    v.disallowMerge = w.disallowMerge := by
  rw [VirtualMemoryArea.canMergeWith] at h
  split_ifs at h with h₁ h₂
  · cases h
  · cases h
  · simp only [Bool.or_eq_true, not_or, Bool.not_eq_true] at h₁
    rw [h₁.1, h₁.2]

theorem fileKind_meaning :
    fileKind.LawfulView VirtualMemoryArea.Sound VirtualMemoryArea.meaning where
  front := by
    intro a c ha hc hs off hoff
    have hcell := vmaKind_cell.front ha hc hs off hoff
    have hlabel := vmaKind_label.front ha hc hs off hoff
    simp only [fileKind, VirtualMemoryArea.meaning, hcell, hlabel, Meaning.mk.injEq, true_and,
      vmaKind_front_type]
    simp only [vmaKind]
    split_ifs <;> simp
  back := by
    intro a c ha hc hs off hoff
    have hcell := vmaKind_cell.back ha hc hs off hoff
    have hlabel := vmaKind_label.back ha hc hs off hoff
    simp only [fileKind, VirtualMemoryArea.meaning, hcell, hlabel, Meaning.mk.injEq, true_and,
      vmaKind_back_type]
    simp only [vmaKind]
    split_ifs <;> simp
  join_left := by
    intro a b ha hb h off hoff
    have hcell := vmaKind_cell.join_left ha hb (fileKind_stricter h) off hoff
    simp only [VirtualMemoryArea.meaning, hcell]
    rfl
  join_right := by
    intro a b ha hb h off hoff
    have hcell := vmaKind_cell.join_right ha hb (fileKind_stricter h) off hoff
    have hlabel := vmaKind_label.join_right ha hb (fileKind_stricter h) off hoff
    obtain ⟨hm, hfd⟩ := fileKind_canMerge.mp h
    have htype := (vmaKind_canMerge_ok hm).2.1
    have hflag := canMergeWith_allowed hm
    change b.meaning off = (a.join b).meaning (a.size + off)
    change b.cell off = (a.join b).cell (a.size + off) at hcell
    change b.label off = (a.join b).label (a.size + off) at hlabel
    simp only [VirtualMemoryArea.meaning, hcell, hlabel, Meaning.mk.injEq, true_and]
    refine ⟨hflag.symm, ?_⟩
    rw [← htype]
    change _ = if a.type = .file then some a.fd else none
    split_ifs with hfile
    · rw [hfd hfile]
    · rfl

/-- For an area without direct backing the merge test reads nothing of the next area that joining
changes. -/
theorem canMergeWith_join {u : VirtualMemoryArea} (h : v.type ≠ .direct) :
    v.canMergeWith (w.join u) = v.canMergeWith w := by
  simp [VirtualMemoryArea.canMergeWith, VirtualMemoryArea.directBackingContinues,
    VirtualMemoryArea.join, h]

end FileKind

namespace VMAMap

variable {m m' l r : VMAMap} {addr size h h' k off : ℕ} {v : VirtualMemoryArea}
  {e f : ℕ × VirtualMemoryArea}

def meaningAt (m : VMAMap) (x : ℕ) : Option Meaning :=
  viewAt vmaKind.size VirtualMemoryArea.meaning m x

/-- No file mapping may merge with the area at `iter`, or the area at `iter` with it, across
different descriptors. -/
def FilesAgree (m : VMAMap) (iter : ℕ) : Prop :=
  ∀ e ∈ m, ∀ f ∈ m, e.1 = iter ∨ f.1 = iter → e.2.type = .file → e.2.canMergeWith f.2 = .ok true →
    e.2.fd = f.2.fd

theorem recut_meaning (h : fileKind.Recut VirtualMemoryArea.Sound m m') (x : ℕ) :
    meaningAt m' x = meaningAt m x :=
  h.viewAt_eq fileKind_sound fileKind_meaning x

theorem carveVMA_meaning (hv : SoundMap m) (hmem : (k, v) ∈ m) (hp : Part k v.size addr size) :
    ∃ m', carveVMA m addr size = .ok (m', addr) ∧ ∀ x, meaningAt m' x = meaningAt m x := by
  obtain ⟨l, r, ha⟩ := hv.sorted.around hmem
  refine ⟨_, carveVMA_ok vmaKind_sound (fun _ h => h.bounded) hv ha hp, fun x => ?_⟩
  have hpos := hp.pos
  have hstart := hp.start
  have hstop := hp.stop
  have hrecut := carve_recut fileKind_sound (hv.wf _ ha.mem) (hv.keyed _ ha.mem)
    (show addr - k < addr - k + size by omega) (show addr - k + size ≤ v.size by omega) l r
  rw [show k + (addr - k) = addr by omega, ← ha.eq] at hrecut
  exact recut_meaning hrecut x

theorem split_meaning (hv : SoundMap m) (hmem : (k, v) ∈ m) (hpos : 0 < off) (hlt : off < v.size) :
    ∃ m', split m k off = .ok (m', k + off) ∧ ∀ x, meaningAt m' x = meaningAt m x := by
  obtain ⟨l, r, ha⟩ := hv.sorted.around hmem
  have hsplit := split_eq vmaKind_sound hv ha off
  rw [if_pos ⟨hlt, hpos⟩] at hsplit
  refine ⟨_, hsplit, fun x => ?_⟩
  have hcut := Recut.cut (K := fileKind) l r (hv.wf _ ha.mem) (hv.keyed _ ha.mem) hpos hlt
  rw [show l ++ [(k, v)] ++ r = m by simp [ha.eq]] at hcut
  exact recut_meaning hcut x

/-! ### Merging -/

theorem following (hv : SoundMap m) (he : e ∈ m) (hf : f ∈ m)
    (h : e.2.canMergeWith f.2 = .ok true) :
    f.1 = e.1 + e.2.size := by
  have hadj := vmaKind_sound.join_adjacent (hv.wf e he) (hv.wf f hf) h
  rw [hv.keyed e he, hv.keyed f hf] at hadj
  exact hadj.symm

/-- An area that another one may merge with stands right behind it. -/
theorem around_following (hv : SoundMap m) (he : e ∈ m) (hf : f ∈ m)
    (h : e.2.canMergeWith f.2 = .ok true) :
    ∃ l r, Around m l e (f :: r) := by
  have hkey := following hv he hf h
  have hpos : 0 < e.2.size := hv.tiling.pos e he
  obtain ⟨l, r, ha⟩ := hv.sorted.around he
  have hr : f ∈ r := by
    rw [ha.eq] at hf
    rcases List.mem_append.mp hf with hf | hf
    · have := ha.left f hf
      omega
    · refine (List.mem_cons.mp hf).resolve_left fun heq => ?_
      rw [heq] at hkey
      omega
  have hv' : SoundMap (l ++ e :: r) := ha.eq ▸ hv
  cases r with
  | nil => cases hr
  | cons n r =>
    have hn : e.1 + e.2.size ≤ n.1 := (List.pairwise_cons.mp hv'.tiling.right.apart).1 n (by simp)
    rcases List.mem_cons.mp hr with rfl | hr
    · exact ⟨l, r, ha⟩
    · have hlater := (List.pairwise_cons.mp (List.pairwise_cons.mp hv'.tiling.right.apart).2).1 f hr
      have hnpos : 0 < n.2.size := hv'.tiling.pos n (by simp)
      simp only [vmaKind_size] at hlater
      omega

/-- A merge lets no area start between the area of the handle and one it may merge with. -/
theorem merge_absorbs (hv : SoundMap m) (he : e ∈ m) (hf : f ∈ m) (hh : e.1 = h ∨ f.1 = h)
    (hfile : e.2.type = .file)
    (hc : e.2.canMergeWith f.2 = .ok true) (hm : mergeAdjacent m h = .ok (m', h')) :
    ∀ g ∈ m', g.1 ≠ f.1 := by
  obtain ⟨l, r, ha⟩ := around_following hv he hf hc
  rcases hh with rfl | rfl
  · exact mergeAdjacent_next_gone hv.sorted ha hc hm
  · refine mergeAdjacent_gone hv.sorted (ha.succ hv.sorted) (fun a' r' habs => ?_) hm
    cases habs with
    | keep => exact hc
    | absorb _ u _ _ => exact (canMergeWith_join (by simp [hfile])).trans hc

theorem meaningAt_mem (hv : SoundMap m) (he : e ∈ m) {x : ℕ} (hx : e.1 ≤ x ∧ x < e.1 + e.2.size) :
    meaningAt m x = some (e.2.meaning (x - e.1)) :=
  viewAt_eq _ hv.tiling he hx

/-- When a merge keeps every meaning, the areas it merged had one descriptor. -/
theorem filesAgree_of_meaning (hv : SoundMap m) (hm : mergeAdjacent m h = .ok (m', h'))
    (hsame : ∀ x, meaningAt m' x = meaningAt m x) : FilesAgree m h := by
  intro e he f hf hh hfile hc
  have hkey := following hv he hf hc
  have hpos : 0 < e.2.size := hv.tiling.pos e he
  have hpos' : 0 < f.2.size := hv.tiling.pos f hf
  have hrecut := mergeAdjacent_recut vmaKind_sound hv hm
  have hv' : SoundMap m' := hrecut.valid vmaKind_sound hv
  -- The area that holds the first byte of `f` does not start there, so it holds the last byte of
  -- `e` too.
  obtain ⟨g, hg, hin⟩ :=
    (hrecut.covers vmaKind_sound f.1).mpr ⟨f, hf, by simp only [Within, vmaKind_size]; omega⟩
  have hne := merge_absorbs hv he hf hh hfile hc hm g hg
  simp only [Within, vmaKind_size] at hin
  have hfirst := hsame f.1
  have hlast := hsame (f.1 - 1)
  rw [meaningAt_mem hv' hg hin, meaningAt_mem hv hf (by omega), Option.some.injEq] at hfirst
  rw [meaningAt_mem hv' hg (by omega), meaningAt_mem hv he (by omega), Option.some.injEq] at hlast
  have htype : f.2.type = .file := (vmaKind_canMerge_ok hc).2.1 ▸ hfile
  have hfd := congrArg Meaning.fd hfirst
  have hfd' := congrArg Meaning.fd hlast
  simp only [VirtualMemoryArea.meaning, hfile, htype, ↓reduceIte] at hfd hfd'
  exact Option.some.inj (hfd'.symm.trans hfd)

theorem absorbsNext_fileKind {b : VirtualMemoryArea} {r' : VMAMap}
    (hn : AbsorbsNext vmaKind v r b r')
    (hfd : ∀ f ∈ r, v.type = .file → v.canMergeWith f.2 = .ok true → v.fd = f.2.fd) :
    AbsorbsNext fileKind v r b r' := by
  cases hn with
  | keep => exact .keep _
  | absorb k w _ hc =>
      exact .absorb k w _ (fileKind_canMerge.mpr ⟨hc, fun hfile => hfd (k, w) (by simp) hfile hc⟩)

theorem merge_meaning (hv : SoundMap m) (hm : mergeAdjacent m h = .ok (m', h')) (hmem : (h, v) ∈ m)
    (hagree : FilesAgree m h) (x : ℕ) : meaningAt m' x = meaningAt m x := by
  obtain ⟨l, r, ha⟩ := hv.sorted.around hmem
  obtain ⟨l', b, a', r', ha', hnext, hprev⟩ := mergeAdjacent_shape hv.sorted ha hm
  have hfile : fileKind.Valid VirtualMemoryArea.Sound (l ++ (h, v) :: r) := by
    rw [← ha.eq]
    exact ⟨hv.tiling, hv.keyed, hv.wf⟩
  have hnext' : AbsorbsNext fileKind v r b r' :=
    absorbsNext_fileKind hnext fun f hf => hagree (h, v) hmem f (by simp [ha.eq, hf]) (.inl rfl)
  have hprev' : AbsorbsPrev fileKind h b l l' h' a' := by
    cases hprev with
    | keep => exact .keep _
    | absorb l' k w hc =>
      refine .absorb _ _ _ (fileKind_canMerge.mpr ⟨hc, fun hw => ?_⟩)
      have hmem' : (h', w) ∈ m := by simp [ha.eq]
      cases hnext with
      | keep => exact hagree _ hmem' _ hmem (.inr rfl) hw hc
      | absorb _ u _ _ =>
        exact hagree _ hmem' _ hmem (.inr rfl) hw ((canMergeWith_join (by simp [hw])).symm.trans hc)
  have hrecut := hnext'.recut hfile
  rw [ha'.eq, ha.eq]
  exact recut_meaning (hrecut.trans (hprev'.recut (hrecut.valid fileKind_sound hfile))) x

/-- Carving and splitting keep the meaning of every address. Merging does exactly when no file
mapping merges with one of another descriptor. -/
theorem carve_split_merge_meaning (hv : SoundMap m) :
    (∀ k v addr size, (k, v) ∈ m → Part k v.size addr size →
      ∃ m', carveVMA m addr size = .ok (m', addr) ∧ ∀ x, meaningAt m' x = meaningAt m x) ∧
    (∀ k v off, (k, v) ∈ m → 0 < off → off < v.size →
      ∃ m', split m k off = .ok (m', k + off) ∧ ∀ x, meaningAt m' x = meaningAt m x) ∧
    ∀ h v, (h, v) ∈ m →
      ∃ m' h', mergeAdjacent m h = .ok (m', h') ∧
        ((∀ x, meaningAt m' x = meaningAt m x) ↔ FilesAgree m h) := by
  refine ⟨fun k v addr size => carveVMA_meaning hv, fun k v off => split_meaning hv,
    fun h v hmem => ?_⟩
  obtain ⟨l, r, ha⟩ := hv.sorted.around hmem
  obtain ⟨m', h', hm⟩ := mergeAdjacent_ok vmaKind_sound hv ha fun _ _ => vmaKind_canMerge_total
  exact ⟨m', h', hm, filesAgree_of_meaning hv hm, fun hagree x => merge_meaning hv hm hmem hagree x⟩

/-- Two file mappings that touch, of one name and protection. -/
def twoFiles (fd : ℤ) : VMAMap :=
  let file (base : ℕ) (fd : ℤ) : VirtualMemoryArea :=
    { VirtualMemoryArea.ofRange base 0x4000 with
      type := .file, prot := MemoryProt.cpuRead, name := "anon", fd }
  [(0x4000, file 0x4000 3), (0x8000, file 0x8000 fd)]

theorem twoFiles_sound {fd : ℤ} (hfd : fd = 3 ∨ fd = 4) : SoundMap (twoFiles fd) := by
  rcases hfd with rfl | rfl
  all_goals
    refine ⟨⟨by decide, by decide⟩, by decide, fun e he => ?_⟩
    simp only [twoFiles, List.mem_cons, List.not_mem_nil, or_false] at he
    rcases he with rfl | rfl
    all_goals exact ⟨by simp [VirtualMemoryArea.Bounded, VirtualMemoryArea.ofRange], by decide,
      fun h => absurd h (by decide), fun _ => rfl⟩

theorem merge_loses_descriptor :
    SoundMap (twoFiles 4) ∧ (mergeAdjacent (twoFiles 4) 0x4000).toOption.map
      (fun r => (meaningAt r.1 0x8000).map Meaning.fd) =
      some (some (some 3)) ∧ (meaningAt (twoFiles 4) 0x8000).map Meaning.fd = some (some 4) :=
  ⟨twoFiles_sound (.inr rfl), by decide, by decide⟩

theorem carve_split_merge_meaning_sample :
    ∃ m' h', mergeAdjacent (twoFiles 3) 0x4000 = .ok (m', h') ∧
      ∀ x, meaningAt m' x = meaningAt (twoFiles 3) x := by
  obtain ⟨m', h', hm, hiff⟩ :=
    (carve_split_merge_meaning (twoFiles_sound (.inl rfl))).2.2 0x4000 _ (List.mem_cons_self ..)
  refine ⟨m', h', hm, hiff.mpr fun e he f hf _ _ _ => ?_⟩
  have hfd : ∀ g ∈ twoFiles 3, g.2.fd = 3 := by decide
  rw [hfd e he, hfd f hf]

end VMAMap

end PS4Droid.Memory
