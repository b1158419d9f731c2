import PS4Droid.Memory.Runs

/-!
# The types of direct bytes

How the effects of the operations change the type of a single direct byte, and
which bytes a release may free.
-/

namespace PS4Droid.Memory

open OrderedMap IntervalMap Segments

namespace MemoryManager

variable {s s' : MemoryManager} {p x addr size : ℕ} {d : PhysicalMemoryType} {R : ℕ → Prop}

theorem typeAt_of_dmemAt {u : ℤ} (h : s.dmemAt p = some (u, d)) :
    s.typeAt p = some d := by
  rw [typeAt, h]
  rfl

theorem typeAt_eq_some :
    s.typeAt p = some d ↔ ∃ u, s.dmemAt p = some (u, d) := by
  simp [typeAt]

theorem typeAt_retag {t : PhysicalMemoryType}
    (h : s'.dmemAt p = (s.dmemAt p).map (retag t)) : s'.typeAt p = (s.typeAt p).map fun _ => t := by
  rw [typeAt, h, typeAt, Option.map_map, Option.map_map]
  rfl

theorem typeAt_congr (h : s'.dmemAt p = s.dmemAt p) : s'.typeAt p = s.typeAt p := by
  rw [typeAt, h, typeAt]

theorem finite_typed (s : MemoryManager) (d : PhysicalMemoryType) :
    {p | s.typeAt p = some d}.Finite := by
  refine (finite_covers physKind.size s.dmemMap).subset fun p hp => ?_
  obtain ⟨u, hu⟩ := typeAt_eq_some.mp hp
  exact attributesAt_isSome_iff.mp (Option.isSome_iff_exists.mpr ⟨_, hu⟩)

theorem Unmaps.typeAt (hu : Unmaps s R s') (p : ℕ) :
    s'.typeAt p = s.typeAt p ∧ ¬ s.Backs R .direct p ∨
      s'.typeAt p = (s.typeAt p).map (fun _ => .allocated) ∧ s.Backs R .direct p := by
  by_cases hb : s.Backs R .direct p
  · exact .inr ⟨typeAt_retag (hu.dmem_in p hb), hb⟩
  · exact .inl ⟨typeAt_congr (hu.dmem_out p hb), hb⟩

theorem Unmaps.cell_cases (hu : Unmaps s R s') {t : VMAType} {b : Option ℕ}
    (ht : t ≠ .free) (hc : s'.cellAt x = some ⟨t, b⟩) : ¬ R x ∧ s.cellAt x = some ⟨t, b⟩ := by
  by_cases hx : R x
  · rw [hu.cell_in x hx] at hc
    simp only [Option.some.injEq, Cell.mk.injEq] at hc
    exact absurd hc.1.symm ht
  · exact ⟨hx, (hu.cell_out x hx).symm.trans hc⟩

/-- A range of allocated memory stays allocated while other addresses are unmapped. -/
theorem Cleared.allocated {flags : UInt32} (hc : Cleared s addr size flags s')
    (h : ∀ d, s.typeAt p = some d → d = .allocated ∨ d = .mapped) :
    ∀ d, s'.typeAt p = some d → d = .allocated ∨ d = .mapped := by
  rcases hc with ⟨-, hu⟩ | ⟨-, rfl⟩
  · rcases hu.typeAt p with ⟨heq, -⟩ | ⟨heq, -⟩
    · rwa [heq]
    · intro d hd
      rw [heq] at hd
      obtain ⟨_, -, rfl⟩ := Option.map_eq_some_iff.mp hd
      exact .inl rfl
  · exact h

theorem TakesFree.typeAt {t : ℤ × PhysicalMemoryType} {m : PhysMap}
    (ht : TakesFree t s addr size m) (hm : s'.dmemMap = m) (p : ℕ) :
    (addr ≤ p ∧ p < addr + size) ∧ s.typeAt p = some .free ∧ s'.typeAt p = some t.2 ∨
      ¬ (addr ≤ p ∧ p < addr + size) ∧ s'.typeAt p = s.typeAt p := by
  have hattr := ht.changed.attributes p
  by_cases hp : addr ≤ p ∧ p < addr + size
  · obtain ⟨u, hu⟩ := ht.free p hp
    refine .inl ⟨hp, typeAt_of_dmemAt hu, typeAt_of_dmemAt (u := t.1) ?_⟩
    rw [if_pos hp] at hattr
    have hu' : s.dmemMap.attributesAt p = some (u, .free) := hu
    rw [dmemAt, hm, hattr, hu']
    rfl
  · rw [if_neg hp] at hattr
    exact .inr ⟨hp, typeAt_congr (by rw [dmemAt, hm, hattr]; rfl)⟩

/-- The bytes that a release may free: those of the range, and all behind it when a free byte in
the range is skipped without being counted. -/
def MayFree (s : MemoryManager) (physAddr size p : ℕ) : Prop :=
  physAddr ≤ p ∧ (p < physAddr + size ∨ s.HasHole physAddr size)

/-- Every direct mapping of a byte that a release may free is one that it unmaps. -/
def ReleaseUnmaps (s : MemoryManager) (physAddr size : ℕ) : Prop :=
  ∀ x p, s.cellAt x = some ⟨.direct, some p⟩ → s.MayFree physAddr size p →
    physAddr + size < 2 ^ 64 ∧ p < physAddr + size

theorem Frees.unmapped {physAddr : ℕ} {isChecked : Bool} {s₁ : MemoryManager} {F : ℕ → Prop}
    (hs : s.Sound) (hf : Frees s physAddr size isChecked s₁ F s')
    (hr : s.ReleaseUnmaps physAddr size) (hp : F p) : s₁.cellAt x ≠ some ⟨.direct, some p⟩ := by
  intro hx
  obtain ⟨hxR, hx⟩ := hf.unmaps.cell_cases (by simp) hx
  obtain ⟨hle, hmay, -⟩ := hf.released p hp
  obtain ⟨hwrap, hlt⟩ := hr x p hx ⟨hle, hmay⟩
  exact hxR (removeList_complete hs hwrap ⟨hle, hlt⟩ hx)

end MemoryManager

theorem Fresh.type_free {c : Config} {s : MemoryManager} {p : ℕ} {d : PhysicalMemoryType}
    (h : Fresh c s) (hd : s.typeAt p = some d) : d = .free := by
  obtain ⟨u, hu⟩ := MemoryManager.typeAt_eq_some.mp hd
  obtain ⟨e, he, -, heq⟩ := IntervalMap.viewAt_eq_some hu
  rw [h.dmemMap] at he
  obtain rfl := List.mem_singleton.mp he
  cases heq
  rfl

end PS4Droid.Memory
