import PS4Droid.Libc.ArenaInvariant

/-!
# Coalesced free blocks

Since the free blocks are in order and never touch, the live allocations determine them: an arena
keeps no trace of how it came to its allocations, and freeing what a call has just handed out undoes
the call.
-/

namespace PS4Droid.Libc

open OrderedMap

namespace Arena

variable {a a' : Arena}

/-- An offset is free if it lies in the arena and no allocation has its address. -/
theorem Sound.free_iff (h : a.Sound) (x : ℕ) :
    Separate.Has Prod.fst (fun e => e.1 + e.2) a.freeBlocks x ↔
      x < a.capacity ∧ ∀ f ∈ a.allocations, ¬ InBlock f (a.base + x) := by
  have hcovers := h.freeList.partition.covers (a.base + x)
  have happart := (List.pairwise_append.mp h.freeList.partition.apart).2.2
  constructor
  · rintro ⟨e, he, hle, hlt⟩
    simp only at hlt
    have hin : InBlock (shift a.base e) (a.base + x) := by
      simp only [InBlock, shift]
      omega
    refine ⟨?_, fun f hf hin' => ?_⟩
    · have := hcovers.mp ⟨_, List.mem_append_left _ (shift_mem he), hin⟩
      omega
    · have := happart _ (shift_mem he) f hf
      simp only [Apart, InBlock] at this hin hin'
      omega
  · rintro ⟨hlt, hnone⟩
    obtain ⟨b, hb, hin⟩ := hcovers.mpr ⟨by omega, by omega⟩
    rcases List.mem_append.mp hb with hb | hb
    · obtain ⟨e, he, rfl⟩ := List.mem_map.mp hb
      simp only [InBlock, shift] at hin
      exact ⟨e, he, by omega, by simp only; omega⟩
    · exact absurd hin (hnone b hb)

theorem Sound.separate (h : a.Sound) : Separate Prod.fst (fun e => e.1 + e.2) a.freeBlocks where
  pos e he := Nat.lt_add_of_pos_right (pos_of_mem h.freeList.partition he)
  ordered := by
    refine List.Pairwise.imp_of_mem (fun {e f} he hf hlt => ?_) h.freeList.sorted
    have hpos := pos_of_mem h.freeList.partition hf
    have happart := apart_of_key_ne h.freeList.partition he hf hlt.ne
    have hne := h.freeList.nonAdjacent e he f hf
    omega

theorem Sound.eq_of_allocated (h : a.Sound) (h' : Kept a a')
    (hall : a'.allocations = a.allocations) : a' = a := by
  have hfree : a'.freeBlocks = a.freeBlocks := by
    refine Separate.eq_of_has (fun e f hstart hstop => ?_) h'.sound.separate h.separate fun x => ?_
    · exact Prod.ext hstart (by omega)
    · rw [h.free_iff, h'.sound.free_iff, h'.base, h'.capacity, hall]
  cases a
  cases a'
  obtain ⟨-, hbase, hcapacity⟩ := h'
  simp only at hbase hcapacity hall hfree
  rw [hbase, hcapacity, hall, hfree]

end Arena

variable {base capacity flags : ℕ} {a a' : Arena}

/-- Two runs that end with the same allocations end in the same arena. -/
theorem Reachable.eq_of_allocations (haccept : acceptsRange base capacity flags)
    (hreach : Reachable (Arena.create base capacity) a)
    (hreach' : Reachable (Arena.create base capacity) a')
    (hall : a'.allocations = a.allocations) : a' = a := by
  have hkept := hreach.kept (Arena.create_sound haccept)
  have hkept' := hreach'.kept (Arena.create_sound haccept)
  refine hkept.sound.eq_of_allocated ⟨hkept'.sound, ?_, ?_⟩ hall
  · rw [hkept'.base, hkept.base]
  · rw [hkept'.capacity, hkept.capacity]

theorem Reachable.eq_of_allocations_freed : ∃ a, Reachable (Arena.create 0x1000 0x1000) a ∧
    a.allocations = [] ∧ a = Arena.create 0x1000 0x1000 := by
  have hmalloc : (Call.malloc 8).run (Arena.create 0x1000 0x1000) =
      .ok (⟨0x1000, 0x1000, [(8, 4088)], [(0x1000, 8)]⟩, 0x1000) := by decide +kernel
  have hfree : (Call.free 0x1000).run ⟨0x1000, 0x1000, [(8, 4088)], [(0x1000, 8)]⟩ =
      .ok (⟨0x1000, 0x1000, [(0, 4096)], []⟩, 0) := by decide +kernel
  have hreach := Reachable.call _ (Reachable.call _ .refl hmalloc) hfree
  exact ⟨_, hreach, rfl, @Reachable.eq_of_allocations _ _ 0 _ _ (by decide) .refl hreach rfl⟩

/-- Freeing what an allocation returned restores the arena, whichever blocks it was cut out of. -/
theorem Reachable.free_undoes_allocate (haccept : acceptsRange base capacity flags)
    (hreach : Reachable (Arena.create base capacity) a) {alignment size p : ℕ}
    (hal : defaultAlignment ∣ alignment)
    (hrun : a.allocate size alignment = .ok (a', p)) (hp : p ≠ 0) : a'.free p = .ok (a, 0) := by
  have hsound := (hreach.kept (Arena.create_sound haccept)).sound
  have hlocked : a.allocateLocked size alignment = .ok (a', p) := by
    unfold Arena.allocate at hrun
    split_ifs at hrun
    · cases hrun
      exact absurd rfl hp
    · exact hrun
  obtain hnone | ⟨a₁, p₁, heq, hallocated⟩ := Arena.allocateLocked_ok hsound hal size
  · cases hlocked.symm.trans hnone
    exact absurd rfl hp
  · cases hlocked.symm.trans heq
    obtain ⟨l, r, hsplit, haround⟩ := around_assign hsound.sorted hallocated.fresh (max 1 size)
    have hget : get? a'.allocations p = some (max 1 size) := hallocated.allocations ▸ haround.get?
    obtain ⟨a₂, hfree, hkept, hall⟩ :=
      Arena.freeLocked_ok hallocated.sound (mem_of_get? hallocated.sound.sorted hget)
    have hrestored : a₂.allocations = a.allocations := by
      rw [hall, hallocated.allocations]
      exact haround.erase.trans hsplit.symm
    obtain rfl := hsound.eq_of_allocated
      ⟨hkept.sound, hkept.base.trans hallocated.base,
        hkept.capacity.trans hallocated.capacity⟩ hrestored
    unfold Arena.free
    rw [if_neg hp, hget]
    simp only [hfree]
    rfl

theorem Reachable.free_undoes_allocate_memalign : ∃ a' p, p ≠ 0 ∧
    (Arena.create 0x1010 0x1000).allocate 33 64 = .ok (a', p) ∧
      a'.free p = .ok (Arena.create 0x1010 0x1000, 0) := by
  have hrun : (Arena.create 0x1010 0x1000).allocate 33 64 =
      .ok (⟨0x1010, 0x1000, [(0, 48), (81, 4015)], [(0x1040, 33)]⟩, 0x1040) := by decide +kernel
  exact ⟨_, _, by decide, hrun, @Reachable.free_undoes_allocate _ _ 0 _ _ (by decide) .refl 64 33 _
    (by decide) hrun (by decide)⟩

end PS4Droid.Libc
