import PS4Droid.VideoCore.BufferCache
import PS4Droid.Foundations.Partition

/-!
# The page table as a cover

The registered buffers are made of whole caching pages, have no page in common, and the page table
names for every page the buffer that covers it.
-/

namespace PS4Droid.VideoCore

open OrderedMap

namespace Buffer

def stop (b : Buffer) : ℕ := b.cpuAddr + b.sizeBytes

/-- The whole page belongs to the buffer. -/
def Covers (b : Buffer) (page : ℕ) : Prop :=
  b.cpuAddr ≤ page * cachingPageSize ∧ (page + 1) * cachingPageSize ≤ b.stop

/-- The buffer and the range have a byte in common. -/
def Meets (b : Buffer) (lo hi : ℕ) : Prop :=
  max lo b.cpuAddr < min hi b.stop

instance (b : Buffer) (page : ℕ) : Decidable (b.Covers page) :=
  inferInstanceAs (Decidable (_ ∧ _))

instance (b : Buffer) (lo hi : ℕ) : Decidable (b.Meets lo hi) :=
  inferInstanceAs (Decidable (_ < _))

/-- Whole pages of the 40-bit address space, except the first one. -/
structure Paged (b : Buffer) : Prop where
  cpuAddr : b.cpuAddr % cachingPageSize = 0
  sizeBytes : b.sizeBytes % cachingPageSize = 0
  first : cachingPageSize ≤ b.cpuAddr
  last : b.stop ≤ 2 ^ 40

end Buffer

theorem ok_bind {α β : Type} (a : α) (f : α → Except Fault β) : (Except.ok a >>= f) = f a := rfl

namespace BufferCache

variable {c : BufferCache}

structure Cover (c : BufferCache) : Prop where
  sorted : Sorted c.slotBuffers
  paged : ∀ x ∈ c.slotBuffers, x.2.Paged
  apart : ∀ x ∈ c.slotBuffers, ∀ y ∈ c.slotBuffers, ∀ page, x.2.Covers page → y.2.Covers page →
    x = y
  table : ∀ page id, c.pageTable page = some id ↔
    ∃ b, (id, b) ∈ c.slotBuffers ∧ b.Covers page

theorem init_cover : init.Cover := by
  refine ⟨List.Pairwise.nil, by simp [init], by simp [init], by simp [init]⟩

/-! ### Filling the page table -/

theorem setPages_ok (table : ℕ → Option ℕ) (entry : Option ℕ) {count page : ℕ}
    (h : page + count ≤ cachingNumPages) : ∃ table', setPages table entry count page = .ok table' ∧
      ∀ q, table' q = if page ≤ q ∧ q < page + count then entry else table q := by
  induction count generalizing table page with
  | zero =>
    refine ⟨table, rfl, fun q => ?_⟩
    rw [if_neg (by omega)]
  | succ count ih =>
    obtain ⟨table', heq, htable⟩ := @ih (Function.update table page entry) (page + 1) (by omega)
    refine ⟨table', ?_, fun q => ?_⟩
    · rw [setPages, if_pos (by omega)]
      exact heq
    · rw [htable q]
      by_cases hq : q = page
      · subst hq
        rw [if_neg (by omega), if_pos (by omega), Function.update_self]
      · rw [Function.update_of_ne hq]
        by_cases hin : page + 1 ≤ q ∧ q < page + 1 + count
        · rw [if_pos hin, if_pos (by omega)]
        · rw [if_neg hin, if_neg (by omega)]

theorem divCeil_of_mod {n : ℕ} (h : n % cachingPageSize = 0) (hn : n ≤ 2 ^ 40) :
    divCeil n cachingPageSize = n / cachingPageSize := by
  unfold divCeil
  rw [add64_eq (by simp only [cachingPageSize]; omega)]
  simp only [cachingPageSize] at *
  omega

variable {b : Buffer} {id : ℕ}

theorem changeRegister_ok (hb : b.Paged) (entry : Option ℕ) :
    ∃ table', c.changeRegister b entry = .ok table' ∧
      ∀ q, table' q = if b.Covers q then entry else c.pageTable q := by
  obtain ⟨haddr, hsize, hfirst, hlast⟩ := hb
  simp only [Buffer.stop] at hlast
  have hstop : (b.cpuAddr + b.sizeBytes) % cachingPageSize = 0 := by
    simp only [cachingPageSize] at *
    omega
  have hend : divCeil (add64 b.cpuAddr b.sizeBytes) cachingPageSize =
      (b.cpuAddr + b.sizeBytes) / cachingPageSize := by
    rw [add64_eq (by omega), divCeil_of_mod hstop hlast]
  have hcount : sub64 ((b.cpuAddr + b.sizeBytes) / cachingPageSize) (b.cpuAddr / cachingPageSize) =
      b.sizeBytes / cachingPageSize := by
    simp only [cachingPageSize] at *
    rw [sub64_eq (by omega) (by omega)]
    omega
  have hbound : b.cpuAddr / cachingPageSize + b.sizeBytes / cachingPageSize ≤ cachingNumPages := by
    simp only [cachingPageSize, cachingNumPages] at *
    omega
  obtain ⟨table', heq, htable⟩ := setPages_ok c.pageTable entry hbound
  refine ⟨table', ?_, fun q => ?_⟩
  · unfold changeRegister
    rw [hend]
    simp only [hcount]
    exact heq
  · rw [htable q]
    refine if_congr ?_ rfl rfl
    simp only [Buffer.Covers, Buffer.stop, cachingPageSize] at *
    omega

/-! ### Registering and deleting -/

theorem Cover.slot (h : c.Cover) (hmem : (id, b) ∈ c.slotBuffers) :
    c.slot id = .ok b := by
  unfold BufferCache.slot
  rw [get?_eq_some_of_mem h.sorted hmem]

theorem Cover.eq_of_id (h : c.Cover) {b' : Buffer} (hmem : (id, b) ∈ c.slotBuffers)
    (hmem' : (id, b') ∈ c.slotBuffers) : b = b' :=
  Option.some.inj ((get?_eq_some_of_mem h.sorted hmem).symm.trans
    (get?_eq_some_of_mem h.sorted hmem'))

theorem Cover.delete (h : c.Cover) (hmem : (id, b) ∈ c.slotBuffers) :
    ∃ c', c.deleteBuffer id = .ok c' ∧ c'.Cover ∧ c'.slotBuffers = erase c.slotBuffers id := by
  obtain ⟨table', heq, htable⟩ := changeRegister_ok (c := c) (h.paged _ hmem) none
  refine ⟨⟨erase c.slotBuffers id, table'⟩, ?_, ?_, rfl⟩
  · unfold deleteBuffer
    rw [h.slot hmem, ok_bind, heq, ok_bind]
    rfl
  · refine ⟨sorted_erase h.sorted id, fun x hx => h.paged x (mem_erase_iff.mp hx).1,
      fun x hx y hy => h.apart x (mem_erase_iff.mp hx).1 y (mem_erase_iff.mp hy).1,
      fun page id' => ?_⟩
    simp only [htable page, mem_erase_iff]
    split_ifs with hcovers
    · simp only [false_iff, not_exists, not_and]
      rintro b' ⟨hmem', hne⟩ hcovers'
      exact hne (congrArg Prod.fst (h.apart _ hmem' _ hmem page hcovers' hcovers))
    · rw [h.table page id']
      refine exists_congr fun b' => and_congr_left fun hcovers' => ?_
      refine ⟨fun hmem' => ⟨hmem', ?_⟩, fun hmem' => hmem'.1⟩
      rintro rfl
      exact hcovers (h.eq_of_id hmem' hmem ▸ hcovers')

theorem Cover.joinOverlaps (h : c.Cover) {ids : List ℕ} (accumulate : Bool) (score : ℕ)
    (hids : ids.Nodup) (hmem : ∀ id ∈ ids, ∃ b, (id, b) ∈ c.slotBuffers) :
    ∃ c' score', BufferCache.joinOverlaps accumulate ids c score = .ok (c', score') ∧ c'.Cover ∧
      ∀ x, x ∈ c'.slotBuffers ↔ x ∈ c.slotBuffers ∧ x.1 ∉ ids := by
  induction ids generalizing c score with
  | nil => exact ⟨c, score, rfl, h, by simp⟩
  | cons id ids ih =>
    obtain ⟨hid, hids⟩ := List.nodup_cons.mp hids
    obtain ⟨b, hb⟩ := hmem id (.head _)
    obtain ⟨c₁, hdelete, hcover, hslots⟩ := h.delete hb
    have hmem₁ : ∀ id' ∈ ids, ∃ b, (id', b) ∈ c₁.slotBuffers := by
      intro id' hid'
      obtain ⟨b', hb'⟩ := hmem id' (.tail _ hid')
      rw [hslots]
      refine ⟨b', mem_erase_iff.mpr ⟨hb', ?_⟩⟩
      rintro rfl
      exact hid hid'
    obtain ⟨c', score', heq, hcover', hslots'⟩ :=
      ih hcover (if accumulate then score + (b.streamScore + 1) else score) hids hmem₁
    refine ⟨c', score', ?_, hcover', fun x => ?_⟩
    · unfold BufferCache.joinOverlaps
      rw [h.slot hb, ok_bind]
      dsimp only
      rw [hdelete, ok_bind]
      exact heq
    · rw [hslots' x, hslots, mem_erase_iff, List.mem_cons]
      tauto

theorem Cover.register (h : c.Cover) (hb : b.Paged) (hfresh : ∀ x ∈ c.slotBuffers, x.1 ≠ id)
    (hfree : ∀ x ∈ c.slotBuffers, ∀ page, x.2.Covers page → ¬ b.Covers page) :
    ∃ c', c.register id b = .ok c' ∧ c'.Cover ∧ (id, b) ∈ c'.slotBuffers := by
  obtain ⟨table', heq, htable⟩ := changeRegister_ok (c := c) hb (some id)
  have hperm := perm_assign hfresh b
  have hslots : ∀ x, x ∈ assign c.slotBuffers id b ↔ x = (id, b) ∨ x ∈ c.slotBuffers := by
    intro x
    rw [hperm.mem_iff, List.mem_cons]
  refine ⟨⟨assign c.slotBuffers id b, table'⟩, ?_, ?_, (hslots _).mpr (.inl rfl)⟩
  · unfold BufferCache.register
    rw [heq, ok_bind]
    rfl
  · refine ⟨sorted_assign h.sorted id b, fun x hx => ?_, fun x hx y hy page hpx hpy => ?_,
      fun page id' => ?_⟩
    · rcases (hslots x).mp hx with rfl | hx
      · exact hb
      · exact h.paged x hx
    · rcases (hslots x).mp hx with rfl | hx <;> rcases (hslots y).mp hy with rfl | hy
      · rfl
      · exact absurd hpx (hfree y hy page hpy)
      · exact absurd hpy (hfree x hx page hpx)
      · exact h.apart x hx y hy page hpx hpy
    · simp only [htable page, hslots, Prod.mk.injEq]
      split_ifs with hcovers
      · rw [Option.some.injEq]
        constructor
        · rintro rfl
          exact ⟨b, .inl ⟨rfl, rfl⟩, hcovers⟩
        · rintro ⟨b', ⟨rfl, -⟩ | hmem, hcovers'⟩
          · rfl
          · exact absurd hcovers (hfree _ hmem page hcovers')
      · rw [h.table page id']
        constructor
        · rintro ⟨b', hmem, hcovers'⟩
          exact ⟨b', .inr hmem, hcovers'⟩
        · rintro ⟨b', ⟨rfl, rfl⟩ | hmem, hcovers'⟩
          · exact absurd hcovers' hcovers
          · exact ⟨b', hmem, hcovers'⟩

end BufferCache

end PS4Droid.VideoCore
